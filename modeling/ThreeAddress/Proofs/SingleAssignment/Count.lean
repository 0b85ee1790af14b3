import ThreeAddress.Proofs.SingleAssignment.Complete
/-!
# Counting versions

A conversion gives a version to every temporary that is live before a block and to every definition,
and its code mentions these versions and the temporaries of the procedure, nothing else. So there are
no more temporaries than the procedure has blocks, temporaries and instructions to make them from.
The counter goes on by one for each version and passes over each name in use once, so no version has
a greater number either.

* `FreshNames.exists_version_lt` : the numbers that are given out;
* `Renames.temps`, `Versioned.oldOrNew_of_mem_temps` : what renamed code mentions;
* `FlowGraph.mostTemps`, `FlowGraph.Counted` : the bound for the temporaries and for the numbers;
* `FlowGraph.counted_of_convert` : it holds of a converted procedure.
-/

namespace ThreeAddress

/-! ## The counter -/

namespace FreshNames

variable {names : FreshNames} {t v : Temp} {ts : List Temp}

/-- The names in use that the counter has not passed. -/
def ahead (names : FreshNames) : List Temp :=
  names.temps.toList.filter fun t => t.version.any (names.nextVersion ≤ ·)

theorem mem_ahead : t ∈ names.ahead ↔
    t ∈ names.temps ∧ ∃ n, t.version = some n ∧ names.nextVersion ≤ n := by
  rw [ahead, List.mem_filter, Option.any_eq_true, SortedSet.mem_iff]
  simp only [decide_eq_true_eq]

theorem nodup_ahead (names : FreshNames) : names.ahead.Nodup := (SortedSet.nodup_toList _).filter _

theorem length_ahead_le (names : FreshNames) : names.ahead.length ≤ names.temps.size :=
  List.length_filter_le _ _

/-- The counter goes on by one for a version, and by one for every name that it passes. -/
theorem nextVersion_version_le (names : FreshNames) (t : Temp) :
    (names.version t).2.nextVersion + (names.version t).2.ahead.length ≤
      names.nextVersion + 1 + names.ahead.length := by
  simp only [version]
  generalize found : firstFree (fun n => names.temps.contains (t.withVersion n)) names.temps.size
    names.nextVersion = n
  have le : names.nextVersion ≤ n := found ▸ start_le_firstFree _ _ _
  have taken : ∀ k, names.nextVersion ≤ k → k < n → t.withVersion k ∈ names.temps :=
    fun k from_ upTo => SortedSet.contains_eq_true.1 (taken_of_lt_firstFree from_ (found ▸ upTo))
  -- what is passed is in use, and is ahead no more
  have nodup : ((List.range' names.nextVersion (n - names.nextVersion)).map t.withVersion ++
      ahead { names with nextVersion := n + 1 }).Nodup := by
    refine List.nodup_append.2 ⟨?_, nodup_ahead _, ?_⟩
    · refine List.Nodup.map (fun k k' same => ?_) List.nodup_range'
      exact Option.some.inj (congrArg Temp.version same)
    · rintro _ passed _ later rfl
      obtain ⟨k, hk, rfl⟩ := List.mem_map.1 passed
      obtain ⟨-, m, number, after⟩ := mem_ahead.1 later
      cases number
      have upTo := (List.mem_range'_1.1 hk).2
      dsimp only at after
      omega
  have most := (List.subperm_of_subset nodup fun u hu => show u ∈ names.ahead from ?_).length_le
  · rw [List.length_append, List.length_map, List.length_range'] at most
    omega
  · rcases List.mem_append.1 hu with passed | later
    · obtain ⟨k, hk, rfl⟩ := List.mem_map.1 passed
      obtain ⟨from_, upTo⟩ := List.mem_range'_1.1 hk
      exact mem_ahead.2 ⟨taken k from_ (by omega), k, rfl, from_⟩
    · obtain ⟨used, m, number, after⟩ := mem_ahead.1 later
      dsimp only at used after
      exact mem_ahead.2 ⟨used, m, number, by omega⟩

/-- The numbers of the versions that are given out. -/
theorem exists_version_lt (h : v ∈ (names.issue ts).1) :
    ∃ n, v.version = some n ∧ n < names.nextVersion + ts.length + names.ahead.length := by
  induction ts generalizing names with
  | nil => cases h
  | cons t ts ih =>
    have counted := names.nextVersion_version_le t
    rw [List.length_cons]
    rcases List.mem_cons.1 h with rfl | h
    · obtain ⟨n, new, -, next, -⟩ := @version_spec names t
      exact ⟨n, congrArg Temp.version new, by omega⟩
    · obtain ⟨n, number, lt⟩ := ih h
      exact ⟨n, number, by omega⟩

end FreshNames

/-! ## What renamed code mentions -/

section Mentions

variable {P : Temp → Prop} {root env last : Temp → Temp} {code code' : List Instr}
  {after : SortedSet Temp} {i : Instr}

/-- Renamed code mentions what it defines, the versions of what is live, and the arguments of phis,
which are not renamed; and no other version is current behind it. -/
theorem Renames.temps (h : Renames root env code code' last) (sink : root .sink = .sink)
    (named : ∀ i ∈ code, ∀ t ∈ i.temps, t.isSink = false)
    (args : ∀ i ∈ code, ∀ t ∈ i.phiArgs, P t) (current : ∀ t ∈ liveFrom after code, P (env t))
    (defs : ∀ d ∈ code'.filterMap Instr.def?, P d) :
    (∀ i ∈ code', ∀ t ∈ i.temps, P t) ∧ ∀ t ∈ after, P (last t) := by
  have reads : ∀ {env : Temp → Temp} {i : Instr}, (∀ t ∈ i.uses, P (env t)) →
      ∀ u ∈ (i.mapUses env).uses, P u := by
    intro env i current u hu
    obtain ⟨t, ht, rfl⟩ := Instr.exists_of_mem_uses_mapUses hu
    exact current t ht
  induction h with
  | nil => exact ⟨List.forall_mem_nil _, current⟩
  | @keeps env _ i rest rest' hd _ ih =>
    obtain ⟨namedFirst, named⟩ := List.forall_mem_cons.1 named
    obtain ⟨argsFirst, args⟩ := List.forall_mem_cons.1 args
    have none : (i.mapUses env).def? = none := (Instr.def?_mapUses env i).trans hd
    rw [List.filterMap_cons_none none] at defs
    obtain ⟨code, last⟩ := ih named args (current_keeps (P := fun _ v => P v) hd current) defs
    refine ⟨List.forall_mem_cons.2 ⟨fun u hu => ?_, code⟩, last⟩
    rcases Instr.mem_temps.1 hu with def_ | use | arg
    · cases none.symm.trans def_
    · exact reads (current_reads (P := fun _ v => P v) current) u use
    · exact argsFirst u (Instr.phiArgs_mapUses env i ▸ arg)
  | @defines env _ i t n rest rest' hd hn _ ih =>
    obtain ⟨namedFirst, named⟩ := List.forall_mem_cons.1 named
    obtain ⟨argsFirst, args⟩ := List.forall_mem_cons.1 args
    have fresh : n.isSink = false :=
      isSink_of_root sink (hn ▸ namedFirst t (Instr.mem_temps.2 (.inl hd)))
    have new : ((i.mapUses env).setDef n).def? = some n :=
      Instr.def?_setDef ((Instr.def?_mapUses env i).trans hd) fresh
    rw [List.filterMap_cons_some new] at defs
    obtain ⟨defined, defs⟩ := List.forall_mem_cons.1 defs
    obtain ⟨code, last⟩ := ih named args
      (current_defines (P := fun _ v => P v) hd defined current) defs
    refine ⟨List.forall_mem_cons.2 ⟨fun u hu => ?_, code⟩, last⟩
    rcases Instr.mem_temps.1 hu with def_ | use | arg
    · exact Option.some.inj (new.symm.trans def_) ▸ defined
    · rw [Instr.uses_setDef] at use
      exact reads (current_reads (P := fun _ v => P v) current) u use
    · exact argsFirst u (by simpa using arg)

end Mentions

/-- A temporary of the procedure, or one that its single-assignment form defines. -/
def OldOrNew (g g' : FlowGraph) (t : Temp) : Prop := t ∈ g.temps ∨ t ∈ g'.defs

namespace Versioned

variable {g g' : FlowGraph} {live : Liveness} {V : Versioning} {b b' : Block} {t : Temp}

/-- What is live before a block is read by a version that is defined there. -/
theorem oldOrNew_start (all : V.HasAllPhis g' live) (hb' : b' ∈ g'.blocks)
    (ht : t ∈ live.before b'.label) : OldOrNew g g' (V.start b'.label t) := by
  obtain ⟨args, phi⟩ := Block.mem_phiDefs.1 (all b' hb' t ht)
  exact .inr (FlowGraph.mem_defs.2 ⟨b', hb', _, Block.mem_body_of_mem_phis phi, rfl⟩)

section

variable (h : Versioned g g' live V) (wf : g.WellFormed) (bare : g.Bare) (solved : Solved g live)
  (all : V.HasAllPhis g' live)

include h bare solved all

/-- The code of a block mentions nothing else, and no other version is current at its end. -/
theorem oldOrNew_code (hb : b ∈ g.blocks) (hb' : b' ∈ g'.blocks) (label : b'.label = b.label) :
    (∀ i ∈ b'.code, ∀ t ∈ i.temps, OldOrNew g g' t) ∧
      ∀ t ∈ live.after g b.label, OldOrNew g g' (V.finish b.label t) := by
  have temps : ∀ i ∈ b.body, ∀ t ∈ i.temps, t ∈ g.temps := fun i hi t ht =>
    FlowGraph.mem_temps_of_mem_temps hb hi ht
  have named : ∀ i ∈ b.body, ∀ t ∈ i.temps, t.isSink = false := fun i hi t ht =>
    FlowGraph.not_isSink_of_mem_temps bare.sink (temps i hi t ht)
  refine (h.code b hb b' hb' label).temps h.root_sink named ?_ ?_ ?_
  · intro i hi t ht
    exact .inl (temps i hi t (Instr.mem_temps.2 (.inr (.inr ht))))
  · intro t ht
    have before := (solved.mem_before_of_bare bare hb).2 ht
    rw [← label] at before ⊢
    exact oldOrNew_start all hb' before
  · intro d hd
    obtain ⟨i, hi, defined⟩ := List.mem_filterMap.1 hd
    exact .inr (FlowGraph.mem_defs.2 ⟨b', hb', i, Block.mem_body_of_mem_code hi, defined⟩)

include wf

/-- The argument of a phi is a version from the end of another block, or a parameter. -/
theorem oldOrNew_arg (hb' : b' ∈ g'.blocks) {dest : Temp} {args : SortedMap Origin Temp}
    (phi : .phi dest args ∈ b'.phis) {origin : Origin} (found : args.get? origin = some t) :
    OldOrNew g g' t := by
  obtain ⟨u, hu, -, onEdges, onEntry, -⟩ := h.phis b' hb' dest args phi
  cases origin with
  | block p =>
    have edge := h.edges b' hb' dest args phi p t found
    cases (onEdges p edge).symm.trans found
    obtain ⟨c, hc, rfl, follows⟩ := (FlowGraph.mem_preds wf.nodup).1 edge
    have mem : c.label ∈ g'.labels := h.labels ▸ FlowGraph.mem_labels.2 ⟨c, hc, rfl⟩
    obtain ⟨c', hc', label⟩ := FlowGraph.mem_labels.1 mem
    have after : u ∈ live.after g c.label := Liveness.mem_after wf.nodup hc follows (.inl hu)
    exact (h.oldOrNew_code bare solved all hc hc' label).2 u after
  | entry =>
    rw [onEntry] at found
    split at found
    · next both =>
      cases found
      refine .inl (FlowGraph.mem_temps_of_param both.2 (Bool.eq_false_iff.2 fun sink => ?_))
      exact h.named b'.label (Temp.isSink_iff.1 sink ▸ hu)
    · cases found

/-- A single-assignment form with all phis mentions temporaries of the procedure and what it defines
itself. -/
theorem oldOrNew_of_mem_temps (ht : t ∈ g'.temps) : OldOrNew g g' t := by
  rw [FlowGraph.temps, SortedSet.mem_ofList] at ht
  rcases List.mem_append.1 ht with ht | ht
  · obtain ⟨param, other⟩ := List.mem_filter.1 ht
    exact .inl (FlowGraph.mem_temps_of_param (h.params ▸ param) (by simpa using other))
  · obtain ⟨b', hb', ht⟩ := List.mem_flatMap.1 ht
    obtain ⟨i, hi, ht⟩ := List.mem_flatMap.1 ht
    rw [← b'.phis_append_code, List.mem_append] at hi
    rcases hi with phi | code
    · cases i with
      | phi dest args =>
        rcases Instr.mem_temps.1 ht with def_ | use | arg
        · exact .inr (FlowGraph.mem_defs.2 ⟨b', hb', _, Block.mem_body_of_mem_phis phi, def_⟩)
        · cases use
        · obtain ⟨⟨origin, v⟩, entry, rfl⟩ := List.mem_map.1 arg
          exact h.oldOrNew_arg wf bare solved all hb' phi (SortedMap.get?_eq_some.2 entry)
      | _ => cases Block.isPhi_of_mem_phis phi
    · obtain ⟨b, hb, label, -⟩ := h.exists_block hb'
      exact (h.oldOrNew_code bare solved all hb hb' label).1 i code t ht

end

end Versioned

/-! ## Counting -/

namespace FlowGraph

variable {g : FlowGraph} {live : Liveness} {names : FreshNames} {c : Conversion}

/-- The versions of some blocks, if so many temporaries are live before each. -/
theorem length_renamed_le {bs : List Block} {n : Nat}
    (few : ∀ b ∈ bs, (live.before b.label).size ≤ n) :
    (bs.flatMap (Block.renamed live)).length ≤ bs.length * n + (bs.flatMap Block.body).length := by
  induction bs with
  | nil => simp
  | cons b rest ih =>
    obtain ⟨first, few⟩ := List.forall_mem_cons.1 few
    have here : (live.before b.label).toList.length ≤ n := first
    have code := List.length_filterMap_le Instr.def? b.body
    have later := ih few
    simp only [List.flatMap_cons, List.length_append, Block.renamed, List.length_cons, Nat.add_mul]
    omega

/-- As many temporaries as a procedure can have when it is converted: its own, a version of each for
each block, and one for each instruction. -/
def mostTemps (g : FlowGraph) : Nat := (g.blocks.length + 1) * g.temps.size + g.code.length

/-- Are these no more temporaries than that, and are they temporaries of the procedure or versions
with no greater numbers? -/
structure Counted (g : FlowGraph) (ts : SortedSet Temp) : Prop where
  few : ts.size ≤ g.mostTemps
  numbers : ∀ t ∈ ts, t ∈ g.temps ∨ ∃ n ≤ g.mostTemps, t.version = some n

theorem counted_temps (g : FlowGraph) : g.Counted g.temps := by
  refine ⟨?_, fun _ ht => .inl ht⟩
  rw [mostTemps, Nat.add_mul]
  omega

theorem Counted.subset {ts ts' : SortedSet Temp} (h : g.Counted ts) (sub : ∀ t ∈ ts', t ∈ ts) :
    g.Counted ts' :=
  ⟨Nat.le_trans (SortedSet.size_le sub) h.few, fun t ht => h.numbers t (sub t ht)⟩

/-- The temporaries of a converted procedure, whose versions are numbered from one. -/
theorem counted_of_convert (wf : g.WellFormed) (bare : g.Bare) (first : names.nextVersion = 1)
    (used : names.temps = g.temps) (converted : g.convert names = .ok c) :
    g.Counted c.graph.temps := by
  obtain ⟨live, V, found, versioned, all⟩ :=
    versioned_of_convert wf bare (fun _ h => used ▸ h) converted
  obtain ⟨live', found', graph⟩ := exists_renamed_of_convert converted
  cases found.symm.trans found'
  have mentioned : ∀ t ∈ c.graph.temps, OldOrNew g c.graph t := fun t =>
    versioned.oldOrNew_of_mem_temps wf bare (solved_of_liveness wf.nodup found) all
  have defs : c.graph.defs = (names.issue (g.blocks.flatMap (Block.renamed live))).1 := by
    rw [graph, defs_toBlocks, (renameBlocks_spec live names g.blocks).2.1]
  have before : ∀ b ∈ g.blocks, (live.before b.label).size ≤ g.temps.size := fun b _ =>
    SortedSet.size_le fun u hu => (inside_of_liveness wf.nodup found _ u hu).1
  have counted := length_renamed_le before
  constructor
  case few =>
    have among : c.graph.temps.toList ⊆ g.temps.toList ++ c.graph.defs := fun t ht =>
      List.mem_append.2 ((mentioned t (SortedSet.mem_iff.2 ht)).imp_left SortedSet.mem_iff.1)
    have most := (List.subperm_of_subset (SortedSet.nodup_toList _) among).length_le
    rw [List.length_append, defs, FreshNames.length_issue] at most
    simp only [mostTemps, SortedSet.size, code, Nat.add_mul] at counted ⊢
    omega
  case numbers =>
    intro t ht
    refine (mentioned t ht).imp_right fun defined => ?_
    rw [defs] at defined
    obtain ⟨n, number, lt⟩ := FreshNames.exists_version_lt defined
    have passed := names.length_ahead_le
    rw [used] at passed
    refine ⟨n, ?_, number⟩
    simp only [mostTemps, code, Nat.add_mul] at counted ⊢
    omega

end FlowGraph

end ThreeAddress
