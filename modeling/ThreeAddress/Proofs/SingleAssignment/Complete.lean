import ThreeAddress.Proofs.FlowGraph.Exits
import ThreeAddress.Proofs.SingleAssignment.Behaviour
import ThreeAddress.Proofs.SingleAssignment.Checks
/-!
# Converted procedures are complete

The conversion leaves nothing to be looked for outside a block: what an instruction reads is defined
in front of it in its block, if only by a phi, and what a phi reads is defined in the block that
control comes from. Whoever forgets the phis and the versions has the procedure again.

* `Instr.mapTemps` : a renaming of all temporaries of an instruction;
* `Renames.map_mapTemps` : renamed code without its versions;
* `Renames.last_defined`, `Renames.reads_defined` : where the versions of renamed code are defined;
* `Versioned.checkDefinitions`, `Versioned.checkPhis` : the checks accept single-assignment forms;
* `FlowGraph.CompleteFor` : what a complete form of a procedure is;
* `FlowGraph.completeFor_convert` : the conversion makes one.
-/

namespace ThreeAddress

/-! ## Renaming back -/

theorem Var.rename_congr {f h : Temp → Temp} {v : Var} (same : ∀ t, v.named? = some t → f t = h t) :
    v.rename f = v.rename h := by
  rcases v.cases_named with ⟨t, rfl, -, hn⟩ | ⟨rfl, hn⟩ | ⟨g, rfl, hn⟩
  · simp only [rename, hn, same t hn]
  · simp only [rename, hn]
  · simp only [rename, hn]

namespace Instr

/-- Renamings that agree on what an instruction reads change it in the same way. -/
theorem mapUses_congr {f h : Temp → Temp} {i : Instr} (same : ∀ t ∈ i.uses, f t = h t) :
    i.mapUses f = i.mapUses h := by
  have operand : ∀ v ∈ i.operands, v.rename f = v.rename h := fun v hv =>
    Var.rename_congr fun t ht => same t (List.mem_filterMap.2 ⟨v, hv, ht⟩)
  cases i <;> simp_all [mapUses, operands]

/-- Of two definitions the later counts. -/
theorem setDef_setDef {n d : Temp} (named : n.isSink = false) (i : Instr) :
    (i.setDef n).setDef d = i.setDef d := by
  have operand : ∀ v : Var, (v.rename fun _ => n).rename (fun _ => d) = v.rename fun _ => d := by
    intro v
    rcases v.cases_named with ⟨t, rfl, -, hn⟩ | ⟨rfl, hn⟩ | ⟨g, rfl, hn⟩
    · simp only [Var.rename, hn]
      simp [Var.named?, named]
    · simp only [Var.rename, hn]
    · simp only [Var.rename, hn]
  cases i <;> simp [setDef, operand]

/-- Apply a renaming to every temporary that the instruction reads or defines. The arguments of a
phi stay as they are. -/
def mapTemps (f : Temp → Temp) (i : Instr) : Instr :=
  match i.def? with
  | some d => (i.mapUses f).setDef (f d)
  | none => i.mapUses f

/-- Versions of what is read go back to what is read. -/
theorem mapTemps_mapUses {root env : Temp → Temp} {i : Instr} (sink : root .sink = .sink)
    (hd : i.def? = none) (back : ∀ t ∈ i.uses, root (env t) = t) :
    (i.mapUses env).mapTemps root = i := by
  have none : (i.mapUses env).def? = none := (def?_mapUses env i).trans hd
  simp only [mapTemps, none]
  rw [mapUses_mapUses sink, mapUses_congr back, mapUses_id]

/-- So does the version of what is defined. -/
theorem mapTemps_setDef {root env : Temp → Temp} {i : Instr} {n : Temp} (sink : root .sink = .sink)
    (plain : i.isPhi = false) (hd : i.def? = some (root n)) (named : n.isSink = false)
    (back : ∀ t ∈ i.uses, root (env t) = t) :
    ((i.mapUses env).setDef n).mapTemps root = i := by
  have new : ((i.mapUses env).setDef n).def? = some n :=
    def?_setDef ((def?_mapUses env i).trans hd) named
  have swap : ((i.mapUses env).setDef n).mapUses root = ((i.mapUses env).mapUses root).setDef n := by
    cases i with
    | phi dest args => cases plain
    | _ => rfl
  simp only [mapTemps, new]
  rw [swap, setDef_setDef named, mapUses_mapUses sink, mapUses_congr back, mapUses_id,
    setDef_self (.inl hd)]

end Instr

/-! ## Renamed code without its versions -/

namespace Renames

variable {root env last : Temp → Temp} {code code' : List Instr} {after : SortedSet Temp}

/-- Whoever forgets the versions of renamed code has the code, if whatever is live is read by a
version of its own. -/
theorem map_mapTemps (h : Renames root env code code' last) (sink : root .sink = .sink)
    (plain : ∀ i ∈ code, i.isPhi = false) (own : ∀ t ∈ liveFrom after code, root (env t) = t) :
    code'.map (Instr.mapTemps root) = code := by
  induction h with
  | nil => rfl
  | @keeps env _ i rest _ hd _ ih =>
    rw [List.map_cons, Instr.mapTemps_mapUses sink hd (current_reads own),
      ih (fun j hj => plain j (List.mem_cons_of_mem _ hj)) (current_keeps hd own)]
  | @defines env _ i t n rest _ hd hn _ ih =>
    have first := plain i List.mem_cons_self
    have named := isSink_of_root sink (hn ▸ Instr.def?_not_isSink first hd)
    have new : i.def? = some (root n) := hn ▸ hd
    rw [List.map_cons, Instr.mapTemps_setDef sink first new named (current_reads own),
      ih (fun j hj => plain j (List.mem_cons_of_mem _ hj))
        (current_defines (P := fun t v => root v = t) hd hn own)]

/-- A definition of renamed code. -/
theorem def?_defines {i : Instr} {t n : Temp} (sink : root .sink = .sink) (plain : i.isPhi = false)
    (hd : i.def? = some t) (hn : root n = t) : ((i.mapUses env).setDef n).def? = some n :=
  Instr.def?_setDef ((Instr.def?_mapUses env i).trans hd)
    (isSink_of_root sink (hn ▸ Instr.def?_not_isSink plain hd))

/-- Renamed code is cut where the code is. -/
theorem exists_split (h : Renames root env code code' last) {front back : List Instr}
    (parts : code' = front ++ back) : ∃ mid source rest, code = source ++ rest ∧
      Renames root env source front mid ∧ Renames root mid rest back last := by
  induction h generalizing front with
  | nil env =>
    obtain ⟨rfl, rfl⟩ := List.append_eq_nil_iff.1 parts.symm
    exact ⟨env, [], [], rfl, .nil env, .nil env⟩
  | @keeps env _ j rest _ hd more ih =>
    cases front with
    | nil =>
      cases parts
      exact ⟨env, [], j :: rest, rfl, .nil env, .keeps hd more⟩
    | cons k front =>
      obtain ⟨rfl, behind⟩ := List.cons.inj parts
      obtain ⟨mid, source, rest, rfl, first, more⟩ := ih behind
      exact ⟨mid, j :: source, rest, rfl, .keeps hd first, more⟩
  | @defines env _ j t n rest _ hd hn more ih =>
    cases front with
    | nil =>
      cases parts
      exact ⟨env, [], j :: rest, rfl, .nil env, .defines hd hn more⟩
    | cons k front =>
      obtain ⟨rfl, behind⟩ := List.cons.inj parts
      obtain ⟨mid, source, rest, rfl, first, more⟩ := ih behind
      exact ⟨mid, j :: source, rest, rfl, .defines hd hn first, more⟩

/-- What is current behind renamed code is defined in it, or current in front of it. -/
theorem last_defined (h : Renames root env code code' last) (sink : root .sink = .sink)
    (plain : ∀ i ∈ code, i.isPhi = false) {seen : List Temp}
    (current : ∀ t ∈ liveFrom after code, env t ∈ seen) :
    ∀ t ∈ after, last t ∈ seen ++ code'.filterMap Instr.def? := by
  induction h generalizing seen with
  | nil => exact fun t ht => List.mem_append_left _ (current t ht)
  | @keeps env _ j rest rest' hd _ ih =>
    rw [List.filterMap_cons_none ((Instr.def?_mapUses env j).trans hd)]
    exact ih (fun j hj => plain j (List.mem_cons_of_mem _ hj)) (current_keeps hd current)
  | @defines env _ j t n rest rest' hd hn _ ih =>
    rw [List.filterMap_cons_some (def?_defines sink (plain j List.mem_cons_self) hd hn),
      List.append_cons]
    refine ih (fun j hj => plain j (List.mem_cons_of_mem _ hj)) ?_
    exact current_defines (P := fun _ v => v ∈ seen ++ [n]) hd (by simp)
      fun t ht => List.mem_append_left _ (current t ht)

/-- What renamed code reads is defined in it, or current in front of it. -/
theorem reads_defined (h : Renames root env code code' last) (sink : root .sink = .sink)
    (plain : ∀ i ∈ code, i.isPhi = false) {seen : List Temp}
    (current : ∀ t ∈ liveFrom after code, env t ∈ seen) {front back : List Instr} {i : Instr}
    (parts : code' = front ++ i :: back) :
    ∀ u ∈ i.uses, u ∈ seen ++ front.filterMap Instr.def? := by
  obtain ⟨mid, source, rest, rfl, first, more⟩ := h.exists_split parts
  rw [liveFrom_append] at current
  have behind := first.last_defined sink (fun j hj => plain j (List.mem_append_left _ hj)) current
  intro u hu
  cases more with
  | keeps hd _ =>
    obtain ⟨t, ht, rfl⟩ := Instr.exists_of_mem_uses_mapUses hu
    exact behind t (mem_liveBefore.2 (.inl ht))
  | defines hd hn _ =>
    rw [Instr.uses_setDef] at hu
    obtain ⟨t, ht, rfl⟩ := Instr.exists_of_mem_uses_mapUses hu
    exact behind t (mem_liveBefore.2 (.inl ht))

end Renames

/-! ## The checks -/

/-- Renamed code transfers control as the code does. -/
theorem Renames.exits {root env last : Temp → Temp} {code code' : List Instr}
    (h : Renames root env code code' last) :
    code'.filterMap Instr.exit? = code.filterMap Instr.exit? := by
  have uses : ∀ (f : Temp → Temp) (i : Instr), (i.mapUses f).exit? = i.exit? := fun f i => by
    cases i <;> rfl
  have defs : ∀ (n : Temp) (i : Instr), (i.setDef n).exit? = i.exit? := fun n i => by
    cases i <;> rfl
  induction h with
  | nil => rfl
  | keeps _ _ ih => rw [List.filterMap_cons, List.filterMap_cons, uses, ih]
  | defines _ _ _ ih => rw [List.filterMap_cons, List.filterMap_cons, defs, uses, ih]

/-- Phis do not transfer control. -/
theorem Block.exits_code (b : Block) :
    b.body.filterMap Instr.exit? = b.code.filterMap Instr.exit? := by
  rw [← b.phis_append_code, List.filterMap_append, List.filterMap_eq_nil_iff.2, List.nil_append]
  intro i hi
  have phi := Block.isPhi_of_mem_phis hi
  cases i <;> first | rfl | cases phi

namespace Versioned

variable {g g' : FlowGraph} {live : Liveness} {V : Versioning}

/-- A single-assignment form has the edges of the procedure. -/
theorem preds_eq (h : Versioned g g' live V) (wf : g.WellFormed) (l : Label) :
    g'.preds l = g.preds l := by
  refine FlowGraph.preds_of_exits (map_eq_of_labels h.labels fun b hb b' hb' label => ?_) l
  refine Block.exit_congr (wf.straight b hb) ((h.wellFormed wf).straight b' hb') label ?_
  rw [b'.exits_code, (h.code b hb b' hb' label).exits]

theorem checkDefinitions (h : Versioned g g' live V) : g'.checkDefinitions = .ok () :=
  FlowGraph.checkDefinitions_eq_ok.2 ⟨h.once, h.apart⟩

theorem checkPhis (h : Versioned g g' live V) (wf : g.WellFormed) : g'.checkPhis = .ok () := by
  refine FlowGraph.checkPhis_eq_ok.2 fun b hb dest args mem => FlowGraph.phiMatches_iff.2 ?_
  obtain ⟨t, -, -, onEdges, onEntry, -⟩ := h.phis b hb dest args mem
  rw [entry?_of_labels h.labels]
  refine ⟨fun p => ?_, fun other => by rw [onEntry, if_neg fun both => other both.1]⟩
  rw [h.preds_eq wf]
  exact ⟨fun ⟨v, hv⟩ => h.edges b hb dest args mem p v hv, fun hp => ⟨_, onEdges p hp⟩⟩

end Versioned

/-! ## Converted procedures -/

/-- The instructions of a block without its phis and versions. -/
def Block.forget (original : Temp → Temp) (b : Block) : List Instr :=
  (b.body.filter fun i => !i.isPhi).map (Instr.mapTemps original)

theorem Block.forget_eq {original : Temp → Temp} {b : Block} (first : ∀ i ∈ b.code, i.isPhi = false) :
    b.forget original = b.code.map (Instr.mapTemps original) := by
  have phis : b.phis.filter (fun i => !i.isPhi) = [] :=
    List.filter_eq_nil_iff.2 fun i hi => by simp [Block.isPhi_of_mem_phis hi]
  have code : b.code.filter (fun i => !i.isPhi) = b.code :=
    List.filter_eq_self.2 fun i hi => by simp [first i hi]
  rw [forget, ← b.phis_append_code, List.filter_append, phis, code, List.nil_append]

namespace FlowGraph

/-- A single-assignment form of a procedure in which every version is defined in the block that
reads it. -/
structure CompleteFor (g g' : FlowGraph) : Prop where
  /-- Every temporary has one definition, and parameters have none. -/
  definitions : g'.checkDefinitions = .ok ()
  /-- Every phi has an argument for each edge into its block. -/
  phis : g'.checkPhis = .ok ()
  /-- What an instruction reads is defined in front of it in its block. -/
  reads : ∀ b ∈ g'.blocks, ∀ front i back, b.body = front ++ i :: back → i.isPhi = false →
    ∀ t ∈ i.uses, t ∈ front.filterMap Instr.def?
  /-- What a phi reads is defined in the block that control comes from. -/
  arguments : ∀ b ∈ g'.blocks, ∀ dest args, .phi dest args ∈ b.body →
    ∀ p t, args.get? (.block p) = some t →
      ∃ c ∈ g'.blocks, c.label = p ∧ t ∈ c.body.filterMap Instr.def?
  /-- Without phis and versions it is the procedure. -/
  original : ∃ original : Temp → Temp, g'.blocks.map (fun b => (b.label, b.forget original)) =
    g.blocks.map fun b => (b.label, b.body)

variable {g g' : FlowGraph} {live : Liveness} {V : Versioning}

/-- What is live in front of a block is read by a version that a phi of the block defines. -/
theorem current_start (free : g.PhiFree) (solved : Solved g live) (h : Versioned g g' live V)
    (all : V.HasAllPhis g' live) {b b' : Block} (hb : b ∈ g.blocks) (hb' : b' ∈ g'.blocks)
    (label : b'.label = b.label) : ∀ t ∈ liveFrom (live.after g b.label) b.body,
      V.root (V.start b.label t) = t ∧ V.start b.label t ∈ b'.phiDefs := by
  intro t ht
  have before : t ∈ live.before b.label := (solved.mem_before_of_bare free.bare hb).2 ht
  refine ⟨h.root_start _ (mem_labels.2 ⟨b, hb, rfl⟩) t before, ?_⟩
  rw [← label] at before ⊢
  exact all b' hb' t before

/-- A single-assignment form with all phis is complete. -/
theorem completeFor_of_versioned (wf : g.WellFormed) (free : g.PhiFree) (solved : Solved g live)
    (h : Versioned g g' live V) (all : V.HasAllPhis g' live) : g.CompleteFor g' where
  definitions := h.checkDefinitions
  phis := h.checkPhis wf
  reads b' hb' front i back parts plain := by
    obtain ⟨b, hb, label, renames⟩ := h.exists_block hb'
    have current := current_start free solved h all hb hb' label
    -- the instruction stands behind the phis of its block
    obtain ⟨middle, rfl, code⟩ : ∃ middle, front = b'.phis ++ middle ∧
        b'.code = middle ++ i :: back := by
      have whole := b'.phis_append_code.trans parts
      rcases List.append_eq_append_iff.1 whole with ⟨middle, e, code⟩ | ⟨middle, phis, e⟩
      · exact ⟨middle, e, code⟩
      · cases middle with
        | nil => exact ⟨[], by simpa using phis.symm, by simpa using e.symm⟩
        | cons j middle =>
          obtain ⟨rfl, -⟩ := List.cons.inj e
          have phi := Block.isPhi_of_mem_phis (b := b') (phis ▸ List.mem_append_right _ List.mem_cons_self)
          rw [plain] at phi
          cases phi
    rw [List.filterMap_append]
    exact renames.reads_defined h.root_sink (free b hb) (fun t ht => (current t ht).2) code
  arguments b' hb' dest args mem p v value := by
    have mem : .phi dest args ∈ b'.phis := by
      rw [← b'.phis_append_code] at mem
      refine (List.mem_append.1 mem).resolve_right fun code => ?_
      cases h.phisFirst free b' hb' _ code
    have edge : p ∈ g.preds b'.label := h.edges b' hb' dest args mem p v value
    obtain ⟨t, ht, -, onEdges, -⟩ := h.phis b' hb' dest args mem
    obtain ⟨c, hc, rfl, follows⟩ := (mem_preds wf.nodup).1 edge
    obtain ⟨c', hc', label⟩ := mem_labels.1 (h.labels.symm ▸ mem_labels.2 ⟨c, hc, rfl⟩)
    have current := current_start free solved h all hc hc' label
    have after : t ∈ live.after g c.label := Liveness.mem_after wf.nodup hc follows (.inl ht)
    rw [onEdges c.label edge, Option.some.injEq] at value
    refine ⟨c', hc', label, ?_⟩
    rw [← value, ← c'.phis_append_code, List.filterMap_append]
    exact (h.code c hc c' hc' label).last_defined h.root_sink (free c hc)
      (fun t ht => (current t ht).2) t after
  original := by
    refine ⟨V.root, map_eq_of_labels h.labels fun b hb b' hb' label => ?_⟩
    have current := current_start free solved h all hb hb' label
    rw [label, Block.forget_eq (h.phisFirst free b' hb'),
      (h.code b hb b' hb' label).map_mapTemps h.root_sink (free b hb) fun t ht => (current t ht).1]

/-- A procedure whose first block is a loop, with a temporary that is read before it is assigned. -/
def accumulate : Proc :=
  let n : Temp := ⟨"n", none⟩
  let s : Temp := ⟨"s", some 1⟩
  ⟨⟨"accumulate"⟩, [n], [
    .label ⟨"loop"⟩,
    .binary .add (.temp s) (.temp s) (.temp n),
    .branch .nonzero (.temp n) ⟨"loop"⟩,
    .ret (.temp s)]⟩

end FlowGraph

end ThreeAddress
