import ThreeAddress.Proofs.Compilation.Prepare
import ThreeAddress.Proofs.Results
import ThreeAddress.Proofs.Source.Programs
/-!
# Names in compiled code

The temporaries that the passes invent are versions of those that a procedure has, and a label is
one of the procedure or is made from a number. So code that can be written stays such code.

* `FlowGraph.Writable` : the graphs that can be written, if no version is too great;
* `FlowGraph.writable_of_ofProc` : the graph of a procedure that can be written is one;
* `Writable.convert`, `Writable.minimize`, `Writable.optimize` : the passes keep it one;
* `Proc.writable_of_compile` : so is the graph of a compiled procedure.
-/

namespace ThreeAddress

/-! ## Renaming instructions -/

/-- Does a renaming lead from temporaries with a property to such temporaries? -/
def Keeps (P : Temp → Prop) (f : Temp → Temp) : Prop := ∀ t, P t → P (f t)

/-- Does a renaming lead from temporaries that can have versions to such temporaries? -/
abbrev KeepsNamed : (Temp → Temp) → Prop := Keeps fun t => t.isNamed = true

theorem Temp.isProper_of_isNamed {t : Temp} (named : t.isNamed = true) : t.isProper = true := by
  rw [isProper, named, Bool.or_true]

namespace Var

variable {v : Var} {t : Temp}

theorem isNamed_of_named? (proper : v.isProper = true) (h : v.named? = some t) :
    t.isNamed = true := by
  obtain ⟨rfl, other⟩ := not_isSink_of_named h
  simpa [isProper, Temp.isProper, other] using proper

theorem isProper_rename {f : Temp → Temp} (keeps : KeepsNamed f) (proper : v.isProper = true) :
    (v.rename f).isProper = true := by
  rw [rename]
  cases named : v.named? with
  | none => exact proper
  | some t => exact Temp.isProper_of_isNamed (keeps t (isNamed_of_named? proper named))

end Var

namespace Instr

variable {i : Instr} {t n : Temp} {f : Temp → Temp}

theorem isProper_mapUses (keeps : KeepsNamed f) (proper : i.isProper = true) :
    (i.mapUses f).isProper = true := by
  have rename := fun {v : Var} => @Var.isProper_rename v f keeps
  cases i <;> simp only [isProper, mapUses, Bool.and_eq_true] at proper ⊢ <;>
    simp only [rename, proper, and_self]

theorem isProper_mapReads (keeps : KeepsNamed f) (proper : i.isProper = true) :
    (i.mapReads f).isProper = true := by
  cases plain : i.isPhi with
  | false =>
    rw [mapReads_of_plain plain]
    exact isProper_mapUses keeps proper
  | true =>
    cases i with
    | phi dest args =>
      simp only [isProper, Bool.and_eq_true, List.all_eq_true] at proper
      simp only [mapReads, mapUses, mapPhiArgs, isProper, Bool.and_eq_true, List.all_eq_true]
      refine ⟨proper.1, fun e he => ?_⟩
      obtain ⟨arg, harg, rfl⟩ := List.mem_map.1 he
      exact ⟨(proper.2 arg harg).1, keeps _ (proper.2 arg harg).2⟩
    | _ => cases plain

theorem isProper_setDef (named : n.isNamed = true) (proper : i.isProper = true) :
    (i.setDef n).isProper = true := by
  have rename := fun {v : Var} => @Var.isProper_rename v (fun _ => n) fun _ _ => named
  cases i <;> simp only [isProper, setDef, Bool.and_eq_true] at proper ⊢ <;>
    simp only [rename, proper, named, and_self]

/-- Whatever an instruction mentions can have versions. -/
theorem isNamed_of_mem_temps (proper : i.isProper = true) (h : t ∈ i.temps) :
    t.isNamed = true := by
  have named := fun {v : Var} => @Var.isNamed_of_named? v t
  cases i <;> simp only [isProper, Bool.and_eq_true] at proper <;>
    simp [temps, def?, dest?, uses, operands, phiArgs, SortedMap.values] at h <;>
    grind

theorem isNamed_of_def? (proper : i.isProper = true) (h : i.def? = some t) : t.isNamed = true :=
  isNamed_of_mem_temps proper (mem_temps.2 (.inl h))

end Instr

/-! ## Graphs that can be written -/

namespace FreshNames

variable {names : FreshNames} {t : Temp}

/-- The labels that the compiler makes can be written. -/
theorem isWritten_blockLabel (n : Nat) : (blockLabel n).isWritten = true := by
  have chars : (blockLabel n).suffix.toList = ['_', 'b', 'b'] ++ Nat.toDigits 10 n := by
    simp [blockLabel, decimalText]
  rw [Label.isWritten, Token.isSpelled, chars, List.all_append, Bool.and_eq_true, Bool.and_eq_true]
  refine ⟨rfl, by decide, List.all_eq_true.2 fun c hc => ?_⟩
  exact Token.isNameChar_of_isDigit (List.all_eq_true.1 (all_isDigit_toDigits n) c hc)

/-- A version can have versions if its temporary can. -/
theorem isNamed_version (named : t.isNamed = true) : (names.version t).1.isNamed = true := named

end FreshNames

/-- A block has a label of the text or one that was made for it. -/
theorem label_of_mem_nameBlocks {names : FreshNames} {ps : List Piece} {b : Block}
    (hb : b ∈ (nameBlocks names ps).1) : b.named = true ∨ ∃ n, b.label = FreshNames.blockLabel n := by
  induction ps generalizing names with
  | nil => cases hb
  | cons p ps ih =>
    rcases p with ⟨- | l, body⟩ <;> rcases List.mem_cons.1 hb with rfl | hb
    · exact .inr ⟨_, rfl⟩
    · exact ih hb
    · exact .inl rfl
    · exact ih hb

namespace FlowGraph

variable {name : Global} {g : FlowGraph} {i : Instr} {t : Temp} {names : FreshNames}

/-- Can the procedure be written under its name, with a label in front of every block, if no version
is too great? -/
structure Writable (name : Global) (g : FlowGraph) : Prop where
  written : name.isWritten = true
  same : g.name = name
  params : ∀ t ∈ g.params, t.isProper = true
  nodup : g.labels.Nodup
  labels : ∀ l ∈ g.labels, l.isWritten = true
  code : ∀ i ∈ g.code, i.isProper = true

namespace Writable

/-- Whatever the procedure mentions can have versions. -/
theorem isNamed_of_mem_temps (h : g.Writable name) (ht : t ∈ g.temps) : t.isNamed = true := by
  rw [temps, SortedSet.mem_ofList, List.mem_append] at ht
  rcases ht with param | inner
  · obtain ⟨mem, other⟩ := List.mem_filter.1 param
    have proper := h.params t mem
    rw [Temp.isProper, Bool.or_eq_true] at proper
    exact proper.resolve_left (by simpa using other)
  · obtain ⟨b, hb, inner⟩ := List.mem_flatMap.1 inner
    obtain ⟨i, hi, ht⟩ := List.mem_flatMap.1 inner
    exact Instr.isNamed_of_mem_temps (h.code i (mem_code.2 ⟨b, hb, hi⟩)) ht

/-- The text of the procedure can be written. -/
theorem isProper_toProc (h : g.Writable name) : g.toProc.isProper = true := by
  rw [Proc.isProper, Bool.and_eq_true, Bool.and_eq_true, List.all_eq_true, List.all_eq_true]
  refine ⟨⟨(congrArg Global.isWritten h.same).trans h.written, h.params⟩, fun i hi => ?_⟩
  obtain ⟨b, hb, hi⟩ := List.mem_flatMap.1 hi
  rcases List.mem_cons.1 hi with rfl | hi
  · exact h.labels b.label (mem_labels.2 ⟨b, hb, rfl⟩)
  · exact h.code i (mem_code.2 ⟨b, hb, hi⟩)

/-- Other code that can be written, in the same blocks. -/
theorem mapBodies (h : g.Writable name) {f : Block → List Instr}
    (proper : ∀ i ∈ (g.mapBodies f).code, i.isProper = true) : (g.mapBodies f).Writable name :=
  ⟨h.written, h.same, h.params, (labels_mapBodies f g).symm ▸ h.nodup,
    (labels_mapBodies f g).symm ▸ h.labels, proper⟩

end Writable

/-- The graph of a procedure that can be written. -/
theorem writable_of_ofProc {q : Proc} (proper : q.isProper = true)
    (built : ofProc q = .ok (g, names)) : g.Writable q.name := by
  have from_ := builtFrom_of_ofProc built
  rw [Proc.isProper, Bool.and_eq_true, Bool.and_eq_true, List.all_eq_true, List.all_eq_true]
    at proper
  obtain ⟨⟨name, params⟩, body⟩ := proper
  have text : ∀ b ∈ g.blocks, ∀ i ∈ (if b.named then [.label b.label] else []) ++ b.body,
      i.isProper = true := fun b hb i hi => by
    refine body i ?_
    rw [← from_.instrs]
    exact List.mem_flatMap.2 ⟨b, hb, hi⟩
  refine ⟨name, from_.name, from_.params ▸ params, from_.wellFormed.nodup, fun l hl => ?_, fun i hi => ?_⟩
  · obtain ⟨b, hb, rfl⟩ := mem_labels.1 hl
    have made : b.named = true ∨ ∃ n, b.label = FreshNames.blockLabel n := by
      obtain ⟨left, first, -⟩ := exists_build_of_ofProc built
      obtain ⟨same, -⟩ := eq_of_build first
      rw [same] at hb
      exact label_of_mem_nameBlocks hb
    rcases made with named | ⟨n, same⟩
    · exact text b hb (.label b.label) (List.mem_append_left _ (by simp [named]))
    · rw [same]
      exact FreshNames.isWritten_blockLabel n
  · obtain ⟨b, hb, hi⟩ := mem_code.1 hi
    exact text b hb i (List.mem_append_right _ hi)

end FlowGraph

/-! ## The conversion -/

/-- Does a map of temporaries lead to nothing but temporaries with a property? -/
def LeadsTo (P : Temp → Prop) (m : SortedMap Temp Temp) : Prop := ∀ t u, m.get? t = some u → P u

/-- Does a map of temporaries lead to nothing but temporaries that can have versions? -/
abbrev LeadsToNamed : SortedMap Temp Temp → Prop := LeadsTo fun t => t.isNamed = true

namespace LeadsTo

variable {P : Temp → Prop} {m : SortedMap Temp Temp}

theorem empty : LeadsTo P ∅ := fun _ _ h => by cases h

theorem insert (h : LeadsTo P m) (t : Temp) {n : Temp} (hn : P n) : LeadsTo P (m.insert t n) := by
  intro u v found
  rw [SortedMap.get?_insert] at found
  split at found
  · cases found
    exact hn
  · exact h u v found

theorem current (h : LeadsTo P m) : Keeps P (Versions.current m) := by
  intro t ht
  rw [Versions.current]
  cases found : SortedMap.get? m t with
  | none => exact ht
  | some u => exact h t u found

end LeadsTo

theorem isProper_renameBody {vs : Versions} (names : FreshNames) {body : List Instr}
    (h : LeadsToNamed vs) (proper : ∀ i ∈ body, i.isProper = true) :
    (∀ i ∈ (renameBody vs names body).1, i.isProper = true) ∧
      LeadsToNamed (renameBody vs names body).2.1 := by
  induction body generalizing vs names with
  | nil => exact ⟨List.forall_mem_nil _, h⟩
  | cons i rest ih =>
    have renamed := Instr.isProper_mapUses h.current (proper i List.mem_cons_self)
    have later := fun j hj => proper j (List.mem_cons_of_mem _ hj)
    rw [renameBody]
    cases defined : (i.mapUses vs.current).def? with
    | none =>
      obtain ⟨code, last⟩ := ih names h later
      exact ⟨List.forall_mem_cons.2 ⟨renamed, code⟩, last⟩
    | some t =>
      have new : (names.version t).1.isNamed = true :=
        FreshNames.isNamed_version (Instr.isNamed_of_def? renamed defined)
      obtain ⟨code, last⟩ := ih (names.version t).2 (h.insert t new) later
      exact ⟨List.forall_mem_cons.2 ⟨Instr.isProper_setDef new renamed, code⟩, last⟩

theorem isNamed_renameAll {vs : Versions} (names : FreshNames) {ts : List Temp}
    (h : LeadsToNamed vs) (named : ∀ t ∈ ts, t.isNamed = true) :
    (∀ u ∈ (renameAll vs names ts).1, u.isNamed = true) ∧
      LeadsToNamed (renameAll vs names ts).2.1 := by
  induction ts generalizing vs names with
  | nil => exact ⟨List.forall_mem_nil _, h⟩
  | cons t ts ih =>
    have new : (names.version t).1.isNamed = true :=
      FreshNames.isNamed_version (named t List.mem_cons_self)
    obtain ⟨news, last⟩ := ih (names.version t).2 (h.insert t new)
      fun u hu => named u (List.mem_cons_of_mem _ hu)
    exact ⟨List.forall_mem_cons.2 ⟨new, news⟩, last⟩

/-- Can the renamed block be written, and have its versions versions again? -/
structure RenamedBlock.Writable (r : RenamedBlock) : Prop where
  phis : ∀ e ∈ r.phis, e.1.isNamed = true ∧ e.2.isNamed = true
  body : ∀ i ∈ r.body, i.isProper = true
  last : LeadsToNamed r.last

theorem writable_renameBlocks {live : Liveness} (names : FreshNames) {bs : List Block}
    (named : ∀ b ∈ bs, ∀ t ∈ live.before b.label, t.isNamed = true)
    (proper : ∀ b ∈ bs, ∀ i ∈ b.body, i.isProper = true) :
    ∀ r ∈ (renameBlocks live names bs).1, r.Writable := by
  induction bs generalizing names with
  | nil => exact List.forall_mem_nil _
  | cons b bs ih =>
    have roots : ∀ t ∈ (live.before b.label).toList, t.isNamed = true := named b List.mem_cons_self
    obtain ⟨dests, first⟩ := isNamed_renameAll names .empty roots
    obtain ⟨body, last⟩ := isProper_renameBody
      (renameAll ∅ names (live.before b.label).toList).2.2 first (proper b List.mem_cons_self)
    refine List.forall_mem_cons.2 ⟨⟨fun e he => ?_, body, last⟩, ih _
      (fun c hc => named c (List.mem_cons_of_mem _ hc))
      fun c hc => proper c (List.mem_cons_of_mem _ hc)⟩
    exact ⟨roots _ (List.of_mem_zip he).1, dests _ (List.of_mem_zip he).2⟩

theorem labels_renameBlocks (live : Liveness) (names : FreshNames) (bs : List Block) :
    (renameBlocks live names bs).1.map RenamedBlock.label = bs.map Block.label := by
  induction bs generalizing names with
  | nil => rfl
  | cons b bs ih => exact congrArg (b.label :: ·) (ih _)

namespace FlowGraph

variable {name : Global} {g : FlowGraph} {names : FreshNames} {c : Conversion}

/-- What the arguments of a phi are, and where they come from. -/
theorem mem_toList_phiArgs {rs : List RenamedBlock} {l : Label} {t : Temp} {e : Origin × Temp}
    (he : e ∈ (g.phiArgs rs l t).toList) :
    (∃ p ∈ g.preds l, ∃ r ∈ rs, e.1 = .block p ∧ SortedMap.get? r.last t = some e.2) ∨
      e = (.entry, t) := by
  rw [phiArgs] at he
  rcases List.mem_append.1 (SortedMap.mem_of_get?_ofList (SortedMap.get?_eq_some.2 he)) with
    edge | entry
  · obtain ⟨p, hp, found⟩ := List.mem_filterMap.1 edge
    obtain ⟨v, version, same⟩ := Option.map_eq_some_iff.1 found
    obtain ⟨r, hr, version⟩ := Option.bind_eq_some_iff.1 version
    rw [show e = (.block p, v) from same.symm]
    exact .inl ⟨p, hp, r, List.mem_of_find?_eq_some hr, rfl, version⟩
  · split at entry
    · exact .inr (List.mem_singleton.1 entry)
    · cases entry

/-- A renamed block can be written with its phis. -/
theorem Writable.isProper_toBlock (h : g.Writable name) {rs : List RenamedBlock}
    (renamed : ∀ r ∈ rs, r.Writable) {r : RenamedBlock} (hr : r ∈ rs) :
    ∀ i ∈ (r.toBlock g rs).body, i.isProper = true := by
  intro i hi
  rcases List.mem_append.1 hi with phi | code
  · obtain ⟨e, he, rfl⟩ := List.mem_map.1 phi
    obtain ⟨root, dest⟩ := (renamed r hr).phis e he
    rw [Instr.isProper, dest, Bool.true_and, List.all_eq_true]
    intro arg harg
    rw [Bool.and_eq_true]
    rcases mem_toList_phiArgs harg with ⟨p, hp, s, hs, origin, version⟩ | entry
    · obtain ⟨b, hb, label, -⟩ := (mem_preds h.nodup).1 hp
      rw [origin]
      exact ⟨h.labels p (mem_labels.2 ⟨b, hb, label⟩), (renamed s hs).last _ _ version⟩
    · rw [entry]
      exact ⟨rfl, root⟩
  · exact (renamed r hr).body i code

/-- A conversion keeps code that can be written, and every temporary has one definition then. -/
theorem Writable.convert (h : g.Writable name) (converted : g.convert names = .ok c) :
    c.graph.Writable name ∧ c.graph.defs.Nodup := by
  obtain ⟨live, found, graph⟩ := exists_renamed_of_convert converted
  obtain ⟨-, defs_eq, -⟩ := renameBlocks_spec live names g.blocks
  have named : ∀ b ∈ g.blocks, ∀ t ∈ live.before b.label, t.isNamed = true := fun b _ t ht =>
    h.isNamed_of_mem_temps (inside_of_liveness h.nodup found _ t ht).1
  have renamed := writable_renameBlocks names named fun b hb i hi =>
    h.code i (mem_code.2 ⟨b, hb, hi⟩)
  have same := labels_renameBlocks live names g.blocks
  generalize (renameBlocks live names g.blocks).1 = rs at graph defs_eq renamed same
  rw [graph]
  have labels : FlowGraph.labels ⟨g.name, g.params, rs.map (RenamedBlock.toBlock g rs)⟩ = g.labels := by
    rw [FlowGraph.labels, List.map_map]
    exact same
  refine ⟨⟨h.written, h.same, h.params, labels ▸ h.nodup, labels ▸ h.labels, fun i hi => ?_⟩, ?_⟩
  · obtain ⟨b', hb', hi⟩ := mem_code.1 hi
    obtain ⟨r, hr, rfl⟩ := List.mem_map.1 hb'
    exact h.isProper_toBlock renamed hr i hi
  · rw [defs_toBlocks, defs_eq]
    exact FreshNames.issue_nodup

end FlowGraph

/-! ## Removal of redundant phis -/

namespace FlowGraph

variable {name : Global} {g : FlowGraph} {D : Temp → Prop} {dest : Temp} {f : Temp → Temp}
  {F : Block → List Instr}

theorem mem_code_mapBodies {i : Instr} : i ∈ (g.mapBodies F).code ↔ ∃ b ∈ g.blocks, i ∈ F b := by
  rw [mem_code]
  constructor
  · rintro ⟨b', hb', hi⟩
    obtain ⟨b, hb, rfl⟩ := List.mem_map.1 hb'
    exact ⟨b, hb, hi⟩
  · rintro ⟨b, hb, hi⟩
    exact ⟨_, List.mem_map_of_mem hb, hi⟩

theorem mem_code_mapInstrs {r : Instr → Instr} {i' : Instr} :
    i' ∈ (g.mapInstrs r).code ↔ ∃ i ∈ g.code, r i = i' := by
  rw [mapInstrs, mem_code_mapBodies]
  simp only [mem_code, List.mem_map]
  grind

/-- Less code can be written too. -/
theorem Writable.fewer (h : g.Writable name) (sub : ∀ b ∈ g.blocks, ∀ i ∈ F b, i ∈ g.code) :
    (g.mapBodies F).Writable name :=
  h.mapBodies fun i hi => by
    obtain ⟨b, hb, hi⟩ := mem_code_mapBodies.1 hi
    exact h.code i (sub b hb i hi)

/-- So can code that reads other temporaries. -/
theorem Writable.mapReads (h : g.Writable name) (keeps : KeepsNamed f) :
    (g.mapInstrs (Instr.mapReads f)).Writable name :=
  h.mapBodies fun i' hi' => by
    obtain ⟨i, hi, rfl⟩ := mem_code_mapInstrs.1 hi'
    exact Instr.isProper_mapReads keeps (h.code i hi)

/-- The procedure can be written, its phis are for some temporaries, and none of these is a copy
of `%_`. -/
structure WritableFor (name : Global) (D : Temp → Prop) (g : FlowGraph) : Prop
    extends g.Writable name where
  phis : ∀ dest args, .phi dest args ∈ g.code → D dest
  copies : ∀ dest, D dest → .copy (.temp dest) .sink ∉ g.code

namespace WritableFor

theorem fewer (h : g.WritableFor name D) (sub : ∀ b ∈ g.blocks, ∀ i ∈ F b, i ∈ g.code) :
    (g.mapBodies F).WritableFor name D := by
  have sub' : ∀ i ∈ (g.mapBodies F).code, i ∈ g.code := fun i hi => by
    obtain ⟨b, hb, hi⟩ := mem_code_mapBodies.1 hi
    exact sub b hb i hi
  exact ⟨h.toWritable.fewer sub, fun dest args hi => h.phis dest args (sub' _ hi),
    fun dest hd hi => h.copies dest hd (sub' _ hi)⟩

theorem mapReads (h : g.WritableFor name D) (keeps : KeepsNamed f) :
    (g.mapInstrs (Instr.mapReads f)).WritableFor name D := by
  refine ⟨h.toWritable.mapReads keeps, fun dest args hi' => ?_, fun dest hd hi' => ?_⟩
  · obtain ⟨i, hi, same⟩ := mem_code_mapInstrs.1 hi'
    cases i with
    | phi dest' args' =>
      cases same
      exact h.phis dest args' hi
    | _ => cases same
  · obtain ⟨i, hi, same⟩ := mem_code_mapInstrs.1 hi'
    cases i with
    | copy d src =>
      simp only [Instr.mapReads, Instr.mapUses, Instr.mapPhiArgs, Instr.copy.injEq] at same
      obtain ⟨rfl, source⟩ := same
      have proper := h.code _ hi
      simp only [Instr.isProper, Bool.and_eq_true] at proper
      rcases src.cases_named with ⟨t, rfl, -, named⟩ | ⟨rfl, -⟩ | ⟨global, rfl, named⟩
      · -- a temporary is not renamed to the sink
        rw [Var.rename, named] at source
        have kept := keeps t (Var.isNamed_of_named? proper.2 named)
        rw [show f t = Temp.sink from Var.temp.inj source] at kept
        exact absurd rfl (Temp.ne_sink_of_isNamed kept)
      · exact h.copies dest hd hi
      · rw [Var.rename, named] at source
        cases source
    | _ => cases same

/-- The copies that phis with a single source become have sources that can have versions. -/
theorem collapse (h : g.WritableFor name D) : g.collapse.WritableFor name D := by
  -- what is there was there, or is such a copy
  have cases_ : ∀ i ∈ g.collapse.code, i ∈ g.code ∨ ∃ dest src : Temp,
      i = .copy (.temp dest) (.temp src) ∧ dest.isNamed = true ∧ src.isNamed = true := by
    intro i hi
    obtain ⟨b, hb, hi⟩ := mem_code_mapBodies.1 hi
    rw [Block.collapse, List.mem_append, List.mem_append] at hi
    rcases hi with (phi | made) | code
    · exact .inl (mem_code.2 ⟨b, hb, Block.mem_body_of_mem_phis (List.mem_filter.1 phi).1⟩)
    · obtain ⟨j, hj, made⟩ := List.mem_filterMap.1 made
      obtain ⟨e, source, rfl⟩ := Option.map_eq_some_iff.1 made
      have proper := h.code j (mem_code.2 ⟨b, hb, Block.mem_body_of_mem_phis hj⟩)
      cases j with
      | phi dest args =>
        obtain ⟨rfl, arg⟩ := Instr.mem_values_of_singleSource? source
        exact .inr ⟨e.1, e.2, rfl, Instr.isNamed_of_def? proper rfl,
          Instr.isNamed_of_mem_temps proper (List.mem_append_right _ arg)⟩
      | _ => cases source
    · exact .inl (mem_code.2 ⟨b, hb, Block.mem_body_of_mem_code code⟩)
  refine ⟨h.toWritable.mapBodies fun i hi => ?_, fun dest args hi => ?_, fun dest hd hi => ?_⟩
  · rcases cases_ i hi with old | ⟨dest, src, rfl, named, named'⟩
    · exact h.code i old
    · rw [Instr.isProper, Bool.and_eq_true]
      exact ⟨Temp.isProper_of_isNamed named, Temp.isProper_of_isNamed named'⟩
  · rcases cases_ _ hi with old | ⟨_, _, same, -⟩
    · exact h.phis dest args old
    · cases same
  · rcases cases_ _ hi with old | ⟨_, src, same, -, named⟩
    · exact h.copies dest hd old
    · cases same
      exact absurd rfl (Temp.ne_sink_of_isNamed named)

/-- A copy is undone by reading its source, which is not `%_`. -/
theorem undoCopy (h : g.WritableFor name D) (hd : D dest) (l : Label) :
    (g.undoCopy l dest).WritableFor name D := by
  rw [FlowGraph.undoCopy]
  cases taken : (g.block? l).bind fun b => takeCopy dest b.body with
  | none => exact h
  | some found =>
    obtain ⟨src?, body⟩ := found
    obtain ⟨b, here, taken⟩ := Option.bind_eq_some_iff.1 taken
    obtain ⟨front, v, back, whole, rfl, temp⟩ := exists_of_takeCopy taken
    have mem : ∀ i ∈ b.body, i ∈ g.code := fun i hi =>
      mem_code.2 ⟨b, List.mem_of_find?_eq_some here, hi⟩
    have copied : .copy (.temp dest) v ∈ b.body := whole ▸ List.mem_append_right _ List.mem_cons_self
    have sub : ∀ i ∈ front ++ back, i ∈ b.body := fun i hi =>
      whole ▸ ((List.sublist_cons_self _ _).append_left front).subset hi
    have without : (g.mapBodies fun b => if b.label = l then front ++ back else b.body).WritableFor name D := by
      refine h.fewer fun c hc i hi => ?_
      split at hi
      · exact mem i (sub i hi)
      · exact mem_code.2 ⟨c, hc, hi⟩
    cases src? with
    | none => exact without
    | some src =>
      by_cases self : src = dest
      · simp only [if_pos self]
        exact without
      · simp only [if_neg self]
        refine without.mapReads fun t named => ?_
        split
        · cases v with
          | global => cases temp
          | temp u =>
            cases temp
            have proper := h.code _ (mem _ copied)
            rw [Instr.isProper, Bool.and_eq_true] at proper
            refine (Bool.or_eq_true _ _ ▸ proper.2).resolve_left fun sink => ?_
            rw [Temp.isSink_iff.1 sink] at copied
            exact h.copies dest hd (mem _ copied)
        · exact named

theorem undoCopies (h : g.WritableFor name D) {copies : List (Label × Temp)}
    (among : ∀ e ∈ copies, D e.2) : (g.undoCopies copies).WritableFor name D := by
  induction copies generalizing g with
  | nil => exact h
  | cons e rest ih =>
    exact ih (h.undoCopy (among e List.mem_cons_self) e.1) fun e he =>
      among e (List.mem_cons_of_mem _ he)

theorem minimizeRound (h : g.WritableFor name D) : g.minimizeRound.1.WritableFor name D := by
  have dropped : g.dropNullChoices.WritableFor name D := h.fewer fun b hb i hi =>
    mem_code.2 ⟨b, hb, (List.mem_filter.1 hi).1⟩
  refine dropped.collapse.undoCopies fun e he => ?_
  obtain ⟨b, hb, collapsed⟩ := List.mem_flatMap.1 he
  obtain ⟨i, hi, collapsed⟩ := List.mem_filterMap.1 collapsed
  obtain ⟨e', source, rfl⟩ := Option.map_eq_some_iff.1 collapsed
  cases i with
  | phi dest args =>
    obtain ⟨same, -⟩ := Instr.mem_values_of_singleSource? source
    have among := dropped.phis dest args (mem_code.2 ⟨b, hb, Block.mem_body_of_mem_phis hi⟩)
    rwa [← same] at among
  | _ => cases source

end WritableFor

/-- Minimization keeps code that can be written, if every temporary has one definition. -/
theorem Writable.minimize (h : g.Writable name) (once : g.defs.Nodup) :
    g.minimize.graph.Writable name := by
  refine (of_minimize (P := WritableFor name fun dest => ∃ args, .phi dest args ∈ g.code)
    (fun _ kept => kept.minimizeRound)
    ⟨h, fun dest args hi => ⟨args, hi⟩, fun dest found hi => ?_⟩).toWritable
  -- the temporary would be defined by the phi and by the copy
  obtain ⟨args, phi⟩ := found
  have named : dest.isNamed = true := Instr.isNamed_of_def? (h.code _ phi) rfl
  have copy : (Instr.copy (.temp dest) .sink).def? = some dest := by
    simp [Instr.def?, Instr.dest?, Var.named?, Temp.not_isSink_of_isNamed named]
  cases eq_of_def? once phi hi rfl copy

end FlowGraph

/-! ## The optimizer -/

theorem Instr.mem_temps_of_tempCopy? {i : Instr} {d s : Temp} (copy : i.tempCopy? = some (d, s)) :
    s ∈ i.temps :=
  mem_temps.2 (.inr (.inl (def?_of_tempCopy? copy).2.1))

namespace LeadsTo

variable {P : Temp → Prop} {copies : Copies}

theorem resolve (h : LeadsTo P copies) : Keeps P copies.resolve := by
  intro t ht
  rw [Copies.resolve]
  generalize SortedMap.size copies + 1 = steps
  induction steps generalizing t with
  | zero => exact ht
  | succ steps ih =>
    rw [Copies.follow]
    split
    · next src found =>
      split
      · exact ht
      · exact ih src (h t src found)
    · exact ht

theorem after (h : LeadsTo P copies) {i : Instr} (temps : ∀ t ∈ i.temps, P t) :
    LeadsTo P (copies.after i) := by
  intro t src found
  rcases Copies.get?_after found with copy | ⟨old, -⟩
  · exact temps src (Instr.mem_temps_of_tempCopy? copy)
  · exact h t src old

end LeadsTo

/-- The copies that hold everywhere lead to temporaries of the procedure. -/
theorem FlowGraph.leadsTo_copies {P : Temp → Prop} {g : FlowGraph}
    (temps : ∀ i ∈ g.code, ∀ t ∈ i.temps, P t) : LeadsTo P g.copies := by
  intro t src found
  have mem := (List.mem_filter.1 (SortedMap.mem_of_get?_ofList found)).1
  obtain ⟨i, hi, copy⟩ := List.mem_filterMap.1 mem
  exact temps i hi src (Instr.mem_temps_of_tempCopy? copy)

theorem isProper_propagateBody {copies : Copies} {code : List Instr} (h : LeadsToNamed copies)
    (proper : ∀ i ∈ code, i.isProper = true) :
    ∀ i ∈ propagateBody copies code, i.isProper = true := by
  induction code generalizing copies with
  | nil => exact List.forall_mem_nil _
  | cons i rest ih =>
    have first := Instr.isProper_mapUses h.resolve (proper i List.mem_cons_self)
    exact List.forall_mem_cons.2 ⟨first, ih (h.after fun _ => Instr.isNamed_of_mem_temps first)
      fun j hj => proper j (List.mem_cons_of_mem _ hj)⟩

namespace FlowGraph

variable {name : Global} {g last : FlowGraph} {o : OptimizerOptions}

theorem Writable.propagateCopies (h : g.Writable name) (everywhere : Bool) :
    (g.propagateCopies everywhere).Writable name := by
  cases everywhere with
  | false =>
    refine h.mapBodies fun i hi => ?_
    obtain ⟨b, hb, hi⟩ := mem_code_mapBodies.1 hi
    exact isProper_propagateBody .empty (fun j hj => h.code j (mem_code.2 ⟨b, hb, hj⟩)) i hi
  | true =>
    exact h.mapReads (leadsTo_copies fun i hi _ => Instr.isNamed_of_mem_temps (h.code i hi)).resolve

/-- The optimizer keeps code that can be written. -/
theorem Writable.optimize (h : g.Writable name) {everywhere : Bool} {rounds : List OptimizerRound}
    (done : g.optimize o everywhere = .ok (last, rounds)) : last.Writable name :=
  of_optimize (fun _ h => h.nodup)
    (fun _ _ h _ => h.mapBodies fun i hi => h.code i (code_sweep_sublist.subset hi))
    (fun _ _ h => h.propagateCopies everywhere) h done

end FlowGraph

/-! ## Compiled procedures -/

/-- What the optimizer is given can be written. -/
theorem FlowGraph.Writable.prepare {name : Global} {g : FlowGraph} {names : FreshNames} {o : CompileOptions}
    {prepared : Prepared} (h : g.Writable name) (done : g.prepare names o = .ok prepared) :
    prepared.graph.Writable name := by
  obtain ⟨-, same⟩ | ⟨-, -, c, converted, graph⟩ := prepare_cases done
  · exact same ▸ h
  · obtain ⟨writable, once⟩ := h.convert converted
    rw [graph]
    split
    · exact writable.minimize once
    · exact writable

/-- A procedure that can be written is compiled to one that can be written. -/
theorem Proc.writable_of_compile {q : Proc} {o : CompileOptions} {c : CompiledProc}
    (proper : q.isProper = true) (h : q.compile o = .ok c) :
    c.graph.Writable q.name := by
  obtain ⟨g, names, prepared, rounds, live, allocation, built, prepare, optimize, -⟩ :=
    exists_of_compile h
  exact ((FlowGraph.writable_of_ofProc proper built).prepare prepare).optimize optimize

end ThreeAddress
