import Mathlib.Data.List.Pairwise
import Mathlib.Logic.Relation
import ThreeAddress.Proofs.Optimizer.LocalCopies
/-!
# Copies in single-assignment form

In single-assignment form a copy holds wherever its destination is live, if the destination is not
live on entry. For when the source gets its value, the destination is not live: on the way there
the copy was not executed yet.

* `FlowGraph.Chain` : copies of copies;
* `FlowGraph.Faithful` : the invariant;
* `FlowGraph.Runs.propagateGlobally` : propagation in the whole procedure keeps its runs;
* `FlowGraph.Ready.propagateGlobally` : and what the optimizer relies on.
-/

namespace ThreeAddress

open Execution

theorem Instr.def?_of_tempCopy? {i : Instr} {d src : Temp} (h : i.tempCopy? = some (d, src)) :
    i.def? = some d ∧ src ∈ i.uses ∧ i.isPhi = false := by
  obtain ⟨dest, v, rfl, hd, hs, -⟩ := tempCopy?_eq_some.1 h
  exact ⟨hd, List.mem_filterMap.2 ⟨v, List.mem_singleton.2 rfl, hs⟩, rfl⟩

namespace FlowGraph

variable {g : FlowGraph} {d src t : Temp} {b : Block}

/-! ## Chains of copies -/

/-- The first temporary is a copy of a copy, and so on, of the second. -/
def Chain (g : FlowGraph) : Temp → Temp → Prop :=
  Relation.TransGen fun d s => ∃ i ∈ g.code, i.tempCopy? = some (d, s)

theorem Chain.head (h : g.Chain d src) :
    ∃ i ∈ g.code, ∃ s, i.tempCopy? = some (d, s) ∧ (s = src ∨ g.Chain s src) := by
  cases (Relation.TransGen.head'_iff).1 h with
  | intro s both =>
    obtain ⟨⟨i, hi, copy⟩, rest⟩ := both
    refine ⟨i, hi, s, copy, ?_⟩
    rcases Relation.reflTransGen_iff_eq_or_transGen.1 rest with rfl | rest
    · exact .inl rfl
    · exact .inr rest

/-- What a temporary is read as is the temporary, or what it is a copy of. -/
theorem resolve_copies (g : FlowGraph) (t : Temp) :
    g.copies.resolve t = t ∨ g.Chain t (g.copies.resolve t) := by
  rw [Copies.resolve]
  generalize SortedMap.size g.copies + 1 = steps
  induction steps generalizing t with
  | zero => exact .inl rfl
  | succ steps ih =>
    rw [Copies.follow]
    cases found : SortedMap.get? g.copies t with
    | none => exact .inl rfl
    | some src =>
      by_cases self : src = t
      · simp [self]
      · simp only [if_neg self]
        have mem := (List.mem_filter.1 (SortedMap.mem_of_get?_ofList found)).1
        have copy : ∃ i ∈ g.code, i.tempCopy? = some (t, src) := List.mem_filterMap.1 mem
        right
        rcases ih src with same | chain
        · rw [same]
          exact Relation.TransGen.single copy
        · exact Relation.TransGen.head copy chain

/-- The only definition of a temporary that is a copy is the copy. -/
theorem Chain.of_def? (once : g.defs.Nodup) (h : g.Chain d src) {i : Instr} (hi : i ∈ g.code)
    (hd : i.def? = some d) : ∃ s, i.tempCopy? = some (d, s) ∧ (s = src ∨ g.Chain s src) := by
  obtain ⟨j, hj, s, copy, rest⟩ := h.head
  obtain rfl := eq_of_def? once hi hj hd (Instr.def?_of_tempCopy? copy).1
  exact ⟨s, copy, rest⟩

theorem Chain.not_isSink (h : g.Chain d src) : src.isSink = false := by
  cases h with
  | single last =>
    obtain ⟨i, -, copy⟩ := last
    obtain ⟨-, v, -, -, hs, -⟩ := Instr.tempCopy?_eq_some.1 copy
    exact (Var.not_isSink_of_named hs).2
  | tail _ last =>
    obtain ⟨i, -, copy⟩ := last
    obtain ⟨-, v, -, -, hs, -⟩ := Instr.tempCopy?_eq_some.1 copy
    exact (Var.not_isSink_of_named hs).2

/-! ## Where a temporary has just been defined -/

/-- A point right behind a definition of a temporary. -/
inductive Behind (g : FlowGraph) (t : Temp) : Point → Prop where
  | code {origin : Origin} {b : Block} {front rest : List Instr} {i : Instr} (hb : b ∈ g.blocks)
      (split : b.code = front ++ i :: rest) (hd : i.def? = some t) :
      Behind g t (.within origin b.label rest)
  | phis {origin : Origin} {b : Block} (hb : b ∈ g.blocks) (hd : t ∈ b.phiDefs) :
      Behind g t (.within origin b.label b.code)

/-- What is live within a block does not depend on where control came from. -/
theorem Live.of_origin {origin : Origin} {l : Label} {rest : List Instr} (h : g.Live t (.within origin l rest))
    (origin' : Origin) : g.Live t (.within origin' l rest) := by
  generalize point : Point.within origin l rest = p at h
  induction h generalizing rest with
  | read use =>
    cases point
    exact .read use
  | pass falls kept _ ih =>
    cases point
    exact .pass falls kept (ih rfl)
  | jump ht path =>
    cases point
    exact .jump ht path
  | next hn path =>
    cases point
    exact .next hn path
  | arg => cases point
  | enter => cases point

/-- A temporary is defined in one place of the code of a block. -/
theorem rest_unique {code front front' rest rest' : List Instr} {i i' : Instr}
    (once : (code.filterMap Instr.def?).Nodup) (split : code = front ++ i :: rest)
    (split' : code = front' ++ i' :: rest') (hd : i.def? = some t) (hd' : i'.def? = some t) :
    rest = rest' := by
  have mem : ∀ {front rest : List Instr} {i : Instr}, i.def? = some t →
      t ∈ (front ++ i :: rest).filterMap Instr.def? := fun hd =>
    List.mem_filterMap.2 ⟨_, List.mem_append_right _ List.mem_cons_self, hd⟩
  induction front generalizing code front' with
  | nil =>
    cases front' with
    | nil =>
      rw [split] at split'
      exact (List.cons.inj split').2
    | cons j front' =>
      subst split
      obtain ⟨rfl, rfl⟩ := List.cons.inj split'
      rw [List.nil_append, List.filterMap_cons_some hd, List.nodup_cons] at once
      exact absurd (mem hd') once.1
  | cons j front ih =>
    cases front' with
    | nil =>
      subst split'
      obtain ⟨rfl, rfl⟩ := List.cons.inj split
      rw [List.nil_append, List.filterMap_cons_some hd', List.nodup_cons] at once
      exact absurd (mem hd) once.1
    | cons j' front' =>
      subst split
      obtain ⟨rfl, same⟩ := List.cons.inj split'
      refine ih (once.sublist ?_) rfl same
      exact (List.sublist_cons_self _ _).filterMap _

/-- A temporary is defined in one block. -/
theorem block_unique (once : g.defs.Nodup) {c : Block} (hb : b ∈ g.blocks) (hc : c ∈ g.blocks)
    (db : t ∈ b.body.filterMap Instr.def?) (dc : t ∈ c.body.filterMap Instr.def?) : b = c := by
  rw [defs, FlowGraph.code, List.filterMap_flatMap, List.nodup_flatMap] at once
  refine Classical.byContradiction fun ne => ?_
  have : Std.Symm (Function.onFun List.Disjoint fun b : Block => b.body.filterMap Instr.def?) :=
    ⟨fun _ _ apart _ hb ha => apart ha hb⟩
  exact once.2.forall hb hc ne db dc

/-- Whatever is live behind one definition of a temporary is live behind any other point that is
behind its definition. -/
theorem Behind.live (once : g.defs.Nodup) {p q : Point} (hp : g.Behind src p) (hq : g.Behind src q)
    (h : g.Live t p) : g.Live t q := by
  have inCode : ∀ {b : Block} {front rest : List Instr} {i : Instr}, b.code = front ++ i :: rest →
      i.def? = some src → src ∈ b.code.filterMap Instr.def? := by
    intro b front rest i split hd
    rw [split]
    exact List.mem_filterMap.2 ⟨i, List.mem_append_right _ List.mem_cons_self, hd⟩
  have inBody : ∀ {b : Block}, src ∈ b.code.filterMap Instr.def? → src ∈ b.body.filterMap Instr.def? := by
    intro b mem
    rw [← b.phis_append_code, List.filterMap_append]
    exact List.mem_append_right _ mem
  have phiInBody : ∀ {b : Block}, src ∈ b.phiDefs → src ∈ b.body.filterMap Instr.def? := by
    intro b mem
    rw [← b.phis_append_code, List.filterMap_append]
    exact List.mem_append_left _ mem
  have apart : ∀ {b : Block}, b ∈ g.blocks → src ∈ b.phiDefs → src ∉ b.code.filterMap Instr.def? := by
    intro b hb phi code
    have nodup := once.sublist (defs_sublist hb)
    rw [← b.phis_append_code, List.filterMap_append, List.nodup_append] at nodup
    exact nodup.2.2 src phi src code rfl
  cases hp with
  | code hb split hd =>
    cases hq with
    | code hc split' hd' =>
      obtain rfl := block_unique once hb hc (inBody (inCode split hd)) (inBody (inCode split' hd'))
      have nodup := once.sublist (defs_sublist hb)
      rw [← Block.phis_append_code, List.filterMap_append, List.nodup_append] at nodup
      rw [← rest_unique nodup.2.1 split split' hd hd']
      exact h.of_origin _
    | phis hc hd' =>
      obtain rfl := block_unique once hb hc (inBody (inCode split hd)) (phiInBody hd')
      exact absurd (inCode split hd) (apart hb hd')
  | phis hb hd =>
    cases hq with
    | code hc split' hd' =>
      obtain rfl := block_unique once hb hc (phiInBody hd) (inBody (inCode split' hd'))
      exact absurd (inCode split' hd') (apart hb hd)
    | phis hc hd' =>
      obtain rfl := block_unique once hb hc (phiInBody hd) (phiInBody hd')
      exact h.of_origin _

/-! ## Copies hold where they are live -/

/-- At a point, a copy that is live has a value and holds, and where a source that has a value got
it, the copy is not live. -/
structure Faithful (g : FlowGraph) (s : Temp → Option Word) (p : Point) : Prop where
  holds : ∀ {d src}, g.Chain d src → d ≠ src → g.Live d p → s d = s src ∧ s d ≠ none
  stale : ∀ {d src q}, g.Chain d src → d ≠ src → s src ≠ none → g.Behind src q → ¬ g.Live d q

section Faithful

variable {s s' : Temp → Option Word} {p q : Point}

/-- What is live at a point may be read as what it is a copy of. -/
theorem Faithful.resolve (h : g.Faithful s p) (live : g.Live t p) : s (g.copies.resolve t) = s t := by
  rcases resolve_copies g t with same | chain
  · rw [same]
  · by_cases same : t = g.copies.resolve t
    · rw [← same]
    · exact (h.holds chain same live).1.symm

/-- A point where no more is live, with the same temporaries. -/
theorem Faithful.move (h : g.Faithful s p) (live : ∀ t, g.Live t q → g.Live t p) : g.Faithful s q :=
  ⟨fun chain ne path => h.holds chain ne (live _ path), h.stale⟩

/-- A copy is not live where its source gets a value. -/
theorem Faithful.not_live_behind (h : g.Faithful s p) (chain : g.Chain d src) (ne : d ≠ src)
    (behind : g.Behind src q) (before : g.Live d q → g.Live d p) : ¬ g.Live d q := by
  intro live
  obtain ⟨same, some⟩ := h.holds chain ne (before live)
  exact h.stale chain ne (same ▸ some) behind live

/-- On entry no copy is live, and no temporary that is defined has a value. -/
theorem Faithful.entry (copied : g.CopiesExecuted) {l : Label} (entry : g.entry? = some l)
    (unset : ∀ t, t ∈ g.defs → s t = none) : g.Faithful s (.enter .entry l) := by
  refine ⟨fun chain _ live => ?_, fun {d src q} chain ne some behind => ?_⟩
  · obtain ⟨i, hi, _, copy, -⟩ := chain.head
    exact absurd live (copied i hi _ _ copy l entry)
  · refine absurd (unset src ?_) some
    cases behind with
    | code hb split hd =>
      refine mem_defs.2 ⟨_, hb, _, Block.mem_body_of_mem_code ?_, hd⟩
      rw [split]
      exact List.mem_append_right _ List.mem_cons_self
    | phis hb hd =>
      obtain ⟨args, mem⟩ := Block.mem_phiDefs.1 hd
      exact mem_defs.2 ⟨_, hb, _, Block.mem_body_of_mem_phis mem, rfl⟩

/-- A definition keeps copies faithful. -/
theorem Faithful.define (once : g.defs.Nodup) {origin : Origin} {i : Instr} {rest : List Instr}
    (at_ : g.At origin b (i :: rest)) {x : Temp} (hd : i.def? = some x) {w : Word}
    (may : i.MayWrite .strict s w) (h : g.Faithful s (.within origin b.label (i :: rest))) :
    g.Faithful (Keeping.strict.set s x w) (.within origin b.label rest) := by
  obtain ⟨front, split⟩ := at_.front
  have behind : g.Behind x (.within origin b.label rest) := .code at_.mem split hd
  have pass : ∀ {t}, x ≠ t → g.Live t (.within origin b.label rest) →
      g.Live t (.within origin b.label (i :: rest)) := fun ne live =>
    .pass (Instr.fallsThrough_of_def? hd) (fun e => ne (Option.some.inj (hd.symm.trans e))) live
  have here : Keeping.strict.set s x w x = some w := if_pos rfl
  have other : ∀ {t}, t ≠ x → Keeping.strict.set s x w t = s t := fun ne => if_neg ne
  refine ⟨fun {d src} chain ne live => ?_, fun {d src q} chain ne some behind' live => ?_⟩
  · by_cases new : d = x
    · -- the copy is executed
      subst new
      obtain ⟨c, copy, rest'⟩ := chain.of_def? once
        (mem_code.2 ⟨b, at_.mem, at_.mem_body⟩) hd
      obtain ⟨dest, v, rfl, -, hs, -⟩ := Instr.tempCopy?_eq_some.1 copy
      have source : s c = Option.some w := may dest v c rfl hs
      rw [here, other (Ne.symm ne)]
      refine ⟨?_, by simp⟩
      rcases rest' with rfl | rest'
      · exact source.symm
      · by_cases same : c = src
        · rw [← same]
          exact source.symm
        · have use : g.Live c (.within origin b.label (.copy dest v :: rest)) :=
            .read (Instr.def?_of_tempCopy? copy).2.1
          rw [← (h.holds rest' same use).1]
          exact source.symm
    · rw [other new]
      by_cases source : src = x
      · subst source
        exact absurd live (h.not_live_behind chain ne behind (pass (Ne.symm new)))
      · rw [other source]
        exact h.holds chain ne (pass (Ne.symm new) live)
  · by_cases source : src = x
    · subst source
      exact h.not_live_behind chain ne behind (pass (Ne.symm ne)) (behind'.live once behind live)
    · rw [other source] at some
      exact h.stale chain ne some behind' live

/-- The phis of a block keep copies faithful, whatever they write. -/
theorem Faithful.enter (once : g.defs.Nodup) {origin : Origin} (hb : b ∈ g.blocks)
    (h : g.Faithful s (.enter origin b.label)) (kept : ∀ {t}, t ∉ b.phiDefs → s' t = s t) :
    g.Faithful s' (.within origin b.label b.code) := by
  -- a copy is no phi
  have plain : ∀ {d src}, g.Chain d src → d ∉ b.phiDefs := by
    intro d src chain phi
    obtain ⟨args, mem⟩ := Block.mem_phiDefs.1 phi
    obtain ⟨c, copy, -⟩ := chain.of_def? once
      (mem_code.2 ⟨b, hb, Block.mem_body_of_mem_phis mem⟩) rfl
    cases copy
  have before : ∀ {d src}, g.Chain d src → g.Live d (.within origin b.label b.code) →
      g.Live d (.enter origin b.label) := fun chain live => .enter hb (plain chain) live
  refine ⟨fun {d src} chain ne live => ?_, fun {d src q} chain ne some behind live => ?_⟩
  · rw [kept (plain chain)]
    by_cases phi : src ∈ b.phiDefs
    · exact absurd live (h.not_live_behind chain ne (.phis hb phi) (before chain))
    · rw [kept phi]
      exact h.holds chain ne (before chain live)
  · by_cases phi : src ∈ b.phiDefs
    · exact h.not_live_behind chain ne (.phis hb phi) (before chain)
        (behind.live once (.phis hb phi) live)
    · rw [kept phi] at some
      exact h.stale chain ne some behind live

/-- The phis of a block choose the same when they read what temporaries are copies of. -/
theorem Faithful.assign {σ : Type} {K : Keeping σ} {s : σ} {origin : Origin} (hb : b ∈ g.blocks)
    (h : g.Faithful (K.get? s) (.enter origin b.label)) :
    K.assign origin (b.phis.map (Instr.mapReads g.copies.resolve)) s = K.assign origin b.phis s := by
  have chosen : (b.phis.map (Instr.mapReads g.copies.resolve)).filterMap (K.chosen s origin) =
      b.phis.filterMap (K.chosen s origin) := by
    rw [List.filterMap_map]
    refine List.filterMap_congr fun i hi => ?_
    cases i with
    | phi dest args =>
      refine congrArg (fun w? => some (dest, w?)) ?_
      simp only [SortedMap.get?_map]
      cases arg : args.get? origin with
      | none => rfl
      | some a => exact h.resolve (.arg hb (Block.mem_phiArgsFrom.2 ⟨dest, args, hi, arg⟩))
    | _ => rfl
  rw [Keeping.assign, chosen]
  rfl

end Faithful

/-! ## Propagation in the whole procedure -/

theorem labels_propagateGlobally : g.propagateGlobally.labels = g.labels := labels_mapBodies _ g

/-- The blocks behind the propagation. -/
theorem exists_of_mem_propagateGlobally (first : g.PhisFirst) {b' : Block}
    (h : b' ∈ g.propagateGlobally.blocks) : ∃ b ∈ g.blocks, b'.label = b.label ∧
      b'.phis = b.phis.map (Instr.mapReads g.copies.resolve) ∧
      b'.code = b.code.map (Instr.mapReads g.copies.resolve) := by
  obtain ⟨b, hb, rfl⟩ := mem_mapBodies.1 h
  refine ⟨b, hb, rfl, Block.phis_and_code ?_ (fun i hi => ?_) fun i hi => ?_⟩
  · rw [← List.map_append, b.phis_append_code]
  · obtain ⟨j, hj, rfl⟩ := List.mem_map.1 hi
    rw [Instr.isPhi_mapReads]
    exact Block.isPhi_of_mem_phis hj
  · obtain ⟨j, hj, rfl⟩ := List.mem_map.1 hi
    rw [Instr.isPhi_mapReads]
    exact first b hb j hj

/-- In front of a block, temporaries are the same on both sides. -/
def FaithfulEnter (g : FlowGraph) (origin : Origin) (l : Label) (s s' : Temp → Option Word) : Prop :=
  s' = s ∧ g.Faithful s (.enter origin l)

/-- Within a block too, and the code reads what temporaries are copies of. -/
def FaithfulWithin (g : FlowGraph) (origin : Origin) (b : Block) (rest : List Instr)
    (s : Temp → Option Word) (rest' : List Instr) (s' : Temp → Option Word) : Prop :=
  s' = s ∧ rest' = rest.map (Instr.mapReads g.copies.resolve) ∧
    g.Faithful s (.within origin b.label rest)

/-- Entering a block, the phis choose the same values. -/
theorem faithful_enterKept (first : g.PhisFirst) (nodup : g.labels.Nodup) (once : g.defs.Nodup) :
    EnterKept g g.propagateGlobally .strict .strict g.FaithfulEnter g.FaithfulWithin := by
  rintro origin b b' s s' hb hb' label - ⟨same, faithful⟩
  subst same
  obtain ⟨c, hc, label', phis, code⟩ := exists_of_mem_propagateGlobally first hb'
  obtain rfl := eq_of_label nodup hb hc (label'.symm.trans label)
  refine ⟨?_, code, faithful.enter once hb fun phi => ?_⟩
  · rw [phis]
    exact faithful.assign (K := .strict) hb
  · exact Keeping.get?_assign Keeping.strict_lawful (fun i => Block.isPhi_of_mem_phis) phi

/-- Propagation keeps the runs that succeed. -/
theorem Runs.propagateGlobally (wf : g.WellFormed) (first : g.PhisFirst) (definite : g.Definite)
    (copied : g.CopiesExecuted) {args : List Word} {globals : Store Global} {t : List Effect} {v : Word × Store Global}
    (h : g.Runs .strict (.enter .strict (fun _ => none) g.params args globals) t (.ok v)) :
    g.propagateGlobally.Runs .strict (.enter .strict (fun _ => none) g.params args globals) t (.ok v) := by
  have labels : g.propagateGlobally.labels = g.labels := labels_propagateGlobally
  have leave : LeaveKept g g.FaithfulEnter g.FaithfulWithin := by
    rintro origin b s _ _ at_ ⟨rfl, rfl, faithful⟩
    exact ⟨rfl, fun l next => ⟨rfl, faithful.move fun t path => .next next path⟩⟩
  have instr : InstrKept g g.propagateGlobally .strict .strict (.afterFailure Point _)
      g.FaithfulEnter g.FaithfulWithin := by
    rintro origin b i rest s _ _ staged globals at_ plain ⟨rfl, rfl, faithful⟩
    refine ⟨_, _, rfl, (Instr.isPhi_mapReads _ i).trans plain, ?_⟩
    rw [Instr.mapReads_of_plain plain]
    have sameProc : (Control.ofGraph g.propagateGlobally).proc = (Control.ofGraph g).proc := rfl
    refine alike_perform_uses sameProc (fun _ => trivial) plain (fun t ht => ?_)
      (fun t ht w hw => (faithful.resolve (.read ht)).trans hw) (fun t _ _ => .inl fun _ => trivial)
      (fun d hd w may => ?_) (fun hd falls => ?_) fun l hl => ?_
    · rcases resolve_copies g t with same | chain
      · rw [same]
        exact Instr.uses_not_isSink ht
      · exact chain.not_isSink
    · exact ⟨b, _, rfl, rfl, at_.pass (Instr.fallsThrough_of_def? hd), rfl, rfl,
        faithful.define definite.once at_ hd may⟩
    · exact ⟨b, _, rfl, rfl, at_.pass falls, rfl, rfl,
        faithful.move fun t path => .pass falls (by simp [hd]) path⟩
    · exact alike_graph_goto wf labels at_ hl ⟨rfl, faithful.move fun t path => .jump hl path⟩
        staged globals
  refine FlowGraph.Runs.carry_ok (.of_step fun _ _ _ _ staged globals q => lockstep_graph wf first
    (labels.symm ▸ wf.nodup) labels (faithful_enterKept first wf.nodup definite.once) leave instr q
    staged globals) id labels wf (fun l entry => ⟨rfl, Faithful.entry copied entry fun t ht => ?_⟩) h
  refine Keeping.get?_setAll_of_not_mem Keeping.strict_lawful fun mem => ?_
  obtain ⟨⟨u, w⟩, he, rfl⟩ := List.mem_map.1 mem
  exact definite.apart _ ht (List.of_mem_zip he).1

/-! ## What stays as it is -/

/-- The temporary, or one that is a copy of it. -/
def SameOrCopy (g : FlowGraph) (t u : Temp) : Prop := t = u ∨ g.Chain t u

/-- What a point behind the propagation says about the graph. -/
def ReadAs (g : FlowGraph) (u : Temp) : Point → Prop
  | .enter origin l => ∃ t, g.SameOrCopy t u ∧ g.Live t (.enter origin l)
  | .within origin l rest' => ∀ b ∈ g.blocks, b.label = l → ∀ front rest, b.code = front ++ rest →
    rest' = rest.map (Instr.mapReads g.copies.resolve) →
    ∃ t, g.SameOrCopy t u ∧ g.Live t (.within origin l rest)

/-- What is live behind an instruction is live in front of it, or what it is a copy of is. -/
theorem SameOrCopy.pass (once : g.defs.Nodup) {u : Temp} (h : g.SameOrCopy t u) {origin : Origin}
    (hb : b ∈ g.blocks) {front rest : List Instr} {i : Instr} (split : b.code = front ++ i :: rest)
    (falls : i.fallsThrough = true) (kept : i.def? ≠ some u)
    (live : g.Live t (.within origin b.label rest)) :
    ∃ t, g.SameOrCopy t u ∧ g.Live t (.within origin b.label (i :: rest)) := by
  by_cases hd : i.def? = some t
  · rcases h with rfl | chain
    · exact absurd hd kept
    · have mem : i ∈ g.code := by
        refine mem_code.2 ⟨b, hb, Block.mem_body_of_mem_code ?_⟩
        rw [split]
        exact List.mem_append_right _ List.mem_cons_self
      obtain ⟨s, copy, rest'⟩ := chain.of_def? once mem hd
      exact ⟨s, rest', .read (Instr.def?_of_tempCopy? copy).2.1⟩
  · exact ⟨t, h, .pass falls hd live⟩

/-- What is live behind the propagation was live before, or a copy of it was. -/
theorem Live.of_propagateGlobally (first : g.PhisFirst) (once : g.defs.Nodup) {u : Temp} {p : Point}
    (path : g.propagateGlobally.Live u p) : ReadAs g u p := by
  induction path with
  | read use =>
    rintro b hb rfl front rest split code
    obtain ⟨i, rest, rfl, rfl, rfl⟩ := List.map_eq_cons_iff.1 code.symm
    have plain : i.isPhi = false := first b hb i (by simp [split])
    rw [Instr.mapReads_of_plain plain] at use
    obtain ⟨t, ht, rfl⟩ := Instr.exists_of_mem_uses_mapUses use
    refine ⟨t, ?_, .read ht⟩
    rcases resolve_copies g t with same | chain
    · exact .inl same.symm
    · exact .inr chain
  | pass falls kept _ ih =>
    rintro b hb rfl front rest split code
    obtain ⟨i, rest, rfl, rfl, rfl⟩ := List.map_eq_cons_iff.1 code.symm
    have plain : i.isPhi = false := first b hb i (by simp [split])
    rw [Instr.mapReads_of_plain plain, Instr.fallsThrough_mapUses] at falls
    rw [Instr.def?_mapReads] at kept
    obtain ⟨t, same, live⟩ := ih b hb rfl (front ++ [i]) rest (by simp [split]) rfl
    exact same.pass once hb split falls kept live
  | jump ht _ ih =>
    rintro b hb rfl front rest split code
    obtain ⟨i, rest, rfl, rfl, rfl⟩ := List.map_eq_cons_iff.1 code.symm
    have plain : i.isPhi = false := first b hb i (by simp [split])
    rw [Instr.mapReads_of_plain plain, Instr.target?_mapUses] at ht
    obtain ⟨t, same, live⟩ := ih
    exact ⟨t, same, .jump ht live⟩
  | next hn _ ih =>
    rintro b hb rfl front rest split code
    obtain rfl := List.map_eq_nil_iff.1 code.symm
    rw [next?_of_labels labels_propagateGlobally] at hn
    obtain ⟨t, same, live⟩ := ih
    exact ⟨t, same, .next hn live⟩
  | arg hb' arg =>
    obtain ⟨b, hb, label, phis, -⟩ := exists_of_mem_propagateGlobally first hb'
    obtain ⟨dest, args, mem, value⟩ := Block.mem_phiArgsFrom.1 arg
    rw [phis] at mem
    obtain ⟨i, hi, same⟩ := List.mem_map.1 mem
    cases i with
    | phi dest' args' =>
      cases same
      rw [SortedMap.get?_map] at value
      obtain ⟨t, arg', rfl⟩ := Option.map_eq_some_iff.1 value
      rw [label]
      refine ⟨t, ?_, .arg hb (Block.mem_phiArgsFrom.2 ⟨_, _, hi, arg'⟩)⟩
      rcases resolve_copies g t with same | chain
      · exact .inl same.symm
      · exact .inr chain
    | _ => cases same
  | enter hb' kept _ ih =>
    obtain ⟨b, hb, label, phis, code⟩ := exists_of_mem_propagateGlobally first hb'
    rw [label] at ih ⊢
    obtain ⟨t, same, live⟩ := ih b hb rfl [] b.code rfl code
    refine ⟨t, same, .enter hb (fun phi => ?_) live⟩
    obtain ⟨args, mem⟩ := Block.mem_phiDefs.1 phi
    rcases same with rfl | chain
    · refine kept (Block.mem_phiDefs.2 ⟨args.map fun _ t => g.copies.resolve t, ?_⟩)
      rw [phis]
      exact List.mem_map_of_mem mem
    · -- a copy is no phi
      obtain ⟨s, copy, -⟩ := chain.of_def? once
        (mem_code.2 ⟨b, hb, Block.mem_body_of_mem_phis mem⟩) rfl
      cases copy

/-- The copies behind the propagation were copies before. -/
theorem exists_copy_of_propagateGlobally (once : g.defs.Nodup) {i' : Instr}
    (h : i' ∈ g.propagateGlobally.code) (copy : i'.tempCopy? = some (d, src)) :
    ∃ i ∈ g.code, ∃ s, i.tempCopy? = some (d, s) := by
  obtain ⟨b', hb', hi'⟩ := mem_code.1 h
  obtain ⟨b, hb, rfl⟩ := mem_mapBodies.1 hb'
  obtain ⟨i, hi, rfl⟩ := List.mem_map.1 hi'
  have mem : i ∈ g.code := mem_code.2 ⟨b, hb, hi⟩
  have plain : i.isPhi = false := (Instr.isPhi_mapReads _ i).symm.trans (Instr.def?_of_tempCopy? copy).2.2
  rw [Instr.mapReads_of_plain plain] at copy
  obtain ⟨dest, v, t, rfl, hd, hs, rfl, ne⟩ := Instr.exists_of_tempCopy?_mapUses copy
  rcases resolve_copies g t with same | chain
  · rw [same] at ne
    exact ⟨_, mem, t, Instr.tempCopy?_eq_some.2 ⟨dest, v, rfl, hd, hs, ne⟩⟩
  · by_cases self : d = t
    · -- a temporary that is copied to itself is no copy of another
      subst self
      obtain ⟨s, copy', -⟩ := chain.of_def? once mem hd
      exact ⟨_, mem, s, copy'⟩
    · exact ⟨_, mem, t, Instr.tempCopy?_eq_some.2 ⟨dest, v, rfl, hd, hs, self⟩⟩

/-- Propagation in the whole procedure leaves a procedure that the optimizer can take, and that
does the same. -/
theorem Ready.propagateGlobally (h : g.Ready true true) :
    g.propagateGlobally.Ready true true ∧ g.Improves g.propagateGlobally := by
  have definite := h.definite rfl
  have copied := h.copied rfl rfl
  have labels : g.propagateGlobally.labels = g.labels := labels_propagateGlobally
  have defs : g.propagateGlobally.defs = g.defs := by
    simp only [FlowGraph.defs, FlowGraph.code, FlowGraph.propagateGlobally, mapInstrs, mapBodies,
      List.flatMap_map, List.filterMap_flatMap, List.filterMap_map]
    refine List.flatMap_congr fun b _ => List.filterMap_congr fun i _ => ?_
    exact Instr.def?_mapReads _ i
  have wf' : g.propagateGlobally.WellFormed := by
    refine h.wellFormed.mapBodies (fun b hb => (h.wellFormed.straight b hb).of_map
      (fun i => by cases i <;> rfl) fun i l e => by cases i <;> first | exact e | cases e)
      fun b hb i hi l hl => ?_
    obtain ⟨j, hj, rfl⟩ := List.mem_map.1 hi
    refine h.wellFormed.mem_labels_of_target hb hj (hl ▸ ?_)
    cases j <;> rfl
  refine ⟨⟨wf', fun b' hb' i' hi' => ?_, fun b' hb' dest args mem => ?_, fun _ => ⟨defs ▸ definite.once, defs ▸ definite.apart⟩,
    fun _ _ i' hi' d s copy l entry live => ?_, fun mode => Bool.noConfusion mode⟩, rfl, rfl, fun runs => ⟨_, .refl _ _, ?_⟩⟩
  · obtain ⟨b, hb, -, -, code⟩ := exists_of_mem_propagateGlobally h.phisFirst hb'
    rw [code] at hi'
    obtain ⟨i, hi, rfl⟩ := List.mem_map.1 hi'
    exact (Instr.isPhi_mapReads _ i).trans (h.phisFirst b hb i hi)
  · obtain ⟨b, hb, -, phis, -⟩ := exists_of_mem_propagateGlobally h.phisFirst hb'
    rw [phis] at mem
    obtain ⟨i, hi, same⟩ := List.mem_map.1 mem
    obtain ⟨old, rfl, rfl⟩ := Instr.mapReads_phi same
    obtain ⟨named, values⟩ := h.phisNamed b hb dest old hi
    refine ⟨named, fun v hv => ?_⟩
    rw [SortedMap.values_map] at hv
    obtain ⟨u, hu, rfl⟩ := List.mem_map.1 hv
    rcases resolve_copies g u with same | chain
    · rw [same]
      exact values u hu
    · exact chain.not_isSink
  · rw [entry?_of_labels labels] at entry
    obtain ⟨t, same, live'⟩ := live.of_propagateGlobally h.phisFirst definite.once
    obtain ⟨i, hi, s', copy'⟩ : ∃ i ∈ g.code, ∃ s, i.tempCopy? = some (t, s) := by
      rcases same with rfl | chain
      · exact exists_copy_of_propagateGlobally definite.once hi' copy
      · obtain ⟨i, hi, s', copy', -⟩ := chain.head
        exact ⟨i, hi, s', copy'⟩
    exact copied i hi t s' copy' l entry live'
  · exact runs.propagateGlobally h.wellFormed h.phisFirst definite copied

end FlowGraph

end ThreeAddress
