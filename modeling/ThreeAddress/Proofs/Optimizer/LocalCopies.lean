import ThreeAddress.Proofs.Activation.Keeping
import ThreeAddress.Proofs.Optimizer.Basic
/-!
# Copies within a block

The copies that are known at a point of a block hold there: both sides have the same value. So a
temporary may be read by the name that it is a copy of in the end.

* `Copies.Hold` : copies whose sides have the same value;
* `Copies.Hold.after` : behind an instruction, the copies that are known hold;
* `FlowGraph.Ready.propagateLocally` : propagation within blocks.
-/

namespace ThreeAddress

open Execution

/-! ## Copies that hold -/

namespace Instr

theorem tempCopy?_eq_some {i : Instr} {d s : Temp} :
    i.tempCopy? = some (d, s) ↔
      ∃ dest src, i = .copy dest src ∧ dest.named? = some d ∧ src.named? = some s ∧ d ≠ s := by
  constructor
  · intro h
    cases i with
    | copy dest src =>
      rw [tempCopy?] at h
      split at h
      · next hd hs =>
        split at h
        · cases h
        · next ne =>
          cases h
          exact ⟨dest, src, rfl, hd, hs, ne⟩
      · cases h
    | _ => cases h
  · rintro ⟨dest, src, rfl, hd, hs, ne⟩
    simp [tempCopy?, hd, hs, ne]

/-- A copy that reads another name is a copy anyway. -/
theorem exists_of_tempCopy?_mapUses {f : Temp → Temp} {i : Instr} {d s : Temp}
    (h : (i.mapUses f).tempCopy? = some (d, s)) :
    ∃ dest src t, i = .copy dest src ∧ dest.named? = some d ∧ src.named? = some t ∧ f t = s ∧
      d ≠ s := by
  obtain ⟨dest, v, e, hd, hs, ne⟩ := tempCopy?_eq_some.1 h
  cases i with
  | copy dest' src =>
    cases e
    rcases src.cases_named with ⟨t, rfl, -, hn⟩ | ⟨rfl, hn⟩ | ⟨g, rfl, hn⟩
    · simp only [Var.rename, hn] at hs
      cases (Var.not_isSink_of_named hs).1
      exact ⟨_, _, t, rfl, hd, hn, rfl, ne⟩
    · simp only [Var.rename, hn] at hs
      cases hs
    · simp only [Var.rename, hn] at hs
      cases hs
  | _ => cases e

end Instr

namespace Copies

variable {copies : Copies} {s : Temp → Option Word} {t : Temp}

/-- Both sides of every copy have the same value, and the source is not the sink. -/
def Hold (copies : Copies) (s : Temp → Option Word) : Prop :=
  ∀ t src, SortedMap.get? copies t = some src → s t = s src ∧ src.isSink = false

theorem Hold.empty (s : Temp → Option Word) : Hold ∅ s := by
  intro t src h
  rw [SortedMap.get?_empty] at h
  cases h

/-- A temporary has the value that it is a copy of in the end. -/
theorem Hold.resolve (h : Hold copies s) (t : Temp) : s (copies.resolve t) = s t := by
  rw [Copies.resolve]
  generalize SortedMap.size copies + 1 = steps
  induction steps generalizing t with
  | zero => rfl
  | succ steps ih =>
    rw [follow]
    cases found : SortedMap.get? copies t with
    | none => rfl
    | some src =>
      by_cases self : src = t
      · simp only [self, if_true]
      · simp only [if_neg self]
        exact (ih src).trans (h t src found).1.symm

theorem Hold.resolve_not_isSink (h : Hold copies s) {t : Temp} (named : t.isSink = false) :
    (copies.resolve t).isSink = false := by
  rw [Copies.resolve]
  generalize SortedMap.size copies + 1 = steps
  induction steps generalizing t with
  | zero => exact named
  | succ steps ih =>
    rw [follow]
    cases found : SortedMap.get? copies t with
    | none => exact named
    | some src =>
      by_cases self : src = t
      · simp only [self, if_true, named]
      · simp only [if_neg self]
        exact ih (h t src found).2

/-- The copies that an instruction does not touch. -/
def untouched (copies : Copies) (i : Instr) : Copies :=
  match i.def? with
  | some d => (SortedMap.erase copies d).filter fun _ src => src != d
  | none => copies

theorem after_eq (copies : Copies) (i : Instr) : copies.after i =
    match i.tempCopy? with
    | some (d, s) => SortedMap.insert (copies.untouched i) d s
    | none => copies.untouched i := rfl

theorem get?_untouched {i : Instr} {src : Temp}
    (h : SortedMap.get? (copies.untouched i) t = some src) :
    SortedMap.get? copies t = some src ∧ i.def? ≠ some t ∧ i.def? ≠ some src := by
  rw [untouched] at h
  cases hd : i.def? with
  | none =>
    rw [hd] at h
    exact ⟨h, by simp, by simp⟩
  | some d =>
    simp only [hd] at h
    obtain ⟨mem, ne⟩ := List.mem_filter.1 (SortedMap.get?_eq_some.1 h)
    have old := SortedMap.get?_eq_some.2 mem
    rw [SortedMap.get?_erase] at old
    by_cases same : t = d
    · rw [if_pos same] at old
      cases old
    · rw [if_neg same] at old
      exact ⟨old, fun e => same (Option.some.inj e).symm, fun e => by simp_all⟩

/-- A copy that is known behind an instruction was made by it, or was known and is not touched. -/
theorem get?_after {i : Instr} {src : Temp} (h : SortedMap.get? (copies.after i) t = some src) :
    i.tempCopy? = some (t, src) ∨
      SortedMap.get? copies t = some src ∧ i.def? ≠ some t ∧ i.def? ≠ some src := by
  rw [after_eq] at h
  cases copy : i.tempCopy? with
  | none =>
    rw [copy] at h
    exact .inr (get?_untouched h)
  | some e =>
    obtain ⟨d, s⟩ := e
    rw [copy] at h
    have h : SortedMap.get? (SortedMap.insert (copies.untouched i) d s) t = some src := h
    rw [SortedMap.get?_insert] at h
    by_cases same : t = d
    · rw [if_pos same] at h
      cases h
      exact .inl (by rw [same])
    · rw [if_neg same] at h
      exact .inr (get?_untouched h)

/-- Behind an instruction, the copies that are known there hold. -/
theorem Hold.after (h : Hold copies s) {i : Instr} {s' : Temp → Option Word}
    (kept : ∀ t, i.def? ≠ some t → s' t = s t)
    (copied : ∀ d src, i.tempCopy? = some (d, src) → s' d = s' src) : Hold (copies.after i) s' := by
  intro t src found
  rcases get?_after found with copy | ⟨old, ht, hsrc⟩
  · refine ⟨copied t src copy, ?_⟩
    obtain ⟨-, v, -, -, hs, -⟩ := Instr.tempCopy?_eq_some.1 copy
    exact (Var.not_isSink_of_named hs).2
  · rw [kept t ht, kept src hsrc]
    exact h t src old

variable {i : Instr}

/-- They hold behind an instruction that defines a temporary, written with what it is a copy of. -/
theorem Hold.define (h : Hold copies s) {d : Temp} {w : Word} {s' : Temp → Option Word}
    (hd : i.def? = some d)
    (may : ∀ dest src t, i = .copy dest src → src.named? = some t → s t = some w)
    (set : ∀ t, s' t = if t = d then some w else s t) :
    Hold (copies.after (i.mapUses copies.resolve)) s' := by
  refine h.after (fun t ht => ?_) fun c src copy => ?_
  · rw [set, if_neg]
    rintro rfl
    exact ht ((Instr.def?_mapUses _ i).trans hd)
  · obtain ⟨dest, v, t, rfl, hc, hs, rfl, ne⟩ := Instr.exists_of_tempCopy?_mapUses copy
    obtain rfl : c = d := Option.some.inj (hc.symm.trans hd)
    rw [set, set, if_pos rfl, if_neg (Ne.symm ne)]
    exact ((h.resolve t).trans (may dest v t rfl hs)).symm

/-- They hold behind an instruction that defines nothing. -/
theorem Hold.keep (h : Hold copies s) (hd : i.def? = none) :
    Hold (copies.after (i.mapUses copies.resolve)) s := by
  refine h.after (fun _ _ => rfl) fun c src copy => ?_
  obtain ⟨dest, v, t, rfl, hc, -⟩ := Instr.exists_of_tempCopy?_mapUses copy
  cases hc.symm.trans hd

end Copies

/-! ## Propagation within blocks -/

namespace FlowGraph

variable {g : FlowGraph}

/-- Propagation gives instructions other names for what they read. -/
theorem exists_of_mem_propagateBody {copies : Copies} {code : List Instr} {i' : Instr}
    (h : i' ∈ propagateBody copies code) : ∃ i ∈ code, ∃ f, i' = i.mapUses f := by
  induction code generalizing copies with
  | nil => cases h
  | cons i rest ih =>
    rcases List.mem_cons.1 h with rfl | h
    · exact ⟨i, List.mem_cons_self, _, rfl⟩
    · obtain ⟨j, hj, f, rfl⟩ := ih h
      exact ⟨j, List.mem_cons_of_mem _ hj, f, rfl⟩

theorem labels_propagateLocally : g.propagateLocally.labels = g.labels := labels_mapBodies _ g

/-- Within a block, the copies that are known hold, and temporaries are the same on both sides. -/
def CopiesWithin (_ : Origin) (_ : Block) (rest : List Instr) (s : Temp → Option Word)
    (rest' : List Instr) (s' : Temp → Option Word) : Prop :=
  s' = s ∧ ∃ copies, Copies.Hold copies s ∧ rest' = propagateBody copies rest

/-- Propagation within blocks keeps the runs that succeed. -/
theorem Runs.propagateLocally (wf : g.WellFormed) (free : g.PhiFree)
    {a : Local (Temp → Option Word)} {t : List Effect} {v : Word × Store Global}
    (h : g.Runs .strict a t (.ok v)) : g.propagateLocally.Runs .strict a t (.ok v) := by
  have labels : g.propagateLocally.labels = g.labels := labels_propagateLocally
  have enter : EnterKept g g.propagateLocally .strict .strict (fun _ _ s s' => s' = s)
      CopiesWithin := by
    rintro origin b b' s _ hb hb' label - rfl
    obtain ⟨c, hc, rfl⟩ := mem_mapBodies.1 hb'
    obtain rfl := eq_of_label wf.nodup hb hc label
    have plain : ∀ i ∈ propagateBody ∅ c.body, i.isPhi = false := by
      intro i hi
      obtain ⟨j, hj, f, rfl⟩ := exists_of_mem_propagateBody hi
      exact (Instr.isPhi_mapUses f j).trans (free c hb j hj)
    have phis' := @Block.phis_of_phiFree { c with body := propagateBody ∅ c.body } plain
    have code' := @Block.code_of_phiFree { c with body := propagateBody ∅ c.body } plain
    rw [Block.phis_of_phiFree (free c hb), Block.code_of_phiFree (free c hb), phis', code']
    exact ⟨rfl, ∅, .empty _, rfl⟩
  have leave : LeaveKept g (fun _ _ s s' => s' = s) CopiesWithin := by
    rintro origin b s rest' s' at_ ⟨same, copies, -, rfl⟩
    exact ⟨rfl, fun l next => same⟩
  have instr : InstrKept g g.propagateLocally .strict .strict (.afterFailure Point _)
      (fun _ _ s s' => s' = s) CopiesWithin := by
    rintro origin b i rest s _ _ staged globals at_ plain ⟨rfl, copies, hold, rfl⟩
    refine ⟨_, _, rfl, (Instr.isPhi_mapUses _ i).trans plain, ?_⟩
    have sameProc : (Control.ofGraph g.propagateLocally).proc = (Control.ofGraph g).proc := rfl
    refine alike_perform_uses sameProc (fun _ => trivial) plain
      (fun t ht => hold.resolve_not_isSink (Instr.uses_not_isSink ht))
      (fun t ht w hw => (hold.resolve t).trans hw) (fun t _ _ => .inl fun _ => trivial)
      (fun d hd w may => ?_) (fun hd falls => ?_) fun l hl => ?_
    · exact ⟨b, _, rfl, rfl, at_.pass (Instr.fallsThrough_of_def? hd), rfl, _,
        hold.define hd may fun _ => rfl, rfl⟩
    · exact ⟨b, _, rfl, rfl, at_.pass falls, rfl, _, hold.keep hd, rfl⟩
    · exact alike_graph_goto wf labels at_ hl rfl staged globals
  exact FlowGraph.Runs.carry_ok (.of_step fun _ _ _ _ staged globals q => lockstep_graph wf
    free.phisFirst (labels.symm ▸ wf.nodup) labels enter leave instr q staged globals) id labels wf
    (fun l entry => rfl) h

theorem straight_propagateBody {copies : Copies} {code : List Instr} (h : Straight code) :
    Straight (propagateBody copies code) := by
  induction code generalizing copies with
  | nil => trivial
  | cons i rest ih =>
    obtain ⟨ends, plain, rest⟩ := h
    refine ⟨fun transfer => ?_, fun l e => plain l (Instr.eq_label_of_mapUses e), ih rest⟩
    rw [Instr.isTransfer_mapUses] at transfer
    rw [ends transfer]
    rfl

/-- Propagation within blocks leaves a procedure that the optimizer can take, and that does the
same. -/
theorem Ready.propagateLocally {copyPropagation : Bool} (h : g.Ready false copyPropagation) :
    g.propagateLocally.Ready false copyPropagation ∧ g.Improves g.propagateLocally := by
  have free := h.phiFree rfl
  have free' : g.propagateLocally.PhiFree := by
    intro b' hb' i hi
    obtain ⟨b, hb, rfl⟩ := mem_mapBodies.1 hb'
    obtain ⟨j, hj, f, rfl⟩ := exists_of_mem_propagateBody hi
    exact (Instr.isPhi_mapUses f j).trans (free b hb j hj)
  have wf' : g.propagateLocally.WellFormed := by
    refine h.wellFormed.mapBodies
      (fun b hb => straight_propagateBody (h.wellFormed.straight b hb)) fun b hb i hi l hl => ?_
    obtain ⟨j, hj, f, rfl⟩ := exists_of_mem_propagateBody hi
    rw [Instr.target?_mapUses] at hl
    exact h.wellFormed.mem_labels_of_target hb hj hl
  refine ⟨⟨wf', free'.phisFirst, free'.phisNamed, nofun, nofun, fun _ => free'⟩, rfl, rfl, fun runs => ?_⟩
  exact ⟨_, .refl _ _, runs.propagateLocally h.wellFormed free⟩

end FlowGraph

end ThreeAddress
