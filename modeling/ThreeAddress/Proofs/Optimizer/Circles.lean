import Mathlib.Dynamics.PeriodicPts.Lemmas
import Mathlib.Data.Finset.Card
import ThreeAddress.Proofs.Optimizer.GlobalCopies
/-!
# Circles of copies

To follow copies is to apply one function again and again: a temporary that is a copy goes to its
source, and every other one stays. After as many steps as there are copies one is at a temporary
that is no copy, or on a circle of copies. On a circle the way does not end, and where it is broken
off depends on the number of copies in the whole procedure.

* `Copies.source` : one step;
* `Copies.resolve_eq` : how many steps are made;
* `Copies.iterate_mem_periodicPts` : where they lead;
* `FlowGraph.get?_copies` : which copies are followed in a procedure;
* `FlowGraph.source_propagateGlobally` : the copies behind the propagation, as steps before it.
-/

namespace ThreeAddress

open Function

namespace Copies

variable {copies : Copies} {t s : Temp}

/-! ## Steps from copies to sources -/

/-- What a temporary is a copy of, or the temporary itself if it is no copy. -/
def source (copies : Copies) (t : Temp) : Temp := (SortedMap.get? copies t).getD t

theorem source_of_some (h : SortedMap.get? copies t = some s) : copies.source t = s := by
  simp [source, h]

theorem source_of_none (h : SortedMap.get? copies t = none) : copies.source t = t := by
  simp [source, h]

/-- A temporary that is no copy stays. -/
theorem iterate_of_none (h : SortedMap.get? copies t = none) (k : Nat) :
    copies.source^[k] t = t := iterate_fixed (source_of_none h) k

theorem follow_eq (copies : Copies) (steps : Nat) (t : Temp) :
    copies.follow steps t = copies.source^[steps] t := by
  induction steps generalizing t with
  | zero => rfl
  | succ steps ih =>
    rw [follow]
    cases found : SortedMap.get? copies t with
    | none => exact (iterate_of_none found _).symm
    | some src =>
      have step := source_of_some found
      by_cases self : src = t
      · simp only [self, if_true]
        rw [self] at step
        exact (iterate_fixed step _).symm
      · simp only [if_neg self]
        rw [ih src, iterate_succ_apply, step]

theorem resolve_eq (copies : Copies) (t : Temp) :
    copies.resolve t = copies.source^[SortedMap.size copies + 1] t := follow_eq copies _ t

/-- After as many steps as there are copies one is on a circle or at a temporary that is no copy. -/
theorem iterate_mem_periodicPts (copies : Copies) (t : Temp) {k : Nat}
    (enough : SortedMap.size copies ≤ k) : copies.source^[k] t ∈ periodicPts copies.source := by
  by_cases all : ∀ i ≤ k, copies.source^[i] t ∈ SortedMap.keys copies
  · -- there are more places on the way than copies, so one is passed twice
    have card : (SortedMap.keys copies).toFinset.card < (Finset.range (k + 1)).card := by
      rw [Finset.card_range]
      have le := List.toFinset_card_le (SortedMap.keys copies)
      have size : (SortedMap.keys copies).length = SortedMap.size copies := List.length_map _
      omega
    have maps : ∀ i ∈ Finset.range (k + 1),
        copies.source^[i] t ∈ (SortedMap.keys copies).toFinset := by
      intro i hi
      rw [List.mem_toFinset]
      exact all i (by simpa [Nat.lt_succ_iff] using hi)
    obtain ⟨i, hi, j, hj, ne, same⟩ := Finset.exists_ne_map_eq_of_card_lt_of_maps_to card maps
    have circle : ∀ {i j : Nat}, i < j → j ≤ k → copies.source^[i] t = copies.source^[j] t →
        copies.source^[k] t ∈ periodicPts copies.source := by
      intro i j lt le same
      have period : IsPeriodicPt copies.source (j - i) (copies.source^[i] t) := by
        show copies.source^[j - i] (copies.source^[i] t) = copies.source^[i] t
        rw [← iterate_add_apply, Nat.sub_add_cancel lt.le, same]
      have later := period.apply_iterate (k - i)
      rw [← iterate_add_apply, Nat.sub_add_cancel (lt.le.trans le)] at later
      exact mk_mem_periodicPts (Nat.sub_pos_of_lt lt) later
    rw [Finset.mem_range, Nat.lt_succ_iff] at hi hj
    rcases Nat.lt_or_gt_of_ne ne with lt | gt
    · exact circle lt hj same
    · exact circle gt hi same.symm
  · push Not at all
    obtain ⟨i, le, last⟩ := all
    have stays : SortedMap.get? copies (copies.source^[i] t) = none := by
      rw [Option.eq_none_iff_forall_ne_some]
      intro v found
      exact last (SortedMap.mem_keys.2 ⟨v, found⟩)
    have there : copies.source^[k] t = copies.source^[i] t := by
      rw [← Nat.sub_add_cancel le, iterate_add_apply, iterate_of_none stays]
    rw [there]
    exact mk_mem_periodicPts Nat.one_pos (source_of_none stays)

end Copies

namespace FlowGraph

variable {g : FlowGraph} {d s t : Temp}

/-! ## The copies of a procedure -/

/-- A temporary with one definition is defined by one instruction. -/
theorem eq_of_definedOnce (once : g.definedOnce d = true) {i j : Instr} (hi : i ∈ g.code)
    (hj : j ∈ g.code) (di : i.def? = some d) (dj : j.def? = some d) : i = j := by
  have count : (g.code.filterMap Instr.def?).count d ≤ 1 := by
    have le := of_decide_eq_true once
    rw [List.count_append] at le
    exact (Nat.le_add_left _ _).trans le
  generalize g.code = code at count hi hj
  have later : ∀ {rest : List Instr} {k : Instr}, k ∈ rest → k.def? = some d →
      0 < (rest.filterMap Instr.def?).count d := by
    intro rest k hk dk
    exact List.count_pos_iff.2 (List.mem_filterMap.2 ⟨k, hk, dk⟩)
  induction code with
  | nil => cases hi
  | cons k rest ih =>
    rcases List.mem_cons.1 hi with rfl | hi' <;> rcases List.mem_cons.1 hj with rfl | hj'
    · rfl
    · rw [List.filterMap_cons_some di, List.count_cons_self] at count
      have := later hj' dj
      omega
    · rw [List.filterMap_cons_some dj, List.count_cons_self] at count
      have := later hi' di
      omega
    · refine ih ?_ hi' hj'
      cases dk : k.def? with
      | none => rwa [List.filterMap_cons_none dk] at count
      | some e =>
        rw [List.filterMap_cons_some dk] at count
        exact List.count_le_count_cons.trans count

/-- The copies that are followed in the whole procedure: between temporaries that have one
definition each. -/
theorem get?_copies : SortedMap.get? g.copies d = some s ↔
    (g.definedOnce d = true ∧ g.definedOnce s = true) ∧
      ∃ i ∈ g.code, i.tempCopy? = some (d, s) := by
  have listed : ∀ {d s : Temp}, (d, s) ∈ (g.code.filterMap Instr.tempCopy?).filter
      (fun e => g.definedOnce e.1 && g.definedOnce e.2) ↔
      (g.definedOnce d = true ∧ g.definedOnce s = true) ∧
        ∃ i ∈ g.code, i.tempCopy? = some (d, s) := by
    intro d s
    rw [List.mem_filter, List.mem_filterMap, Bool.and_eq_true]
    exact and_comm
  constructor
  · intro found
    exact listed.1 (SortedMap.mem_of_get?_ofList found)
  · rintro ⟨once, i, hi, copy⟩
    refine SortedMap.get?_ofList_of_mem (listed.2 ⟨once, i, hi, copy⟩) fun w hw => ?_
    obtain ⟨-, j, hj, copy'⟩ := listed.1 hw
    obtain rfl := eq_of_definedOnce once.1 hi hj (Instr.def?_of_tempCopy? copy).1
      (Instr.def?_of_tempCopy? copy').1
    rw [copy] at copy'
    cases copy'
    rfl

/-- Sources of temporaries that have one definition have one definition. -/
theorem definedOnce_iterate (once : g.definedOnce t = true) (k : Nat) :
    g.definedOnce (g.copies.source^[k] t) = true := by
  induction k generalizing t with
  | zero => exact once
  | succ k ih =>
    rw [iterate_succ_apply]
    cases found : SortedMap.get? g.copies t with
    | none =>
      rw [Copies.source_of_none found]
      exact ih once
    | some s =>
      rw [Copies.source_of_some found]
      exact ih (get?_copies.1 found).1.2

/-! ## The copies behind the propagation -/

theorem code_propagateGlobally :
    g.propagateGlobally.code = g.code.map (Instr.mapReads g.copies.resolve) := by
  simp only [propagateGlobally, mapInstrs, mapBodies, code, List.flatMap_map, List.map_flatMap]

theorem definedOnce_propagateGlobally (t : Temp) :
    g.propagateGlobally.definedOnce t = g.definedOnce t := by
  have defs : g.propagateGlobally.defs = g.defs := by
    rw [FlowGraph.defs, code_propagateGlobally, List.filterMap_map]
    exact List.filterMap_congr fun i _ => Instr.def?_mapReads _ i
  rw [definedOnce, definedOnce, defs]
  rfl

/-- A copy reads another source behind the propagation. -/
theorem tempCopy?_mapReads {f : Temp → Temp} {i : Instr} {w : Temp} :
    (i.mapReads f).tempCopy? = some (d, w) ↔ ∃ dest src s, i = .copy dest src ∧
      dest.named? = some d ∧ src.named? = some s ∧ f s = w ∧ w.isSink = false ∧ d ≠ w := by
  constructor
  · intro copy
    have plain : i.isPhi = false :=
      (Instr.isPhi_mapReads f i).symm.trans (Instr.def?_of_tempCopy? copy).2.2
    rw [Instr.mapReads_of_plain plain] at copy
    obtain ⟨dest, src, s, rfl, hd, hs, rfl, ne⟩ := Instr.exists_of_tempCopy?_mapUses copy
    obtain ⟨_, v, same, -, hv, -⟩ := Instr.tempCopy?_eq_some.1 copy
    exact ⟨dest, src, s, rfl, hd, hs, rfl, (Var.not_isSink_of_named hv).2, ne⟩
  · rintro ⟨dest, src, s, rfl, hd, hs, rfl, named, ne⟩
    refine Instr.tempCopy?_eq_some.2 ⟨dest, .temp (f s), ?_, hd, ?_, ne⟩
    · simp [Instr.mapReads, Instr.mapUses, Instr.mapPhiArgs, Var.rename, hs]
    · simp [Var.named?, named]

/-- One step along a copy behind the propagation is as many steps before it as there are copies, and
two more. -/
theorem source_propagateGlobally (g : FlowGraph) (t : Temp) :
    g.propagateGlobally.copies.source t = g.copies.source^[SortedMap.size g.copies + 2] t := by
  cases found : SortedMap.get? g.copies t with
  | none =>
    -- no copy comes up
    rw [Copies.iterate_of_none found]
    refine Copies.source_of_none (Option.eq_none_iff_forall_ne_some.2 fun w found' => ?_)
    obtain ⟨⟨once, once'⟩, i', hi', copy'⟩ := get?_copies.1 found'
    rw [definedOnce_propagateGlobally] at once once'
    rw [code_propagateGlobally] at hi'
    obtain ⟨i, hi, rfl⟩ := List.mem_map.1 hi'
    obtain ⟨dest, src, s, rfl, hd, hs, rfl, -, ne⟩ := tempCopy?_mapReads.1 copy'
    have stays : g.copies.resolve t = t := by
      rw [Copies.resolve_eq, Copies.iterate_of_none found]
    by_cases self : t = s
    · rw [← self] at ne
      exact ne stays.symm
    · have old : SortedMap.get? g.copies t = some s := by
        have copy : (Instr.copy dest src).tempCopy? = some (t, s) :=
          Instr.tempCopy?_eq_some.2 ⟨dest, src, rfl, hd, hs, self⟩
        refine get?_copies.2 ⟨⟨once, ?_⟩, _, hi, copy⟩
        cases source : SortedMap.get? g.copies s with
        | some r => exact (get?_copies.1 source).1.1
        | none => rwa [Copies.resolve_eq, Copies.iterate_of_none source] at once'
      rw [found] at old
      cases old
  | some s =>
    obtain ⟨⟨once, once'⟩, i, hi, copy⟩ := get?_copies.1 found
    obtain ⟨dest, src, rfl, hd, hs, -⟩ := Instr.tempCopy?_eq_some.1 copy
    have there : g.copies.source^[SortedMap.size g.copies + 2] t = g.copies.resolve s := by
      rw [iterate_succ_apply, Copies.source_of_some found, Copies.resolve_eq]
    have once'' : g.definedOnce (g.copies.resolve s) = true := by
      rw [Copies.resolve_eq]
      exact definedOnce_iterate once' _
    have hi' : (Instr.copy dest src).mapReads g.copies.resolve ∈ g.propagateGlobally.code := by
      rw [code_propagateGlobally]
      exact List.mem_map_of_mem hi
    rw [there]
    by_cases self : t = g.copies.resolve s
    · -- the copy has become one of a temporary to itself
      rw [← self]
      refine Copies.source_of_none (Option.eq_none_iff_forall_ne_some.2 fun w found' => ?_)
      obtain ⟨-, j, hj, copy'⟩ := get?_copies.1 found'
      obtain rfl := eq_of_definedOnce (by rwa [definedOnce_propagateGlobally]) hj hi'
        (Instr.def?_of_tempCopy? copy').1 ((Instr.def?_mapReads _ _).trans hd)
      obtain ⟨_, _, s', same, -, hs', rfl, -, ne⟩ := tempCopy?_mapReads.1 copy'
      cases same
      cases hs.symm.trans hs'
      exact ne self
    · refine Copies.source_of_some (get?_copies.2 ⟨⟨?_, ?_⟩, _, hi', ?_⟩)
      · rwa [definedOnce_propagateGlobally]
      · rwa [definedOnce_propagateGlobally]
      · refine tempCopy?_mapReads.2 ⟨dest, src, s, rfl, hd, hs, rfl, ?_, self⟩
        rcases resolve_copies g s with same | chain
        · rw [same]
          exact (Var.not_isSink_of_named hs).2
        · exact chain.not_isSink

end FlowGraph

end ThreeAddress
