import Mathlib.Data.List.Induction
import Mathlib.Data.List.Nodup
/-!
# More about lists

* `split_of_concat` : where a member of a list with one more at its end stands;
* `exists_last_of_mem` : the last place of a member of a list;
* `idxOf?_eq_some_iff_getElem?` : the places of the members of a list without repetition;
* `le_foldl_max`, `foldl_max_mem` : the greatest of a list of numbers.
-/

namespace ThreeAddress

section Places

variable {α : Type} {before front back l : List α} {a b : α}

/-- In a list with one more member at its end, a member is that one or stands in front. -/
theorem split_of_concat (h : before ++ [a] = front ++ b :: back) :
    (before = front ∧ a = b ∧ back = []) ∨
      ∃ back', back = back' ++ [a] ∧ before = front ++ b :: back' := by
  rcases List.eq_nil_or_concat' back with rfl | ⟨back', c, rfl⟩
  · obtain ⟨same, last⟩ := List.append_inj' h rfl
    exact .inl ⟨same, List.singleton_inj.1 last, rfl⟩
  · rw [← List.cons_append, ← List.append_assoc] at h
    obtain ⟨same, last⟩ := List.append_inj' h rfl
    obtain rfl := List.singleton_inj.1 last
    exact .inr ⟨back', rfl, same⟩

/-- A member of a list has a last place in it. -/
theorem exists_last_of_mem (h : a ∈ l) : ∃ front back, l = front ++ a :: back ∧ a ∉ back := by
  obtain ⟨back, front, split, new⟩ := List.eq_append_cons_of_mem (List.mem_reverse.2 h)
  refine ⟨front.reverse, back.reverse, ?_, fun mem => new (List.mem_reverse.1 mem)⟩
  rw [← List.reverse_reverse l, split]
  simp

/-- The place of an element in a list without repetition. -/
theorem idxOf?_eq_some_iff_getElem? [DecidableEq α] (nodup : l.Nodup) {n : Nat} :
    l.idxOf? a = some n ↔ l[n]? = some a := by
  constructor
  · intro h
    obtain ⟨bound, same, -⟩ := List.idxOf?_eq_some_iff.1 h
    rw [List.getElem?_eq_getElem bound, same]
  · intro h
    obtain ⟨bound, same⟩ := List.getElem?_eq_some_iff.1 h
    refine List.idxOf?_eq_some_iff.2 ⟨bound, same, fun m lt same' => ?_⟩
    have := (nodup.getElem_inj_iff).1 (same'.trans same.symm)
    omega

end Places

section Greatest

variable {n least : Nat} {l : List Nat}

/-- A fold of maxima is not below the numbers. -/
theorem le_foldl_max (h : n ≤ least ∨ n ∈ l) : n ≤ l.foldl max least := by
  induction l generalizing least with
  | nil => simpa using h
  | cons m l ih =>
    refine ih ?_
    rcases h with h | h
    · exact .inl (Nat.le_trans h (Nat.le_max_left _ _))
    · rcases List.mem_cons.1 h with rfl | h
      · exact .inl (Nat.le_max_right _ _)
      · exact .inr h

/-- A fold of maxima is one of the numbers. -/
theorem foldl_max_mem (l : List Nat) (least : Nat) :
    l.foldl max least = least ∨ l.foldl max least ∈ l := by
  induction l generalizing least with
  | nil => exact .inl rfl
  | cons m l ih =>
    rw [List.foldl_cons]
    rcases ih (max least m) with same | mem
    · rcases Nat.le_total m least with le | le
      · exact .inl (same.trans (Nat.max_eq_left le))
      · right
        rw [same, Nat.max_eq_right le]
        exact List.mem_cons_self
    · exact .inr (List.mem_cons_of_mem _ mem)

end Greatest

end ThreeAddress
