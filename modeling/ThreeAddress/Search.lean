/-!
# Searches

* `firstRepeated?` : the first element of a list that occurred before;
* `firstFree` : the first number from a start on that is not taken. It looks at a bounded count of
  numbers before it gives up, which is enough when no more than so many are taken
  (`taken_firstFree`).
-/

namespace ThreeAddress

/-- The first element of a list that occurred before it, or among the given elements. -/
def firstRepeated? {α : Type} [DecidableEq α] (before : List α) : List α → Option α
  | [] => none
  | a :: rest => if a ∈ before then some a else firstRepeated? (a :: before) rest

/-- The first number from `start` on that is not taken, among `bound` numbers and the next. -/
def firstFree (taken : Nat → Bool) : (bound : Nat) → (start : Nat) → Nat
  | 0, start => start
  | bound + 1, start => if taken start then firstFree taken bound (start + 1) else start

theorem start_le_firstFree (taken : Nat → Bool) (bound start : Nat) :
    start ≤ firstFree taken bound start := by
  induction bound generalizing start with
  | zero => exact Nat.le_refl _
  | succ bound ih =>
    rw [firstFree]
    split
    · exact Nat.le_of_succ_le (ih (start + 1))
    · exact Nat.le_refl _

theorem firstFree_le (taken : Nat → Bool) (bound start : Nat) :
    firstFree taken bound start ≤ start + bound := by
  induction bound generalizing start with
  | zero => exact Nat.le_refl _
  | succ bound ih =>
    rw [firstFree]
    split
    · have := ih (start + 1)
      omega
    · exact Nat.le_add_right _ _

theorem taken_of_lt_firstFree {taken : Nat → Bool} {bound start n : Nat}
    (h₁ : start ≤ n) (h₂ : n < firstFree taken bound start) : taken n = true := by
  induction bound generalizing start with
  | zero =>
    rw [firstFree] at h₂
    omega
  | succ bound ih =>
    rw [firstFree] at h₂
    split at h₂
    · next ht =>
      rcases Nat.eq_or_lt_of_le h₁ with rfl | h
      · exact ht
      · exact ih h h₂
    · omega

/-- When the taken numbers from `start` on stand in a list of at most `bound` numbers, the number
found is free. -/
theorem taken_firstFree {taken : Nat → Bool} {bound start : Nat} (l : List Nat)
    (hl : ∀ n, start ≤ n → taken n = true → n ∈ l) (hb : l.length ≤ bound) :
    taken (firstFree taken bound start) = false := by
  induction bound generalizing start l with
  | zero =>
    rw [firstFree]
    cases h : taken start with
    | false => rfl
    | true =>
      have := hl start (Nat.le_refl _) h
      simp [List.length_eq_zero_iff.1 (Nat.le_zero.1 hb)] at this
  | succ bound ih =>
    rw [firstFree]
    split
    · next h =>
      refine ih (l.erase start) (fun n hn ht => ?_) ?_
      · exact (List.mem_erase_of_ne (by omega)).2 (hl n (by omega) ht)
      · have := hl start (Nat.le_refl _) h
        rw [List.length_erase_of_mem this]
        omega
    · next h => simpa using h

end ThreeAddress
