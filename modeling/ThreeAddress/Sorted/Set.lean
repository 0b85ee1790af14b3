/-!
# Finite sets as ascending lists

A `SortedSet` is the list of its members in ascending order, so that two sets with the same
members are equal (`SortedSet.ext`) and a set is always listed in the order of its type.

* `insert`, `erase`, `union`, `filter`, `ofList` : the operations;
* `mem_insert`, `mem_erase`, `mem_union`, `mem_filter`, `mem_ofList` : what each does to membership.
-/

set_option linter.unusedSectionVars false

namespace ThreeAddress

/-- A finite set, listed in ascending order without repetition. -/
structure SortedSet (α : Type) [Ord α] where
  /-- The members in ascending order. -/
  toList : List α
  /-- Each member is below all that follow it. -/
  ascending : toList.Pairwise (compare · · = .lt)

namespace SortedSet

variable {α : Type} [Ord α]

instance [DecidableEq α] : DecidableEq (SortedSet α) := fun s t =>
  decidable_of_iff (s.toList = t.toList) (by cases s; cases t; simp)

instance : Membership α (SortedSet α) := ⟨fun s a => a ∈ s.toList⟩

instance : EmptyCollection (SortedSet α) := ⟨⟨[], .nil⟩⟩

instance : Inhabited (SortedSet α) := ⟨∅⟩

theorem mem_iff {s : SortedSet α} {a : α} : a ∈ s ↔ a ∈ s.toList := Iff.rfl

@[simp] theorem toList_empty : (∅ : SortedSet α).toList = [] := rfl

@[simp] theorem not_mem_empty (a : α) : a ∉ (∅ : SortedSet α) := List.not_mem_nil

/-! ## Operations on ascending lists -/

/-- Put `a` at its place, unless it is there already. -/
def insertAt (a : α) : List α → List α
  | [] => [a]
  | b :: rest =>
    match compare a b with
    | .lt => a :: b :: rest
    | .eq => b :: rest
    | .gt => b :: insertAt a rest

/-- Take `a` out of a list. -/
def eraseFrom (a : α) : List α → List α
  | [] => []
  | b :: rest => if compare a b = .eq then rest else b :: eraseFrom a rest

/-- Look for `a`, stopping at the first larger member. -/
def search (a : α) : List α → Bool
  | [] => false
  | b :: rest =>
    match compare a b with
    | .lt => false
    | .eq => true
    | .gt => search a rest

/-- Place `a`, then hand what follows it to `others`, which merges the members above `a`. -/
def mergeBehind (a : α) (others : List α → List α) : List α → List α
  | [] => a :: others []
  | b :: rest =>
    match compare a b with
    | .lt => a :: others (b :: rest)
    | .eq => a :: others rest
    | .gt => b :: mergeBehind a others rest

/-- The members of two ascending lists in one ascending list. -/
def merge : List α → List α → List α
  | [] => id
  | a :: rest => mergeBehind a (merge rest)

variable [Std.TransOrd α] [Std.LawfulEqOrd α]

theorem mem_insertAt {a x : α} {l : List α} : x ∈ insertAt a l ↔ x = a ∨ x ∈ l := by
  induction l with
  | nil => simp [insertAt]
  | cons b rest ih =>
    rw [insertAt]
    split
    · simp
    · next h =>
      rw [Std.LawfulEqOrd.eq_of_compare h]
      simp
    · simp only [List.mem_cons, ih]
      constructor
      · rintro (h | h | h) <;> simp [h]
      · rintro (h | h | h) <;> simp [h]

theorem insertAt_ascending {a : α} {l : List α} (h : l.Pairwise (compare · · = .lt)) :
    (insertAt a l).Pairwise (compare · · = .lt) := by
  induction l with
  | nil => simp [insertAt]
  | cons b rest ih =>
    have ⟨above, tail⟩ := List.pairwise_cons.1 h
    rw [insertAt]
    split
    · next lt =>
      refine List.pairwise_cons.2 ⟨fun x hx => ?_, h⟩
      rcases List.mem_cons.1 hx with rfl | hx
      · exact lt
      · exact Std.TransCmp.lt_trans lt (above x hx)
    · exact h
    · next gt =>
      refine List.pairwise_cons.2 ⟨fun x hx => ?_, ih tail⟩
      rcases mem_insertAt.1 hx with rfl | hx
      · exact Std.OrientedCmp.lt_of_gt gt
      · exact above x hx

theorem mem_eraseFrom {a x : α} {l : List α} (h : l.Pairwise (compare · · = .lt)) :
    x ∈ eraseFrom a l ↔ x ≠ a ∧ x ∈ l := by
  induction l with
  | nil => simp [eraseFrom]
  | cons b rest ih =>
    have ⟨above, tail⟩ := List.pairwise_cons.1 h
    rw [eraseFrom]
    split
    · next eq =>
      cases Std.LawfulEqOrd.eq_of_compare eq
      constructor
      · intro hx
        refine ⟨?_, List.mem_cons_of_mem _ hx⟩
        rintro rfl
        have := above x hx
        simp at this
      · rintro ⟨ne, hx⟩
        exact (List.mem_cons.1 hx).resolve_left ne
    · next ne =>
      simp only [List.mem_cons, ih tail]
      constructor
      · rintro (rfl | ⟨h₁, h₂⟩)
        · exact ⟨fun e => ne (by simp [e]), Or.inl rfl⟩
        · exact ⟨h₁, Or.inr h₂⟩
      · rintro ⟨h₁, h₂ | h₂⟩
        · exact Or.inl h₂
        · exact Or.inr ⟨h₁, h₂⟩

theorem eraseFrom_sublist (a : α) (l : List α) : (eraseFrom a l).Sublist l := by
  induction l with
  | nil => simp [eraseFrom]
  | cons b rest ih =>
    rw [eraseFrom]
    split
    · exact List.sublist_cons_self b rest
    · exact ih.cons_cons b

theorem search_eq_true {a : α} {l : List α} (h : l.Pairwise (compare · · = .lt)) :
    search a l = true ↔ a ∈ l := by
  induction l with
  | nil => simp [search]
  | cons b rest ih =>
    have ⟨above, tail⟩ := List.pairwise_cons.1 h
    rw [search]
    split
    · next lt =>
      simp only [Bool.false_eq_true, List.mem_cons, false_iff, not_or]
      refine ⟨fun e => by simp [e] at lt, fun hx => ?_⟩
      have := Std.TransCmp.lt_trans lt (above a hx)
      simp at this
    · next eq => simp [Std.LawfulEqOrd.eq_of_compare eq]
    · next gt =>
      rw [ih tail, List.mem_cons]
      exact ⟨Or.inr, fun h => h.resolve_left fun e => by simp [e] at gt⟩

theorem mem_merge {x : α} {k l : List α} : x ∈ merge k l ↔ x ∈ k ∨ x ∈ l := by
  induction k generalizing l with
  | nil => simp [merge]
  | cons a rest ih =>
    rw [merge]
    induction l with
    | nil => simp [mergeBehind, ih]
    | cons b more ih' =>
      rw [mergeBehind]
      split
      · simp [ih, or_assoc]
      · next eq =>
        simp only [List.mem_cons, ih, Std.LawfulEqOrd.eq_of_compare eq]
        constructor
        · rintro (h | h | h) <;> simp [h]
        · rintro ((h | h) | h | h) <;> simp [h]
      · simp only [List.mem_cons, ih']
        constructor
        · rintro (h | (h | h) | h) <;> simp [h]
        · rintro ((h | h) | h | h) <;> simp [h]

theorem merge_ascending {k l : List α} (hk : k.Pairwise (compare · · = .lt))
    (hl : l.Pairwise (compare · · = .lt)) : (merge k l).Pairwise (compare · · = .lt) := by
  induction k generalizing l with
  | nil => exact hl
  | cons a rest ih =>
    have ⟨aboveA, tailA⟩ := List.pairwise_cons.1 hk
    rw [merge]
    induction l with
    | nil =>
      refine List.pairwise_cons.2 ⟨fun x hx => ?_, ih tailA hl⟩
      exact aboveA x (by simpa using mem_merge.1 hx)
    | cons b more ih' =>
      have ⟨aboveB, tailB⟩ := List.pairwise_cons.1 hl
      rw [mergeBehind]
      split
      · next lt =>
        refine List.pairwise_cons.2 ⟨fun x hx => ?_, ih tailA hl⟩
        rcases mem_merge.1 hx with hx | hx
        · exact aboveA x hx
        rcases List.mem_cons.1 hx with rfl | hx
        · exact lt
        · exact Std.TransCmp.lt_trans lt (aboveB x hx)
      · next eq =>
        cases Std.LawfulEqOrd.eq_of_compare eq
        refine List.pairwise_cons.2 ⟨fun x hx => ?_, ih tailA tailB⟩
        rcases mem_merge.1 hx with hx | hx
        · exact aboveA x hx
        · exact aboveB x hx
      · next gt =>
        refine List.pairwise_cons.2 ⟨fun x hx => ?_, ih' tailB⟩
        have below : compare b a = .lt := Std.OrientedCmp.lt_of_gt gt
        rcases mem_merge (k := a :: rest).1 hx with hx | hx
        · rcases List.mem_cons.1 hx with rfl | hx
          · exact below
          · exact Std.TransCmp.lt_trans below (aboveA x hx)
        · exact aboveB x hx

/-! ## The operations of a set -/

/-- Add a member. -/
def insert (s : SortedSet α) (a : α) : SortedSet α := ⟨insertAt a s.toList, insertAt_ascending s.ascending⟩

/-- Remove a member. -/
def erase (s : SortedSet α) (a : α) : SortedSet α :=
  ⟨eraseFrom a s.toList, s.ascending.sublist (eraseFrom_sublist a s.toList)⟩

/-- Is `a` a member? -/
def contains (s : SortedSet α) (a : α) : Bool := search a s.toList

/-- The members of either set. -/
def union (s t : SortedSet α) : SortedSet α := ⟨merge s.toList t.toList, merge_ascending s.ascending t.ascending⟩

/-- The members that satisfy a test. -/
def filter (s : SortedSet α) (p : α → Bool) : SortedSet α :=
  ⟨s.toList.filter p, s.ascending.sublist List.filter_sublist⟩

/-- The set of the members of a list. -/
def ofList (l : List α) : SortedSet α := l.foldl insert ∅

/-- The number of members. -/
def size (s : SortedSet α) : Nat := s.toList.length

@[simp] theorem mem_insert {s : SortedSet α} {a x : α} : x ∈ s.insert a ↔ x = a ∨ x ∈ s := mem_insertAt

@[simp] theorem mem_erase {s : SortedSet α} {a x : α} : x ∈ s.erase a ↔ x ≠ a ∧ x ∈ s :=
  mem_eraseFrom s.ascending

@[simp] theorem contains_eq_true {s : SortedSet α} {a : α} : s.contains a = true ↔ a ∈ s :=
  search_eq_true s.ascending

@[simp] theorem mem_union {s t : SortedSet α} {x : α} : x ∈ s.union t ↔ x ∈ s ∨ x ∈ t := mem_merge

@[simp] theorem mem_filter {s : SortedSet α} {p : α → Bool} {x : α} :
    x ∈ s.filter p ↔ x ∈ s ∧ p x = true := List.mem_filter

theorem mem_foldl_insert {l : List α} {s : SortedSet α} {x : α} :
    x ∈ l.foldl insert s ↔ x ∈ l ∨ x ∈ s := by
  induction l generalizing s with
  | nil => simp
  | cons a rest ih =>
    rw [List.foldl_cons, ih, mem_insert, List.mem_cons]
    constructor
    · rintro (h | h | h) <;> simp [h]
    · rintro ((h | h) | h) <;> simp [h]

@[simp] theorem mem_ofList {l : List α} {x : α} : x ∈ ofList l ↔ x ∈ l := by
  simp [ofList, mem_foldl_insert]

instance (s : SortedSet α) (a : α) : Decidable (a ∈ s) := decidable_of_iff _ contains_eq_true

/-- Two ascending lists with the same members are equal. -/
theorem eq_of_ascending {k l : List α} (hk : k.Pairwise (compare · · = .lt))
    (hl : l.Pairwise (compare · · = .lt)) (h : ∀ x, x ∈ k ↔ x ∈ l) : k = l := by
  induction k generalizing l with
  | nil =>
    cases l with
    | nil => rfl
    | cons b more => simpa using h b
  | cons a rest ih =>
    cases l with
    | nil => simpa using h a
    | cons b more =>
      have ⟨aboveA, tailA⟩ := List.pairwise_cons.1 hk
      have ⟨aboveB, tailB⟩ := List.pairwise_cons.1 hl
      have irrefl : ∀ x : α, ¬ compare x x = .lt := fun x => by simp
      have heads : a = b := by
        rcases List.mem_cons.1 ((h a).1 List.mem_cons_self) with e | ha
        · exact e
        rcases List.mem_cons.1 ((h b).2 List.mem_cons_self) with e | hb
        · exact e.symm
        exact absurd (Std.TransCmp.lt_trans (aboveB a ha) (aboveA b hb)) (irrefl b)
      subst heads
      refine congrArg (a :: ·) (ih tailA tailB fun x => ?_)
      constructor
      · intro hx
        refine (List.mem_cons.1 ((h x).1 (List.mem_cons_of_mem _ hx))).resolve_left ?_
        rintro rfl
        exact irrefl x (aboveA x hx)
      · intro hx
        refine (List.mem_cons.1 ((h x).2 (List.mem_cons_of_mem _ hx))).resolve_left ?_
        rintro rfl
        exact irrefl x (aboveB x hx)

/-- Two sets with the same members are equal. -/
theorem ext {s t : SortedSet α} (h : ∀ x, x ∈ s ↔ x ∈ t) : s = t := by
  cases s with
  | mk k hk =>
    cases t with
    | mk l hl =>
      cases eq_of_ascending hk hl h
      rfl

/-- A set lists no member twice. -/
theorem nodup_toList (s : SortedSet α) : s.toList.Nodup :=
  s.ascending.imp fun h e => by simp [e] at h

end SortedSet

end ThreeAddress
