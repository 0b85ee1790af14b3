import ThreeAddress.Sorted.Set
/-!
# Finite maps as ascending lists of entries

A `SortedMap` is the list of its entries in ascending order of their keys: it is listed in the
order of the type of its keys, and two maps that give every key the same value are equal.

* `get?`, `insert`, `erase`, `map`, `ofList` : the operations;
* `get?_insert`, `get?_erase`, `get?_map`, `get?_eq_some` : what each does to `get?`.
-/

set_option linter.unusedSectionVars false

namespace ThreeAddress

/-- A finite map, listed in ascending order of its keys. -/
structure SortedMap (κ : Type) [Ord κ] (ν : Type) where
  /-- The entries in ascending order of their keys. -/
  toList : List (κ × ν)
  /-- Each key is below all that follow it. -/
  ascending : toList.Pairwise (fun e f => compare e.1 f.1 = .lt)

namespace SortedMap

variable {κ ν μ : Type} [Ord κ]

instance [DecidableEq κ] [DecidableEq ν] : DecidableEq (SortedMap κ ν) := fun s t =>
  decidable_of_iff (s.toList = t.toList) (by cases s; cases t; simp)

instance : EmptyCollection (SortedMap κ ν) := ⟨⟨[], .nil⟩⟩

instance : Inhabited (SortedMap κ ν) := ⟨∅⟩

@[simp] theorem toList_empty : (∅ : SortedMap κ ν).toList = [] := rfl

/-! ## Operations on ascending lists of entries -/

/-- Write the value of `k`, at its place. -/
def insertAt (k : κ) (v : ν) : List (κ × ν) → List (κ × ν)
  | [] => [(k, v)]
  | e :: rest =>
    match compare k e.1 with
    | .lt => (k, v) :: e :: rest
    | .eq => (k, v) :: rest
    | .gt => e :: insertAt k v rest

/-- Look for the value of `k`, stopping at the first larger key. -/
def search (k : κ) : List (κ × ν) → Option ν
  | [] => none
  | e :: rest =>
    match compare k e.1 with
    | .lt => none
    | .eq => some e.2
    | .gt => search k rest

/-- Take the entry of `k` out. -/
def eraseFrom (k : κ) : List (κ × ν) → List (κ × ν)
  | [] => []
  | e :: rest => if compare k e.1 = .eq then rest else e :: eraseFrom k rest

theorem eraseFrom_sublist (k : κ) (l : List (κ × ν)) : (eraseFrom k l).Sublist l := by
  induction l with
  | nil => simp [eraseFrom]
  | cons e rest ih =>
    rw [eraseFrom]
    split
    · exact List.sublist_cons_self e rest
    · exact ih.cons_cons e

variable [Std.TransOrd κ] [Std.LawfulEqOrd κ]

theorem key_of_mem_insertAt {k : κ} {v : ν} {l : List (κ × ν)} {e : κ × ν}
    (h : e ∈ insertAt k v l) : e.1 = k ∨ e ∈ l := by
  induction l with
  | nil => simp_all [insertAt]
  | cons f rest ih =>
    rw [insertAt] at h
    split at h
    · rcases List.mem_cons.1 h with rfl | h
      · exact Or.inl rfl
      · exact Or.inr h
    · rcases List.mem_cons.1 h with rfl | h
      · exact Or.inl rfl
      · exact Or.inr (List.mem_cons_of_mem _ h)
    · rcases List.mem_cons.1 h with rfl | h
      · exact Or.inr List.mem_cons_self
      · exact (ih h).imp_right (List.mem_cons_of_mem _)

theorem insertAt_ascending {k : κ} {v : ν} {l : List (κ × ν)}
    (h : l.Pairwise (fun e f => compare e.1 f.1 = .lt)) :
    (insertAt k v l).Pairwise (fun e f => compare e.1 f.1 = .lt) := by
  induction l with
  | nil => simp [insertAt]
  | cons f rest ih =>
    have ⟨above, tail⟩ := List.pairwise_cons.1 h
    rw [insertAt]
    split
    · next lt =>
      refine List.pairwise_cons.2 ⟨fun x hx => ?_, h⟩
      rcases List.mem_cons.1 hx with rfl | hx
      · exact lt
      · exact Std.TransCmp.lt_trans lt (above x hx)
    · next eq =>
      refine List.pairwise_cons.2 ⟨fun x hx => ?_, tail⟩
      rw [Std.LawfulEqOrd.eq_of_compare eq]
      exact above x hx
    · next gt =>
      refine List.pairwise_cons.2 ⟨fun x hx => ?_, ih tail⟩
      rcases key_of_mem_insertAt hx with e | hx
      · rw [e]
        exact Std.OrientedCmp.lt_of_gt gt
      · exact above x hx

theorem search_eq_some {k : κ} {v : ν} {l : List (κ × ν)}
    (h : l.Pairwise (fun e f => compare e.1 f.1 = .lt)) : search k l = some v ↔ (k, v) ∈ l := by
  induction l with
  | nil => simp [search]
  | cons f rest ih =>
    have ⟨above, tail⟩ := List.pairwise_cons.1 h
    rw [search]
    split
    · next lt =>
      simp only [reduceCtorEq, List.mem_cons, false_iff, not_or]
      refine ⟨fun e => by simp [← e] at lt, fun hx => ?_⟩
      have := Std.TransCmp.lt_trans lt (above _ hx)
      simp at this
    · next eq =>
      cases Std.LawfulEqOrd.eq_of_compare eq
      constructor
      · rintro ⟨⟩
        exact List.mem_cons_self
      · intro hx
        rcases List.mem_cons.1 hx with e | hx
        · rw [← e]
        · have := above _ hx
          simp at this
    · next gt =>
      rw [ih tail, List.mem_cons]
      exact ⟨Or.inr, fun h => h.resolve_left fun e => by simp [← e] at gt⟩

theorem search_insertAt {k x : κ} {v : ν} {l : List (κ × ν)} :
    search x (insertAt k v l) = if compare x k = .eq then some v else search x l := by
  induction l with
  | nil =>
    simp only [insertAt, search]
    cases h : compare x k <;> simp
  | cons f rest ih =>
    rw [insertAt]
    split
    · next lt =>
      simp only [search]
      cases h : compare x k
      · simp [Std.TransCmp.lt_trans h lt]
      · simp
      · simp
    · next eq =>
      cases Std.LawfulEqOrd.eq_of_compare eq
      simp only [search]
      cases h : compare x f.1 <;> simp
    · next gt =>
      simp only [search, ih]
      cases h : compare x f.1
      · have := Std.TransCmp.lt_trans h (Std.OrientedCmp.lt_of_gt gt)
        simp [this]
      · cases Std.LawfulEqOrd.eq_of_compare h
        simp [Std.OrientedCmp.lt_of_gt gt]
      · simp

theorem search_eraseFrom {k x : κ} {l : List (κ × ν)}
    (h : l.Pairwise (fun e f => compare e.1 f.1 = .lt)) :
    search x (eraseFrom k l) = if compare x k = .eq then none else search x l := by
  induction l with
  | nil => simp [eraseFrom, search]
  | cons f rest ih =>
    have ⟨above, tail⟩ := List.pairwise_cons.1 h
    rw [eraseFrom]
    split
    · next eq =>
      cases Std.LawfulEqOrd.eq_of_compare eq
      split
      · next hx =>
        cases Std.LawfulEqOrd.eq_of_compare hx
        rw [Option.eq_none_iff_forall_ne_some]
        intro v hv
        have := above _ ((search_eq_some tail).1 hv)
        simp at this
      · next hx =>
        rw [search]
        cases c : compare x f.1
        · simp only
          rw [Option.eq_none_iff_forall_ne_some]
          intro v hv
          have := Std.TransCmp.lt_trans c (above _ ((search_eq_some tail).1 hv))
          simp at this
        · exact absurd c hx
        · rfl
    · next ne =>
      simp only [search, ih tail]
      cases c : compare x f.1
      · simp
      · cases Std.LawfulEqOrd.eq_of_compare c
        have : ¬ compare f.1 k = .eq := fun e => ne (by simp [Std.LawfulEqOrd.eq_of_compare e])
        simp [this]
      · rfl

/-! ## The operations of a map -/

/-- The value of a key. -/
def get? (m : SortedMap κ ν) (k : κ) : Option ν := search k m.toList

/-- Does the key have a value? -/
def contains (m : SortedMap κ ν) (k : κ) : Bool := (m.get? k).isSome

/-- Write the value of a key. -/
def insert (m : SortedMap κ ν) (k : κ) (v : ν) : SortedMap κ ν :=
  ⟨insertAt k v m.toList, insertAt_ascending m.ascending⟩

/-- Remove a key. -/
def erase (m : SortedMap κ ν) (k : κ) : SortedMap κ ν :=
  ⟨eraseFrom k m.toList, m.ascending.sublist (eraseFrom_sublist k m.toList)⟩

/-- Apply a function of key and value to every value. -/
def map (f : κ → ν → μ) (m : SortedMap κ ν) : SortedMap κ μ :=
  ⟨m.toList.map fun e => (e.1, f e.1 e.2), by simpa [List.pairwise_map] using m.ascending⟩

/-- Keep the entries that satisfy a test. -/
def filter (p : κ → ν → Bool) (m : SortedMap κ ν) : SortedMap κ ν :=
  ⟨m.toList.filter fun e => p e.1 e.2, m.ascending.sublist List.filter_sublist⟩

/-- The map of a list of entries; of two entries of one key the later counts. -/
def ofList (l : List (κ × ν)) : SortedMap κ ν := l.foldl (fun m e => m.insert e.1 e.2) ∅

/-- The keys in ascending order. -/
def keys (m : SortedMap κ ν) : List κ := m.toList.map (·.1)

/-- The values in ascending order of their keys. -/
def values (m : SortedMap κ ν) : List ν := m.toList.map (·.2)

/-- The number of entries. -/
def size (m : SortedMap κ ν) : Nat := m.toList.length

@[simp] theorem get?_empty (k : κ) : (∅ : SortedMap κ ν).get? k = none := rfl

theorem get?_eq_some {m : SortedMap κ ν} {k : κ} {v : ν} : m.get? k = some v ↔ (k, v) ∈ m.toList :=
  search_eq_some m.ascending

theorem get?_insert [DecidableEq κ] {m : SortedMap κ ν} {k x : κ} {v : ν} :
    (m.insert k v).get? x = if x = k then some v else m.get? x := by
  simp [get?, insert, search_insertAt]

theorem get?_erase [DecidableEq κ] {m : SortedMap κ ν} {k x : κ} :
    (m.erase k).get? x = if x = k then none else m.get? x := by
  simp [get?, erase, search_eraseFrom m.ascending]

@[simp] theorem get?_map {m : SortedMap κ ν} {f : κ → ν → μ} {x : κ} :
    (m.map f).get? x = (m.get? x).map (f x) := by
  obtain ⟨l, h⟩ := m
  simp only [get?, map]
  induction l with
  | nil => rfl
  | cons e rest ih =>
    simp only [List.map_cons, search]
    cases c : compare x e.1
    · rfl
    · simp [Std.LawfulEqOrd.eq_of_compare c]
    · exact ih (List.pairwise_cons.1 h).2

theorem mem_keys {m : SortedMap κ ν} {k : κ} : k ∈ m.keys ↔ ∃ v, m.get? k = some v := by
  simp [keys, get?_eq_some]

/-- Two ascending lists with the same entries are equal. -/
theorem eq_of_ascending {k l : List (κ × ν)} (hk : k.Pairwise (fun e f => compare e.1 f.1 = .lt))
    (hl : l.Pairwise (fun e f => compare e.1 f.1 = .lt)) (h : ∀ e, e ∈ k ↔ e ∈ l) : k = l := by
  induction k generalizing l with
  | nil =>
    cases l with
    | nil => rfl
    | cons b more => simpa using h b
  | cons a rest ih =>
    cases l with
    | nil => simpa using h a
    | cons b more =>
      have ⟨aboveA, tailA⟩ := List.pairwise_cons.1 hk
      have ⟨aboveB, tailB⟩ := List.pairwise_cons.1 hl
      have irrefl : ∀ x : κ, ¬ compare x x = .lt := fun x => by simp
      have heads : a = b := by
        rcases List.mem_cons.1 ((h a).1 List.mem_cons_self) with e | ha
        · exact e
        rcases List.mem_cons.1 ((h b).2 List.mem_cons_self) with e | hb
        · exact e.symm
        exact absurd (Std.TransCmp.lt_trans (aboveB a ha) (aboveA b hb)) (irrefl b.1)
      subst heads
      refine congrArg (a :: ·) (ih tailA tailB fun x => ?_)
      constructor
      · intro hx
        refine (List.mem_cons.1 ((h x).1 (List.mem_cons_of_mem _ hx))).resolve_left ?_
        rintro rfl
        exact irrefl _ (aboveA x hx)
      · intro hx
        refine (List.mem_cons.1 ((h x).2 (List.mem_cons_of_mem _ hx))).resolve_left ?_
        rintro rfl
        exact irrefl _ (aboveB x hx)

/-- Two maps that give every key the same value are equal. -/
theorem ext {m n : SortedMap κ ν} (h : ∀ k, m.get? k = n.get? k) : m = n := by
  have same : ∀ e, e ∈ m.toList ↔ e ∈ n.toList := fun e => by
    have : m.get? e.1 = some e.2 ↔ n.get? e.1 = some e.2 := by rw [h]
    simpa [get?_eq_some] using this
  obtain ⟨k, hk⟩ := m
  obtain ⟨l, hl⟩ := n
  cases eq_of_ascending hk hl same
  rfl

end SortedMap

end ThreeAddress
