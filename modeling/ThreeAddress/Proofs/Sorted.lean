import Mathlib.Data.List.Nodup
import Mathlib.Data.List.Perm.Subperm
import ThreeAddress.Sorted.Map
import ThreeAddress.Sorted.Set
/-!
# More about sorted sets and maps

* `SortedSet.size_le`, `SortedSet.size_lt` : a smaller set has fewer elements;
* `SortedMap.get?_ofList` : the entries of a map that was made of a list.
-/

namespace ThreeAddress

namespace SortedSet

variable {α : Type} [Ord α] [Std.TransOrd α] [Std.LawfulEqOrd α] {s s' : SortedSet α} {x : α}

theorem mem_foldl_erase {l : List α} : x ∈ l.foldl SortedSet.erase s ↔ x ∉ l ∧ x ∈ s := by
  induction l generalizing s with
  | nil => simp
  | cons a rest ih =>
    rw [List.foldl_cons, ih, SortedSet.mem_erase, List.mem_cons, not_or]
    constructor
    · rintro ⟨h₁, h₂, h₃⟩
      exact ⟨⟨h₂, h₁⟩, h₃⟩
    · rintro ⟨⟨h₁, h₂⟩, h₃⟩
      exact ⟨h₂, h₁, h₃⟩

theorem size_le (h : ∀ x ∈ s, x ∈ s') : s.size ≤ s'.size :=
  (List.subperm_of_subset s.nodup_toList h).length_le

theorem size_lt (h : ∀ x ∈ s, x ∈ s') (ne : s ≠ s') : s.size < s'.size := by
  refine Nat.lt_of_le_of_ne (size_le h) fun same => ne (ext fun x => ⟨h x, fun hx => ?_⟩)
  have perm := (List.subperm_of_subset s.nodup_toList h).perm_of_length_le (Nat.le_of_eq same.symm)
  exact perm.symm.mem_iff.1 hx

theorem erase_of_not_mem (h : x ∉ s) : s.erase x = s := by
  refine SortedSet.ext fun y => ?_
  rw [SortedSet.mem_erase, and_iff_right_iff_imp]
  rintro mem rfl
  exact h mem

end SortedSet

namespace SortedMap

variable {κ ν : Type} [Ord κ] [Std.TransOrd κ] [Std.LawfulEqOrd κ] [DecidableEq κ] {k : κ} {v : ν}
  {l : List (κ × ν)}

theorem mem_of_get?_ofList (h : (ofList l).get? k = some v) : (k, v) ∈ l := by
  have all : ∀ (l : List (κ × ν)) (m : SortedMap κ ν),
      (l.foldl (fun m e => m.insert e.1 e.2) m).get? k = some v →
        (k, v) ∈ l ∨ m.get? k = some v := by
    intro l
    induction l with
    | nil => exact fun m h => .inr h
    | cons e rest ih =>
      intro m h
      rcases ih _ h with h | h
      · exact .inl (List.mem_cons_of_mem _ h)
      · rw [get?_insert] at h
        by_cases hk : k = e.1
        · rw [if_pos hk] at h
          have value : e.2 = v := Option.some.inj h
          left
          rw [hk, ← value]
          exact List.mem_cons_self
        · exact .inr (by rwa [if_neg hk] at h)
  rcases all l ∅ h with h | h
  · exact h
  · cases h

/-- Of two entries of one key the later counts, so a key that has one entry keeps it. -/
theorem get?_ofList_of_mem (h : (k, v) ∈ l) (once : ∀ w, (k, w) ∈ l → w = v) :
    (ofList l).get? k = some v := by
  have all : ∀ (l : List (κ × ν)) (m : SortedMap κ ν), (∀ w, (k, w) ∈ l → w = v) →
      ((k, v) ∈ l ∨ m.get? k = some v) →
        (l.foldl (fun m e => m.insert e.1 e.2) m).get? k = some v := by
    intro l
    induction l with
    | nil =>
      rintro m - (h | h)
      · cases h
      · exact h
    | cons e rest ih =>
      intro m once h
      refine ih _ (fun w hw => once w (List.mem_cons_of_mem _ hw)) ?_
      rw [get?_insert]
      by_cases hk : k = e.1
      · have : e.2 = v := once e.2 (by rw [hk]; exact List.mem_cons_self)
        exact .inr (by rw [if_pos hk, this])
      · rw [if_neg hk]
        rcases h with h | h
        · rcases List.mem_cons.1 h with rfl | h
          · exact absurd rfl hk
          · exact .inl h
        · exact .inr h
  exact all l ∅ once (.inl h)

/-- The entries of a map that was made of a list without two entries of one key. -/
theorem get?_ofList (nodup : (l.map Prod.fst).Nodup) (h : (k, v) ∈ l) :
    (ofList l).get? k = some v :=
  get?_ofList_of_mem h fun _ hw => congrArg Prod.snd (List.inj_on_of_nodup_map nodup hw h rfl)

omit [Std.TransOrd κ] [DecidableEq κ] in
theorem nodup_keys (m : SortedMap κ ν) : m.keys.Nodup :=
  List.pairwise_map.2 (m.ascending.imp fun h same => by simp [same] at h)

omit [Std.TransOrd κ] [Std.LawfulEqOrd κ] [DecidableEq κ] in
theorem values_map {μ : Type} (f : ν → μ) (m : SortedMap κ ν) :
    (m.map fun _ v => f v).values = m.values.map f := by
  simp [values, map]

end SortedMap

end ThreeAddress
