import Mathlib.Order.Bounds.Defs
import ThreeAddress.Interference.Coloring
import ThreeAddress.Proofs.Lists
import ThreeAddress.Proofs.Sorted
/-!
# Proper colorings

Whatever the order, the least color that no neighbor has keeps neighbors apart, and it is no greater
than the neighbors are many, and one more. The order that the coloring takes lists every node.

* `InterferenceGraph.Proper` : colorings that keep neighbors apart;
* `InterferenceGraph.isLeast_freeColor` : the color that a temporary gets;
* `InterferenceGraph.proper_color` : every coloring in an order keeps neighbors apart;
* `InterferenceGraph.color_in_any_order` : all that is true of a coloring, whatever the order;
* `InterferenceGraph.mem_cardinalityOrder` : the order lists the nodes.
-/

namespace ThreeAddress

/-! ## The greatest of a list -/

theorem firstGreatest?_eq_none {α : Type} {f : α → Nat} {l : List α} :
    firstGreatest? f l = none ↔ l = [] := by
  cases l with
  | nil => simp [firstGreatest?]
  | cons a rest =>
    rw [firstGreatest?]
    split
    · split <;> simp
    · simp

theorem mem_of_firstGreatest? {α : Type} {f : α → Nat} {l : List α} {a : α}
    (h : firstGreatest? f l = some a) : a ∈ l := by
  induction l generalizing a with
  | nil => cases h
  | cons b rest ih =>
    rw [firstGreatest?] at h
    split at h
    · next c found =>
      split at h
      · cases h
        exact List.mem_cons_of_mem _ (ih found)
      · cases h
        exact List.mem_cons_self
    · cases h
      exact List.mem_cons_self

theorem Coloring.le_count {colors : Coloring} {t : Temp} {n : Nat}
    (h : SortedMap.get? colors t = some n) : n ≤ colors.count :=
  le_foldl_max (.inr (List.mem_map.2 ⟨_, SortedMap.get?_eq_some.1 h, rfl⟩))

namespace InterferenceGraph

variable {g : InterferenceGraph} {order : List Temp} {t u : Temp}

/-! ## Colors -/

/-- Neighbors have different colors, and colors count from one. -/
structure Proper (g : InterferenceGraph) (colors : Coloring) : Prop where
  positive : ∀ t n, SortedMap.get? colors t = some n → 0 < n
  apart : ∀ t u, u ∈ g.neighbors t → ∀ n, SortedMap.get? colors t = some n →
    SortedMap.get? colors u ≠ some n

theorem freeColor_free (colors : Coloring) (hu : u ∈ g.neighbors t) :
    SortedMap.get? colors u ≠ some (g.freeColor colors t) := by
  intro same
  have free : ((g.neighbors t).toList.filterMap (SortedMap.get? colors)).contains
      (g.freeColor colors t) = false :=
    taken_firstFree ((g.neighbors t).toList.filterMap (SortedMap.get? colors))
      (fun n _ taken => by simpa using taken) (Nat.le_refl _)
  have mem : g.freeColor colors t ∈ (g.neighbors t).toList.filterMap (SortedMap.get? colors) :=
    List.mem_filterMap.2 ⟨u, SortedSet.mem_iff.1 hu, same⟩
  rw [← List.contains_iff_mem] at mem
  exact absurd (mem.symm.trans free) (by simp)

/-- Every lower color is that of a neighbor. -/
theorem exists_neighbor_of_lt_freeColor {colors : Coloring} {m : Nat} (positive : 0 < m)
    (lt : m < g.freeColor colors t) :
    ∃ u ∈ g.neighbors t, SortedMap.get? colors u = some m := by
  have taken := taken_of_lt_firstFree positive lt
  obtain ⟨u, edge, same⟩ := List.mem_filterMap.1 (List.contains_iff_mem.1 taken)
  exact ⟨u, SortedSet.mem_iff.2 edge, same⟩

/-- However many colors the neighbors have, the search ends with the least one that they leave. -/
theorem isLeast_freeColor (g : InterferenceGraph) (colors : Coloring) (t : Temp) :
    IsLeast {n | 0 < n ∧ ∀ u ∈ g.neighbors t, SortedMap.get? colors u ≠ some n}
      (g.freeColor colors t) := by
  refine ⟨⟨start_le_firstFree _ _ 1, fun u hu => freeColor_free colors hu⟩, ?_⟩
  rintro n ⟨positive, free⟩
  refine Nat.le_of_not_lt fun lt => ?_
  obtain ⟨u, hu, same⟩ := exists_neighbor_of_lt_freeColor positive lt
  exact free u hu same

/-- The neighbors have no more colors than they are. -/
theorem freeColor_le (g : InterferenceGraph) (colors : Coloring) (t : Temp) :
    g.freeColor colors t ≤ g.degree t + 1 := by
  have few := List.length_filterMap_le (SortedMap.get? colors) (g.neighbors t).toList
  have le := firstFree_le
    (fun n => ((g.neighbors t).toList.filterMap (SortedMap.get? colors)).contains n)
    ((g.neighbors t).toList.filterMap (SortedMap.get? colors)).length 1
  rw [degree, SortedSet.size]
  exact Nat.le_trans le (by omega)

theorem Proper.insert {colors : Coloring} (h : g.Proper colors) (t : Temp) :
    g.Proper (SortedMap.insert colors t (g.freeColor colors t)) := by
  refine ⟨fun u n hn => ?_, fun a b hb n ha same => ?_⟩
  · rw [SortedMap.get?_insert] at hn
    by_cases new : u = t
    · rw [if_pos new] at hn
      exact Option.some.inj hn ▸ start_le_firstFree _ _ 1
    · rw [if_neg new] at hn
      exact h.positive u n hn
  · rw [SortedMap.get?_insert] at ha same
    have ne : a ≠ b := by
      rintro rfl
      exact g.not_mem_neighbors_self a hb
    by_cases new : a = t
    · subst new
      rw [if_pos rfl] at ha
      rw [if_neg (Ne.symm ne)] at same
      exact freeColor_free colors hb (ha ▸ same)
    · rw [if_neg new] at ha
      by_cases new' : b = t
      · subst new'
        rw [if_pos rfl] at same
        exact freeColor_free colors (neighbors_symm hb) (same ▸ ha)
      · rw [if_neg new'] at same
        exact h.apart a b hb n ha same

/-- The last of an order is colored last, again if it was colored before. -/
theorem color_concat (g : InterferenceGraph) (order : List Temp) (t : Temp) :
    g.color (order ++ [t]) =
      SortedMap.insert (g.color order) t (g.freeColor (g.color order) t) :=
  List.foldl_concat ..

/-- A coloring in an order keeps neighbors apart. -/
theorem proper_color (g : InterferenceGraph) (order : List Temp) : g.Proper (g.color order) := by
  induction order using List.reverseRecOn with
  | nil =>
    refine ⟨fun t n hn => ?_, fun t u _ n hn => ?_⟩
    · cases hn
    · cases hn
  | append_singleton order t ih =>
    rw [color_concat]
    exact ih.insert t

/-- What is in the order has a color, and nothing else. -/
theorem color_isSome_iff : (∃ n, SortedMap.get? (g.color order) t = some n) ↔ t ∈ order := by
  induction order using List.reverseRecOn with
  | nil => simp [color]
  | append_singleton order u ih =>
    rw [color_concat, SortedMap.get?_insert, List.mem_append, List.mem_singleton, ← ih]
    by_cases same : t = u
    · simp [same]
    · simp [same]

theorem le_degree_of_color {n : Nat} (h : SortedMap.get? (g.color order) t = some n) :
    n ≤ g.degree t + 1 := by
  induction order using List.reverseRecOn with
  | nil => cases h
  | append_singleton order u ih =>
    rw [color_concat, SortedMap.get?_insert] at h
    by_cases same : t = u
    · rw [if_pos same] at h
      exact same ▸ Option.some.inj h ▸ g.freeColor_le (g.color order) u
    · rw [if_neg same] at h
      exact ih h

/-- Whatever the order, with temporaries left out, repeated or strange to the graph, just those of the
order are colored, neighbors differently and each with one of as many colors as it has neighbors, and
one more. Each time a temporary comes up it gets the least color that its neighbors leave. -/
theorem color_in_any_order (g : InterferenceGraph) (order : List Temp) :
    (∀ t, SortedMap.contains (g.color order) t = true ↔ t ∈ order) ∧
      (∀ t u, g.interferes t u = true → ∀ m n, SortedMap.get? (g.color order) t = some m →
        SortedMap.get? (g.color order) u = some n → m ≠ n) ∧
      (∀ t n, SortedMap.get? (g.color order) t = some n → 1 ≤ n ∧ n ≤ g.degree t + 1) ∧
      ∀ colors t, IsLeast {n | 0 < n ∧ ∀ u ∈ g.neighbors t, SortedMap.get? colors u ≠ some n}
        (g.freeColor colors t) := by
  have proper := g.proper_color order
  refine ⟨fun t => ?_, fun t u edge m n hm hn same => ?_, fun t n hn => ?_, g.isLeast_freeColor⟩
  · rw [SortedMap.contains, Option.isSome_iff_exists]
    exact color_isSome_iff
  · exact proper.apart t u (SortedSet.contains_eq_true.1 edge) m hm (same ▸ hn)
  · exact ⟨proper.positive t n hn, le_degree_of_color hn⟩

/-! ## The order -/

/-- What is left when a node has been taken, its neighbors with one neighbor more before them. -/
def reweigh (g : InterferenceGraph) (next : Temp) (weights : List (Temp × Nat)) : List (Temp × Nat) :=
  (weights.filter fun e => e.1 != next).map fun (t, w) =>
    (t, if (g.neighbors next).contains t then w + 1 else w)

theorem continueOrder_of_firstGreatest? {left w : Nat} {next : Temp} {weights : List (Temp × Nat)}
    (found : firstGreatest? Prod.snd weights = some (next, w)) :
    g.continueOrder (left + 1) weights = next :: g.continueOrder left (g.reweigh next weights) := by
  rw [continueOrder, found]
  rfl

theorem mem_reweigh {next : Temp} {weights : List (Temp × Nat)} {e : Temp × Nat} :
    e ∈ g.reweigh next weights ↔ ∃ w, (e.1, w) ∈ weights ∧ e.1 ≠ next ∧
      e.2 = if (g.neighbors next).contains e.1 then w + 1 else w := by
  simp only [reweigh, List.mem_map, List.mem_filter, bne_iff_ne, ne_eq]
  constructor
  · rintro ⟨⟨t, w⟩, ⟨mem, ne⟩, rfl⟩
    exact ⟨w, mem, ne, rfl⟩
  · rintro ⟨w, mem, ne, same⟩
    exact ⟨(e.1, w), ⟨mem, ne⟩, Prod.ext rfl same.symm⟩

theorem mem_keys_reweigh {next : Temp} {weights : List (Temp × Nat)} :
    t ∈ (g.reweigh next weights).map Prod.fst ↔ t ≠ next ∧ t ∈ weights.map Prod.fst := by
  simp only [List.mem_map, mem_reweigh]
  constructor
  · rintro ⟨e, ⟨w, mem, ne, -⟩, rfl⟩
    exact ⟨ne, _, mem, rfl⟩
  · rintro ⟨ne, ⟨t, w⟩, mem, rfl⟩
    exact ⟨(t, if (g.neighbors next).contains t then w + 1 else w), ⟨w, mem, ne, rfl⟩, rfl⟩

theorem length_reweigh_le {left w : Nat} {next : Temp} {weights : List (Temp × Nat)}
    (enough : weights.length ≤ left + 1) (mem : (next, w) ∈ weights) :
    (g.reweigh next weights).length ≤ left := by
  have : (weights.filter fun e => e.1 != next).length < weights.length :=
    List.length_filter_lt_length_iff_exists.2 ⟨_, mem, by simp⟩
  rw [reweigh, List.length_map]
  omega

theorem mem_continueOrder {left : Nat} {weights : List (Temp × Nat)} (enough : weights.length ≤ left) :
    t ∈ g.continueOrder left weights ↔ t ∈ weights.map Prod.fst := by
  induction left generalizing weights with
  | zero =>
    obtain rfl := List.length_eq_zero_iff.1 (Nat.le_zero.1 enough)
    simp [continueOrder]
  | succ left ih =>
    cases found : firstGreatest? Prod.snd weights with
    | none =>
      obtain rfl := firstGreatest?_eq_none.1 found
      simp [continueOrder, firstGreatest?]
    | some e =>
      obtain ⟨next, w⟩ := e
      have mem := mem_of_firstGreatest? found
      rw [continueOrder_of_firstGreatest? found, List.mem_cons, ih (length_reweigh_le enough mem),
        mem_keys_reweigh]
      by_cases last : t = next
      · exact iff_of_true (.inl last) (last ▸ List.mem_map_of_mem mem)
      · simp [last]

/-- The order lists the nodes. -/
theorem mem_cardinalityOrder : t ∈ g.cardinalityOrder ↔ t ∈ g.nodes := by
  have size : (g.nodes.map fun t => (t, 0)).length ≤ g.size := by
    rw [List.length_map, nodes, SortedMap.keys, List.length_map]
    exact Nat.le_refl _
  rw [cardinalityOrder, mem_continueOrder size, List.map_map]
  simp

end InterferenceGraph

end ThreeAddress
