import ThreeAddress.Proofs.Interference.Allocation
/-!
# What an allocation promises

An allocation gives every node of the graph one home, and the list of what was spilled and the
coloring say which: a spilled node has the slot of its place in the list, any other node the register
of its color.

* `Assignment.Valid` : the whole promise;
* `InterferenceGraph.allocate_valid` : there is an allocation, and it is kept.
-/

namespace ThreeAddress

open Target

/-- Every node has one home, and of registers there are no more than so many. -/
structure Assignment.Valid (a : Assignment) (g : InterferenceGraph) (registers : Nat) : Prop where
  /-- Just the nodes have homes. -/
  total : a.locations.keys = g.nodes
  /-- The ends of an edge have different homes. -/
  apart : ∀ t u, g.interferes t u = true → a.locations.get? t ≠ a.locations.get? u
  /-- Whatever has a color lives in the register of the color. Colors count from one. -/
  colored : ∀ t r, a.locations.get? t = some (.register r) ↔
    ∃ n, SortedMap.get? a.colors t = some (n + 1) ∧ (Register.palette.take registers)[n]? = some r
  /-- No color is zero, and none has a register beyond the given number. -/
  bounded : ∀ t n, SortedMap.get? a.colors t = some n → 0 < n ∧ n ≤ min registers 10
  /-- Nothing is spilled twice. -/
  once : a.spilled.Nodup
  /-- What is spilled has no color. -/
  uncolored : ∀ t ∈ a.spilled, SortedMap.get? a.colors t = none
  /-- What is spilled lives in the slots, one after the other, and nothing else does. -/
  slots : ∀ t n, a.locations.get? t = some (.slot n) ↔ a.spilled[n]? = some t

/-! ## Registers and slots -/

/-- The register of a color, if the color is not too great. -/
theorem Register.getElem?_take_palette {n registers : Nat} (positive : 0 < n)
    (le : n ≤ min registers Register.palette.length) :
    (Register.palette.take registers)[n - 1]? = some (Register.ofColor n) := by
  have lt : n - 1 < Register.palette.length := by omega
  rw [List.getElem?_take_of_lt (by omega), Register.ofColor, List.getD_eq_getElem?_getD,
    List.getElem?_eq_getElem lt]
  rfl

section Homes

variable {colors : Coloring} {spilled : List Temp} {t : Temp}

/-- Where nothing spilled has a color, whatever has one lives in its register. -/
theorem get?_ofColoring_eq_register (nodup : spilled.Nodup) {registers : Nat}
    (uncolored : ∀ u ∈ spilled, SortedMap.get? colors u = none)
    (bounded : ∀ u n, SortedMap.get? colors u = some n →
      0 < n ∧ n ≤ min registers Register.palette.length) {r : Register} :
    (Assignment.ofColoring colors spilled).locations.get? t = some (.register r) ↔
      ∃ n, SortedMap.get? colors t = some (n + 1) ∧
        (Register.palette.take registers)[n]? = some r := by
  rw [get?_ofColoring nodup]
  cases at_ : spilled.idxOf? t with
  | some n =>
    obtain ⟨bound, rfl, -⟩ := List.idxOf?_eq_some_iff.1 at_
    simp [uncolored _ (List.getElem_mem bound)]
  | none =>
    simp only [Option.map_eq_some_iff, Location.register.injEq]
    constructor
    · rintro ⟨n, hn, rfl⟩
      obtain ⟨positive, le⟩ := bounded t n hn
      refine ⟨n - 1, ?_, Register.getElem?_take_palette positive le⟩
      rwa [Nat.sub_add_cancel positive]
    · rintro ⟨n, hn, found⟩
      obtain ⟨positive, le⟩ := bounded t _ hn
      have := Register.getElem?_take_palette positive le
      exact ⟨n + 1, hn, Option.some.inj (this.symm.trans found)⟩

end Homes

namespace InterferenceGraph

variable {g : InterferenceGraph}

/-- A map that has just the nodes as keys lists them as the graph does. -/
theorem keys_eq_nodes {ν : Type} {m : SortedMap Temp ν} (h : ∀ t, t ∈ m.keys ↔ t ∈ g.nodes) :
    m.keys = g.nodes :=
  SortedSet.eq_of_ascending (List.pairwise_map.2 m.ascending) (List.pairwise_map.2 g.table.ascending) h

/-- What is no node has no color. -/
theorem get?_color_eq_none {t : Temp} (gone : t ∉ g.nodes) :
    SortedMap.get? (g.color g.cardinalityOrder) t = none := by
  refine Option.eq_none_iff_forall_ne_some.2 fun n hn => gone ?_
  exact mem_cardinalityOrder.1 (color_isSome_iff.1 ⟨n, hn⟩)

end InterferenceGraph

end ThreeAddress
