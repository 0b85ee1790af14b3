import Mathlib.Data.List.Nodup
import Mathlib.Data.List.Perm.Subperm
import ThreeAddress.Allocation
import ThreeAddress.Proofs.Interference.Coloring
import ThreeAddress.Proofs.Lists
/-!
# Allocations keep neighbors apart

An allocation succeeds for any number of registers, since a node is spilled in every attempt but the
last. Spilled nodes have slots of their own, and the others have colors in a graph that still has
all edges between them.

* `Assignment.Fits` : every node has a home, and neighbors have different ones;
* `InterferenceGraph.exists_allocation` : there is an allocation;
* `InterferenceGraph.fits_of_allocate` : it fits.
-/

namespace ThreeAddress

open Target

/-- The nodes have homes, registers of the palette or slots, and neighbors have different ones. -/
structure Assignment.Fits (a : Assignment) (g : InterferenceGraph) : Prop where
  homed : ∀ t, t ∈ g.nodes ↔ ∃ l, a.locations.get? t = some l
  apart : ∀ t u, u ∈ g.neighbors t → ∀ l, a.locations.get? t = some l → a.locations.get? u ≠ some l
  palette : ∀ t r, a.locations.get? t = some (.register r) → r ∈ Register.palette
  slots : ∀ t n, a.locations.get? t = some (.slot n) → n < a.spilled.length

/-! ## Registers of colors -/

theorem Register.ofColor_mem {n : Nat} (positive : 0 < n) (le : n ≤ Register.palette.length) :
    Register.ofColor n ∈ Register.palette := by
  have lt : n - 1 < Register.palette.length := by omega
  rw [Register.ofColor, List.getD_eq_getElem?_getD, List.getElem?_eq_getElem lt]
  exact List.getElem_mem lt

/-- Different colors have different registers. -/
theorem Register.ofColor_inj {m n : Nat} (hm : 0 < m) (hn : 0 < n) (lem : m ≤ Register.palette.length)
    (len : n ≤ Register.palette.length) (h : Register.ofColor m = Register.ofColor n) : m = n := by
  have ltm : m - 1 < Register.palette.length := by omega
  have ltn : n - 1 < Register.palette.length := by omega
  have nodup : Register.palette.Nodup := by decide
  rw [Register.ofColor, Register.ofColor, List.getD_eq_getElem?_getD, List.getD_eq_getElem?_getD,
    List.getElem?_eq_getElem ltm, List.getElem?_eq_getElem ltn] at h
  have := (nodup.getElem_inj_iff).1 h
  omega

/-! ## Homes -/

section Homes

variable {colors : Coloring} {spilled : List Temp} {t : Temp}

/-- Slots are given to the spilled temporaries one by one. -/
theorem get?_slots (locations : SortedMap Temp Location) (nodup : spilled.Nodup) (start : Nat) :
    ((spilled.zipIdx start).foldl (fun m e => m.insert e.1 (.slot e.2)) locations).get? t =
      match spilled.idxOf? t with
      | some n => some (.slot (start + n))
      | none => locations.get? t := by
  induction spilled generalizing start locations with
  | nil => rfl
  | cons u rest ih =>
    obtain ⟨fresh, nodup⟩ := List.nodup_cons.1 nodup
    rw [List.zipIdx_cons, List.foldl_cons, ih _ nodup, List.idxOf?_cons]
    by_cases same : u = t
    · subst same
      rw [List.idxOf?_eq_none_iff.2 fresh]
      simp [SortedMap.get?_insert]
    · have ne : (u == t) = false := by simpa using same
      rw [ne]
      cases h : rest.idxOf? t with
      | none => simp [SortedMap.get?_insert, Ne.symm same]
      | some n => simp [Nat.add_assoc, Nat.add_comm 1 n]

/-- A spilled temporary has a slot, any other the register of its color. -/
theorem get?_ofColoring (nodup : spilled.Nodup) :
    (Assignment.ofColoring colors spilled).locations.get? t =
      match spilled.idxOf? t with
      | some n => some (.slot n)
      | none => (SortedMap.get? colors t).map fun n => .register (.ofColor n) := by
  have := get?_slots (t := t) (SortedMap.map (fun _ c => .register (.ofColor c)) colors) nodup 0
  simp only [Nat.zero_add, SortedMap.get?_map] at this
  exact this

/-- What has a home is spilled or colored. -/
theorem exists_home_iff (nodup : spilled.Nodup) :
    (∃ l, (Assignment.ofColoring colors spilled).locations.get? t = some l) ↔
      t ∈ spilled ∨ ∃ n, SortedMap.get? colors t = some n := by
  rw [get?_ofColoring nodup]
  cases at_ : spilled.idxOf? t with
  | some n =>
    obtain ⟨bound, rfl, -⟩ := List.idxOf?_eq_some_iff.1 at_
    exact iff_of_true ⟨_, rfl⟩ (.inl (List.getElem_mem bound))
  | none =>
    rw [or_iff_right (List.idxOf?_eq_none_iff.1 at_)]
    simp

/-- Only what is spilled has a slot, the slot of its place in the list. -/
theorem get?_ofColoring_eq_slot (nodup : spilled.Nodup) {n : Nat} :
    (Assignment.ofColoring colors spilled).locations.get? t = some (.slot n) ↔
      spilled[n]? = some t := by
  rw [get?_ofColoring nodup, ← idxOf?_eq_some_iff_getElem? nodup]
  cases spilled.idxOf? t with
  | some m => simp
  | none => simp

/-- A register is that of a color. -/
theorem exists_color_of_register (nodup : spilled.Nodup) {r : Register}
    (h : (Assignment.ofColoring colors spilled).locations.get? t = some (.register r)) :
    ∃ n, SortedMap.get? colors t = some n ∧ Register.ofColor n = r := by
  rw [get?_ofColoring nodup] at h
  cases at_ : spilled.idxOf? t with
  | some n => simp [at_] at h
  | none => simpa [at_] using h

end Homes

namespace InterferenceGraph

variable {g : InterferenceGraph}

/-! ## Removing nodes -/

theorem nodup_nodes (g : InterferenceGraph) : g.nodes.Nodup := SortedMap.nodup_keys g.table

theorem mem_nodes_removeNode {t u : Temp} : u ∈ (g.removeNode t).nodes ↔ u ≠ t ∧ u ∈ g.nodes := by
  rw [nodes, nodes, SortedMap.mem_keys, SortedMap.mem_keys, removeNode]
  simp only [SortedMap.get?_map, SortedMap.get?_erase]
  by_cases same : u = t
  · simp [same]
  · simp [same]

theorem size_eq (g : InterferenceGraph) : g.size = g.nodes.length := by
  rw [nodes, SortedMap.keys, List.length_map]
  rfl

theorem size_removeNode {t : Temp} (ht : t ∈ g.nodes) : (g.removeNode t).size < g.size := by
  rw [size_eq, size_eq]
  have sub : (g.removeNode t).nodes ⊆ g.nodes.erase t := by
    intro u hu
    obtain ⟨ne, mem⟩ := mem_nodes_removeNode.1 hu
    exact (List.mem_erase_of_ne ne).2 mem
  have le := (List.Nodup.subperm (g.removeNode t).nodup_nodes sub).length_le
  rw [List.length_erase_of_mem ht] at le
  have := List.length_pos_of_mem ht
  omega

theorem mem_of_busiest? {t : Temp} (h : g.busiest? = some t) : t ∈ g.nodes := mem_of_firstGreatest? h

/-! ## Spilling -/

/-- What an attempt needs of the nodes that were spilled before: they are gone, each once. -/
structure Spilt (g : InterferenceGraph) (spilled : List Temp) : Prop where
  nodup : spilled.Nodup
  gone : ∀ t ∈ spilled, t ∉ g.nodes

theorem Spilt.removeNode {spilled : List Temp} (h : g.Spilt spilled) {t : Temp} (ht : t ∈ g.nodes) :
    (g.removeNode t).Spilt (spilled ++ [t]) := by
  have fresh : t ∉ spilled := fun mem => h.gone t mem ht
  refine ⟨List.nodup_append.2 ⟨h.nodup, List.nodup_singleton t, fun u hu v hv => ?_⟩, fun u hu => ?_⟩
  · rw [List.mem_singleton.1 hv]
    exact fun same => fresh (same ▸ hu)
  · rw [mem_nodes_removeNode]
    rintro ⟨ne, mem⟩
    rcases List.mem_append.1 hu with hu | hu
    · exact h.gone u hu mem
    · exact ne (List.mem_singleton.1 hu)

/-- There is an allocation when there are more attempts than nodes. -/
theorem exists_spillUntil (registers : Nat) {left : Nat} (g : InterferenceGraph)
    (spilled : List Temp) (enough : g.size < left) :
    ∃ a, g.spillUntil registers left spilled = .ok a := by
  induction left generalizing g spilled with
  | zero => omega
  | succ left ih =>
    rw [spillUntil]
    by_cases few : (g.color g.cardinalityOrder).count ≤ registers
    · exact ⟨_, if_pos few⟩
    · simp only [if_neg few]
      cases found : g.busiest? with
      | none =>
        -- a graph without nodes takes no color
        have none : g.nodes = [] := firstGreatest?_eq_none.1 found
        have empty : g.cardinalityOrder = [] := by
          refine List.eq_nil_iff_forall_not_mem.2 fun t ht => ?_
          rw [mem_cardinalityOrder, none] at ht
          cases ht
        rw [empty] at few
        exact absurd (Nat.zero_le registers) few
      | some t =>
        have mem := mem_of_busiest? found
        obtain ⟨a, ha⟩ := ih (g.removeNode t) (spilled ++ [t])
          (by have := size_removeNode mem; omega)
        simp only [ha]
        exact ⟨_, rfl⟩

/-- What spilling ends with: a graph whose coloring fits, and the nodes that were spilled. -/
theorem exists_of_spillUntil {registers left : Nat} {spilled : List Temp} {a : Allocation}
    (spilt : g.Spilt spilled) (h : g.spillUntil registers left spilled = .ok a) :
    ∃ (last : InterferenceGraph) (more : List Temp),
      a.assignment = .ofColoring (last.color last.cardinalityOrder) (spilled ++ more) ∧
      (last.color last.cardinalityOrder).count ≤ registers ∧ last.Spilt (spilled ++ more) ∧
      (∀ t, t ∈ g.nodes ↔ t ∈ last.nodes ∨ t ∈ more) ∧
      ∀ t ∈ last.nodes, ∀ u ∈ last.nodes, u ∈ g.neighbors t → u ∈ last.neighbors t := by
  induction left generalizing g spilled a with
  | zero => cases h
  | succ left ih =>
    rw [spillUntil] at h
    by_cases few : (g.color g.cardinalityOrder).count ≤ registers
    · simp only [if_pos few, Except.ok.injEq] at h
      subst h
      refine ⟨g, [], by rw [List.append_nil], few, ?_, fun t => by simp, fun _ _ _ _ h => h⟩
      rwa [List.append_nil]
    · simp only [if_neg few] at h
      cases found : g.busiest? with
      | none => simp [found] at h
      | some t =>
        have mem := mem_of_busiest? found
        cases rest : (g.removeNode t).spillUntil registers left (spilled ++ [t]) with
        | error e => simp [found, rest, bind, Except.bind] at h
        | ok b =>
          simp only [found, rest, bind, Except.bind, pure, Except.pure, Except.ok.injEq] at h
          subst h
          obtain ⟨last, more, same, few, spilt', cover, edges⟩ := ih (spilt.removeNode mem) rest
          rw [List.append_assoc, List.singleton_append] at same spilt'
          refine ⟨last, t :: more, same, few, spilt', fun u => ?_, fun u hu v hv edge => ?_⟩
          · have cover := cover u
            rw [mem_nodes_removeNode] at cover
            rw [List.mem_cons, or_left_comm, ← cover]
            by_cases self : u = t
            · simp [self, mem]
            · simp [self]
          · have other : ∀ w ∈ last.nodes, w ≠ t := by
              rintro w hw rfl
              exact spilt'.gone w (List.mem_append_right _ List.mem_cons_self) hw
            exact edges u hu v hv (mem_neighbors_removeNode.2 ⟨other u hu, other v hv, edge⟩)

/-- There is an allocation, for any number of registers. -/
theorem exists_allocation (g : InterferenceGraph) (registers : Nat) :
    ∃ a, g.allocate registers = .ok a :=
  exists_spillUntil _ g [] (Nat.lt_succ_self _)

/-- Only nodes are spilled, and none of them twice. -/
theorem spilled_of_allocate {registers : Nat} {a : Allocation} (h : g.allocate registers = .ok a) :
    a.assignment.spilled.Nodup ∧ ∀ t ∈ a.assignment.spilled, t ∈ g.nodes := by
  obtain ⟨last, spilled, same, -, spilt, cover, -⟩ :=
    exists_of_spillUntil ⟨List.nodup_nil, by simp⟩ h
  rw [same]
  exact ⟨spilt.nodup, fun t ht => (cover t).2 (.inr ht)⟩

/-- An allocation fits. -/
theorem fits_of_allocate {registers : Nat} {a : Allocation} (h : g.allocate registers = .ok a) :
    a.assignment.Fits g := by
  obtain ⟨last, spilled, same, few, spilt, cover, edges⟩ :=
    exists_of_spillUntil ⟨List.nodup_nil, by simp⟩ h
  rw [List.nil_append] at same spilt
  have proper := last.proper_color last.cardinalityOrder
  have most : ∀ t n, SortedMap.get? (last.color last.cardinalityOrder) t = some n →
      n ≤ Register.palette.length := fun t n hn =>
    Nat.le_trans (Coloring.le_count hn) (Nat.le_trans few (Nat.min_le_right _ _))
  have node : ∀ t n, SortedMap.get? (last.color last.cardinalityOrder) t = some n → t ∈ last.nodes :=
    fun t n hn => mem_cardinalityOrder.1 (color_isSome_iff.1 ⟨n, hn⟩)
  rw [same]
  refine ⟨fun t => ?_, fun t u edge l hl hl' => ?_, fun t r hr => ?_, fun t n hn => ?_⟩
  · rw [exists_home_iff spilt.nodup, cover, ← mem_cardinalityOrder, ← color_isSome_iff, or_comm]
  · cases l with
    | slot n =>
      have ht := (get?_ofColoring_eq_slot spilt.nodup).1 hl
      have hu := (get?_ofColoring_eq_slot spilt.nodup).1 hl'
      have self : t = u := Option.some.inj (ht.symm.trans hu)
      exact g.not_mem_neighbors_self u (self ▸ edge)
    | register r =>
      obtain ⟨n, hn, rfl⟩ := exists_color_of_register spilt.nodup hl
      obtain ⟨m, hm, same⟩ := exists_color_of_register spilt.nodup hl'
      obtain rfl : m = n := Register.ofColor_inj (proper.positive u m hm) (proper.positive t n hn)
        (most u m hm) (most t n hn) same
      exact proper.apart t u (edges t (node t m hn) u (node u m hm) edge) m hn hm
  · obtain ⟨n, hn, rfl⟩ := exists_color_of_register spilt.nodup hr
    exact Register.ofColor_mem (proper.positive t n hn) (most t n hn)
  · exact (List.getElem?_eq_some_iff.1 ((get?_ofColoring_eq_slot spilt.nodup).1 hn)).1

end InterferenceGraph

end ThreeAddress
