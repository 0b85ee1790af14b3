import Mathlib.Algebra.Group.Fin.Basic
import Mathlib.Data.Fintype.EquivFin
import Mathlib.Data.Fintype.Lattice
import Mathlib.Data.List.Triplewise
import ThreeAddress.Proofs.Interference.Search
/-!
# Chordal graphs

In a chordal graph the search that goes on with a node with most neighbors so far finds a perfect
order: the neighbors of a node that come before it are neighbors of each other.

Two neighbors of a node that come before it and are no neighbors of each other are the ends of an
arch, a path without shortcuts whose inner nodes come after both ends. The search, where it took the
later end before the node next to the earlier one, knew a node joined to the later end only. It closes
the arch to a cycle without chords, or to an arch whose ends come earlier. So there is no arch.

* `InterferenceGraph.Chordal`, `InterferenceGraph.Perfect` : the graphs and the orders;
* `InterferenceGraph.ChordlessPath`, `InterferenceGraph.Arch` : paths without shortcuts;
* `InterferenceGraph.Chordal.perfect` : the orders of the search are perfect in chordal graphs;
* `InterferenceGraph.chordal_of_perfect` : no other graph has a perfect order.
-/

namespace ThreeAddress

namespace InterferenceGraph

variable {g : InterferenceGraph} {order : List Temp} {x : Nat → Temp} {d : Temp} {j k : Nat}

/-- Every cycle of four or more nodes has a chord: an edge between two of its nodes of which neither
follows the other on the cycle. -/
def Chordal (g : InterferenceGraph) : Prop :=
  ∀ (n : Nat) (c : Fin (n + 4) → Temp), Function.Injective c →
    (∀ i, c (i + 1) ∈ g.neighbors (c i)) → ∃ i j, c j ∈ g.neighbors (c i) ∧ j ≠ i + 1 ∧ i ≠ j + 1

/-- Of three nodes in order the first two are neighbors if both are neighbors of the third: the
neighbors of a node that come before it are neighbors of each other. -/
def Perfect (g : InterferenceGraph) (order : List Temp) : Prop :=
  order.Triplewise fun a b t => a ∈ g.neighbors t → b ∈ g.neighbors t → b ∈ g.neighbors a

theorem perfect_cons {a : Temp} {rest : List Temp} : g.Perfect (a :: rest) ↔
    (rest.Pairwise fun b t => a ∈ g.neighbors t → b ∈ g.neighbors t → b ∈ g.neighbors a) ∧
      g.Perfect rest := List.triplewise_cons

/-- Whether an order is perfect can be computed. -/
instance Perfect.decide (g : InterferenceGraph) : (order : List Temp) → Decidable (g.Perfect order)
  | [] => .isTrue .nil
  | _ :: rest =>
    have := Perfect.decide g rest
    decidable_of_iff _ perfect_cons.symm

/-! ## Paths without shortcuts -/

/-- The nodes `x 0`, ..., `x k` are different, each is a neighbor of the next, and there is no other
edge between them. -/
structure ChordlessPath (g : InterferenceGraph) (k : Nat) (x : Nat → Temp) : Prop where
  different : ∀ i j, i < j → j ≤ k → x i ≠ x j
  joined : ∀ i < k, x (i + 1) ∈ g.neighbors (x i)
  bare : ∀ i j, i + 1 < j → j ≤ k → x j ∉ g.neighbors (x i)

theorem ChordlessPath.eq_of_eq (path : g.ChordlessPath k x) {i : Nat} (hi : i ≤ k) (hj : j ≤ k)
    (same : x i = x j) : i = j := by
  rcases Nat.lt_trichotomy i j with lt | eq | lt
  · exact absurd same (path.different i j lt hj)
  · exact eq
  · exact absurd same.symm (path.different j i lt hi)

theorem ChordlessPath.take (path : g.ChordlessPath k x) (le : j ≤ k) : g.ChordlessPath j x :=
  ⟨fun a b ab bj => path.different a b ab (Nat.le_trans bj le),
    fun a aj => path.joined a (Nat.lt_of_lt_of_le aj le),
    fun a b ab bj => path.bare a b ab (Nat.le_trans bj le)⟩

theorem ChordlessPath.reverse (path : g.ChordlessPath k x) :
    g.ChordlessPath k fun i => x (k - i) := by
  refine ⟨fun i j ij jk => ?_, fun i ik => ?_, fun i j ij jk edge => ?_⟩
  · exact (path.different (k - j) (k - i) (by omega) (by omega)).symm
  · have next : k - i = k - (i + 1) + 1 := by omega
    have edge := path.joined (k - (i + 1)) (by omega)
    rw [← next] at edge
    exact neighbors_symm edge
  · exact path.bare (k - j) (k - i) (by omega) (by omega) (neighbors_symm edge)

/-- A path goes on to a neighbor of its end that is no neighbor of the other nodes. -/
theorem ChordlessPath.extend (path : g.ChordlessPath k x) (off : ∀ i ≤ k, x i ≠ d)
    (end_ : x k ∈ g.neighbors d) (only : ∀ i < k, x i ∉ g.neighbors d) :
    g.ChordlessPath (k + 1) fun i => if i ≤ k then x i else d := by
  refine ⟨fun i j ij jk => ?_, fun i ik => ?_, fun i j ij jk => ?_⟩
  · rw [if_pos (by omega : i ≤ k)]
    by_cases within : j ≤ k
    · rw [if_pos within]
      exact path.different i j ij within
    · rw [if_neg within]
      exact off i (by omega)
  · rw [if_pos (by omega : i ≤ k)]
    by_cases within : i + 1 ≤ k
    · rw [if_pos within]
      exact path.joined i within
    · obtain rfl : i = k := by omega
      rw [if_neg within]
      exact neighbors_symm end_
  · rw [if_pos (by omega : i ≤ k)]
    by_cases within : j ≤ k
    · rw [if_pos within]
      exact path.bare i j ij within
    · rw [if_neg within]
      exact fun edge => only i (by omega) (neighbors_symm edge)

/-- The place behind another one on a cycle. -/
theorem val_next {n : Nat} (i : Fin (n + 4)) :
    (i + 1).1 = if i.1 = n + 3 then 0 else i.1 + 1 := by
  rw [Fin.val_add_one]
  simp [Fin.ext_iff, Fin.val_last]

/-- The nodes of a path, and another one behind them, as places of a cycle. -/
def cycle (x : Nat → Temp) (d : Temp) (n : Nat) (i : Fin (n + 4)) : Temp :=
  if i.1 ≤ n + 2 then x i.1 else d

theorem cycle_path {n : Nat} {i : Fin (n + 4)} (h : i.1 ≤ n + 2) : cycle x d n i = x i.1 := if_pos h

theorem cycle_behind {n : Nat} {i : Fin (n + 4)} (h : ¬ i.1 ≤ n + 2) : cycle x d n i = d := if_neg h

theorem ChordlessPath.injective_cycle {n : Nat} (path : g.ChordlessPath (n + 2) x)
    (off : ∀ i ≤ n + 2, x i ≠ d) : Function.Injective (cycle x d n) := by
  intro i j same
  by_cases hi : i.1 ≤ n + 2
  · by_cases hj : j.1 ≤ n + 2
    · rw [cycle_path hi, cycle_path hj] at same
      exact Fin.ext (path.eq_of_eq hi hj same)
    · rw [cycle_path hi, cycle_behind hj] at same
      exact absurd same (off _ hi)
  · by_cases hj : j.1 ≤ n + 2
    · rw [cycle_behind hi, cycle_path hj] at same
      exact absurd same.symm (off _ hj)
    · exact Fin.ext (by omega)

/-- A node that is joined to both ends of a path closes it. -/
theorem ChordlessPath.joined_cycle {n : Nat} (path : g.ChordlessPath (n + 2) x)
    (first : x 0 ∈ g.neighbors d) (last : x (n + 2) ∈ g.neighbors d) (i : Fin (n + 4)) :
    cycle x d n (i + 1) ∈ g.neighbors (cycle x d n i) := by
  by_cases hi : i.1 ≤ n + 2
  · have succ : (i + 1).1 = i.1 + 1 := by rw [val_next, if_neg (by omega)]
    rw [cycle_path hi]
    by_cases hi' : i.1 + 1 ≤ n + 2
    · rw [cycle_path (by omega), succ]
      exact path.joined _ hi'
    · rw [cycle_behind (by omega), (by omega : i.1 = n + 2)]
      exact neighbors_symm last
  · have zero : (i + 1).1 = 0 := by rw [val_next, if_pos (by omega)]
    rw [cycle_behind hi, cycle_path (by omega), zero]
    exact first

/-- Between nodes of the path there are no edges but those of the cycle. -/
theorem ChordlessPath.not_chord {n : Nat} (path : g.ChordlessPath (n + 2) x) {i j : Fin (n + 4)}
    (hi : i.1 ≤ n + 2) (hj : j.1 ≤ n + 2) (ne₁ : j ≠ i + 1) (ne₂ : i ≠ j + 1) :
    x j.1 ∉ g.neighbors (x i.1) := by
  rw [Ne, Fin.ext_iff, val_next, if_neg (by omega)] at ne₁ ne₂
  intro edge
  rcases Nat.lt_trichotomy i.1 j.1 with lt | same | lt
  · exact path.bare _ _ (by omega) hj edge
  · rw [same] at edge
    exact g.not_mem_neighbors_self _ edge
  · exact path.bare _ _ (by omega) hi (neighbors_symm edge)

/-- A place of the path that is not next to the one behind it is between the ends. -/
theorem between_of_not_next {n : Nat} {i j : Fin (n + 4)} (hi : i.1 ≤ n + 2) (hj : ¬ j.1 ≤ n + 2)
    (ne₁ : j ≠ i + 1) (ne₂ : i ≠ j + 1) : 0 < i.1 ∧ i.1 < n + 2 := by
  rw [Ne, Fin.ext_iff, val_next] at ne₁ ne₂
  rw [if_neg (by omega)] at ne₁
  rw [if_pos (by omega)] at ne₂
  omega

/-- A node that is joined to both ends of a longer path is joined to a node between them. -/
theorem Chordal.exists_between (chordal : g.Chordal) (path : g.ChordlessPath k x) (long : 2 ≤ k)
    (off : ∀ i ≤ k, x i ≠ d) (first : x 0 ∈ g.neighbors d) (last : x k ∈ g.neighbors d) :
    ∃ i, 0 < i ∧ i < k ∧ x i ∈ g.neighbors d := by
  obtain ⟨n, rfl⟩ : ∃ n, k = n + 2 := ⟨k - 2, by omega⟩
  obtain ⟨i, j, edge, ne₁, ne₂⟩ :=
    chordal n (cycle x d n) (path.injective_cycle off) (path.joined_cycle first last)
  by_cases hi : i.1 ≤ n + 2
  · rw [cycle_path hi] at edge
    by_cases hj : j.1 ≤ n + 2
    · rw [cycle_path hj] at edge
      exact absurd edge (path.not_chord hi hj ne₁ ne₂)
    · rw [cycle_behind hj] at edge
      obtain ⟨pos, lt⟩ := between_of_not_next hi hj ne₁ ne₂
      exact ⟨i.1, pos, lt, neighbors_symm edge⟩
  · rw [cycle_behind hi] at edge
    by_cases hj : j.1 ≤ n + 2
    · rw [cycle_path hj] at edge
      obtain ⟨pos, lt⟩ := between_of_not_next hj hi ne₂ ne₁
      exact ⟨j.1, pos, lt, edge⟩
    · rw [cycle_behind hj] at edge
      exact absurd edge (g.not_mem_neighbors_self d)

/-! ## Arches -/

/-- A path without shortcuts whose inner nodes, of which there are some, come after both its ends. -/
structure Arch (g : InterferenceGraph) (order : List Temp) (k : Nat) (x : Nat → Temp) : Prop where
  path : g.ChordlessPath k x
  long : 2 ≤ k
  above : ∀ i, 0 < i → i < k →
    order.idxOf (x 0) < order.idxOf (x i) ∧ order.idxOf (x k) < order.idxOf (x i)

theorem Arch.reverse (arch : g.Arch order k x) : g.Arch order k fun i => x (k - i) := by
  refine ⟨arch.path.reverse, arch.long, fun i pos lt => ?_⟩
  rw [Nat.sub_zero, Nat.sub_self]
  exact (arch.above (k - i) (by omega) (by omega)).symm

/-- If a later node has an earlier neighbor that a node before it lacks, the node before it has an
earlier neighbor that the later one lacks: else it would not have been taken first. -/
theorem MostJoined.exists_earlier (most : g.MostJoined order) {a b t : Temp}
    (ab : order.idxOf a < order.idxOf b) (bt : order.idxOf b < order.idxOf t) (mem : t ∈ order)
    (joined : a ∈ g.neighbors t) (apart : a ∉ g.neighbors b) :
    ∃ d, order.idxOf d < order.idxOf b ∧ d ∈ g.neighbors b ∧ d ∉ g.neighbors t := by
  have bound : order.idxOf b < order.length := Nat.lt_trans bt (List.idxOf_lt_length_of_mem mem)
  have split : order = order.take (order.idxOf b) ++ b :: order.drop (order.idxOf b + 1) := by
    conv_lhs => rw [← List.take_append_drop (order.idxOf b) order, List.drop_eq_getElem_cons bound,
      List.getElem_idxOf]
  have earlier {d : Temp} : d ∈ order.take (order.idxOf b) ↔ order.idxOf d < order.idxOf b := by
    refine ⟨fun h => (List.mem_take_iff_idxOf_lt (List.mem_of_mem_take h)).1 h, fun h => ?_⟩
    exact (List.mem_take_iff_idxOf_lt (List.idxOf_lt_length_iff.1 (Nat.lt_trans h bound))).2 h
  have later : t ∈ order.drop (order.idxOf b + 1) := by
    have either : t ∈ order.take (order.idxOf b) ++ b :: order.drop (order.idxOf b + 1) := split ▸ mem
    rcases List.mem_append.1 either with h | h
    · have := earlier.1 h
      omega
    · rcases List.mem_cons.1 h with rfl | h
      · omega
      · exact h
  by_contra none
  simp only [not_exists, not_and, not_not] at none
  have less := joins_lt (fun d hd => none d (earlier.1 hd)) (earlier.2 ab) joined apart
  have := most _ b _ split t later
  omega

/-- The first node of a path, from the second on, that is joined to some node. -/
theorem exists_first_joined (positive : 1 ≤ k) (last : x k ∈ g.neighbors d)
    (second : x 1 ∉ g.neighbors d) : ∃ j, 2 ≤ j ∧ j ≤ k ∧ x j ∈ g.neighbors d ∧
      ∀ i, 1 ≤ i → i < j → x i ∉ g.neighbors d := by
  have reached : ∃ j, 1 ≤ j ∧ x j ∈ g.neighbors d := ⟨k, positive, last⟩
  obtain ⟨pos, joined⟩ := Nat.find_spec reached
  have ne : Nat.find reached ≠ 1 := fun one => second (one ▸ joined)
  refine ⟨Nat.find reached, by omega, Nat.find_min' reached ⟨positive, last⟩, joined, ?_⟩
  exact fun i pos lt edge => Nat.find_min reached lt ⟨pos, edge⟩

/-- Below an arch there is another, with both ends before the later end of the first. -/
theorem Arch.exists_below (arch : g.Arch order k x) (chordal : g.Chordal) (most : g.MostJoined order)
    (nodes : ∀ t ∈ g.nodes, t ∈ order) (rising : order.idxOf (x 0) < order.idxOf (x k)) :
    ∃ j y, g.Arch order j y ∧ order.idxOf (y 0) < order.idxOf (x k) ∧
      order.idxOf (y j) < order.idxOf (x k) := by
  have long := arch.long
  have ends := arch.path.bare 0 k long (Nat.le_refl k)
  have side := arch.path.joined 0 (by omega)
  obtain ⟨-, next⟩ := arch.above 1 (by omega) long
  obtain ⟨d, low, foot, skips⟩ := most.exists_earlier rising next
    (nodes _ (mem_nodes_of_mem_neighbors (neighbors_symm side))) (neighbors_symm side)
    (fun edge => ends (neighbors_symm edge))
  obtain ⟨j, two, le, joined, least⟩ :=
    exists_first_joined (by omega) (neighbors_symm foot) fun edge => skips (neighbors_symm edge)
  have off : ∀ i ≤ j, x i ≠ d := by
    rintro i ij rfl
    rcases Nat.eq_zero_or_pos i with rfl | pos
    · exact skips (neighbors_symm side)
    · rcases Nat.lt_or_ge i k with lt | ge
      · have := (arch.above i pos lt).2
        omega
      · obtain rfl : i = k := by omega
        omega
  have path := arch.path.take le
  have apart : x 0 ∉ g.neighbors d := by
    intro edge
    obtain ⟨i, pos, lt, edge'⟩ := chordal.exists_between path two off edge joined
    exact least i pos lt edge'
  have inner : ∀ i, 0 < i → i ≤ j → order.idxOf (x 0) < order.idxOf (x i) ∧
      order.idxOf d < order.idxOf (x i) := by
    intro i pos ij
    rcases Nat.lt_or_ge i k with lt | ge
    · have := arch.above i pos lt
      omega
    · obtain rfl : i = k := by omega
      exact ⟨rising, low⟩
  refine ⟨j + 1, _, ⟨path.extend off joined fun i lt => ?_, by omega, fun i pos lt => ?_⟩, ?_, ?_⟩
  · rcases Nat.eq_zero_or_pos i with rfl | pos
    · exact apart
    · exact least i pos lt
  · rw [if_pos (by omega), if_pos (by omega), if_neg (by omega)]
    exact inner i pos (by omega)
  · rwa [if_pos (by omega)]
  · rwa [if_neg (by omega)]

/-- There is no arch, since there is none with the earliest ends. -/
theorem Chordal.not_arch (chordal : g.Chordal) (most : g.MostJoined order)
    (nodes : ∀ t ∈ g.nodes, t ∈ order) : ¬ g.Arch order k x := by
  have none : ∀ n k x, g.Arch order k x → order.idxOf (x 0) < n → order.idxOf (x k) < n → False := by
    intro n
    induction n with
    | zero => exact fun _ _ _ h _ => Nat.not_lt_zero _ h
    | succ n ih =>
      have rising : ∀ k x, g.Arch order k x → order.idxOf (x 0) < order.idxOf (x k) →
          order.idxOf (x k) < n + 1 → False := by
        intro k x arch lt bound
        obtain ⟨j, y, lower, lt₁, lt₂⟩ := arch.exists_below chordal most nodes lt
        exact ih j y lower (by omega) (by omega)
      intro k x arch bound bound'
      have long := arch.long
      have onPath : x 0 ∈ order :=
        nodes _ (mem_nodes_of_mem_neighbors (arch.path.joined 0 (by omega)))
      rcases Nat.lt_trichotomy (order.idxOf (x 0)) (order.idxOf (x k)) with lt | same | lt
      · exact rising k x arch lt bound'
      · exact arch.path.different 0 k (by omega) (Nat.le_refl k) ((List.idxOf_inj onPath).1 same)
      · refine rising k _ arch.reverse ?_ ?_
        · rwa [Nat.sub_zero, Nat.sub_self]
        · rwa [Nat.sub_self]
  exact fun arch => none _ k x arch (Nat.lt_succ_of_le (Nat.le_max_left _ _))
    (Nat.lt_succ_of_le (Nat.le_max_right _ _))

/-! ## Perfect orders -/

/-- A node and two others before it. -/
def wedge (a t b : Temp) : Nat → Temp
  | 0 => a
  | 1 => t
  | _ => b

/-- Two neighbors of a later node that are no neighbors of each other are the ends of an arch. -/
theorem arch_wedge {a b t : Temp} (ab : order.idxOf a < order.idxOf b)
    (bt : order.idxOf b < order.idxOf t) (first : a ∈ g.neighbors t) (second : b ∈ g.neighbors t)
    (apart : b ∉ g.neighbors a) : g.Arch order 2 (wedge a t b) := by
  have differ {c d : Temp} (lt : order.idxOf c < order.idxOf d) : c ≠ d := fun same => by
    rw [same] at lt
    exact Nat.lt_irrefl _ lt
  refine ⟨⟨fun i j ij j2 => ?_, fun i i2 => ?_, fun i j ij j2 => ?_⟩, Nat.le_refl 2, fun i pos i2 => ?_⟩
  · obtain ⟨rfl, rfl⟩ | ⟨rfl, rfl⟩ | ⟨rfl, rfl⟩ :
        i = 0 ∧ j = 1 ∨ i = 0 ∧ j = 2 ∨ i = 1 ∧ j = 2 := by omega
    · exact differ (Nat.lt_trans ab bt)
    · exact differ ab
    · exact (differ bt).symm
  · obtain rfl | rfl : i = 0 ∨ i = 1 := by omega
    · exact neighbors_symm first
    · exact second
  · obtain ⟨rfl, rfl⟩ : i = 0 ∧ j = 2 := by omega
    exact apart
  · obtain rfl : i = 1 := by omega
    exact ⟨Nat.lt_trans ab bt, bt⟩

/-- In a chordal graph an order that goes on with a node with most neighbors so far is perfect. -/
theorem Chordal.perfect (chordal : g.Chordal) (most : g.MostJoined order) (nodup : order.Nodup)
    (nodes : ∀ t ∈ g.nodes, t ∈ order) : g.Perfect order := by
  refine List.triplewise_iff_getElem.2 fun i j k ij jk hk first second => ?_
  by_contra apart
  have place {n : Nat} (hn : n < order.length) : order.idxOf order[n] = n := nodup.idxOf_getElem n hn
  refine chordal.not_arch most nodes (arch_wedge ?_ ?_ first second apart)
  · rwa [place, place]
  · rwa [place, place]

/-- Two neighbors of a node that come before it in a perfect order are neighbors. -/
theorem Perfect.joined (perfect : g.Perfect order) {a b t : Temp} (mem : t ∈ order) (ne : a ≠ b)
    (ha : order.idxOf a < order.idxOf t) (hb : order.idxOf b < order.idxOf t)
    (first : a ∈ g.neighbors t) (second : b ∈ g.neighbors t) : b ∈ g.neighbors a := by
  have bound := List.idxOf_lt_length_of_mem mem
  have inOrder : ∀ {a b : Temp}, order.idxOf a < order.idxOf b → order.idxOf b < order.idxOf t →
      a ∈ g.neighbors t → b ∈ g.neighbors t → b ∈ g.neighbors a := by
    intro a b ab bt first second
    have := List.triplewise_iff_getElem.1 perfect _ _ _ ab bt bound
    simp only [List.getElem_idxOf] at this
    exact this first second
  rcases Nat.lt_trichotomy (order.idxOf a) (order.idxOf b) with lt | same | lt
  · exact inOrder lt hb first second
  · have onList : a ∈ order := List.idxOf_lt_length_iff.1 (Nat.lt_trans ha bound)
    exact absurd ((List.idxOf_inj onList).1 same) ne
  · exact neighbors_symm (inOrder lt ha second first)

/-- A graph with a perfect order is chordal: the two nodes next to the last node of a cycle are the
ends of a chord. -/
theorem chordal_of_perfect (perfect : g.Perfect order) (nodes : ∀ t ∈ g.nodes, t ∈ order) :
    g.Chordal := by
  intro n c injective closed
  obtain ⟨m, last⟩ := Finite.exists_max fun i => order.idxOf (c i)
  have mem (i : Fin (n + 4)) : c i ∈ order := nodes _ (mem_nodes_of_mem_neighbors (closed i))
  have before {i : Fin (n + 4)} (ne : i ≠ m) : order.idxOf (c i) < order.idxOf (c m) := by
    refine Nat.lt_of_le_of_ne (last i) fun same => ne (injective ?_)
    exact (List.idxOf_inj (mem i)).1 same
  obtain ⟨p, rfl⟩ : ∃ p, m = p + 1 := ⟨m - 1, (sub_add_cancel m 1).symm⟩
  have apart : p + 1 + 1 ≠ p + 1 ∧ p ≠ p + 1 ∧ p + 1 + 1 ≠ p ∧ p ≠ p + 1 + 1 + 1 := by
    have v₁ := val_next p
    have v₂ := val_next (p + 1)
    have v₃ := val_next (p + 1 + 1)
    simp only [Ne, Fin.ext_iff]
    split_ifs at v₁ v₂ v₃
    all_goals omega
  obtain ⟨next, prev, ne, ne'⟩ := apart
  refine ⟨p + 1 + 1, p, ?_, ne', next⟩
  exact perfect.joined (mem (p + 1)) (injective.ne ne) (before next) (before prev)
    (closed (p + 1)) (neighbors_symm (closed p))

end InterferenceGraph

end ThreeAddress
