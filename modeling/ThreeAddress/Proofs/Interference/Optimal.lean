import Mathlib.Data.List.Dedup
import ThreeAddress.Proofs.Interference.Chordal
/-!
# Chordal graphs take no more colors than they must

The nodes of a clique have different colors, so a coloring takes as many colors as a clique has nodes
at least. In a perfect order the least color that is free takes no more: the node that got a color and
the neighbors of it that came before, which have all the lower ones, are a clique.

* `InterferenceGraph.Clique`, `InterferenceGraph.LargestClique` : cliques and the size of a largest;
* `Coloring.used` : the colors that a coloring takes;
* `InterferenceGraph.Clique.length_le_used` : any coloring takes so many;
* `InterferenceGraph.Perfect.exists_clique` : in a perfect order no more are taken;
* `InterferenceGraph.color_optimal` : the order, the colors and the registers of a chordal graph.
-/

namespace ThreeAddress

open Target

/-! ## Colors in use -/

/-- The colors that a coloring takes, each once. -/
def Coloring.used (colors : Coloring) : List Nat := (SortedMap.values colors).dedup

theorem Coloring.nodup_used (colors : Coloring) : colors.used.Nodup := List.nodup_dedup _

theorem Coloring.mem_used {colors : Coloring} {n : Nat} :
    n ∈ colors.used ↔ ∃ t, SortedMap.get? colors t = some n := by
  simp only [used, List.mem_dedup, SortedMap.values, List.mem_map, SortedMap.get?_eq_some,
    Prod.exists, exists_eq_right]

/-- The greatest color is taken, unless there is none. -/
theorem Coloring.count_mem (colors : Coloring) :
    colors.count = 0 ∨ ∃ t, SortedMap.get? colors t = some colors.count := by
  rcases foldl_max_mem (SortedMap.values colors) 0 with zero | mem
  · exact .inl zero
  · exact .inr (Coloring.mem_used.1 (List.mem_dedup.2 mem))

namespace InterferenceGraph

variable {g : InterferenceGraph} {order before after c : List Temp} {t u : Temp} {colors : Coloring}
  {m n : Nat}

/-! ## Cliques -/

/-- Nodes of which each is a neighbor of all others: of all behind it in the list. -/
structure Clique (g : InterferenceGraph) (c : List Temp) : Prop where
  nodes : ∀ t ∈ c, t ∈ g.nodes
  joined : c.Pairwise fun t u => u ∈ g.neighbors t

/-- So many nodes has a largest clique. -/
structure LargestClique (g : InterferenceGraph) (n : Nat) : Prop where
  attained : ∃ c, g.Clique c ∧ c.length = n
  largest : ∀ c, g.Clique c → c.length ≤ n

theorem Clique.take (clique : g.Clique c) (n : Nat) : g.Clique (c.take n) :=
  ⟨fun t ht => clique.nodes t (List.mem_of_mem_take ht), clique.joined.sublist (List.take_sublist n c)⟩

/-- The nodes of a clique have different colors. -/
theorem Clique.length_le_used (clique : g.Clique c) (proper : g.Proper colors)
    (colored : ∀ t ∈ g.nodes, ∃ n, SortedMap.get? colors t = some n) :
    c.length ≤ colors.used.length := by
  let hue : Temp → Nat := fun t => (SortedMap.get? colors t).getD 0
  have hue_eq {t : Temp} (ht : t ∈ c) : SortedMap.get? colors t = some (hue t) := by
    obtain ⟨n, hn⟩ := colored t (clique.nodes t ht)
    simp only [hue, hn, Option.getD_some]
  have nodup : (c.map hue).Nodup := by
    refine List.pairwise_map.2 (clique.joined.imp_of_mem fun {t u} ht hu edge same => ?_)
    exact proper.apart t u edge _ (hue_eq ht) (same ▸ hue_eq hu)
  have sub : c.map hue ⊆ colors.used := by
    intro n hn
    obtain ⟨t, ht, rfl⟩ := List.mem_map.1 hn
    exact Coloring.mem_used.2 ⟨t, hue_eq ht⟩
  have le := (List.subperm_of_subset nodup sub).length_le
  rwa [List.length_map] at le

/-! ## Colors in an order -/

/-- What comes later in the order does not change a color. -/
theorem get?_color_append (later : u ∉ after) :
    SortedMap.get? (g.color (before ++ after)) u = SortedMap.get? (g.color before) u := by
  rw [color, List.foldl_append, ← color]
  generalize g.color before = colors
  induction after generalizing colors with
  | nil => rfl
  | cons t rest ih =>
    obtain ⟨ne, later⟩ := List.ne_and_not_mem_of_not_mem_cons later
    rw [List.foldl_cons, ih later, SortedMap.get?_insert, if_neg ne]

/-- A node has the least color that is free where it stands in the order. -/
theorem get?_color_split (later : t ∉ after) :
    SortedMap.get? (g.color (before ++ t :: after)) t = some (g.freeColor (g.color before) t) := by
  rw [List.append_cons, get?_color_append later, color, List.foldl_append, ← color]
  simp [SortedMap.get?_insert]

/-- Every lower color is that of a neighbor that comes before. -/
theorem exists_before_of_lt_freeColor (positive : 1 ≤ m) (lt : m < g.freeColor (g.color before) t) :
    ∃ u ∈ before, u ∈ g.neighbors t ∧ SortedMap.get? (g.color before) u = some m := by
  obtain ⟨u, edge, same⟩ := exists_neighbor_of_lt_freeColor positive lt
  exact ⟨u, color_isSome_iff.1 ⟨m, same⟩, edge, same⟩

/-- No color is left out below another. -/
theorem exists_color_of_le (nodup : order.Nodup) (h : SortedMap.get? (g.color order) t = some n)
    (positive : 1 ≤ m) (le : m ≤ n) : ∃ u, SortedMap.get? (g.color order) u = some m := by
  rcases Nat.eq_or_lt_of_le le with rfl | lt
  · exact ⟨t, h⟩
  · obtain ⟨before, after, rfl⟩ := List.append_of_mem (color_isSome_iff.1 ⟨n, h⟩)
    obtain ⟨-, nodup', apart⟩ := List.nodup_append.1 nodup
    rw [get?_color_split (List.nodup_cons.1 nodup').1] at h
    obtain ⟨u, hu, -, same⟩ := exists_before_of_lt_freeColor positive (Option.some.inj h ▸ lt)
    refine ⟨u, ?_⟩
    rwa [get?_color_append fun hu' => apart u hu u hu' rfl]

/-- In a perfect order a node and its neighbors before it are a clique. -/
theorem Perfect.clique (perfect : g.Perfect (before ++ t :: after))
    (nodes : ∀ u ∈ before ++ t :: after, u ∈ g.nodes) :
    g.Clique (t :: before.filter fun u => u ∈ g.neighbors t) := by
  refine ⟨fun u hu => nodes u ?_, List.pairwise_cons.2 ⟨fun u hu => ?_, ?_⟩⟩
  · rcases List.mem_cons.1 hu with rfl | hu
    · simp
    · exact List.mem_append_left _ (List.mem_filter.1 hu).1
  · simpa using (List.mem_filter.1 hu).2
  · obtain ⟨-, -, -, pairs⟩ := List.triplewise_append.1 perfect
    refine List.pairwise_filter.2 ((pairs t List.mem_cons_self).imp fun joined hu hw => ?_)
    exact joined (by simpa using hu) (by simpa using hw)

/-- In a perfect order there is a clique with as many nodes as a color counts. -/
theorem Perfect.exists_clique (perfect : g.Perfect order) (nodup : order.Nodup)
    (nodes : ∀ u ∈ order, u ∈ g.nodes) (h : SortedMap.get? (g.color order) t = some n) :
    ∃ c, g.Clique c ∧ c.length = n := by
  obtain ⟨before, after, rfl⟩ := List.append_of_mem (color_isSome_iff.1 ⟨n, h⟩)
  obtain ⟨-, nodup', -⟩ := List.nodup_append.1 nodup
  rw [get?_color_split (List.nodup_cons.1 nodup').1] at h
  obtain rfl := Option.some.inj h
  have clique := perfect.clique nodes
  -- the neighbors before the node have all the colors below its own
  have lower : List.range' 1 (g.freeColor (g.color before) t - 1) ⊆
      (before.filter fun u => u ∈ g.neighbors t).filterMap (SortedMap.get? (g.color before)) := by
    intro m hm
    rw [List.mem_range'_1] at hm
    have lt : m < g.freeColor (g.color before) t := by omega
    obtain ⟨u, hu, edge, same⟩ := exists_before_of_lt_freeColor hm.1 lt
    exact List.mem_filterMap.2 ⟨u, List.mem_filter.2 ⟨hu, by simpa using edge⟩, same⟩
  have enough := (List.subperm_of_subset List.nodup_range' lower).length_le
  have fewer := List.length_filterMap_le (SortedMap.get? (g.color before))
    (before.filter fun u => u ∈ g.neighbors t)
  rw [List.length_range'] at enough
  refine ⟨_, clique.take (g.freeColor (g.color before) t), ?_⟩
  rw [List.length_take, List.length_cons]
  omega

/-! ## Chordal graphs -/

/-- Nothing is spilled if the first coloring takes few enough colors. -/
theorem allocate_of_count_le {registers : Nat}
    (few : (g.color g.cardinalityOrder).count ≤ min registers Register.palette.length) :
    ∃ a, g.allocate registers = .ok a ∧ a.assignment.spilled = [] := by
  rw [allocate, spillUntil]
  simp only [if_pos few]
  exact ⟨_, rfl, rfl⟩

/-- In a chordal graph the order takes every node once, and the neighbors before a node are neighbors
of each other. So the coloring takes as many colors as a largest clique has nodes, and with so many
registers nothing is spilled. -/
theorem color_optimal (g : InterferenceGraph) (chordal : g.Chordal) :
    g.cardinalityOrder.Perm g.nodes ∧ g.Perfect g.cardinalityOrder ∧
      ∃ n, g.LargestClique n ∧ (g.color g.cardinalityOrder).used.Perm (List.range' 1 n) ∧
        ∀ registers, n ≤ min registers 10 →
          ∃ a, g.allocate registers = .ok a ∧ a.assignment.spilled = [] := by
  have nodup := g.nodup_cardinalityOrder
  have perfect := chordal.perfect g.mostJoined_cardinalityOrder nodup fun _ => mem_cardinalityOrder.2
  have proper := g.proper_color g.cardinalityOrder
  have perm : (g.color g.cardinalityOrder).used.Perm
      (List.range' 1 (g.color g.cardinalityOrder).count) := by
    refine (List.perm_ext_iff_of_nodup (Coloring.nodup_used _) List.nodup_range').2 fun n => ?_
    rw [Coloring.mem_used, List.mem_range'_1]
    constructor
    · rintro ⟨t, h⟩
      have := proper.positive t n h
      have := Coloring.le_count h
      omega
    · rintro ⟨positive, lt⟩
      rcases (g.color g.cardinalityOrder).count_mem with zero | ⟨t, h⟩
      · omega
      · exact exists_color_of_le nodup h positive (by omega)
  refine ⟨g.perm_cardinalityOrder, perfect, _, ⟨?attained, fun c clique => ?largest⟩, perm,
    fun registers enough => allocate_of_count_le enough⟩
  case attained =>
    rcases (g.color g.cardinalityOrder).count_mem with zero | ⟨t, h⟩
    · exact ⟨[], ⟨by simp, .nil⟩, zero.symm⟩
    · exact perfect.exists_clique nodup (fun _ => mem_cardinalityOrder.1) h
  case largest =>
    have le := clique.length_le_used proper fun t ht =>
      color_isSome_iff.2 (mem_cardinalityOrder.2 ht)
    rwa [perm.length_eq, List.length_range'] at le

/-- A cycle of four nodes with a chord, and a node with one neighbor. -/
def kite : InterferenceGraph :=
  let n (version : Nat) : Temp := ⟨"n", some version⟩
  ((empty.addClique [n 0, n 1, n 2]).addClique [n 0, n 2, n 3]).addEdge (n 4) (n 1)

theorem chordal_kite : kite.Chordal := by
  have perfect : kite.Perfect kite.nodes := by decide +kernel
  exact chordal_of_perfect perfect fun _ => id

/-- Three registers are enough where a triangle is the largest clique. -/
theorem kite_fits : kite.Chordal ∧ kite.LargestClique 3 ∧
    ∃ a, kite.allocate 3 = .ok a ∧ a.assignment.spilled = [] := by
  obtain ⟨-, -, n, largest, used, fits⟩ := color_optimal kite chordal_kite
  have three : (kite.color kite.cardinalityOrder).used.length = 3 := by decide +kernel
  obtain rfl : n = 3 := by rw [← three, used.length_eq, List.length_range']
  exact ⟨chordal_kite, largest, fits 3 (by decide)⟩

end InterferenceGraph

end ThreeAddress
