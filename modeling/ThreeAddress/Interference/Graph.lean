import ThreeAddress.Name
import ThreeAddress.Sorted.Map
/-!
# Interference graphs

An `InterferenceGraph` is an undirected graph without loops on temporaries. An edge says that its
two ends cannot live in one place. The sink `%_` lives nowhere and is never a node.

* `addNode`, `addEdge`, `removeNode` : the operations that change a graph;
* `mem_neighbors_addEdge`, `mem_neighbors_removeNode` : what they do to the neighbors of a node;
* `neighbors`, `degree`, `edges`, `edgeCount`, `text` : views of a graph.
-/

namespace ThreeAddress

namespace InterferenceGraph

/-- The entry of a temporary in a table of neighbors. -/
def entry (table : SortedMap Temp (SortedSet Temp)) (t : Temp) : SortedSet Temp :=
  (table.get? t).getD ∅

theorem entry_insert {table : SortedMap Temp (SortedSet Temp)} {t x : Temp} {s : SortedSet Temp} :
    entry (table.insert t s) x = if x = t then s else entry table x := by
  simp only [entry, SortedMap.get?_insert]
  split <;> rfl

theorem entry_erase_map {table : SortedMap Temp (SortedSet Temp)} {t x : Temp} :
    entry ((table.erase t).map fun _ s => s.erase t) x =
      if x = t then ∅ else (entry table x).erase t := by
  simp only [entry, SortedMap.get?_map, SortedMap.get?_erase]
  split
  · rfl
  · cases table.get? x <;> rfl

end InterferenceGraph

/-- An undirected graph without loops on temporaries. -/
structure InterferenceGraph where
  /-- The neighbors of every node. -/
  table : SortedMap Temp (SortedSet Temp)
  /-- A neighbor has the node as a neighbor in turn. -/
  symm : ∀ a b, b ∈ InterferenceGraph.entry table a → a ∈ InterferenceGraph.entry table b
  /-- No node is its own neighbor. -/
  irrefl : ∀ a, a ∉ InterferenceGraph.entry table a

namespace InterferenceGraph

/-- The graph without nodes. -/
def empty : InterferenceGraph :=
  ⟨∅, fun _ _ h => absurd h (SortedSet.not_mem_empty _), fun _ => SortedSet.not_mem_empty _⟩

instance : Inhabited InterferenceGraph := ⟨empty⟩

/-! ## Views -/

/-- The nodes in ascending order. -/
def nodes (g : InterferenceGraph) : List Temp := g.table.keys

/-- Is the temporary a node? -/
def contains (g : InterferenceGraph) (t : Temp) : Bool := g.table.contains t

/-- The neighbors of a node; a temporary that is no node has none. -/
def neighbors (g : InterferenceGraph) (t : Temp) : SortedSet Temp := entry g.table t

/-- Is there an edge between two temporaries? -/
def interferes (g : InterferenceGraph) (a b : Temp) : Bool := (g.neighbors a).contains b

/-- The number of neighbors. -/
def degree (g : InterferenceGraph) (t : Temp) : Nat := (g.neighbors t).size

/-- The number of nodes. -/
def size (g : InterferenceGraph) : Nat := g.table.size

/-- Is there no node? -/
def isEmpty (g : InterferenceGraph) : Bool := g.nodes.isEmpty

/-- Every edge once, the smaller end first. -/
def edges (g : InterferenceGraph) : List (Temp × Temp) :=
  g.nodes.flatMap fun a =>
    ((g.neighbors a).toList.filter fun b => compare a b == .lt).map fun b => (a, b)

/-- The number of edges. Each of them is counted at both ends. -/
def edgeCount (g : InterferenceGraph) : Nat :=
  (g.table.values.map SortedSet.size).foldl (· + ·) 0 / 2

/-- The written form: a line for every node with its neighbors. -/
def text (g : InterferenceGraph) : String :=
  String.join (g.nodes.map fun t =>
    t.text ++ ": " ++ " ".intercalate ((g.neighbors t).toList.map Temp.text) ++ "\n")

theorem neighbors_symm {g : InterferenceGraph} {a b : Temp} (h : b ∈ g.neighbors a) :
    a ∈ g.neighbors b := g.symm a b h

theorem not_mem_neighbors_self (g : InterferenceGraph) (a : Temp) : a ∉ g.neighbors a := g.irrefl a

theorem mem_nodes_of_mem_neighbors {g : InterferenceGraph} {a b : Temp} (h : b ∈ g.neighbors a) :
    a ∈ g.nodes := by
  rw [nodes, SortedMap.mem_keys]
  cases e : g.table.get? a with
  | some s => exact ⟨s, rfl⟩
  | none => simp [neighbors, entry, e] at h

/-! ## Changes -/

/-- Add a node without neighbors, unless it is the sink or there already. -/
def addNode (g : InterferenceGraph) (t : Temp) : InterferenceGraph :=
  if t.isSink then g
  else
    have same (x : Temp) : entry (g.table.insert t (entry g.table t)) x = entry g.table x := by
      rw [entry_insert]
      split
      · next h => rw [h]
      · rfl
    { table := g.table.insert t (entry g.table t)
      symm := fun a b h => by
        rw [same] at h ⊢
        exact g.symm a b h
      irrefl := fun a => by
        rw [same]
        exact g.irrefl a }

/-- Connect two nodes of a table. -/
def connect (table : SortedMap Temp (SortedSet Temp)) (a b : Temp) :
    SortedMap Temp (SortedSet Temp) :=
  let table := table.insert a ((entry table a).insert b)
  table.insert b ((entry table b).insert a)

theorem mem_entry_connect {table : SortedMap Temp (SortedSet Temp)} {a b x y : Temp} (h : a ≠ b) :
    y ∈ entry (connect table a b) x ↔ x = a ∧ y = b ∨ x = b ∧ y = a ∨ y ∈ entry table x := by
  simp only [connect, entry_insert, if_neg (Ne.symm h)]
  by_cases hb : x = b
  · subst hb
    simp [Ne.symm h]
  · by_cases ha : x = a
    · subst ha
      simp [h]
    · simp [ha, hb]

/-- Add an edge and its ends. There are no edges from a temporary to itself and none to the sink. -/
def addEdge (g : InterferenceGraph) (a b : Temp) : InterferenceGraph :=
  if h : a = b ∨ a.isSink ∨ b.isSink then g
  else
    have ne : a ≠ b := fun e => h (.inl e)
    { table := connect g.table a b
      symm := fun x y m => by
        rw [mem_entry_connect ne] at m ⊢
        rcases m with ⟨hx, hy⟩ | ⟨hx, hy⟩ | m
        · exact .inr (.inl ⟨hy, hx⟩)
        · exact .inl ⟨hy, hx⟩
        · exact .inr (.inr (g.symm x y m))
      irrefl := fun x m => by
        rcases (mem_entry_connect ne).1 m with ⟨hx, hy⟩ | ⟨hx, hy⟩ | m
        · exact ne (hx ▸ hy)
        · exact ne (hy ▸ hx)
        · exact g.irrefl x m }

/-- Add an edge from a temporary to each of a list. -/
def addEdges (g : InterferenceGraph) (a : Temp) (others : List Temp) : InterferenceGraph :=
  others.foldl (fun g b => g.addEdge a b) g

/-- Add an edge between every two of a list. -/
def addClique (g : InterferenceGraph) : List Temp → InterferenceGraph
  | [] => g
  | a :: rest => (g.addEdges a rest).addClique rest

/-- Remove a node and its edges. -/
def removeNode (g : InterferenceGraph) (t : Temp) : InterferenceGraph where
  table := (g.table.erase t).map fun _ s => s.erase t
  symm := fun a b h => by
    rw [entry_erase_map] at h ⊢
    split at h
    · exact absurd h (SortedSet.not_mem_empty _)
    · next ha =>
      have ⟨hb, m⟩ := SortedSet.mem_erase.1 h
      rw [if_neg hb]
      exact SortedSet.mem_erase.2 ⟨ha, g.symm a b m⟩
  irrefl := fun a h => by
    rw [entry_erase_map] at h
    split at h
    · exact SortedSet.not_mem_empty _ h
    · exact g.irrefl a (SortedSet.mem_erase.1 h).2

theorem mem_neighbors_addEdge {g : InterferenceGraph} {a b x y : Temp}
    (h : ¬ (a = b ∨ a.isSink ∨ b.isSink)) :
    y ∈ (g.addEdge a b).neighbors x ↔ x = a ∧ y = b ∨ x = b ∧ y = a ∨ y ∈ g.neighbors x := by
  rw [addEdge, dif_neg h]
  exact mem_entry_connect fun e => h (.inl e)

theorem mem_neighbors_removeNode {g : InterferenceGraph} {t x y : Temp} :
    y ∈ (g.removeNode t).neighbors x ↔ x ≠ t ∧ y ≠ t ∧ y ∈ g.neighbors x := by
  rw [neighbors, removeNode, entry_erase_map]
  split
  · next h => simp [h]
  · next h => simp [h, neighbors]

end InterferenceGraph

end ThreeAddress
