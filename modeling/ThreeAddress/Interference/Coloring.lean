import ThreeAddress.Interference.Graph
import ThreeAddress.Search
/-!
# Coloring

Colors are positive numbers, and the two ends of an edge never have the same one. The nodes are
colored in an order that always goes on with the node that has most neighbors before it.

* `InterferenceGraph.cardinalityOrder` : the order;
* `InterferenceGraph.color` : the least color that is free, node after node;
* `InterferenceGraph.busiest?` : the node with most neighbors.
-/

namespace ThreeAddress

/-- The first element of a list for which a measure is greatest. -/
def firstGreatest? {α : Type} (f : α → Nat) : List α → Option α
  | [] => none
  | a :: rest =>
    match firstGreatest? f rest with
    | some b => if f a < f b then some b else some a
    | none => some a

/-- A coloring of temporaries. -/
abbrev Coloring := SortedMap Temp Nat

namespace Coloring

/-- The number of colors when none is left out: the greatest one. -/
def count (c : Coloring) : Nat := (SortedMap.values c).foldl max 0

end Coloring

namespace InterferenceGraph

/-- Go on with the order. Each node that is left stands with the number of its neighbors that come
before it. -/
def continueOrder (g : InterferenceGraph) : (left : Nat) → List (Temp × Nat) → List Temp
  | 0, _ => []
  | left + 1, weights =>
    match firstGreatest? Prod.snd weights with
    | none => []
    | some (next, _) =>
      let others := weights.filter fun e => e.1 != next
      let near := g.neighbors next
      next :: g.continueOrder left
        (others.map fun (t, w) => (t, if near.contains t then w + 1 else w))

/-- All nodes, each time the one with most neighbors so far; of several the smallest. -/
def cardinalityOrder (g : InterferenceGraph) : List Temp :=
  g.continueOrder g.size (g.nodes.map fun t => (t, 0))

/-- The least color that no neighbor has. -/
def freeColor (g : InterferenceGraph) (colors : Coloring) (t : Temp) : Nat :=
  let taken := (g.neighbors t).toList.filterMap colors.get?
  firstFree (fun c => taken.contains c) taken.length 1

/-- Color temporaries in an order, each with the least color that is free. -/
def color (g : InterferenceGraph) (order : List Temp) : Coloring :=
  order.foldl (fun colors t => colors.insert t (g.freeColor colors t)) ∅

/-- The node with most neighbors; of several the smallest. -/
def busiest? (g : InterferenceGraph) : Option Temp := firstGreatest? g.degree g.nodes

end InterferenceGraph

end ThreeAddress
