import ThreeAddress.FlowGraph.Basic
/-!
# Walks through a control-flow graph

* `FlowGraph.reachable` : the blocks that control can get to from the entry;
* `FlowGraph.backEdges` : the edges that a depth-first walk from the entry finds to lead back to a
  block of the path it is on. Without them the reachable part of the graph has no cycle.
-/

namespace ThreeAddress

namespace FlowGraph

/-- Add successors to a set of blocks, round after round, until nothing is added. -/
def grow (g : FlowGraph) : (rounds : Nat) → SortedSet Label → SortedSet Label
  | 0, s => s
  | rounds + 1, s =>
    let t := s.toList.foldl (fun t l => (g.succs l).foldl SortedSet.insert t) s
    if t = s then s else g.grow rounds t

/-- The blocks that control can get to. A path without repetition is no longer than the number of
blocks, so as many rounds find them all. -/
def reachable (g : FlowGraph) : SortedSet Label :=
  g.grow g.blocks.length (.ofList g.entry?.toList)

/-- Walk on from a block at the end of a path, depth first. The walk notes which blocks it came
to and which edges lead back to the path. The path has no repetition, so its length is bounded by
the number of blocks. -/
def walk (g : FlowGraph) (path : List Label) (l : Label) :
    (depth : Nat) → SortedSet Label → SortedSet Label × List Edge
  | 0, visited => (visited, [])
  | depth + 1, visited =>
    (g.succs l).foldl
      (fun (visited, back) next =>
        if next ∈ l :: path then (visited, back ++ [(l, next)])
        else if visited.contains next then (visited, back)
        else
          let (visited, more) := g.walk (l :: path) next depth (visited.insert next)
          (visited, back ++ more))
      (visited, [])

/-- The edges that close a cycle in a depth-first walk from the entry. -/
def backEdges (g : FlowGraph) : List Edge :=
  match g.entry? with
  | none => []
  | some entry => (g.walk [] entry g.blocks.length (SortedSet.insert ∅ entry)).2

end FlowGraph

end ThreeAddress
