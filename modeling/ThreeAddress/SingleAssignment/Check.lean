import ThreeAddress.Breach
import ThreeAddress.Search
/-!
# Single assignment

In single-assignment form every temporary has one definition and no parameter has any, and every
phi has one argument for each edge into its block. A phi of the first block may also have an
argument for the entry of the procedure.

* `FlowGraph.checkDefinitions`, `FlowGraph.checkPhis` : the checks of the two halves.
-/

namespace ThreeAddress

namespace FlowGraph

/-- Check that every temporary has at most one definition and that parameters have none. -/
def checkDefinitions (g : FlowGraph) : Except Breach Unit :=
  match firstRepeated? g.params g.defs with
  | some t => .error (.repeatedDefinition t g.name)
  | none => .ok ()

/-- The edges that a phi of a block needs arguments for. -/
def phiEdges (g : FlowGraph) (l : Label) : SortedSet Origin := .ofList ((g.preds l).map .block)

/-- Does a phi of a block have just the arguments that it needs? -/
def phiMatches (g : FlowGraph) (l : Label) (args : SortedMap Origin Temp) : Bool :=
  let edges : SortedSet Origin := .ofList args.keys
  let edges := if g.entry? = some l then edges.erase .entry else edges
  edges == g.phiEdges l

/-- Check the arguments of the phis at the heads of blocks. -/
def checkPhis (g : FlowGraph) : Except Breach Unit :=
  g.blocks.forM fun b =>
    b.phis.forM fun i =>
      match i with
      | .phi dest args =>
        if g.phiMatches b.label args then .ok () else .error (.phiEdges dest b.label)
      | _ => .ok ()

end FlowGraph

end ThreeAddress
