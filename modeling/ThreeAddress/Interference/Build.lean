import ThreeAddress.Interference.Graph
import ThreeAddress.Liveness
/-!
# What interferes in a procedure

An instruction writes its definition while everything live behind it has to keep its value, so the
two interfere. The source of a copy is treated like its destination. The destinations of the phis
at the head of a block are written together, and so are the parameters, which also meet all that is
live on entry.

* `FlowGraph.interference` : the interference graph of a procedure.
-/

namespace ThreeAddress

/-- The temporaries that interfere with what is live behind an instruction. -/
def Instr.exposed : Instr → List Temp
  | .copy dest src => dest.named?.toList ++ src.named?.toList
  | i => i.def?.toList

namespace InterferenceGraph

/-- Add the edges of an instruction, given what is live behind it. -/
def addInstr (g : InterferenceGraph) (i : Instr) (after : SortedSet Temp) : InterferenceGraph :=
  i.exposed.foldl (fun g t => g.addEdges t after.toList) g

/-- Add the edges of a block. -/
def addBlock (live : Liveness) (g : InterferenceGraph) (b : Block) : InterferenceGraph :=
  let g := (b.body.zip (live.instrs b.label)).foldl (fun g (i, point) => g.addInstr i point.after) g
  g.addClique (b.phis.filterMap Instr.def?)

end InterferenceGraph

namespace FlowGraph

/-- The interference graph of a procedure. Every temporary of the procedure is a node. -/
def interference (g : FlowGraph) (live : Liveness) : InterferenceGraph :=
  let nodes := g.temps.toList.foldl InterferenceGraph.addNode .empty
  let inner := g.blocks.foldl (InterferenceGraph.addBlock live) nodes
  g.params.foldl (fun h p => h.addEdges p live.atEntry.toList) (inner.addClique g.params)

end FlowGraph

end ThreeAddress
