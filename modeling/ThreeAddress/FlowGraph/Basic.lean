import ThreeAddress.Program
/-!
# Control-flow graphs

A `FlowGraph` is a procedure cut into blocks, in the order of the text. Control enters a block at
its label and leaves it at its last instruction, either to the label that a jump or a branch names
or to the block that follows in the text.

* `Block.succs`, `FlowGraph.succs`, `FlowGraph.preds` : the edges;
* `FlowGraph.toProc` : the procedure again, with every block labelled;
* `FlowGraph.mapBodies` : the same graph with other instructions in its blocks.
-/

namespace ThreeAddress

/-- A run of instructions that is entered only at its label and left only at its end. -/
structure Block where
  label : Label
  /-- Does the label stand in the text of the procedure? -/
  named : Bool
  /-- The instructions behind the label. -/
  body : List Instr
deriving DecidableEq, Inhabited

namespace Block

/-- The phis at the head of the block. -/
def phis (b : Block) : List Instr := b.body.takeWhile Instr.isPhi

/-- The instructions behind the phis at the head. -/
def code (b : Block) : List Instr := b.body.dropWhile Instr.isPhi

/-- The last instruction, if it transfers control. -/
def terminator? (b : Block) : Option Instr := b.body.getLast?.filter Instr.isTransfer

/-- The label that the last instruction names. -/
def target? (b : Block) : Option Label := b.body.getLast?.bind Instr.target?

/-- Can control run past the end of the block? -/
def fallsThrough (b : Block) : Bool := b.body.getLast?.all Instr.fallsThrough

/-- Where control can go: to the target of the last instruction, and to the next block. -/
def succs (b : Block) (next : Option Label) : List Label :=
  let jumps := b.target?.toList
  let falls := if b.fallsThrough then next.toList else []
  jumps ++ falls.filter (· ∉ jumps)

end Block

/-- An edge from one block to another. -/
abbrev Edge := Label × Label

/-- A procedure as blocks; the first one is entered first. -/
structure FlowGraph where
  name : Global
  params : List Temp
  /-- The blocks in the order of the text. -/
  blocks : List Block
deriving DecidableEq, Inhabited

/-- Pair each block with its successors. -/
def withSuccs : List Block → List (Block × List Label)
  | [] => []
  | b :: rest => (b, b.succs (rest.head?.map Block.label)) :: withSuccs rest

namespace FlowGraph

/-- The labels of the blocks, in order. -/
def labels (g : FlowGraph) : List Label := g.blocks.map Block.label

/-- The label of the block that is entered first. -/
def entry? (g : FlowGraph) : Option Label := g.labels.head?

/-- The block with this label. -/
def block? (g : FlowGraph) (l : Label) : Option Block := g.blocks.find? fun b => b.label == l

/-- The blocks that control can go to from a block. -/
def succs (g : FlowGraph) (l : Label) : List Label :=
  match (withSuccs g.blocks).find? fun e => e.1.label == l with
  | some e => e.2
  | none => []

/-- The blocks that control can come from to a block. -/
def preds (g : FlowGraph) (l : Label) : List Label :=
  (withSuccs g.blocks).filterMap fun e => if l ∈ e.2 then some e.1.label else none

/-- All edges, in the order of the blocks they leave. -/
def edges (g : FlowGraph) : List Edge :=
  (withSuccs g.blocks).flatMap fun e => e.2.map fun l => (e.1.label, l)

/-- The instructions of the procedure, with the labels that its text has. -/
def instrs (g : FlowGraph) : List Instr :=
  g.blocks.flatMap fun b => (if b.named then [.label b.label] else []) ++ b.body

/-- The instructions with a label in front of every block. -/
def linear (g : FlowGraph) : List Instr := g.blocks.flatMap fun b => .label b.label :: b.body

/-- The procedure with a label in front of every block. -/
def toProc (g : FlowGraph) : Proc := ⟨g.name, g.params, g.linear⟩

/-- Every temporary that the procedure mentions, apart from `%_`. -/
def temps (g : FlowGraph) : SortedSet Temp :=
  .ofList (g.params.filter (!·.isSink) ++ g.blocks.flatMap fun b => b.body.flatMap Instr.temps)

/-- Every instruction in the blocks, in order. -/
def code (g : FlowGraph) : List Instr := g.blocks.flatMap Block.body

/-- Every temporary that is defined, in order and as often as it is. -/
def defs (g : FlowGraph) : List Temp := g.code.filterMap Instr.def?

/-- Does any block begin with a phi? -/
def hasPhis (g : FlowGraph) : Bool := g.blocks.any fun b => !b.phis.isEmpty

/-- Replace the instructions of every block. -/
def mapBodies (f : Block → List Instr) (g : FlowGraph) : FlowGraph :=
  { g with blocks := g.blocks.map fun b => { b with body := f b } }

/-- Replace every instruction. -/
def mapInstrs (f : Instr → Instr) (g : FlowGraph) : FlowGraph := g.mapBodies fun b => b.body.map f

end FlowGraph

end ThreeAddress
