import ThreeAddress.FlowGraph.Basic
import ThreeAddress.FreshNames
/-!
# Cutting a procedure into blocks

A block begins at a label or behind a transfer of control. A block that begins without a label is
given a fresh one. The procedure has to be closed: no label is defined twice, and every label that
a jump, a branch or a phi at the head of a block names is the label of a block.

* `pieces` : the blocks of a body, before fresh labels are chosen;
* `LabelError` : why a procedure is not closed;
* `FlowGraph.build`, `FlowGraph.ofProc` : the graph of a procedure.
-/

namespace ThreeAddress

/-- Why a procedure has no control-flow graph. -/
inductive LabelError where
  /-- A label is named that no block has. -/
  | undefined (label : Label)
  /-- A label is defined a second time. -/
  | repeated (label : Label)
deriving DecidableEq

namespace LabelError

/-- The stable short code. -/
def code : LabelError → String
  | undefined _ => "E103"
  | repeated _ => "E104"

/-- The error in words. -/
def message : LabelError → String
  | undefined label => "jump to undefined label " ++ label.text
  | repeated label => "label " ++ label.text ++ " is defined more than once"

end LabelError

/-- A stretch of a body that becomes a block, with its label if it has one. -/
structure Piece where
  label? : Option Label
  body : List Instr
deriving DecidableEq

/-- Cut a body in front of every label and behind every transfer of control. -/
def pieces : List Instr → List Piece
  | [] => []
  | .label l :: rest =>
    match pieces rest with
    | ⟨none, body⟩ :: more => ⟨some l, body⟩ :: more
    | more => ⟨some l, []⟩ :: more
  | i :: rest =>
    if i.isTransfer then ⟨none, [i]⟩ :: pieces rest
    else
      match pieces rest with
      | ⟨none, body⟩ :: more => ⟨none, i :: body⟩ :: more
      | more => ⟨none, [i]⟩ :: more

/-- Make blocks of pieces, with fresh labels where there are none. -/
def nameBlocks (names : FreshNames) : List Piece → List Block × FreshNames
  | [] => ([], names)
  | ⟨some l, body⟩ :: rest =>
    let (blocks, names) := nameBlocks names rest
    (⟨l, true, body⟩ :: blocks, names)
  | ⟨none, body⟩ :: rest =>
    let (l, names) := names.label
    let (blocks, names) := nameBlocks names rest
    (⟨l, false, body⟩ :: blocks, names)

/-- The blocks that the arguments of a phi arrive from. -/
def Instr.phiBlocks : Instr → List Label
  | .phi _ args => args.keys.filterMap Origin.label?
  | _ => []

namespace FlowGraph

/-- The first label that is named but is no block's: targets first, then the edges of phis. -/
def undefinedLabel? (g : FlowGraph) : Option Label :=
  (g.blocks.filterMap Block.target? ++ g.blocks.flatMap fun b => b.phis.flatMap Instr.phiBlocks).find?
    (· ∉ g.labels)

/-- The graph of a procedure, and the names that are left. -/
def build (p : Proc) (names : FreshNames) : Except LabelError (FlowGraph × FreshNames) :=
  match firstRepeated? [] p.labels with
  | some l => .error (.repeated l)
  | none =>
    let ps := match pieces p.body with
      | [] => [⟨none, []⟩]
      | ps => ps
    let (blocks, names) := nameBlocks names ps
    let g : FlowGraph := ⟨p.name, p.params, blocks⟩
    match g.undefinedLabel? with
    | some l => .error (.undefined l)
    | none => .ok (g, names)

/-- The graph of a procedure, with names that avoid all its labels and temporaries. -/
def ofProc (p : Proc) : Except LabelError (FlowGraph × FreshNames) := do
  let (g, names) ← build p (.avoiding p.labels)
  return (g, names.avoidingTemps g.temps.toList)

end FlowGraph

end ThreeAddress
