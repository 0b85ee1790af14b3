import ThreeAddress.Allocation
import ThreeAddress.Target.Listing
/-!
# Moves between homes

Lowering turns the instructions of a procedure into instructions of the target machine, with every
temporary in the home that its assignment gives it.

* `Layout` : the homes of a procedure and its frame;
* `move` : copies one operand to another, through `rax` where the machine cannot do it directly;
* `moveAll` : makes several moves as if at once;
* `FlowGraph.edgeMoves` : the moves that the phis of a block make on an edge into it.
-/

namespace ThreeAddress

/-- Where the values of a procedure are kept. -/
structure Layout where
  proc : Global
  locations : SortedMap Temp Target.Location
  frame : Target.Frame

namespace Layout

/-- The place of a location. -/
def place : Target.Location → Target.Operand
  | .register r => .register r
  | .slot n => Target.Frame.spill n

/-- The place of a temporary. -/
def home (layout : Layout) (t : Temp) : Except Breach Target.Operand :=
  match layout.locations.get? t with
  | some l => .ok (place l)
  | none => .error (.homeless t layout.proc)

/-- The operand to read a value from; the sink reads as zero. -/
def source (layout : Layout) : Var → Except Breach Target.Operand
  | .temp t => if t.isSink then .ok (.immediate 0) else layout.home t
  | .global g => .ok (.symbol g.name)

/-- The operand to write a value to, unless the value is discarded. -/
def destination (layout : Layout) (v : Var) : Except Breach (Option Target.Operand) :=
  if v.isSink then .ok none else (layout.source v).map some

/-- The name of a block among all functions. -/
def blockName (layout : Layout) (l : Label) : String := ".L" ++ layout.proc.name ++ l.text

end Layout

/-! ## Moves -/

/-- Does a move have to go through a register? -/
def indirect (dst : Target.Operand) : Target.Operand → Bool
  | .register _ => false
  | .memory _ => dst.isMemory
  | .immediate value => dst.isMemory && !Target.Operand.fits value

/-- Copy one operand to another. -/
def move (dst src : Target.Operand) : List Target.Instr :=
  if dst = src then []
  else if indirect dst src then [.mov (.register .rax) src, .mov dst (.register .rax)]
  else [.mov dst src]

/-- A move to be made together with others. -/
structure Move where
  dst : Target.Operand
  src : Target.Operand
deriving DecidableEq

/-- Make several moves as if at once: every source is read before any destination is written. -/
def moveAll : List Move → List Target.Instr
  | [] => []
  | [m] => move m.dst m.src
  | moves => moves.map (fun m => .push m.src) ++ moves.reverse.map fun m => .pop m.dst

/-! ## Moves on edges -/

/-- The moves of some phis for control that comes from `origin`. -/
def phiMoves (layout : Layout) (origin : Origin) : List Instr → Except Breach (List Move)
  | [] => .ok []
  | .phi dest args :: rest =>
    match args.get? origin with
    | none => phiMoves layout origin rest
    | some arg => do
      let dst ← layout.home dest
      let src ← layout.home arg
      let more ← phiMoves layout origin rest
      return if dst = src then more else ⟨dst, src⟩ :: more
  | _ :: rest => phiMoves layout origin rest

namespace FlowGraph

/-- The moves that the phis of a block make for control that comes from `origin`. -/
def edgeMoves (g : FlowGraph) (layout : Layout) (origin : Origin) (target : Label) :
    Except Breach (List Move) :=
  match g.block? target with
  | some b => phiMoves layout origin b.phis
  | none => .ok []

end FlowGraph

end ThreeAddress
