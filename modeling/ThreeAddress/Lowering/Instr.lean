import ThreeAddress.Lowering.Arithmetic
import ThreeAddress.Lowering.Call
/-!
# Lowering of instructions

* `Layout.lower` : the code of an instruction that stays within its block, or returns;
* `FlowGraph.lowerInstr` : the code of any instruction;
* `Detour` : the code of an edge that has moves to make behind a branch.
-/

namespace ThreeAddress

/-- Moves that are made on an edge out of line, before going on to the target of the edge. -/
structure Detour where
  name : String
  moves : List Move
  target : String
deriving DecidableEq

namespace Detour

/-- The code of a detour. -/
def code (d : Detour) : List Target.Instr := .label d.name :: (moveAll d.moves ++ [.jmp d.target])

end Detour

/-- Code, and the detours that it jumps to. -/
structure Code where
  instrs : List Target.Instr
  detours : List Detour

namespace Code

/-- Code without detours. -/
def straight (instrs : List Target.Instr) : Code := ⟨instrs, []⟩

/-- One piece of code behind another. -/
def append (a b : Code) : Code := ⟨a.instrs ++ b.instrs, a.detours ++ b.detours⟩

instance : Append Code := ⟨append⟩

end Code

namespace Layout

/-- Give back the registers and the frame, and return what is in `rax`. -/
def leave (layout : Layout) : List Target.Instr :=
  layout.restore layout.frame.calleeSaved ++
    [.mov (.register .rsp) (.register .rbp), .pop (.register .rbp), .ret]

/-- Set `rax` to zero. -/
def zeroResult : Target.Instr := .alu .xor (.register .rax) (.register .rax)

/-- Return zero. -/
def leaveZero (layout : Layout) : List Target.Instr := zeroResult :: layout.leave

/-- Write a register to a destination. -/
def writeBack (layout : Layout) (dest : Var) (r : Target.Register) :
    Except Breach (List Target.Instr) := do
  match ← layout.destination dest with
  | some dst => return move dst (.register r)
  | none => return []

/-- Load an argument of a branch or a return. An immediate is moved to `rax`. -/
def loadTested (src : Target.Operand) : List Target.Instr × Target.Operand :=
  match src with
  | .immediate _ => ([.mov (.register .rax) src], .register .rax)
  | src => ([], src)

/-- The code of an instruction, given what is live behind it. Phis are realized on the edges, and
jumps and branches by `FlowGraph.lowerInstr`. -/
def lower (layout : Layout) (after : SortedSet Temp) :
    Instr → Except Breach (List Target.Instr)
  | .binary op dest lhs rhs => do
    let lhs ← layout.source lhs
    let rhs ← layout.source rhs
    let (code, result) := applyBinary op lhs rhs
    return code ++ (← layout.writeBack dest result)
  | .unary op dest arg => do
    let src ← layout.source arg
    return applyUnary op src ++ (← layout.writeBack dest .rax)
  | .const dest value => do
    match ← layout.destination dest with
    | some dst => return move dst (.immediate value)
    | none => return []
  | .copy dest src => do
    match ← layout.destination dest with
    | some dst => return move dst (← layout.source src)
    | none => return []
  | .param index arg => do
    let src ← layout.source arg
    return move (layout.frame.argument index) src
  | .call dest callee argc => do
    let dst ← layout.destination dest
    let kept := layout.kept after (dst.bind Target.Operand.register?)
    let saving ← layout.save kept
    return saving ++ callFunction layout.frame callee.name argc ++ layout.restore kept ++
      (match dst with
       | some dst => move dst (.register .rax)
       | none => [])
  | .print arg => do
    let kept := layout.kept after none
    let saving ← layout.save kept
    let src ← layout.source arg
    return saving ++ move (.register .rdi) src ++ [.call Global.printWord.name] ++
      layout.restore kept
  | .ret arg => do
    let src ← layout.source arg
    let load := if src = .immediate 0 then [zeroResult] else move (.register .rax) src
    return load ++ layout.leave
  | .nop | .label _ | .phi _ _ | .jump _ | .branch _ _ _ => .ok []

end Layout

namespace FlowGraph

/-- The code of an instruction of a block, given how many detours there are already. -/
def lowerInstr (g : FlowGraph) (layout : Layout) (block : Label) (detours : Nat)
    (after : SortedSet Temp) : Instr → Except Breach Code
  | .jump target => do
    let moves ← g.edgeMoves layout (.block block) target
    return .straight (moveAll moves ++ [.jmp (layout.blockName target)])
  | .branch test arg target => do
    let (load, lhs) := Layout.loadTested (← layout.source arg)
    let compare : List Target.Instr := load ++ [.cmp lhs (.immediate 0)]
    let moves ← g.edgeMoves layout (.block block) target
    let condition := Target.Condition.ofTest test
    if moves.isEmpty then
      return .straight (compare ++ [.jcc condition (layout.blockName target)])
    else
      let name := ".L" ++ layout.proc.name ++ ".T" ++ decimalText detours
      return ⟨compare ++ [.jcc condition name], [⟨name, moves, layout.blockName target⟩]⟩
  | i => do return .straight (← layout.lower after i)

end FlowGraph

end ThreeAddress
