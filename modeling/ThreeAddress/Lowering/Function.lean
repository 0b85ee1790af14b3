import ThreeAddress.Liveness
import ThreeAddress.Lowering.Instr
/-!
# Lowering of procedures

A function first sets up its frame and moves its parameters to their homes. Its blocks follow in
the order of the procedure, and behind them the detours.

* `Layout.ofAssignment` : the frame of a procedure;
* `Layout.enter` : the code in front of the first block;
* `FlowGraph.lower` : the whole function.
-/

namespace ThreeAddress

/-- Does the instruction call something? -/
def Instr.isCall : Instr → Bool
  | .call _ _ _ | .print _ => true
  | _ => false

/-- The number of argument slots that an instruction needs. -/
def Instr.argumentSlots : Instr → Nat
  | .param index _ => index
  | _ => 0

namespace Layout

/-- The frame of a procedure whose temporaries have their homes. -/
def ofAssignment (g : FlowGraph) (a : Assignment) : Layout :=
  { proc := g.name
    locations := a.locations
    frame :=
      { spills := a.spilled.length
        calleeSaved := a.calleeSaved
        callerSaved :=
          if g.code.any Instr.isCall then a.registers.toList.filter Target.Register.isCallerSaved
          else []
        arguments := (g.code.map Instr.argumentSlots).foldl max 0 } }

/-! ## Entering a function -/

/-- The moves of the parameters that arrive in registers. -/
def registerParams (layout : Layout) : List (Temp × Target.Register) → Except Breach (List Move)
  | [] => .ok []
  | (t, r) :: rest => do
    if t.isSink then layout.registerParams rest
    else
      let dst ← layout.home t
      let more ← layout.registerParams rest
      return if dst = .register r then more else ⟨dst, .register r⟩ :: more

/-- Load the parameters that arrive on the stack, the first of them at `offset` from the base of
the frame. -/
def stackParams (layout : Layout) (offset : Int32) : List Temp → Except Breach (List Target.Instr)
  | [] => .ok []
  | t :: rest => do
    if t.isSink then layout.stackParams (offset + 8) rest
    else
      let dst ← layout.home t
      let more ← layout.stackParams (offset + 8) rest
      return .mov (.register .r11) (.memory ⟨.register .rbp, offset.toInt⟩) ::
        (move dst (.register .r11) ++ more)

/-- Where the first parameter on the stack is: above the base of the frame lie the base of the
caller's frame and the return address. -/
def firstStackParam : Int32 := 16

/-- Set up the frame and save the registers that have to be given back. -/
def setUp (layout : Layout) : List Target.Instr :=
  let size := layout.frame.size
  [.push (.register .rbp), .mov (.register .rbp) (.register .rsp)] ++
    (if 0 < size then [.alu .sub (.register .rsp) (.immediate size.toInt64)] else []) ++
    layout.store layout.frame.calleeSaved

/-- The code in front of the first block. -/
def enter (layout : Layout) (g : FlowGraph) : Except Breach (List Target.Instr) := do
  let registers := Target.Register.arguments
  let inRegisters ← layout.registerParams (g.params.zip registers)
  let onStack ← layout.stackParams firstStackParam (g.params.drop registers.length)
  let moves ←
    match g.entry? with
    | some entry => g.edgeMoves layout .entry entry
    | none => .ok []
  return layout.setUp ++ moveAll inRegisters ++ onStack ++ moveAll moves

end Layout

/-! ## Blocks -/

namespace FlowGraph

/-- The code of instructions of a block, each with the live sets around it. -/
def lowerBody (g : FlowGraph) (layout : Layout) (block : Label) (detours : Nat) :
    List (Instr × InstrLive) → Except Breach Code
  | [] => .ok (.straight [])
  | (i, point) :: rest => do
    let code ← g.lowerInstr layout block detours point.after i
    return code ++ (← g.lowerBody layout block (detours + code.detours.length) rest)

/-- The code of a block that control runs past the end of: the moves on the way to the next block,
or a return of zero. -/
def lowerFallThrough (g : FlowGraph) (layout : Layout) (block : Label) :
    Option Label → Except Breach (List Target.Instr)
  | some next => do return moveAll (← g.edgeMoves layout (.block block) next)
  | none => .ok layout.leaveZero

/-- The code of a block, given the block behind it. -/
def lowerBlock (g : FlowGraph) (live : Liveness) (layout : Layout) (detours : Nat) (b : Block)
    (next : Option Label) : Except Breach Code := do
  let body ← g.lowerBody layout b.label detours (b.body.zip (live.instrs b.label))
  let falling ← if b.fallsThrough then g.lowerFallThrough layout b.label next else .ok []
  return .straight [.label (layout.blockName b.label)] ++ body ++ .straight falling

/-- The code of blocks. -/
def lowerBlocks (g : FlowGraph) (live : Liveness) (layout : Layout) (detours : Nat) :
    List Block → Except Breach Code
  | [] => .ok (.straight [])
  | b :: rest => do
    let code ← g.lowerBlock live layout detours b (rest.head?.map Block.label)
    return code ++ (← g.lowerBlocks live layout (detours + code.detours.length) rest)

/-- The function of a procedure whose temporaries have their homes. -/
def lower (g : FlowGraph) (live : Liveness) (a : Assignment) : Except Breach Target.Function := do
  let layout := Layout.ofAssignment g a
  let entering ← layout.enter g
  let code ← g.lowerBlocks live layout 0 g.blocks
  return ⟨g.name.name, layout.frame, entering ++ code.instrs ++ code.detours.flatMap Detour.code⟩

end FlowGraph

namespace Target

/-- Check that every instruction of a function is legal. -/
def Function.check (f : Function) : Except Breach Unit :=
  match firstIllegal? f.instrs with
  | some (index, i, reason) => .error (.illegalInstr f.name index i reason)
  | none => .ok ()

end Target

end ThreeAddress
