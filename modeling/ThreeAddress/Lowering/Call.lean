import ThreeAddress.Lowering.Move
/-!
# Calls on the target machine

A call takes its first six arguments in registers and the others on the stack, which has to be at a
multiple of 16 bytes. The registers that the call may overwrite and that hold something live behind
it are saved around it.

* `callFunction` : lays the arguments out and calls;
* `Layout.kept`, `Layout.save`, `Layout.restore` : the registers kept across a call.
-/

namespace ThreeAddress

/-- Lay the arguments out, call, and take the arguments off the stack again. -/
def callFunction (frame : Target.Frame) (callee : String) (argc : Nat) : List Target.Instr :=
  let inRegisters := min argc Target.Register.arguments.length
  let onStack := argc - inRegisters
  let padding := onStack % 2
  let adjust (op : Target.AluOp) (slots : Nat) : List Target.Instr :=
    if slots = 0 then [] else [.alu op (.register .rsp) (.immediate (.ofNat (8 * slots)))]
  adjust .sub padding ++
    (List.range onStack).reverse.map (fun k => .push (frame.argument (inRegisters + 1 + k))) ++
    (Target.Register.arguments.take inRegisters).mapIdx
      (fun k r => .mov (.register r) (frame.argument (k + 1))) ++
    [.call callee] ++ adjust .add (onStack + padding)

namespace Layout

/-- The registers that a call may overwrite and that hold something live behind it, apart from the
register that the result of the call goes to. -/
def kept (layout : Layout) (after : SortedSet Temp) (result : Option Target.Register) :
    List Target.Register :=
  let held := after.toList.filterMap fun t => (layout.locations.get? t).bind Target.Location.register?
  (SortedSet.ofList held).toList.filter fun r => r.isCallerSaved && some r != result

/-- Store registers in the frame. -/
def store (layout : Layout) (registers : List Target.Register) : List Target.Instr :=
  registers.filterMap fun r => (layout.frame.saved? r).map fun slot => .mov slot (.register r)

/-- Store registers in the frame, all of which need a slot there. -/
def save (layout : Layout) (registers : List Target.Register) :
    Except Breach (List Target.Instr) :=
  match registers.find? fun r => (layout.frame.saved? r).isNone with
  | some r => .error (.noSaveSlot r layout.proc)
  | none => .ok (layout.store registers)

/-- Load registers from the frame. -/
def restore (layout : Layout) (registers : List Target.Register) : List Target.Instr :=
  registers.filterMap fun r => (layout.frame.saved? r).map fun slot => .mov (.register r) slot

end Layout

end ThreeAddress
