import ThreeAddress.Target.Instr
/-!
# Legal instructions

The machine cannot execute every instruction that can be written down, and the compiler's own rule
is that a scratch register is written before it is read, with no label and no call in between.

* `Illegality` : the ways of breaking these rules;
* `Instr.illegality?` : what is wrong with an instruction at its place;
* `firstIllegal?` : the first instruction of a function with which something is wrong.
-/

namespace ThreeAddress

namespace Target

/-- What makes an instruction illegal at its place. -/
inductive Illegality where
  /-- Both operands are in memory. -/
  | twoMemoryOperands
  /-- An immediate needs more than 32 bits, and the instruction does not take it. -/
  | wideImmediate (value : Word)
  /-- A division does not follow the sign extension of its dividend. -/
  | withoutSignExtension
  /-- The divisor is an immediate. -/
  | immediateDivisor
  /-- The divisor is a register that holds the dividend. -/
  | dividendDivisor
  /-- The count of a shift is not in the register for counts. -/
  | shiftCount (register : Register)
  /-- A scratch register is read before it is written. -/
  | unwrittenScratch (register : Register)
deriving DecidableEq

namespace Illegality

/-- The illegality in words. -/
def message : Illegality → String
  | twoMemoryOperands => "has two memory operands"
  | wideImmediate value => "uses immediate " ++ wordText value ++ " wider than 32 bits"
  | withoutSignExtension => "is not preceded by cqo"
  | immediateDivisor => "divides by an immediate"
  | dividendDivisor => "divides by an implicit operand"
  | shiftCount register => "shifts by " ++ register.lowByte ++ " instead of cl"
  | unwrittenScratch register =>
    "reads scratch register " ++ register.text ++ " before writing it"

end Illegality

namespace Instr

/-- Only a copy to a register takes an immediate of more than 32 bits. -/
def takesWide : Instr → Bool
  | mov (.register _) (.immediate _) => true
  | _ => false

/-- What is wrong with the operands. -/
def badOperands? (i : Instr) : Option Illegality :=
  if 1 < i.operands.countP Operand.isMemory then some .twoMemoryOperands
  else if i.takesWide then none
  else (i.operands.findSome? Operand.wide?).map .wideImmediate

/-- What is wrong with a division or a shift; a division has to follow the sign extension. -/
def badForm? (extended : Bool) : Instr → Option Illegality
  | idiv src =>
    if !extended then some .withoutSignExtension
    else
      match src with
      | .immediate _ => some .immediateDivisor
      | .register .rax | .register .rdx => some .dividendDivisor
      | _ => none
  | shift _ _ count => if count = .rcx then none else some (.shiftCount count)
  | _ => none

/-- The first scratch register that is read although it is not written. -/
def badRead? (written : SortedSet Register) (i : Instr) : Option Illegality :=
  (i.reads.toList.find? fun r => r.isScratch && !written.contains r).map .unwrittenScratch

/-- What is wrong with an instruction, given whether it follows a sign extension and which scratch
registers are written. -/
def illegality? (extended : Bool) (written : SortedSet Register) (i : Instr) : Option Illegality :=
  (i.badOperands?.or (i.badForm? extended)).or (i.badRead? written)

/-- The scratch registers that are written behind an instruction. Nothing is known behind a label,
and behind a call only the result. -/
def writtenAfter (written : SortedSet Register) : Instr → SortedSet Register
  | label _ => ∅
  | call _ => SortedSet.insert ∅ Register.result
  | i => written.union (i.writes.filter Register.isScratch)

end Instr

/-- The first illegal instruction of a list, with its place, counted on from `index`. -/
def illegalFrom? (index : Nat) (extended : Bool) (written : SortedSet Register) :
    List Instr → Option (Nat × Instr × Illegality)
  | [] => none
  | i :: rest =>
    match i.illegality? extended written with
    | some reason => some (index, i, reason)
    | none => illegalFrom? (index + 1) (i == .cqo) (i.writtenAfter written) rest

/-- The scratch registers that carry arguments into a function. -/
def writtenOnEntry : SortedSet Register := .ofList (Register.arguments.filter Register.isScratch)

/-- The first illegal instruction of a function. -/
def firstIllegal? (instrs : List Instr) : Option (Nat × Instr × Illegality) :=
  illegalFrom? 0 false writtenOnEntry instrs

end Target

end ThreeAddress
