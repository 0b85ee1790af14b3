import ThreeAddress.Target.Operand
/-!
# Instructions of the target machine

* `Condition` : the conditions that a jump can depend on;
* `Instr` : the instructions, each with a destination before its source;
* `Instr.reads`, `Instr.writes` : the registers that an instruction depends on and overwrites.
-/

namespace ThreeAddress

namespace Target

/-- How two compared values have to stand for a jump to be made. -/
inductive Condition where
  | equal | notEqual | less | lessOrEqual | greater | greaterOrEqual
deriving DecidableEq, Inhabited

namespace Condition

/-- The condition that holds just when this one does not. -/
def negate : Condition → Condition
  | equal => notEqual
  | notEqual => equal
  | less => greaterOrEqual
  | lessOrEqual => greater
  | greater => lessOrEqual
  | greaterOrEqual => less

/-- The condition that a test of a value becomes when the value is compared with zero. -/
def ofTest : Test → Condition
  | .zero => equal
  | .nonzero => notEqual
  | .negative => less
  | .notPositive => lessOrEqual
  | .notNegative => greaterOrEqual
  | .positive => greater

/-- The written form, which ends the name of a jump. -/
def text : Condition → String
  | equal => "e"
  | notEqual => "ne"
  | less => "l"
  | lessOrEqual => "le"
  | greater => "g"
  | greaterOrEqual => "ge"

end Condition

/-- The operations that combine a source with a destination. -/
inductive AluOp where
  | add | sub | imul | and | or | xor
deriving DecidableEq, Inhabited

namespace AluOp

/-- The name of the instruction. -/
def text : AluOp → String
  | add => "add"
  | sub => "sub"
  | imul => "imul"
  | and => "and"
  | or => "or"
  | xor => "xor"

end AluOp

/-- The shifts; a right shift keeps the sign. -/
inductive ShiftOp where
  | sal | sar
deriving DecidableEq, Inhabited

namespace ShiftOp

/-- The name of the instruction. -/
def text : ShiftOp → String
  | sal => "sal"
  | sar => "sar"

end ShiftOp

/-- An instruction. -/
inductive Instr where
  /-- Copies the source to the destination. -/
  | mov (dst src : Operand)
  /-- Combines the source with the destination. -/
  | alu (op : AluOp) (dst src : Operand)
  /-- Negates the destination. -/
  | neg (dst : Operand)
  /-- Complements every bit of the destination. -/
  | not (dst : Operand)
  /-- Extends the sign of `rax` into `rdx`. -/
  | cqo
  /-- Divides `rdx` and `rax` together: the quotient goes to `rax`, the remainder to `rdx`. -/
  | idiv (src : Operand)
  /-- Shifts the destination by the lowest byte of a register. -/
  | shift (op : ShiftOp) (dst : Operand) (count : Register)
  /-- Compares two values. -/
  | cmp (lhs rhs : Operand)
  /-- Continues at a label. -/
  | jmp (target : String)
  /-- Continues at a label if the values compared last stand so. -/
  | jcc (condition : Condition) (target : String)
  /-- Calls a function. -/
  | call (target : String)
  /-- Returns to the caller. -/
  | ret
  /-- Puts a value on the stack. -/
  | push (src : Operand)
  /-- Takes a value from the stack. -/
  | pop (dst : Operand)
  /-- Marks a place to jump to. -/
  | label (name : String)
deriving DecidableEq, Inhabited

namespace Instr

/-- The operands of which no two may be in memory. -/
def operands : Instr → List Operand
  | mov dst src | alu _ dst src => [dst, src]
  | cmp lhs rhs => [lhs, rhs]
  | neg dst | not dst | shift _ dst _ | pop dst => [dst]
  | idiv src | push src => [src]
  | _ => []

/-- Does the instruction set a register to zero by combining it with itself? -/
def isZeroing : Instr → Bool
  | alu .xor (.register a) (.register b) => a == b
  | _ => false

/-- The registers that the instruction depends on, with repetitions. -/
def readList (i : Instr) : List Register :=
  match i with
  | mov dst src => src.read ++ dst.addressing
  | alu _ dst src => if i.isZeroing then [] else dst.read ++ src.read
  | neg dst | not dst => dst.read
  | cqo => [.rax]
  | idiv src => [.rax, .rdx] ++ src.read
  | shift _ dst count => dst.read ++ [count]
  | cmp lhs rhs => lhs.read ++ rhs.read
  | push src => src.read ++ [.rsp]
  | pop dst => dst.addressing ++ [.rsp]
  | call _ => [.rsp]
  | ret => [Register.result, .rsp]
  | jmp _ | jcc _ _ | label _ => []

/-- The registers that the instruction overwrites, with repetitions. -/
def writeList : Instr → List Register
  | mov dst _ | alu _ dst _ | neg dst | not dst | shift _ dst _ => dst.register?.toList
  | cqo => [.rdx]
  | idiv _ => [.rax, .rdx]
  | push _ => [.rsp]
  | pop dst => dst.register?.toList ++ [.rsp]
  | call _ => Register.callerSaved
  | cmp _ _ | jmp _ | jcc _ _ | ret | label _ => []

/-- The registers that the instruction depends on. -/
def reads (i : Instr) : SortedSet Register := .ofList i.readList

/-- The registers that the instruction overwrites. -/
def writes (i : Instr) : SortedSet Register := .ofList i.writeList

/-- The written form. -/
def text : Instr → String
  | mov dst src => "mov " ++ dst.text ++ ", " ++ src.text
  | alu op dst src => op.text ++ " " ++ dst.text ++ ", " ++ src.text
  | neg dst => "neg " ++ dst.text
  | not dst => "not " ++ dst.text
  | cqo => "cqo"
  | idiv src => "idiv " ++ src.text
  | shift op dst count => op.text ++ " " ++ dst.text ++ ", " ++ count.lowByte
  | cmp lhs rhs => "cmp " ++ lhs.text ++ ", " ++ rhs.text
  | jmp target => "jmp " ++ target
  | jcc condition target => "j" ++ condition.text ++ " " ++ target
  | call target => "call " ++ target
  | ret => "ret"
  | push src => "push " ++ src.text
  | pop dst => "pop " ++ dst.text
  | label name => name ++ ":"

end Instr

end Target

end ThreeAddress
