import ThreeAddress.Lowering.Move
/-!
# Arithmetic on the target machine

Operators are applied in the scratch registers. A division needs care: the machine traps where the
quotient of the least word and `-1` is wanted, which here wraps to the least word.

* `divide` : a division that never traps but on divisor zero;
* `applyBinary` : any operator with two operands.
-/

namespace ThreeAddress

/-- Set `rax` to `-1`, or to `0` if the divisor in `r11` is `-1`, by the sign of `e ||| -e` for the
divisor plus one `e`. -/
def divisorMask : List Target.Instr :=
  [.mov (.register .rax) (.register .r11),
   .alu .add (.register .rax) (.immediate 1),
   .mov (.register .rdx) (.register .rax),
   .neg (.register .rdx),
   .alu .or (.register .rax) (.register .rdx),
   .mov (.register .rcx) (.immediate 63),
   .shift .sar (.register .rax) .rcx]

/-- Replace a divisor `-1` by `1`, and set `rcx` to `-1` in that case and to `0` in all others. -/
def replaceDivisor : List Target.Instr :=
  [.alu .sub (.register .r11) (.immediate 1),
   .alu .and (.register .r11) (.register .rax),
   .alu .add (.register .r11) (.immediate 1),
   .not (.register .rax),
   .mov (.register .rcx) (.register .rax)]

/-- Negate the quotient if `rcx` is `-1`. -/
def negateQuotient : List Target.Instr :=
  [.alu .xor (.register .rax) (.register .rcx), .alu .sub (.register .rax) (.register .rcx)]

/-- Divide: the quotient goes to `rax`, the remainder to `rdx`. A divisor `-1` is replaced by `1`;
the quotient has to be negated then. -/
def divide (lhs rhs : Target.Operand) : List Target.Instr :=
  .mov (.register .r11) rhs :: (divisorMask ++ replaceDivisor ++ move (.register .rax) lhs ++
    [.cqo, .idiv (.register .r11)])

/-- Shift in `rax`. -/
def applyShift (op : Target.ShiftOp) (lhs rhs : Target.Operand) : List Target.Instr :=
  move (.register .rcx) rhs ++ move (.register .rax) lhs ++ [.shift op (.register .rax) .rcx]

/-- Combine two values in `rax`. -/
def applyAlu (op : Target.AluOp) (lhs rhs : Target.Operand) : List Target.Instr :=
  move (.register .rax) lhs ++ [.alu op (.register .rax) rhs]

/-- Apply an operator to two values, with the register that the result is in. -/
def applyBinary (op : BinaryOp) (lhs rhs : Target.Operand) : List Target.Instr × Target.Register :=
  match op with
  | .add => (applyAlu .add lhs rhs, .rax)
  | .sub => (applyAlu .sub lhs rhs, .rax)
  | .mul => (applyAlu .imul lhs rhs, .rax)
  | .and => (applyAlu .and lhs rhs, .rax)
  | .or => (applyAlu .or lhs rhs, .rax)
  | .xor => (applyAlu .xor lhs rhs, .rax)
  | .shl => (applyShift .sal lhs rhs, .rax)
  | .shr => (applyShift .sar lhs rhs, .rax)
  | .div => (divide lhs rhs ++ negateQuotient, .rax)
  | .mod => (divide lhs rhs, .rdx)

/-- Apply an operator to one value in `rax`. -/
def applyUnary (op : UnaryOp) (arg : Target.Operand) : List Target.Instr :=
  move (.register .rax) arg ++
    [match op with
     | .neg => .neg (.register .rax)
     | .not => .not (.register .rax)]

end ThreeAddress
