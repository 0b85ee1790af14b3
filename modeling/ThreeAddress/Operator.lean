import ThreeAddress.Name
/-!
# Operators on 64-bit words

The values of three-address code are 64-bit words in two's complement.

* `BinaryOp.eval?` : arithmetic that wraps, with no result when a division has divisor zero;
* `UnaryOp.eval`, `Test.holds` : negation, complement, and the comparisons with zero;
* `Literal.value?` : the number that a decimal literal denotes, if it fits in a word.
-/

namespace ThreeAddress

/-- A 64-bit word in two's complement. -/
abbrev Word := Int64

/-- The decimal text of an integer, with a minus sign if it is negative. -/
def integerText (i : Int) : String :=
  if i < 0 then "-" ++ decimalText i.natAbs else decimalText i.natAbs

/-- The signed decimal text of a word. -/
def wordText (w : Word) : String := integerText w.toInt

/-! ## Operators with two operands -/

/-- The operators that take two words. -/
inductive BinaryOp where
  | add | sub | mul | div | mod | and | or | xor | shl | shr
deriving DecidableEq, Inhabited

namespace BinaryOp

/-- The name of the operator in an instruction. -/
def text : BinaryOp → String
  | add => "add"
  | sub => "sub"
  | mul => "mul"
  | div => "div"
  | mod => "mod"
  | and => "and"
  | or => "or"
  | xor => "xor"
  | shl => "shl"
  | shr => "shr"

/-- The value of the operator. Division truncates toward zero and has no value for divisor zero;
shifts take their count modulo 64, and a right shift keeps the sign. -/
def eval? (op : BinaryOp) (a b : Word) : Option Word :=
  match op with
  | add => some (a + b)
  | sub => some (a - b)
  | mul => some (a * b)
  | div => if b = 0 then none else some (a / b)
  | mod => if b = 0 then none else some (a % b)
  | and => some (a &&& b)
  | or => some (a ||| b)
  | xor => some (a ^^^ b)
  | shl => some (a <<< b)
  | shr => some (a >>> b)

/-- Can the operator stop the program? -/
def canTrap : BinaryOp → Bool
  | div | mod => true
  | _ => false

end BinaryOp

/-! ## Operators with one operand -/

/-- The operators that take one word. -/
inductive UnaryOp where
  | neg | not
deriving DecidableEq, Inhabited

namespace UnaryOp

/-- The name of the operator in an instruction. -/
def text : UnaryOp → String
  | neg => "neg"
  | not => "not"

/-- The negative, or the complement of every bit. -/
def eval : UnaryOp → Word → Word
  | neg, a => -a
  | not, a => ~~~a

end UnaryOp

/-! ## Tests -/

/-- The tests of a word against zero that a branch can make. -/
inductive Test where
  | zero | nonzero | negative | notPositive | notNegative | positive
deriving DecidableEq, Inhabited

namespace Test

/-- The name of the branch that makes the test. -/
def text : Test → String
  | zero => "jz"
  | nonzero => "jnz"
  | negative => "jl"
  | notPositive => "jle"
  | notNegative => "jnl"
  | positive => "jnle"

/-- Does the test succeed? -/
def holds : Test → Word → Bool
  | zero, v => v == 0
  | nonzero, v => v != 0
  | negative, v => v < 0
  | notPositive, v => v ≤ 0
  | notNegative, v => 0 ≤ v
  | positive, v => 0 < v

end Test

/-! ## Literals -/

namespace Literal

/-- The least number that fits in a word. -/
def least : Int := -9223372036854775808

/-- The greatest number that fits in a word. -/
def greatest : Int := 9223372036854775807

/-- The integer that a text denotes: decimal digits, perhaps behind a minus sign. -/
def integer? (text : String) : Option Int :=
  match text.toList with
  | '-' :: digits =>
    if !digits.isEmpty && digits.all Char.isDigit then some (-(decimalValue digits : Int)) else none
  | digits =>
    if !digits.isEmpty && digits.all Char.isDigit then some (decimalValue digits) else none

/-- The word of an integer, if the integer fits. -/
def word? (i : Int) : Option Word :=
  if least ≤ i ∧ i ≤ greatest then some (Int64.ofInt i) else none

/-- The word that a text denotes: the text is an integer, and the integer fits. -/
def value? (text : String) : Option Word := (integer? text).bind word?

end Literal

end ThreeAddress
