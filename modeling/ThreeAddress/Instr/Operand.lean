import ThreeAddress.Operator
/-!
# Operands as they are written

The checked constructors of instructions take an `Operand` for each thing that stands in the
text, and say with an `InstrError` what is wrong with it.

* `Operand`, `Operand.kind` : the operands, and what sort of thing each is, in words;
* `InstrError` : the ways in which an instruction can be ill-formed, with code and wording;
* `Literal.parse` : the word that a literal denotes, or the error.
-/

namespace ThreeAddress

/-- An operand of an instruction in a source text. -/
inductive Operand where
  /-- A temporary. -/
  | temp (t : Temp)
  /-- A global symbol. -/
  | global (g : Global)
  /-- A label. -/
  | label (l : Label)
  /-- A literal, whose range is not yet checked. -/
  | literal (text : String)
deriving DecidableEq, Inhabited

namespace Operand

/-- The written form. -/
def text : Operand → String
  | temp t => t.text
  | global g => g.text
  | label l => l.text
  | literal text => text

/-- What sort of operand this is, in words. -/
def kind : Operand → String
  | temp _ => "a temporary"
  | global _ => "a global"
  | label _ => "a label"
  | literal _ => "an integer"

end Operand

/-! ## What can be wrong with an instruction -/

/-- The sorts of operand that a place of an instruction asks for. -/
inductive Expected where
  | temp | global | label | integer | value
deriving DecidableEq

namespace Expected

/-- The sort in words. -/
def text : Expected → String
  | temp => "a temporary"
  | global => "a global"
  | label => "a label"
  | integer => "an integer"
  | value => "a temporary or global"

end Expected

/-- The places of an instruction that an operand can stand in. -/
inductive Place where
  | destination | first | second | value | target | immediate | incoming
deriving DecidableEq

namespace Place

/-- The name of the place. -/
def text : Place → String
  | destination => "destination"
  | first => "first"
  | second => "second"
  | value => "value"
  | target => "target"
  | immediate => "immediate"
  | incoming => "incoming"

end Place

/-- The ways in which an instruction can fail to match the signature of its opcode. -/
inductive Mismatch where
  /-- No opcode has this name. -/
  | unknownOpcode
  /-- There are three operands or more. -/
  | tooManyOperands
  /-- The opcode stores no result. -/
  | unwantedDestination (found : Operand)
  /-- The opcode takes fewer operands. -/
  | unwantedOperand (place : Place) (found : Operand)
  /-- An operand is missing or of the wrong sort. -/
  | wrongOperand (place : Place) (expected : Expected) (found : Option Operand)
  /-- Arguments are counted from one, and there are at most `2 ^ 32 - 1`. -/
  | badArgumentIndex
  /-- An argument count lies between zero and `2 ^ 32 - 1`. -/
  | badArgumentCount
  /-- The arguments of a phi come in pairs with the edges they arrive on. -/
  | pairsExpected
  /-- Two arguments arrive on one edge. -/
  | repeatedEdge (edge : Origin)
  /-- The text is not a decimal integer. -/
  | notAnInteger (text : String)
deriving DecidableEq

namespace Mismatch

/-- The mismatch in words. -/
def message : Mismatch → String
  | unknownOpcode => "unknown opcode"
  | tooManyOperands => "too many operands"
  | unwantedDestination found => "takes no destination, found `" ++ found.text ++ "`"
  | unwantedOperand place found =>
    "unexpected " ++ place.text ++ " operand `" ++ found.text ++ "`"
  | wrongOperand place expected found =>
    place.text ++ " operand must be " ++ expected.text ++ ", found " ++
      (match found with
       | some o => o.kind ++ " `" ++ o.text ++ "`"
       | none => "nothing")
  | badArgumentIndex => "parameter index must be at least 1"
  | badArgumentCount => "argument count must not be negative"
  | pairsExpected => "phi takes a parenthesised list of `edge: temporary` pairs"
  | repeatedEdge edge => "edge " ++ edge.text ++ " listed twice"
  | notAnInteger text => "`" ++ text ++ "` is not an integer"

end Mismatch

/-- Why an instruction is rejected. -/
inductive InstrError where
  /-- It does not match the signature of its opcode. -/
  | malformed (opcode : String) (reason : Mismatch)
  /-- A literal does not fit in a word. -/
  | literalOutOfRange (literal : String)
deriving DecidableEq

namespace InstrError

/-- The stable short code of the error. -/
def code : InstrError → String
  | malformed _ _ => "E101"
  | literalOutOfRange _ => "E102"

/-- The error in words. -/
def message : InstrError → String
  | malformed opcode reason => "malformed `" ++ opcode ++ "` instruction: " ++ reason.message
  | literalOutOfRange literal => "integer literal " ++ literal ++ " does not fit in 64 bits"

end InstrError

namespace Literal

/-- The word that a text denotes, or why it denotes none. -/
def parse (text : String) : Except InstrError Word :=
  match integer? text with
  | none => .error (.malformed "const" (.notAnInteger text))
  | some i =>
    match word? i with
    | none => .error (.literalOutOfRange text)
    | some w => .ok w

end Literal

end ThreeAddress
