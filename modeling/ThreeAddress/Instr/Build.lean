import ThreeAddress.Instr.Basic
/-!
# Checked construction of instructions

`Instr.build` makes an instruction from the name of an opcode and the operands of a source text,
and `Instr.buildPhi` makes a phi from its pairs of edge and temporary. Both check the signature of
the opcode, destination first and then the operands in order, and report the first mismatch.

* `Opcode`, `Opcode.ofName?` : the opcodes and their names;
* `Instr.build`, `Instr.buildPhi` : the checked constructors.
-/

namespace ThreeAddress

/-- The opcodes, grouped by signature. -/
inductive Opcode where
  | nop | jump | label | const | copy | param | call | ret | print | phi
  | branch (test : Test)
  | binary (op : BinaryOp)
  | unary (op : UnaryOp)
deriving DecidableEq, Inhabited

namespace Opcode

/-- The name of an opcode. -/
def name : Opcode → String
  | nop => "nop"
  | jump => "jmp"
  | label => "label"
  | const => "const"
  | copy => "copy"
  | param => "param"
  | call => "call"
  | ret => "ret"
  | print => "print"
  | phi => "phi"
  | branch test => test.text
  | binary op => op.text
  | unary op => op.text

/-- Every opcode. -/
def all : List Opcode :=
  [nop, jump, label, const, copy, param, call, ret, print, phi] ++
  [.zero, .nonzero, .negative, .notPositive, .notNegative, .positive].map branch ++
  [.add, .sub, .mul, .div, .mod, .and, .or, .xor, .shl, .shr].map binary ++
  [.neg, .not].map unary

/-- The opcode with this name. -/
def ofName? (name : String) : Option Opcode := all.find? fun op => op.name == name

end Opcode

namespace Instr

/-- The largest index or count of arguments. -/
def maxArguments : Int := 4294967295

/-- Accept only the absence of a destination. -/
def expectNoDest (opcode : String) : Option Operand → Except InstrError Unit
  | none => .ok ()
  | some found => .error (.malformed opcode (.unwantedDestination found))

/-- Accept only the absence of the operand at a place. -/
def expectAbsent (opcode : String) (place : Place) : Option Operand → Except InstrError Unit
  | none => .ok ()
  | some found => .error (.malformed opcode (.unwantedOperand place found))

/-- The operand as a temporary or a global. -/
def expectVar (opcode : String) (place : Place) : Option Operand → Except InstrError Var
  | some (.temp t) => .ok (.temp t)
  | some (.global g) => .ok (.global g)
  | found => .error (.malformed opcode (.wrongOperand place .value found))

/-- The operand as a label. -/
def expectLabel (opcode : String) : Option Operand → Except InstrError Label
  | some (.label l) => .ok l
  | found => .error (.malformed opcode (.wrongOperand .target .label found))

/-- The operand as a word. -/
def expectWord (opcode : String) : Option Operand → Except InstrError Word
  | some (.literal text) => Literal.parse text
  | found => .error (.malformed opcode (.wrongOperand .immediate .integer found))

/-- The operand as a global. -/
def expectGlobal (opcode : String) : Option Operand → Except InstrError Global
  | some (.global g) => .ok g
  | found => .error (.malformed opcode (.wrongOperand .first .global found))

/-- The operand as a temporary other than `%_`. -/
def expectTemp (place : Place) : Operand → Except InstrError Temp
  | .temp t =>
    if t.isSink then .error (.malformed "phi" (.wrongOperand place .temp (some (.temp t)))) else .ok t
  | found => .error (.malformed "phi" (.wrongOperand place .temp (some found)))

/-- A word that counts arguments: at least `least`, and not above the largest count. -/
def expectCount (opcode : String) (least : Int) (reason : Mismatch) (w : Word) :
    Except InstrError Nat :=
  if least ≤ w.toInt ∧ w.toInt ≤ maxArguments then .ok w.toInt.toNat
  else .error (.malformed opcode reason)

/-- Make the instruction of an opcode from its destination and at most two operands. -/
def buildOpcode (op : Opcode) (dest first second : Option Operand) : Except InstrError Instr :=
  let name := op.name
  match op with
  | .nop => do
    expectNoDest name dest
    expectAbsent name .first first
    expectAbsent name .second second
    return nop
  | .jump => do
    expectNoDest name dest
    let target ← expectLabel name first
    expectAbsent name .second second
    return jump target
  | .label => do
    expectNoDest name dest
    let l ← expectLabel name first
    expectAbsent name .second second
    return label l
  | .branch test => do
    expectNoDest name dest
    let arg ← expectVar name .value first
    let target ← expectLabel name second
    return branch test arg target
  | .binary op => do
    let dest ← expectVar name .destination dest
    let lhs ← expectVar name .value first
    let rhs ← expectVar name .value second
    return binary op dest lhs rhs
  | .unary op => do
    let dest ← expectVar name .destination dest
    let arg ← expectVar name .value first
    expectAbsent name .second second
    return unary op dest arg
  | .const => do
    let dest ← expectVar name .destination dest
    let value ← expectWord name first
    expectAbsent name .second second
    return const dest value
  | .copy => do
    let dest ← expectVar name .destination dest
    let src ← expectVar name .value first
    expectAbsent name .second second
    return copy dest src
  | .param => do
    expectNoDest name dest
    let index ← expectWord name first
    let index ← expectCount name 1 .badArgumentIndex index
    let arg ← expectVar name .value second
    return param index arg
  | .call => do
    let dest ← if dest.isSome then expectVar name .destination dest else .ok Var.sink
    let callee ← expectGlobal name first
    let argc ← expectWord name second
    let argc ← expectCount name 0 .badArgumentCount argc
    return call dest callee argc
  | .ret => do
    expectNoDest name dest
    let arg ← if first.isSome then expectVar name .value first else .ok Var.sink
    expectAbsent name .second second
    return ret arg
  | .print => do
    expectNoDest name dest
    let arg ← expectVar name .value first
    expectAbsent name .second second
    return print arg
  | .phi => .error (.malformed name .pairsExpected)

/-- Make an instruction from the name of an opcode and the operands of a source text. -/
def build (opcode : String) (dest : Option Operand) (args : List Operand) :
    Except InstrError Instr :=
  match Opcode.ofName? opcode with
  | none => .error (.malformed opcode .unknownOpcode)
  | some op =>
    match args with
    | [] => buildOpcode op dest none none
    | [first] => buildOpcode op dest (some first) none
    | [first, second] => buildOpcode op dest (some first) (some second)
    | _ => .error (.malformed opcode .tooManyOperands)

/-- Gather the arguments of a phi, each on an edge of its own. -/
def gatherPhiArgs (args : List (Origin × Operand)) (gathered : SortedMap Origin Temp) :
    Except InstrError (SortedMap Origin Temp) :=
  match args with
  | [] => .ok gathered
  | (edge, arg) :: rest => do
    let arg ← expectTemp .incoming arg
    if gathered.contains edge then .error (.malformed "phi" (.repeatedEdge edge))
    else gatherPhiArgs rest (gathered.insert edge arg)

/-- Make a phi from its destination and its pairs of edge and argument. -/
def buildPhi (dest : Operand) (args : List (Origin × Operand)) : Except InstrError Instr := do
  let dest ← expectTemp .destination dest
  let args ← gatherPhiArgs args ∅
  return phi dest args

end Instr

end ThreeAddress
