import ThreeAddress.Instr.Operand
import ThreeAddress.Sorted.Map
/-!
# Instructions

An `Instr` is one instruction of three-address code. Reading the operand `%_` gives zero and
writing it discards the value, so it never counts as read or defined.

* `Instr.dest?`, `Instr.def?` : the operand and the temporary that the instruction writes;
* `Instr.operands`, `Instr.uses` : the operands and the temporaries that it reads;
* `Instr.mapUses`, `Instr.setDef` : renaming of what it reads and of what it defines;
* `Instr.text` : the written form.
-/

namespace ThreeAddress

/-- An instruction of three-address code. -/
inductive Instr where
  /-- Does nothing. -/
  | nop
  /-- Marks a place to jump to. -/
  | label (l : Label)
  /-- Continues at a label. -/
  | jump (target : Label)
  /-- Continues at a label if a test of a value succeeds. -/
  | branch (test : Test) (arg : Var) (target : Label)
  /-- Applies an operator to two values. -/
  | binary (op : BinaryOp) (dest lhs rhs : Var)
  /-- Applies an operator to one value. -/
  | unary (op : UnaryOp) (dest arg : Var)
  /-- Stores a constant. -/
  | const (dest : Var) (value : Word)
  /-- Copies a value. -/
  | copy (dest src : Var)
  /-- Lays a value ready as an argument, counted from one, of the next call. -/
  | param (index : Nat) (arg : Var)
  /-- Calls a procedure with the arguments `1` to `argc` that were laid ready. -/
  | call (dest : Var) (callee : Global) (argc : Nat)
  /-- Returns a value to the caller. -/
  | ret (arg : Var)
  /-- Prints a value. -/
  | print (arg : Var)
  /-- Takes the value of the temporary that belongs to the edge control arrived on. -/
  | phi (dest : Temp) (args : SortedMap Origin Temp)
deriving DecidableEq, Inhabited

namespace Instr

/-! ## What an instruction reads and writes -/

/-- The name of the opcode. -/
def opcode : Instr → String
  | nop => "nop"
  | label _ => "label"
  | jump _ => "jmp"
  | branch test _ _ => test.text
  | binary op _ _ _ => op.text
  | unary op _ _ => op.text
  | const _ _ => "const"
  | copy _ _ => "copy"
  | param _ _ => "param"
  | call _ _ _ => "call"
  | ret _ => "ret"
  | print _ => "print"
  | phi _ _ => "phi"

/-- The operand written, globals and `%_` included; a phi is not counted. -/
def dest? : Instr → Option Var
  | binary _ dest _ _ | unary _ dest _ | const dest _ | copy dest _ | call dest _ _ => some dest
  | _ => none

/-- The temporary defined, which is never `%_`. -/
def def? : Instr → Option Temp
  | phi dest _ => some dest
  | i => i.dest?.bind Var.named?

/-- The operands read, globals and `%_` included. The arguments of a phi are read on its edges
and do not count. -/
def operands : Instr → List Var
  | branch _ arg _ | unary _ _ arg | param _ arg | ret arg | print arg => [arg]
  | binary _ _ lhs rhs => [lhs, rhs]
  | copy _ src => [src]
  | _ => []

/-- The temporaries read. -/
def uses (i : Instr) : List Temp := i.operands.filterMap Var.named?

/-- The arguments of a phi. -/
def phiArgs : Instr → List Temp
  | phi _ args => args.values
  | _ => []

/-- Every temporary that the instruction mentions. -/
def temps (i : Instr) : List Temp := i.def?.toList ++ i.uses ++ i.phiArgs

/-- Is this a phi? -/
def isPhi : Instr → Bool
  | phi _ _ => true
  | _ => false

/-- Does the instruction end a block? -/
def isTransfer : Instr → Bool
  | jump _ | branch _ _ _ | ret _ => true
  | _ => false

/-- Can control continue with the next instruction? -/
def fallsThrough : Instr → Bool
  | jump _ | ret _ => false
  | _ => true

/-- The label that a jump or a branch names. -/
def target? : Instr → Option Label
  | jump target | branch _ _ target => some target
  | _ => none

/-- Has the instruction no effect but writing its destination? -/
def isPure : Instr → Bool
  | const _ _ | copy _ _ | unary _ _ _ | phi _ _ => true
  | binary op _ _ _ => !op.canTrap
  | _ => false

/-! ## Renaming -/

end Instr

/-- Apply a renaming to the temporary of an operand; globals and `%_` stay. -/
def Var.rename (f : Temp → Temp) (v : Var) : Var :=
  match v.named? with
  | some t => .temp (f t)
  | none => v

namespace Instr

/-- Apply a renaming to every temporary that the instruction reads. -/
def mapUses (f : Temp → Temp) : Instr → Instr
  | branch test arg target => branch test (arg.rename f) target
  | binary op dest lhs rhs => binary op dest (lhs.rename f) (rhs.rename f)
  | unary op dest arg => unary op dest (arg.rename f)
  | copy dest src => copy dest (src.rename f)
  | param index arg => param index (arg.rename f)
  | ret arg => ret (arg.rename f)
  | print arg => print (arg.rename f)
  | i => i

/-- Apply a renaming to the arguments of a phi. -/
def mapPhiArgs (f : Temp → Temp) : Instr → Instr
  | phi dest args => phi dest (args.map fun _ t => f t)
  | i => i

/-- Apply a renaming to every temporary read, the arguments of a phi included. -/
def mapReads (f : Temp → Temp) (i : Instr) : Instr := (i.mapUses f).mapPhiArgs f

/-- Define another temporary, if the instruction defines one at all. -/
def setDef (new : Temp) : Instr → Instr
  | phi _ args => phi new args
  | binary op dest lhs rhs => binary op (dest.rename fun _ => new) lhs rhs
  | unary op dest arg => unary op (dest.rename fun _ => new) arg
  | const dest value => const (dest.rename fun _ => new) value
  | copy dest src => copy (dest.rename fun _ => new) src
  | call dest callee argc => call (dest.rename fun _ => new) callee argc
  | i => i

/-! ## Written form -/

/-- The written form. A call whose result is discarded and a return of nothing leave `%_` out. -/
def text : Instr → String
  | nop => "nop;"
  | label l => l.text ++ ":"
  | jump target => "jmp " ++ target.text ++ ";"
  | branch test arg target => test.text ++ " " ++ arg.text ++ ", " ++ target.text ++ ";"
  | binary op dest lhs rhs =>
    dest.text ++ " = " ++ op.text ++ " " ++ lhs.text ++ ", " ++ rhs.text ++ ";"
  | unary op dest arg => dest.text ++ " = " ++ op.text ++ " " ++ arg.text ++ ";"
  | const dest value => dest.text ++ " = const " ++ wordText value ++ ";"
  | copy dest src => dest.text ++ " = copy " ++ src.text ++ ";"
  | param index arg => "param " ++ decimalText index ++ ", " ++ arg.text ++ ";"
  | call dest callee argc =>
    (if dest.isSink then "" else dest.text ++ " = ") ++
      "call " ++ callee.text ++ ", " ++ decimalText argc ++ ";"
  | ret arg => if arg.isSink then "ret;" else "ret " ++ arg.text ++ ";"
  | print arg => "print " ++ arg.text ++ ";"
  | phi dest args =>
    dest.text ++ " = phi (" ++
      ", ".intercalate (args.toList.map fun e => e.1.text ++ ": " ++ e.2.text) ++ ");"

end Instr

end ThreeAddress
