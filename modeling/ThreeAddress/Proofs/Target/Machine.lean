import ThreeAddress.Proofs.Activation.Calls
import ThreeAddress.Target.Legality
import ThreeAddress.Target.Listing
import Mathlib.Logic.Relation
/-!
# The target machine

What the functions of an assembly do. The stack has no end in either direction, and a place of it is
not a word: there are no instructions here that would make one of the other. A word can be read or
written at a multiple of eight bytes only. Whatever the machine has no answer to has no next step:
a division that traps, an operand that does not exist, a jump to a label that is not there.

* `Value` : a word, a place on the stack, or a place to return to;
* `Machine` : registers, flags, stack and data, and what was printed;
* `Machine.apply` : the effect of an instruction that goes on with the next one;
* `Config.step?` : one step, calls and jumps included;
* `Steps` : any number of steps.
-/

namespace ThreeAddress

open Execution

namespace Target

/-! ## Values -/

/-- A place in the code of a function. -/
structure Place where
  function : Function
  /-- The instructions from the next one on. -/
  code : List Instr
deriving DecidableEq

/-- What a register or eight bytes of memory hold. -/
inductive Value where
  | word (w : Word)
  /-- A place on the stack, in bytes. -/
  | stack (address : Int)
  /-- Where a function returns to; nowhere is outside of the program. -/
  | back (place : Option Place)
deriving DecidableEq

namespace Value

/-- The word, if the value is one. -/
def word? : Value → Option Word
  | word w => some w
  | _ => none

end Value

/-- The result of combining two values. Words are added to places on the stack and taken from them,
and anything combined with itself by `xor` gives zero. -/
def AluOp.eval? (op : AluOp) (a b : Value) : Option Value :=
  match op, a, b with
  | .add, .word a, .word b => some (.word (a + b))
  | .sub, .word a, .word b => some (.word (a - b))
  | .imul, .word a, .word b => some (.word (a * b))
  | .and, .word a, .word b => some (.word (a &&& b))
  | .or, .word a, .word b => some (.word (a ||| b))
  | .xor, .word a, .word b => some (.word (a ^^^ b))
  | .add, .stack a, .word b => some (.stack (a + b.toInt))
  | .sub, .stack a, .word b => some (.stack (a - b.toInt))
  | .xor, a, b => if a = b then some (.word 0) else none
  | _, _, _ => none

/-- A word shifted by a count modulo 64. -/
def ShiftOp.eval (op : ShiftOp) (a count : Word) : Word :=
  let places := count.toBitVec.toNat % 64
  match op with
  | .sal => .ofBitVec (a.toBitVec <<< places)
  | .sar => .ofBitVec (a.toBitVec.sshiftRight places)

/-- The quotient and the remainder of a dividend of 128 bits. There are none if the divisor is zero
or the quotient is no word. -/
def divide? (high low divisor : Word) : Option (Word × Word) :=
  let dividend : Int := high.toInt * 18446744073709551616 + (low.toBitVec.toNat : Int)
  let quotient := dividend.tdiv divisor.toInt
  if divisor = 0 ∨ quotient < Literal.least ∨ Literal.greatest < quotient then none
  else some (.ofInt quotient, .ofInt (dividend.tmod divisor.toInt))

/-- The flags that a comparison sets. -/
structure Flags where
  zero : Bool
  sign : Bool
  overflow : Bool

/-- The flags of a difference. -/
def Flags.compare (a b : Word) : Flags where
  zero := a - b == 0
  sign := a - b < 0
  overflow := (a - b).toInt != a.toInt - b.toInt

/-- Does a condition hold? -/
def Condition.holds (c : Condition) (f : Flags) : Bool :=
  match c with
  | .equal => f.zero
  | .notEqual => !f.zero
  | .less => f.sign != f.overflow
  | .lessOrEqual => f.zero || f.sign != f.overflow
  | .greater => !f.zero && f.sign == f.overflow
  | .greaterOrEqual => f.sign == f.overflow

/-! ## Cells -/

/-- Where a value can be. -/
inductive Cell where
  | register (r : Register)
  | stack (address : Int)
  | datum (name : String)
deriving DecidableEq

/-- The state of the machine. -/
structure Machine where
  registers : Register → Value
  /-- The flags, if a comparison set them and nothing has changed them since. -/
  flags : Option Flags
  stack : Int → Value
  data : String → Option Value
  printed : Array Printed

namespace Machine

/-- The value of a cell. Only the data that the program defines has one. -/
def value? (m : Machine) : Cell → Option Value
  | .register r => some (m.registers r)
  | .stack a => some (m.stack a)
  | .datum name => m.data name

/-- Put a value into a cell. -/
def put (m : Machine) (c : Cell) (v : Value) : Machine :=
  match c with
  | .register r => { m with registers := fun x => if x = r then v else m.registers x }
  | .stack a => { m with stack := fun x => if x = a then v else m.stack x }
  | .datum name => { m with data := fun x => if x = name then some v else m.data x }

/-- Forget the flags. -/
def unflagged (m : Machine) : Machine := { m with flags := none }

/-- The offset of an address has 32 bits. -/
def Reaches (offset : Int) : Prop := -2147483648 ≤ offset ∧ offset ≤ 2147483647

instance (offset : Int) : Decidable (Reaches offset) := inferInstanceAs (Decidable (_ ∧ _))

/-- The cell of an operand. -/
def cell? (m : Machine) : Operand → Option Cell
  | .register r => some (.register r)
  | .immediate _ => none
  | .memory ⟨.symbol name, offset⟩ => if offset = 0 then some (.datum name) else none
  | .memory ⟨.register r, offset⟩ =>
    match m.registers r with
    | .stack a =>
      if Reaches offset ∧ (a + offset) % 8 = 0 then some (.stack (a + offset)) else none
    | _ => none

/-- The value of an operand. -/
def get (m : Machine) (o : Operand) : Option Value :=
  match o with
  | .immediate w => some (.word w)
  | o => (m.cell? o).bind m.value?

/-- Write an operand. Data that the program does not define cannot be written. -/
def set (m : Machine) (o : Operand) (v : Value) : Option Machine :=
  (m.cell? o).bind fun c => (m.value? c).map fun _ => m.put c v

/-- Put a value on the stack. -/
def push (m : Machine) (v : Value) : Option Machine :=
  match m.registers .rsp with
  | .stack a =>
    if a % 8 = 0 then some ((m.put (.stack (a - 8)) v).put (.register .rsp) (.stack (a - 8))) else none
  | _ => none

/-- Take a value from the stack. -/
def pop (m : Machine) : Option (Value × Machine) :=
  match m.registers .rsp with
  | .stack a =>
    if a % 8 = 0 then some (m.stack a, m.put (.register .rsp) (.stack (a + 8))) else none
  | _ => none

/-- Change a word and forget the flags. -/
def mapWord (m : Machine) (o : Operand) (f : Word → Word) : Option Machine :=
  match m.get o with
  | some (.word w) => (m.set o (.word (f w))).map unflagged
  | _ => none

/-- What an instruction does that goes on with the next one. -/
def effect (m : Machine) : Instr → Option Machine
  | .mov dst src => (m.get src).bind (m.set dst)
  | .alu op dst src =>
    (m.get dst).bind fun a => (m.get src).bind fun b => (op.eval? a b).bind fun v =>
      (m.set dst v).map unflagged
  | .neg dst => m.mapWord dst fun w => -w
  | .not dst =>
    match m.get dst with
    | some (.word w) => m.set dst (.word (~~~w))
    | _ => none
  | .cqo =>
    match m.registers .rax with
    | .word w => some (m.put (.register .rdx) (.word (if w < 0 then -1 else 0)))
    | _ => none
  | .idiv src =>
    match m.registers .rdx, m.registers .rax, m.get src with
    | .word high, .word low, some (.word divisor) =>
      (divide? high low divisor).map fun (quotient, remainder) =>
        ((m.put (.register .rax) (.word quotient)).put (.register .rdx) (.word remainder)).unflagged
    | _, _, _ => none
  | .shift op dst count =>
    match m.registers count with
    | .word n => m.mapWord dst fun w => op.eval w n
    | _ => none
  | .cmp lhs rhs =>
    match m.get lhs, m.get rhs with
    | some (.word a), some (.word b) => some { m with flags := some (.compare a b) }
    | _, _ => none
  | .push src => (m.get src).bind m.push
  | .pop dst => m.pop.bind fun (v, m) => m.set dst v
  | .label _ => some m
  | .jmp _ | .jcc _ _ | .call _ | .ret => none

/-- The effect of an instruction that goes on with the next one; the others have none here. There
are no instructions with two operands in memory or with an immediate that is too wide. -/
def apply (m : Machine) (i : Instr) : Option Machine :=
  if i.badOperands?.isSome then none else m.effect i

/-- The effect of several instructions. -/
def applyAll (m : Machine) : List Instr → Option Machine
  | [] => some m
  | i :: rest => (m.apply i).bind fun m => m.applyAll rest

end Machine

/-! ## Steps -/

/-- What the printing routines leave behind: in the registers that a call may overwrite, and on the
stack below the caller's part of it. -/
structure Litter where
  registers : Machine → Register → Value
  stack : Machine → Int → Value

/-- Call one of the two printing routines. It prints the word in `rdi` and returns zero. -/
def Machine.print (m : Machine) (litter : Litter) (target : String) : Option Machine :=
  if Global.isBuiltIn ⟨target⟩ then
    match m.registers .rsp, m.registers .rdi with
    | .stack a, .word w => some
      { registers := fun r =>
          if r = .rax then .word 0
          else if r.isCallerSaved then litter.registers m r
          else m.registers r
        flags := none
        stack := fun b => if b < a then litter.stack m b else m.stack b
        data := m.data
        printed := m.printed.push (Global.line ⟨target⟩ w) }
    | _, _ => none
  else none

/-- The code from a label on. -/
def Function.codeFrom? (f : Function) (name : String) : Option (List Instr) :=
  match f.instrs.dropWhile fun i => i != .label name with
  | [] => none
  | code => some code

/-- A place in the code and the state of the machine there. Nowhere is outside of the program. -/
structure Config where
  place : Option Place
  machine : Machine

/-- Continue at a label of the function. -/
def Config.goto (f : Function) (target : String) (m : Machine) : Option Config :=
  (f.codeFrom? target).map fun code => ⟨some ⟨f, code⟩, m⟩

/-- One step. A call goes to the first function with the name; if there is none, it may go to a
printing routine. -/
def Config.step? (functions : List Function) (litter : Litter) (c : Config) : Option Config :=
  let m := c.machine
  match c.place with
  | none => none
  | some ⟨_, []⟩ => none
  | some ⟨f, i :: rest⟩ =>
    match i with
    | .jmp target => goto f target m
    | .jcc condition target =>
      m.flags.bind fun flags =>
        if condition.holds flags then goto f target m else some ⟨some ⟨f, rest⟩, m⟩
    | .call target =>
      match functions.find? fun callee => callee.name == target with
      | some callee =>
        (m.push (.back (some ⟨f, rest⟩))).map fun m => ⟨some ⟨callee, callee.instrs⟩, m⟩
      | none => (m.print litter target).map fun m => ⟨some ⟨f, rest⟩, m⟩
    | .ret =>
      match m.pop with
      | some (.back place, m) => some ⟨place, m⟩
      | _ => none
    | i => (m.apply i).map fun m => ⟨some ⟨f, rest⟩, m⟩

/-- The second configuration is reached from the first in some number of steps. -/
def Steps (functions : List Function) (litter : Litter) : Config → Config → Prop :=
  Relation.ReflTransGen fun c c' => c.step? functions litter = some c'

/-- The data at the beginning. -/
def Assembly.initial (a : Assembly) : String → Option Value :=
  a.data.foldl (fun data d name => if name = d.name then some (.word d.value) else data name)
    fun _ => none

end Target

end ThreeAddress
