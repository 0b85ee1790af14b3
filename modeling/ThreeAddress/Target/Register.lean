import ThreeAddress.Sorted.Set
import ThreeAddress.Operator
/-!
# Registers of the target machine

The sixteen general registers, and the parts that calls and the compiler give them: the calling
convention divides them into those that a call may overwrite and those that it keeps, and the
compiler keeps four of them for itself and gives the `palette` to temporaries.

* `Register` : the registers in their order;
* `Register.palette`, `Register.ofColor` : where temporaries go;
* `Register.arguments`, `Register.result` : where calls take their arguments and leave the result;
* `Location` : where a temporary lives, in a register or in a slot of the frame.
-/

namespace ThreeAddress

namespace Target

/-- The general registers. -/
inductive Register where
  | rax | rcx | rdx | rsi | rdi | r8 | r9 | r10 | r11 | rbx | rbp | r12 | r13 | r14 | r15 | rsp
deriving DecidableEq, Inhabited

namespace Register

/-- The place of a register in the order. -/
def index : Register → Nat
  | rax => 0
  | rcx => 1
  | rdx => 2
  | rsi => 3
  | rdi => 4
  | r8 => 5
  | r9 => 6
  | r10 => 7
  | r11 => 8
  | rbx => 9
  | rbp => 10
  | r12 => 11
  | r13 => 12
  | r14 => 13
  | r15 => 14
  | rsp => 15

instance : Ord Register := ⟨compareOn index⟩

instance : Std.TransOrd Register := inferInstanceAs (Std.TransCmp (compareOn index))

instance : Std.LawfulEqOrd Register where
  eq_of_compare {a b} h := by
    have h : index a = index b := Std.LawfulEqOrd.eq_of_compare (α := Nat) h
    cases a <;> cases b <;> first | rfl | cases h

/-- All registers in order. -/
def all : List Register :=
  [rax, rcx, rdx, rsi, rdi, r8, r9, r10, r11, rbx, rbp, r12, r13, r14, r15, rsp]

/-- The name of the whole register. -/
def text : Register → String
  | rax => "rax"
  | rcx => "rcx"
  | rdx => "rdx"
  | rsi => "rsi"
  | rdi => "rdi"
  | r8 => "r8"
  | r9 => "r9"
  | r10 => "r10"
  | r11 => "r11"
  | rbx => "rbx"
  | rbp => "rbp"
  | r12 => "r12"
  | r13 => "r13"
  | r14 => "r14"
  | r15 => "r15"
  | rsp => "rsp"

/-- The name of the lowest byte. -/
def lowByte : Register → String
  | rax => "al"
  | rcx => "cl"
  | rdx => "dl"
  | rsi => "sil"
  | rdi => "dil"
  | r8 => "r8b"
  | r9 => "r9b"
  | r10 => "r10b"
  | r11 => "r11b"
  | rbx => "bl"
  | rbp => "bpl"
  | r12 => "r12b"
  | r13 => "r13b"
  | r14 => "r14b"
  | r15 => "r15b"
  | rsp => "spl"

/-- The registers that temporaries are given, by color; those that calls overwrite come first. -/
def palette : List Register := [rsi, rdi, r8, r9, r10, rbx, r12, r13, r14, r15]

/-- The register of a color, counted from one; no color is greater than the palette is long. -/
def ofColor (color : Nat) : Register := palette.getD (color - 1) rsi

/-- The registers of the first six arguments. -/
def arguments : List Register := [rdi, rsi, rdx, rcx, r8, r9]

/-- The register of the result. -/
def result : Register := rax

/-- Is the register kept for the compiler's own use within one instruction? -/
def isScratch : Register → Bool
  | rax | rcx | rdx | r11 => true
  | _ => false

/-- May a call overwrite the register? -/
def isCallerSaved : Register → Bool
  | rax | rcx | rdx | rsi | rdi | r8 | r9 | r10 | r11 => true
  | _ => false

/-- Does a procedure have to give the register back as it was? -/
def isCalleeSaved : Register → Bool
  | rbx | rbp | r12 | r13 | r14 | r15 => true
  | _ => false

/-- The registers that a call may overwrite. -/
def callerSaved : List Register := all.filter isCallerSaved

end Register

/-! ## Where temporaries live -/

/-- The home of a temporary. -/
inductive Location where
  /-- In a register. -/
  | register (r : Register)
  /-- In a slot of the frame, counted from zero. -/
  | slot (n : Nat)
deriving DecidableEq, Inhabited

namespace Location

/-- The register, if the home is one. -/
def register? : Location → Option Register
  | register r => some r
  | slot _ => none

/-- The offset of a slot from the base of the frame. Slots lie below it, unless there are so many
that 32 bits do not hold the offset. -/
def slotOffset (n : Nat) : Int32 := -8 * (.ofNat n + 1)

/-- The written form. -/
def text : Location → String
  | register r => r.text
  | slot n => "[rbp" ++ integerText (slotOffset n).toInt ++ "]"

end Location

end Target

end ThreeAddress
