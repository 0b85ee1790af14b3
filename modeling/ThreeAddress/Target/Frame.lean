import ThreeAddress.Target.Operand
/-!
# Frames

A function keeps what does not fit into registers in slots of eight bytes below the base of its
frame: spilled temporaries first, then the registers it has to give back, then the registers that
its own calls may overwrite, then the arguments laid ready for calls.

* `Frame` : how many slots there are of each kind;
* `Frame.spill`, `Frame.saved?`, `Frame.argument` : where they are;
* `Frame.slots`, `Frame.size` : how many slots there are, and the bytes of all slots, rounded up to a
  multiple of 16, as numbers of 32 bits.
-/

namespace ThreeAddress

namespace Target

/-- The slots of a function. -/
structure Frame where
  /-- The number of spilled temporaries. -/
  spills : Nat
  /-- The registers that the function gives back as they were. -/
  calleeSaved : List Register
  /-- The registers that the calls of the function may overwrite. -/
  callerSaved : List Register
  /-- The greatest number of arguments laid ready. -/
  arguments : Nat
deriving DecidableEq, Inhabited

namespace Frame

/-- The number of slots. -/
def slots (f : Frame) : UInt32 :=
  .ofNat (f.spills + f.calleeSaved.length + f.callerSaved.length + f.arguments)

/-- The number of bytes, rounded up by clearing the last bits, which keeps the stack at a multiple
of 16. It has 32 bits and a sign, and wraps if there are too many slots. -/
def size (f : Frame) : Int32 := (f.slots.toInt32 * 8 + 15) &&& ~~~15

/-- The memory of a slot. -/
def slot (n : Nat) : Operand := .memory ⟨.register .rbp, (Location.slotOffset n).toInt⟩

/-- The memory of a spilled temporary. -/
def spill (n : Nat) : Operand := slot n

/-- The memory that a register is saved in. -/
def saved? (f : Frame) (r : Register) : Option Operand :=
  ((f.calleeSaved ++ f.callerSaved).idxOf? r).map fun n => slot (f.spills + n)

/-- The memory of an argument, counted from one. -/
def argument (f : Frame) (index : Nat) : Operand :=
  slot (f.spills + f.calleeSaved.length + f.callerSaved.length + (index - 1))

end Frame

end Target

end ThreeAddress
