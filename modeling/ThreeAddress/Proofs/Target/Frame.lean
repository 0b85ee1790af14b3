import Mathlib.Data.List.Basic
import ThreeAddress.Target.Frame
/-!
# Slots of frames

The slots of a frame are counted in 32 bits, and so are their bytes and the offsets of the slots from
the base of the frame. None of these wraps as long as the bytes of all slots, rounded up to a
multiple of 16, are less than 2 ^ 31: offsets are numbers with a sign.

* `Frame.count`, `Frame.bytes` : how many slots there are and how many bytes they take;
* `Frame.address`, `Frame.saveSlot?`, `Frame.argumentSlot` : the slots, none of which overlap;
* `Frame.toNat_slots`, `Frame.toInt_size`, `Frame.slot_eq`, `Frame.slot_inj` : nothing wraps in a
  frame of fewer than 2 ^ 31 bytes.
-/

namespace ThreeAddress

namespace Target

namespace Frame

variable {f : Frame} {base : Int} {m n : Nat} {r s : Register}

/-! ## Numbers of slots and bytes -/

/-- The total number of slots, which may be more than 32 bits hold. -/
def count (f : Frame) : Nat :=
  f.spills + f.calleeSaved.length + f.callerSaved.length + f.arguments

/-- How many bytes the slots take, rounded up to a multiple of 16. -/
def bytes (f : Frame) : Nat := (f.count * 8 + 15) / 16 * 16

theorem count_le_bytes (f : Frame) : 8 * f.count ≤ f.bytes := by
  simp only [bytes]
  omega

theorem bytes_le (f : Frame) : f.bytes ≤ 8 * f.count + 8 := by
  simp only [bytes]
  omega

theorem bytes_mod (f : Frame) : f.bytes % 16 = 0 := Nat.mul_mod_left ..

/-! ## Addresses -/

/-- The address of a slot below a base. -/
def address (base : Int) (n : Nat) : Int := base - 8 * ((n : Int) + 1)

theorem address_inj : address base m = address base n ↔ m = n := by
  simp only [address]
  omega

theorem address_lt (base : Int) (n : Nat) : address base n < base := by
  simp only [address]
  omega

theorem bytes_le_address (h : n < f.count) : base - f.bytes ≤ address base n := by
  have := f.count_le_bytes
  simp only [address]
  omega

/-! ## What slots are for -/

/-- The slot that a register is saved in. -/
def saveSlot? (f : Frame) (r : Register) : Option Nat :=
  ((f.calleeSaved ++ f.callerSaved).idxOf? r).map fun n => f.spills + n

theorem saved?_eq (f : Frame) (r : Register) : f.saved? r = (f.saveSlot? r).map slot := by
  rw [saved?, saveSlot?, Option.map_map]
  rfl

/-- The slot of an argument, counted from one. -/
def argumentSlot (f : Frame) (index : Nat) : Nat :=
  f.spills + f.calleeSaved.length + f.callerSaved.length + (index - 1)

theorem exists_saveSlot? :
    (∃ n, f.saveSlot? r = some n) ↔ r ∈ f.calleeSaved ∨ r ∈ f.callerSaved := by
  simp only [saveSlot?, Option.map_eq_some_iff, ← List.mem_append]
  constructor
  · rintro ⟨_, n, found, -⟩
    obtain ⟨lt, rfl, -⟩ := List.idxOf?_eq_some_iff.1 found
    exact List.getElem_mem lt
  · intro mem
    cases found : (f.calleeSaved ++ f.callerSaved).idxOf? r with
    | none => exact absurd mem (List.idxOf?_eq_none_iff.1 found)
    | some n => exact ⟨_, n, rfl, rfl⟩

theorem saveSlot?_bounds (h : f.saveSlot? r = some n) :
    f.spills ≤ n ∧ n < f.spills + f.calleeSaved.length + f.callerSaved.length := by
  obtain ⟨k, found, rfl⟩ := Option.map_eq_some_iff.1 h
  obtain ⟨lt, -⟩ := List.idxOf?_eq_some_iff.1 found
  rw [List.length_append] at lt
  omega

/-- Registers are saved in different slots. -/
theorem saveSlot?_inj (h : f.saveSlot? r = some n) (h' : f.saveSlot? s = some n) : r = s := by
  obtain ⟨k, found, rfl⟩ := Option.map_eq_some_iff.1 h
  obtain ⟨k', found', same⟩ := Option.map_eq_some_iff.1 h'
  obtain rfl : k' = k := by omega
  obtain ⟨_, here, -⟩ := List.idxOf?_eq_some_iff.1 found
  obtain ⟨_, here', -⟩ := List.idxOf?_eq_some_iff.1 found'
  exact here.symm.trans here'

theorem saveSlot?_lt (h : f.saveSlot? r = some n) : n < f.count := by
  have bounds := saveSlot?_bounds h
  simp only [count]
  omega

theorem argumentSlot_lt {index : Nat} (first : 1 ≤ index) (last : index ≤ f.arguments) :
    f.argumentSlot index < f.count := by
  simp only [argumentSlot, count]
  omega

/-! ## In 32 bits -/

/-- Clearing the last four bits rounds down to a multiple of 16. -/
theorem and_not_fifteen (x : BitVec 32) : x &&& ~~~15#32 = (x >>> 4) <<< 4 := by
  ext i hi
  have low : (15#32)[i] = decide (i < 4) := Nat.testBit_two_pow_sub_one 4 i
  rw [BitVec.getElem_and, BitVec.getElem_not, low, BitVec.getElem_shiftLeft,
    BitVec.getElem_ushiftRight]
  by_cases h : i < 4
  · simp [h]
  · have back : 4 + (i - 4) = i := by omega
    rw [back, BitVec.getLsbD_eq_getElem hi, Bool.and_comm]

theorem toInt_and_not_fifteen {a : Int32} (h : 0 ≤ a.toInt) :
    (a &&& ~~~15).toInt = a.toInt / 16 * 16 := by
  have bits : (a &&& ~~~15).toBitVec = (a.toBitVec >>> 4) <<< 4 := and_not_fifteen a.toBitVec
  have small : 2 * a.toBitVec.toNat < 2 ^ 32 := BitVec.toInt_pos_iff.1 h
  have value : ((a.toBitVec >>> 4) <<< 4).toNat = a.toBitVec.toNat / 16 * 16 := by
    rw [BitVec.toNat_shiftLeft, BitVec.toNat_ushiftRight, Nat.shiftRight_eq_div_pow,
      Nat.shiftLeft_eq, Nat.mod_eq_of_lt (by omega)]
  rw [← Int32.toInt_toBitVec, ← Int32.toInt_toBitVec, bits, BitVec.toInt_eq_toNat_of_lt small,
    BitVec.toInt_eq_toNat_of_lt (by omega), value]
  omega

theorem toNat_slots (small : f.bytes < 2147483648) : f.slots.toNat = f.count := by
  have few : f.count < UInt32.size := by
    have := f.count_le_bytes
    simp only [UInt32.size]
    omega
  exact UInt32.toNat_ofNat_of_lt' few

theorem toInt_size (small : f.bytes < 2147483648) : f.size.toInt = f.bytes := by
  simp only [bytes] at small
  have slots : f.slots.toInt32 = .ofNat f.count := UInt32.toInt32_ofNat'
  have number : (Int32.ofNat f.count).toInt = f.count := Int32.toInt_ofNat_of_lt (by omega)
  have eight : (8 : Int32).toInt = 8 := rfl
  have fifteen : (15 : Int32).toInt = 15 := rfl
  have bytes : (Int32.ofNat f.count * 8).toInt = f.count * 8 := by
    rw [Int32.toInt_mul, number, eight, Int.bmod_eq_of_le (by omega) (by omega)]
  have raised : (Int32.ofNat f.count * 8 + 15).toInt = f.count * 8 + 15 := by
    rw [Int32.toInt_add, bytes, fifteen, Int.bmod_eq_of_le (by omega) (by omega)]
  rw [size, slots, toInt_and_not_fifteen (by omega), raised, Frame.bytes]
  omega

/-- With one slot more than fits, the number of bytes is negative. -/
example : (⟨268435454, [], [], 0⟩ : Frame).size = 2147483632 ∧
    (⟨268435455, [], [], 0⟩ : Frame).size = -2147483648 := by decide

/-- Offsets of 32 bits reach 2 ^ 31 bytes down. -/
theorem toInt_slotOffset (reaches : 8 * (n + 1) ≤ 2147483648) :
    (Location.slotOffset n).toInt = -8 * ((n : Int) + 1) := by
  have number : (Int32.ofNat n).toInt = n := Int32.toInt_ofNat_of_lt (by omega)
  have one : (1 : Int32).toInt = 1 := rfl
  have eight : (-8 : Int32).toInt = -8 := rfl
  have next : (Int32.ofNat n + 1).toInt = n + 1 := by
    rw [Int32.toInt_add, number, one, Int.bmod_eq_of_le (by omega) (by omega)]
  rw [Location.slotOffset, Int32.toInt_mul, next, eight, Int.bmod_eq_of_le (by omega) (by omega)]

theorem slot_eq (reaches : 8 * (n + 1) ≤ 2147483648) :
    slot n = .memory ⟨.register .rbp, -8 * ((n : Int) + 1)⟩ := by
  rw [slot, toInt_slotOffset reaches]

/-- The slots of a frame of fewer than 2 ^ 31 bytes are within reach, and so is the one behind
them. -/
theorem reaches_of_le (small : f.bytes < 2147483648) (le : n ≤ f.count) :
    8 * (n + 1) ≤ 2147483648 := by
  have := f.count_le_bytes
  have := f.bytes_mod
  omega

theorem reaches_of_lt (small : f.bytes < 2147483648) (lt : n < f.count) :
    8 * (n + 1) ≤ 2147483648 :=
  reaches_of_le small (Nat.le_of_lt lt)

/-- The slot of the argument is within reach. -/
def Reaches (f : Frame) (index : Nat) : Prop := 8 * (f.argumentSlot index + 1) ≤ 2147483648

theorem reaches_argument (small : f.bytes < 2147483648) {index : Nat} (last : index ≤ f.arguments) :
    f.Reaches index := by
  refine reaches_of_le small ?_
  simp only [argumentSlot, count]
  omega

/-- Slots within reach are different places. -/
theorem slot_inj (reaches : 8 * (m + 1) ≤ 2147483648) (reaches' : 8 * (n + 1) ≤ 2147483648) :
    slot m = slot n ↔ m = n := by
  rw [slot_eq reaches, slot_eq reaches']
  simp only [Operand.memory.injEq, Address.mk.injEq, true_and]
  omega

end Frame

end Target

end ThreeAddress
