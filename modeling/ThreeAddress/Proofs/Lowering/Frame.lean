import ThreeAddress.Lowering.Function
import ThreeAddress.Proofs.Interference.Allocation
import ThreeAddress.Proofs.Lists
import ThreeAddress.Proofs.Lowering.Arithmetic
import ThreeAddress.Proofs.Target.Frame
/-!
# Frames at run time

While a function is executed, `rbp` points to the base of its frame and `rsp` to the end. What the
caller finds again is above the base, in the slots of the registers that have to be given back, and
in the registers of that kind that are not used; the function may change everything else.

* `Layout.Sound` : what is relied on about the homes and the frame;
* `Layout.Stands` : the frame of an activation;
* `Layout.Own`, `Layout.Held` : what a function may change, and what its caller finds again;
* `Layout.executes_store`, `Layout.executes_restore` : saving registers in the frame.
-/

namespace ThreeAddress

open Target

namespace Target

/-- The cell of a location in a frame with this base. -/
def Location.cell (base : Int) : Location → Cell
  | .register r => .register r
  | .slot n => .stack (Frame.address base n)

theorem Location.cell_inj {base : Int} {l l' : Location} : l.cell base = l'.cell base ↔ l = l' := by
  cases l <;> cases l' <;> simp [cell, Frame.address_inj]

@[simp] theorem Location.cell_ne_datum (base : Int) (l : Location) (name : String) :
    l.cell base ≠ .datum name := by
  cases l <;> simp [cell]

end Target

/-! ## Homes -/

namespace Layout

/-- The location may be a home: a register that temporaries are given, and that is saved if it has
to be, or a slot. -/
def Has (layout : Layout) : Location → Prop
  | .register r => r ∈ Register.palette ∧ (r.isCalleeSaved = true → r ∈ layout.frame.calleeSaved)
  | .slot n => n < layout.frame.spills

instance (layout : Layout) (l : Location) : Decidable (layout.Has l) :=
  match l with
  | .register _ => inferInstanceAs (Decidable (_ ∧ _))
  | .slot _ => inferInstanceAs (Decidable (_ < _))

/-- What is relied on about the homes and the frame of a procedure. -/
structure Sound (layout : Layout) : Prop where
  homes : ∀ t l, layout.locations.get? t = some l → layout.Has l
  callee : ∀ r ∈ layout.frame.calleeSaved, r.isCalleeSaved = true ∧ r ≠ .rbp
  caller : ∀ r ∈ layout.frame.callerSaved, r.isCallerSaved = true
  /-- Offsets from the base have 32 bits. -/
  small : layout.frame.bytes < 2147483648

/-- The registers in use are homes. -/
theorem mem_registers {a : Assignment} {r : Register} :
    r ∈ a.registers.toList ↔ ∃ t, a.locations.get? t = some (.register r) := by
  rw [← SortedSet.mem_iff, Assignment.registers, SortedSet.mem_ofList, List.mem_filterMap]
  constructor
  · rintro ⟨l, mem, register⟩
    obtain ⟨⟨t, l⟩, home, rfl⟩ := List.mem_map.1 mem
    cases l with
    | slot n => cases register
    | register s =>
      cases register
      exact ⟨t, SortedMap.get?_eq_some.2 home⟩
  · rintro ⟨t, home⟩
    exact ⟨.register r, List.mem_map.2 ⟨_, SortedMap.get?_eq_some.1 home, rfl⟩, rfl⟩

/-- There is a slot for every argument that is laid ready. -/
theorem le_arguments {g : FlowGraph} {a : Assignment} {k : Nat} {arg : Var}
    (h : .param k arg ∈ g.code) : k ≤ (ofAssignment g a).frame.arguments :=
  le_foldl_max (.inr (List.mem_map.2 ⟨_, h, rfl⟩))

/-- An allocation gives a sound layout, unless its frame is too large. -/
theorem sound_ofAssignment {g : FlowGraph} {i : InterferenceGraph} {a : Assignment} (fits : a.Fits i)
    (small : (ofAssignment g a).frame.bytes < 2147483648) : (ofAssignment g a).Sound where
  homes t l home := by
    cases l with
    | register r =>
      have palette := fits.palette t r home
      exact ⟨palette, fun callee => List.mem_filter.2 ⟨mem_registers.2 ⟨t, home⟩, callee⟩⟩
    | slot n => exact fits.slots t n home
  callee r hr := by
    obtain ⟨used, callee⟩ := List.mem_filter.1 hr
    obtain ⟨t, home⟩ := mem_registers.1 used
    have palette := fits.palette t r home
    refine ⟨callee, ?_⟩
    rintro rfl
    revert palette
    decide
  caller r hr := by
    simp only [ofAssignment] at hr
    split at hr
    · exact (List.mem_filter.1 hr).2
    · cases hr
  small

/-! ## Frames -/

variable {layout : Layout} {base : Int} {m m' entry : Machine} {r : Register} {n : Nat}

/-- The base of a frame is where `rbp` points to. -/
structure Based (base : Int) (m : Machine) : Prop where
  aligned : base % 16 = 0
  rbp : m.registers .rbp = .stack base

theorem Based.of_changes {cells : Cell → Prop} (h : Based base m) (changes : Changes m m' cells)
    (rbp : ¬ cells (.register .rbp)) : Based base m' :=
  ⟨h.aligned, (changes.register rbp).trans h.rbp⟩

/-- The offset of a slot has to fit into 32 bits. -/
theorem Based.cell?_slot_of_le (h : Based base m) (reaches : 8 * (n + 1) ≤ 2147483648) :
    m.cell? (Frame.slot n) = some (.stack (Frame.address base n)) := by
  rw [Frame.slot_eq reaches]
  have aligned := h.aligned
  have address : base + -8 * ((n : Int) + 1) = Frame.address base n := by
    simp only [Frame.address]
    omega
  rw [← address]
  refine Machine.cell?_memory h.rbp ?_ (by omega)
  simp only [Machine.Reaches]
  omega

theorem Based.cell?_slot (sound : layout.Sound) (h : Based base m) (lt : n < layout.frame.count) :
    m.cell? (Frame.slot n) = some (.stack (Frame.address base n)) := by
  have small := sound.small
  have slots := layout.frame.count_le_bytes
  exact h.cell?_slot_of_le (by omega)

/-- A slot can be moved to and from. -/
theorem Based.movable_slot (sound : layout.Sound) (h : Based base m) (lt : n < layout.frame.count) :
    m.Movable (base - layout.frame.bytes) (Frame.slot n) (.stack (Frame.address base n)) where
  cell := h.cell?_slot sound lt
  there := ⟨_, rfl⟩
  framed := fun _ hr => List.mem_singleton.1 hr
  free := Frame.bytes_le_address lt

/-- Both registers that point to the frame of an activation do. -/
structure Stands (layout : Layout) (base : Int) (m : Machine) : Prop extends Based base m where
  rsp : m.registers .rsp = .stack (base - layout.frame.bytes)

theorem Stands.of_changes {cells : Cell → Prop} (h : layout.Stands base m) (changes : Changes m m' cells)
    (rbp : ¬ cells (.register .rbp)) (rsp : ¬ cells (.register .rsp)) : layout.Stands base m' :=
  ⟨h.toBased.of_changes changes rbp, (changes.register rsp).trans h.rsp⟩

theorem Stands.rsp_aligned (h : layout.Stands base m) : (base - (layout.frame.bytes : Int)) % 16 = 0 := by
  have := h.aligned
  have := layout.frame.bytes_mod
  omega

theorem has_slot_lt (has : layout.Has (.slot n)) : n < layout.frame.count := by
  have : n < layout.frame.spills := has
  simp only [Frame.count]
  omega

/-- So can a home. -/
theorem Stands.movable_place (sound : layout.Sound) (h : layout.Stands base m) {l : Location}
    (has : layout.Has l) : m.Movable (base - layout.frame.bytes) (place l) (l.cell base) := by
  cases l with
  | slot n => exact h.toBased.movable_slot sound (has_slot_lt has)
  | register r =>
    refine ⟨rfl, ⟨_, rfl⟩, fun _ hr => (List.not_mem_nil hr).elim, ?_, ?_⟩
    · rintro rfl
      exact absurd has.1 (by decide)
    · rintro rfl
      exact absurd has.1 (by decide)

/-! ## What belongs to whom -/

/-- What a function may change and leave changed. -/
def Own (layout : Layout) (base : Int) : Cell → Prop
  | .register r => r ≠ .rsp ∧ r ≠ .rbp ∧ (r.isCalleeSaved = true → r ∈ layout.frame.calleeSaved)
  | .stack b => b < base ∧
      ∀ r ∈ layout.frame.calleeSaved, ∀ n, layout.frame.saveSlot? r = some n → b ≠ Frame.address base n
  | .datum _ => True

theorem own_callerSaved (h : r.isCallerSaved = true) : layout.Own base (.register r) := by
  have facts : r ≠ .rsp ∧ r ≠ .rbp ∧ r.isCalleeSaved = false := by
    revert h
    cases r <;> decide
  exact ⟨facts.1, facts.2.1, fun callee => by cases facts.2.2.symm.trans callee⟩

theorem own_scratch {c : Cell} (h : c.Scratch) : layout.Own base c := by
  obtain ⟨r, hr, rfl⟩ := h
  refine own_callerSaved ?_
  revert hr
  cases r <;> decide

/-- No slot for callee-saved registers is one of the others. -/
theorem own_slot (other : ∀ r ∈ layout.frame.calleeSaved, layout.frame.saveSlot? r ≠ some n) :
    layout.Own base (.stack (Frame.address base n)) := by
  refine ⟨Frame.address_lt base n, fun r hr k found same => other r hr ?_⟩
  rwa [Frame.address_inj.1 same]

theorem own_spill (lt : n < layout.frame.spills) : layout.Own base (.stack (Frame.address base n)) :=
  own_slot fun _ _ found => by
    have := (Frame.saveSlot?_bounds found).1
    omega

theorem own_argument (index : Nat) :
    layout.Own base (.stack (Frame.address base (layout.frame.argumentSlot index))) :=
  own_slot fun _ _ found => by
    have := (Frame.saveSlot?_bounds found).2
    simp only [Frame.argumentSlot] at this
    omega

theorem own_callerSaved_slot (sound : layout.Sound) (caller : r.isCallerSaved = true)
    (found : layout.frame.saveSlot? r = some n) : layout.Own base (.stack (Frame.address base n)) :=
  own_slot fun s hs found' => by
    obtain rfl := Frame.saveSlot?_inj found found'
    have callee := (sound.callee _ hs).1
    revert caller callee
    cases r <;> decide

theorem own_cell {l : Location} (has : layout.Has l) : layout.Own base (l.cell base) := by
  cases l with
  | slot n => exact own_spill has
  | register r =>
    refine ⟨?_, ?_, has.2⟩
    · rintro rfl
      exact absurd has.1 (by decide)
    · rintro rfl
      exact absurd has.1 (by decide)

theorem own_below {b : Int} (lt : b < base - layout.frame.bytes) : layout.Own base (.stack b) := by
  refine ⟨by omega, fun r _ n found same => ?_⟩
  have : base - layout.frame.bytes ≤ Frame.address base n :=
    Frame.bytes_le_address (Frame.saveSlot?_lt found)
  omega

/-- An activation that was entered in one state holds what its caller finds again. -/
structure Held (layout : Layout) (base : Int) (entry m : Machine) : Prop extends
    layout.Stands base m where
  above : ∀ b, base < b → m.stack b = entry.stack b
  link : m.stack base = entry.registers .rbp
  saved : ∀ r ∈ layout.frame.calleeSaved, ∀ n, layout.frame.saveSlot? r = some n →
    m.stack (Frame.address base n) = entry.registers r
  unused : ∀ r, r.isCalleeSaved = true → r ≠ .rbp → r ∉ layout.frame.calleeSaved →
    m.registers r = entry.registers r

/-- An activation may change what is its own. -/
theorem Held.of_kept (h : layout.Held base entry m)
    (kept : ∀ c, ¬ layout.Own base c → m'.value? c = m.value? c) : layout.Held base entry m' := by
  have register : ∀ r, ¬ layout.Own base (.register r) → m'.registers r = m.registers r :=
    fun r hr => Machine.registers_eq_of_value? (kept _ hr)
  have stack : ∀ b, ¬ layout.Own base (.stack b) → m'.stack b = m.stack b :=
    fun b hb => Machine.stack_eq_of_value? (kept _ hb)
  refine ⟨⟨⟨h.aligned, ?_⟩, ?_⟩, fun b hb => ?_, ?_, fun r hr n found => ?_, fun r callee ne unused => ?_⟩
  · exact (register _ fun own => own.2.1 rfl).trans h.rbp
  · exact (register _ fun own => own.1 rfl).trans h.rsp
  · exact (stack b fun own => absurd own.1 (by omega)).trans (h.above b hb)
  · exact (stack base fun own => absurd own.1 (by omega)).trans h.link
  · exact (stack _ fun own => own.2 r hr n found rfl).trans (h.saved r hr n found)
  · exact (register r fun own => unused (own.2.2 callee)).trans (h.unused r callee ne unused)

theorem Held.of_changes {cells : Cell → Prop} (h : layout.Held base entry m)
    (changes : Changes m m' cells) (own : ∀ c, cells c → layout.Own base c) :
    layout.Held base entry m' :=
  h.of_kept fun c hc => changes.kept c fun hc' => hc (own c hc')

/-! ## Saving registers -/

/-- The cells of the slots that registers are saved in. -/
def SaveCells (layout : Layout) (base : Int) (registers : List Register) (c : Cell) : Prop :=
  ∃ r ∈ registers, ∃ n, layout.frame.saveSlot? r = some n ∧ c = .stack (Frame.address base n)

/-- Registers are stored in their slots. -/
theorem executes_store (sound : layout.Sound) (stands : layout.Stands base m)
    (registers : List Register) :
    m.Executes (layout.store registers) fun m' =>
      (∀ r ∈ registers, ∀ n, layout.frame.saveSlot? r = some n →
        m'.stack (Frame.address base n) = m.registers r) ∧
      Changes m m' (layout.SaveCells base registers) := by
  induction registers generalizing m with
  | nil => exact .nil ⟨fun _ hr => (List.not_mem_nil hr).elim, .refl m _⟩
  | cons r rest ih =>
    cases found : layout.frame.saveSlot? r with
    | none =>
      have code : layout.store (r :: rest) = layout.store rest := by
        simp [store, Frame.saved?_eq, found]
      rw [code]
      refine (ih stands).imp fun m' _ ⟨saved, changes⟩ => ⟨fun s hs n hn => ?_, changes.mono ?_⟩
      · rcases List.mem_cons.1 hs with rfl | hs
        · cases found.symm.trans hn
        · exact saved s hs n hn
      · rintro c ⟨s, hs, h⟩
        exact ⟨s, List.mem_cons_of_mem _ hs, h⟩
    | some n =>
      have code : layout.store (r :: rest) =
          .mov (Frame.slot n) (.register r) :: layout.store rest := by
        simp [store, Frame.saved?_eq, found]
      rw [code]
      have lt := Frame.saveSlot?_lt found
      have movable := stands.toBased.movable_slot sound lt
      refine .cons (Machine.apply_mov (Instr.badOperands?_mov (.inr rfl) rfl rfl)
        (Machine.get_register m r) (Machine.set_of_cell? movable.cell rfl)) ?_
      have first := Changes.put m (.stack (Frame.address base n)) (m.registers r)
      refine (ih (stands.of_changes first (by simp) (by simp))).imp
        fun m' _ ⟨saved, changes⟩ => ⟨fun s hs k hk => ?_, (first.mono ?_).trans (changes.mono ?_)⟩
      · by_cases later : s ∈ rest
        · rw [saved s later k hk, Machine.registers_put, if_neg (by simp)]
        · obtain rfl := (List.mem_cons.1 hs).resolve_right later
          obtain rfl : n = k := Option.some.inj (found.symm.trans hk)
          -- no other register is saved there
          rw [changes.stack, Machine.stack_put, if_pos rfl]
          rintro ⟨s', hs', k, hk', same⟩
          rw [Frame.address_inj.1 (Cell.stack.inj same)] at hk
          exact later (Frame.saveSlot?_inj hk hk' ▸ hs')
      · rintro c rfl
        exact ⟨r, List.mem_cons_self, n, found, rfl⟩
      · rintro c ⟨s, hs, h⟩
        exact ⟨s, List.mem_cons_of_mem _ hs, h⟩

/-- Registers are loaded from slots. -/
theorem executes_loads (sound : layout.Sound) (based : Based base m) {loads : List (Register × Nat)}
    (rbp : ∀ e ∈ loads, e.1 ≠ .rbp) (slots : ∀ e ∈ loads, e.2 < layout.frame.count)
    (single : ∀ e ∈ loads, ∀ e' ∈ loads, e.1 = e'.1 → e.2 = e'.2) :
    m.Executes (loads.map fun e => .mov (.register e.1) (Frame.slot e.2)) fun m' =>
      (∀ e ∈ loads, m'.registers e.1 = m.stack (Frame.address base e.2)) ∧
      Changes m m' fun c => ∃ e ∈ loads, c = .register e.1 := by
  induction loads generalizing m with
  | nil => exact .nil ⟨fun _ he => (List.not_mem_nil he).elim, .refl m _⟩
  | cons e rest ih =>
    have later : ∀ {e'}, e' ∈ rest → e' ∈ e :: rest := List.mem_cons_of_mem _
    have movable := based.movable_slot sound (slots e List.mem_cons_self)
    refine .cons (Machine.apply_mov_register (movable.get.trans (Machine.value?_stack ..))) ?_
    have first := Changes.put m (.register e.1) (m.stack (Frame.address base e.2))
    refine (ih (based.of_changes first fun same => rbp e List.mem_cons_self (Cell.register.inj same).symm)
      (fun e' he => rbp e' (later he)) (fun e' he => slots e' (later he))
      fun e' he e'' he' => single e' (later he) e'' (later he')).imp
      fun m' _ ⟨loaded, changes⟩ => ⟨fun e' he => ?_, (first.mono ?_).trans (changes.mono ?_)⟩
    · by_cases again : ∃ e'' ∈ rest, e''.1 = e'.1
      · obtain ⟨e'', he', same⟩ := again
        rw [← same, ← single e'' (later he') e' he same, loaded e'' he', Machine.stack_put,
          if_neg (by simp)]
      · obtain rfl := (List.mem_cons.1 he).resolve_right fun he => again ⟨e', he, rfl⟩
        rw [changes.register, Machine.registers_put, if_pos rfl]
        rintro ⟨e'', he', same⟩
        exact again ⟨e'', he', (Cell.register.inj same).symm⟩
    · rintro c rfl
      exact ⟨e, List.mem_cons_self, rfl⟩
    · rintro c ⟨e', he, h⟩
      exact ⟨e', later he, h⟩

/-- Registers are restored from their slots. -/
theorem executes_restore (sound : layout.Sound) (based : Based base m) (registers : List Register)
    (rbp : .rbp ∉ registers) :
    m.Executes (layout.restore registers) fun m' =>
      (∀ r ∈ registers, ∀ n, layout.frame.saveSlot? r = some n →
        m'.registers r = m.stack (Frame.address base n)) ∧
      Changes m m' fun c => ∃ r ∈ registers, c = .register r := by
  let loads := registers.filterMap fun r => (layout.frame.saveSlot? r).map fun n => (r, n)
  have mem : ∀ {e}, e ∈ loads ↔ e.1 ∈ registers ∧ layout.frame.saveSlot? e.1 = some e.2 := by
    intro e
    simp only [loads, List.mem_filterMap, Option.map_eq_some_iff]
    constructor
    · rintro ⟨r, hr, n, found, rfl⟩
      exact ⟨hr, found⟩
    · rintro ⟨hr, found⟩
      exact ⟨e.1, hr, e.2, found, rfl⟩
  have code : layout.restore registers =
      loads.map fun e => .mov (.register e.1) (Frame.slot e.2) := by
    simp only [restore, loads, List.map_filterMap, Frame.saved?_eq, Option.map_map]
    rfl
  rw [code]
  refine (executes_loads sound based (fun e he same => rbp (same ▸ (mem.1 he).1))
    (fun e he => Frame.saveSlot?_lt (mem.1 he).2) fun e he e' he' same => ?_).imp
    fun m' _ ⟨loaded, changes⟩ => ⟨fun r hr n found => loaded (r, n) (mem.2 ⟨hr, found⟩),
      changes.mono ?_⟩
  · have found := (mem.1 he).2
    rw [same, (mem.1 he').2] at found
    exact (Option.some.inj found).symm
  · rintro c ⟨e, he, h⟩
    exact ⟨e.1, (mem.1 he).1, h⟩

end Layout

end ThreeAddress
