import ThreeAddress.Proofs.Lowering.Frame
import ThreeAddress.Proofs.Target.Path
/-!
# How a function stands

What is known of the stack pointer and of the registers that a function has to give back changes
from instruction to instruction in a way that can be read off the code. A `Stance` is what is known
at a place, and `Stance.Step` says which instructions are allowed there and what is known behind
them. Labels are reached from elsewhere, so there the function always stands in the same way.

* `Stance`, `Stance.Step` : what is known at a place, and how it changes;
* `Stance.Holds` : what it says about the machine;
* `Stance.Step.holds` : one instruction;
* `Disciplined`, `Path.holds` : all paths through code that keeps to these rules.
-/

namespace ThreeAddress

namespace Target

/-- What is known of the stack and of the registers that have to be given back. -/
inductive Stance where
  /-- All is as it was when the function was entered. -/
  | entered
  /-- The base of the caller's frame is on the stack. -/
  | pushed
  /-- `rbp` is the base of the frame and `rsp` is `room` bytes below it. The registers `saved` are
  in their slots, and the others that have to be given back are as they were. -/
  | framed (room : Nat) (saved : List Register)
  /-- All is as it was again. -/
  | left
  /-- The place is not reached from the code in front of it. -/
  | unreached

variable {frame : Frame} {stages : Nat → Prop} {room : Nat} {saved : List Register} {base : Int}
  {r : Register}

namespace Frame

/-- How a function stands at its labels: the whole frame is there. -/
def standing (frame : Frame) : Stance := .framed frame.bytes frame.calleeSaved

/-- A cell that may be written while `saved` are in their slots below `base`. -/
def Free (frame : Frame) (saved : List Register) (base : Int) : Cell → Prop
  | .register r => r ≠ .rsp ∧ r ≠ .rbp ∧ (r.isCalleeSaved = true → r ∈ saved)
  | .stack a => a < base ∧ ∀ r ∈ saved, ∀ n, frame.saveSlot? r = some n → a ≠ address base n
  | .datum _ => True

/-- An operand that is a free cell wherever the base is. -/
def Accepts (frame : Frame) (saved : List Register) : Operand → Prop
  | .register r => r ≠ .rsp ∧ r ≠ .rbp ∧ (r.isCalleeSaved = true → r ∈ saved)
  | .memory ⟨.symbol _, _⟩ => True
  | .memory ⟨.register r, offset⟩ =>
    r = .rbp ∧ offset < 0 ∧
      ∀ r ∈ saved, ∀ n, frame.saveSlot? r = some n → offset ≠ -8 * ((n : Int) + 1)
  | .immediate _ => False

theorem Accepts.free {o : Operand} {m : Machine} {c : Cell} (h : frame.Accepts saved o)
    (rbp : m.registers .rbp = .stack base) (cell : m.cell? o = some c) :
    frame.Free saved base c := by
  cases o with
  | register r =>
    cases cell
    exact h
  | immediate w => cases cell
  | memory a =>
    obtain ⟨origin, offset⟩ := a
    cases origin with
    | symbol name =>
      simp only [Machine.cell?] at cell
      split at cell <;> cases cell
      trivial
    | register r =>
      obtain ⟨rfl, below, other⟩ := h
      simp only [Machine.cell?, rbp] at cell
      split at cell <;> cases cell
      refine ⟨by omega, fun r hr n slot same => other r hr n slot ?_⟩
      simp only [address] at same
      omega

/-- A slot in which none of the saved registers is may be written. -/
theorem accepts_slot {n : Nat} (reaches : 8 * (n + 1) ≤ 2147483648)
    (other : ∀ r ∈ saved, frame.saveSlot? r ≠ some n) : frame.Accepts saved (slot n) := by
  rw [slot_eq reaches]
  refine ⟨rfl, by omega, fun r hr k found same => other r hr ?_⟩
  obtain rfl : n = k := by omega
  exact found

/-- Arguments are laid ready below the slots of saved registers. -/
theorem accepts_argument {k : Nat} (reaches : frame.Reaches k) (saved : List Register) :
    frame.Accepts saved (frame.argument k) := by
  refine accepts_slot (n := frame.argumentSlot k) reaches fun r _ found => ?_
  have := saveSlot?_bounds found
  simp only [argumentSlot] at this
  omega

/-- The eight bytes below the end of the stack are free. -/
theorem free_below (inside : frame.bytes ≤ room) :
    frame.Free saved base (.stack (base - room - 8)) := by
  refine ⟨by omega, fun r hr n slot same => ?_⟩
  have low : base - frame.bytes ≤ address base n := bytes_le_address (saveSlot?_lt slot)
  omega

end Frame

/-! ## Rules -/

/-- The registers that a computation writes, if it writes nothing else. -/
def Instr.computed? : Instr → Option (List Register)
  | alu _ (.register r) _ | neg (.register r) | not (.register r) | shift _ (.register r) _ =>
    some [r]
  | cqo => some [.rdx]
  | idiv _ => some [.rax, .rdx]
  | cmp _ _ => some []
  | _ => none

/-- The instructions that are allowed in a stance, and the stance behind them. Arguments of the
numbers `stages` may be laid ready, if their slots are within reach. -/
inductive Stance.Step (frame : Frame) (stages : Nat → Prop) : Stance → Instr → Stance → Prop
  | enter : Step frame stages .entered (.push (.register .rbp)) .pushed
  | link : Step frame stages .pushed (.mov (.register .rbp) (.register .rsp)) (.framed 0 [])
  | reserve {w : Word} (size : w.toInt = frame.bytes) :
      Step frame stages (.framed 0 []) (.alu .sub (.register .rsp) (.immediate w))
        (.framed frame.bytes [])
  | save {room : Nat} {saved : List Register} {r : Register} {n : Nat}
      (callee : r.isCalleeSaved = true) (other : r ≠ .rbp) (slot : frame.saveSlot? r = some n)
      (fresh : r ∉ saved) :
      Step frame stages (.framed room saved) (.mov (Frame.slot n) (.register r))
        (.framed room (saved ++ [r]))
  | restore {room : Nat} {saved : List Register} {r : Register} {n : Nat}
      (callee : r.isCalleeSaved = true) (other : r ≠ .rbp) (slot : frame.saveSlot? r = some n) :
      Step frame stages (.framed room (r :: saved)) (.mov (.register r) (Frame.slot n))
        (.framed room saved)
  | drop {room : Nat} :
      Step frame stages (.framed room []) (.mov (.register .rsp) (.register .rbp)) (.framed 0 [])
  | unlink : Step frame stages (.framed 0 []) (.pop (.register .rbp)) .left
  | ret : Step frame stages .left .ret .unreached
  | mov {room : Nat} {saved : List Register} {dst src : Operand}
      (accepts : frame.Accepts saved dst) (other : ∀ k, frame.Reaches k → dst ≠ frame.argument k) :
      Step frame stages (.framed room saved) (.mov dst src) (.framed room saved)
  | stage {room : Nat} {saved : List Register} {k : Nat} {src : Operand} (allowed : stages k)
      (reaches : frame.Reaches k) :
      Step frame stages (.framed room saved) (.mov (frame.argument k) src) (.framed room saved)
  | compute {room : Nat} {saved written : List Register} {i : Instr}
      (computed : i.computed? = some written)
      (accepts : ∀ r ∈ written, frame.Accepts saved (.register r)) :
      Step frame stages (.framed room saved) i (.framed room saved)
  | push {room : Nat} {saved : List Register} {src : Operand} (inside : frame.bytes ≤ room) :
      Step frame stages (.framed room saved) (.push src) (.framed (room + 8) saved)
  | pop {room : Nat} {saved : List Register} {dst : Operand} (inside : frame.bytes ≤ room)
      (accepts : frame.Accepts saved dst) (other : ∀ k, frame.Reaches k → dst ≠ frame.argument k) :
      Step frame stages (.framed (room + 8) saved) (.pop dst) (.framed room saved)
  | lower {room n : Nat} {saved : List Register} {w : Word} (amount : w.toInt = n)
      (inside : frame.bytes ≤ room) :
      Step frame stages (.framed room saved) (.alu .sub (.register .rsp) (.immediate w))
        (.framed (room + n) saved)
  | raise {room n : Nat} {saved : List Register} {w : Word} (amount : w.toInt = n)
      (inside : frame.bytes ≤ room) :
      Step frame stages (.framed (room + n) saved) (.alu .add (.register .rsp) (.immediate w))
        (.framed room saved)
  | call {room : Nat} {saved : List Register} {target : String} (inside : frame.bytes ≤ room)
      (aligned : room % 16 = 0) :
      Step frame stages (.framed room saved) (.call target) (.framed room saved)
  | jmp {target : String} : Step frame stages frame.standing (.jmp target) .unreached
  | jcc {condition : Condition} {target : String} :
      Step frame stages frame.standing (.jcc condition target) frame.standing
  | label {name : String} : Step frame stages frame.standing (.label name) frame.standing
  | mark {name : String} : Step frame stages .unreached (.label name) frame.standing
  | skip {i : Instr} (unmarked : ∀ name, i ≠ .label name) :
      Step frame stages .unreached i .unreached

/-! ## What a stance says -/

/-- The frame of an activation that was entered in `m₀`, with `base` eight bytes below the place to
return to. -/
structure Framed (frame : Frame) (m₀ : Machine) (base : Int) (room : Nat) (saved : List Register)
    (m : Machine) : Prop where
  rbp : m.registers .rbp = .stack base
  rsp : m.registers .rsp = .stack (base - room)
  link : m.stack base = m₀.registers .rbp
  untouched : ∀ r : Register, r.isCalleeSaved = true → r ≠ .rbp → r ∉ saved →
    m.registers r = m₀.registers r
  stored : ∀ r ∈ saved, ∃ n, frame.saveSlot? r = some n ∧
    m.stack (Frame.address base n) = m₀.registers r

/-- What a stance says about the machine, in an activation that was entered in `m₀`. -/
def Stance.Holds (frame : Frame) (m₀ : Machine) (base : Int) (s : Stance) (m : Machine) : Prop :=
  match s with
  | .entered | .left => m.registers .rsp = .stack (base + 8) ∧
      ∀ r : Register, r.isCalleeSaved = true → m.registers r = m₀.registers r
  | .pushed => m.registers .rsp = .stack base ∧ m.stack base = m₀.registers .rbp ∧
      ∀ r : Register, r.isCalleeSaved = true → m.registers r = m₀.registers r
  | .framed room saved => Framed frame m₀ base room saved m
  | .unreached => False

variable {m₀ m m' : Machine} {i : Instr} {s s' : Stance} {cells : Cell → Prop}

namespace Framed

/-- Free cells and the stack pointer are changed. -/
theorem of_changes (h : Framed frame m₀ base room saved m) (changes : Changes m m' cells)
    (free : ∀ c, cells c → c = .register .rsp ∨ frame.Free saved base c) {room' : Nat}
    (rsp : m'.registers .rsp = .stack (base - room')) :
    Framed frame m₀ base room' saved m' where
  rbp := by
    refine (changes.register fun hc => ?_).trans h.rbp
    rcases free _ hc with same | ⟨-, no, -⟩
    · cases same
    · exact no rfl
  rsp := rsp
  link := by
    refine (changes.stack fun hc => ?_).trans h.link
    rcases free _ hc with same | ⟨below, -⟩
    · cases same
    · exact Int.lt_irrefl _ below
  untouched r callee other unsaved := by
    refine (changes.register fun hc => ?_).trans (h.untouched r callee other unsaved)
    rcases free _ hc with same | ⟨-, -, own⟩
    · cases same
      cases callee
    · exact unsaved (own callee)
  stored r hr := by
    obtain ⟨n, slot, value⟩ := h.stored r hr
    refine ⟨n, slot, (changes.stack fun hc => ?_).trans value⟩
    rcases free _ hc with same | ⟨-, no⟩
    · cases same
    · exact no r hr n slot rfl

/-- Free cells are changed. -/
theorem of_free (h : Framed frame m₀ base room saved m) (changes : Changes m m' cells)
    (free : ∀ c, cells c → frame.Free saved base c) : Framed frame m₀ base room saved m' := by
  refine h.of_changes changes (fun c hc => .inr (free c hc)) ?_
  exact (changes.register fun hc => (free _ hc).1 rfl).trans h.rsp

/-- The function that is called comes back to the same frame. -/
theorem of_comesBack (h : Framed frame m₀ base room saved m)
    (back : ComesBack frame.bytes m m') : Framed frame m₀ base room saved m' where
  rbp := (back.calleeSaved _ rfl).trans h.rbp
  rsp := back.rsp.trans h.rsp
  link := (back.frame base base h.rbp (by omega) (Int.le_refl _)).trans h.link
  untouched r callee other unsaved :=
    (back.calleeSaved r callee).trans (h.untouched r callee other unsaved)
  stored r hr := by
    obtain ⟨n, slot, value⟩ := h.stored r hr
    have low : base - frame.bytes ≤ Frame.address base n :=
      Frame.bytes_le_address (Frame.saveSlot?_lt slot)
    have below := Frame.address_lt base n
    exact ⟨n, slot, (back.frame base _ h.rbp low (by omega)).trans value⟩

end Framed

/-! ## Steps -/

/-- What a computation writes. -/
theorem written_of_computed? {written : List Register} {c : Cell}
    (computed : i.computed? = some written) (hc : c ∈ m.written i) :
    ∃ r ∈ written, c = .register r := by
  cases i with
  | alu op dst src | neg dst | not dst | shift op dst count =>
    cases dst with
    | register r =>
      cases computed
      exact ⟨r, List.mem_singleton_self r, List.mem_singleton.1 hc⟩
    | _ => cases computed
  | cqo =>
    cases computed
    exact ⟨.rdx, List.mem_singleton_self _, List.mem_singleton.1 hc⟩
  | idiv src =>
    cases computed
    rcases List.mem_cons.1 hc with rfl | hc
    · exact ⟨.rax, List.mem_cons_self, rfl⟩
    · exact ⟨.rdx, List.mem_cons_of_mem _ List.mem_cons_self, List.mem_singleton.1 hc⟩
  | cmp => cases hc
  | _ => cases computed

/-- The cell of a slot. -/
theorem cell_of_slot {n : Nat} {c : Cell} (reaches : 8 * (n + 1) ≤ 2147483648)
    (rbp : m.registers .rbp = .stack base) (h : m.cell? (Frame.slot n) = some c) :
    c = .stack (Frame.address base n) := by
  rw [Frame.slot_eq reaches] at h
  simp only [Machine.cell?, rbp] at h
  split at h <;> cases h
  simp only [Frame.address, Cell.stack.injEq]
  omega

namespace Framed

theorem step_save {n : Nat} (small : frame.bytes < 2147483648)
    (h : Framed frame m₀ base room saved m) (callee : r.isCalleeSaved = true)
    (other : r ≠ .rbp) (slot : frame.saveSlot? r = some n) (fresh : r ∉ saved)
    (does : m.Does (.mov (Frame.slot n) (.register r)) m') :
    Framed frame m₀ base room (saved ++ [r]) m' := by
  obtain ⟨v, c, read, cell, rfl⟩ := does.mov
  obtain rfl := cell_of_slot (Frame.reaches_of_lt small (Frame.saveSlot?_lt slot)) h.rbp cell
  obtain rfl : m.registers r = v := Option.some.inj read
  have kept := h.of_free (Changes.put m (.stack (Frame.address base n)) (m.registers r)) ?_
  · refine ⟨kept.rbp, kept.rsp, kept.link, fun s callee other unsaved => ?_, fun s hs => ?_⟩
    · exact kept.untouched s callee other fun hs => unsaved (List.mem_append_left _ hs)
    · rcases List.mem_append.1 hs with hs | hs
      · exact kept.stored s hs
      · obtain rfl := List.mem_singleton.1 hs
        exact ⟨n, slot, by simp [h.untouched s callee other fresh]⟩
  · rintro c rfl
    refine ⟨Frame.address_lt base n, fun s hs k found same => fresh ?_⟩
    obtain rfl := Frame.address_inj.1 same
    exact Frame.saveSlot?_inj slot found ▸ hs

theorem step_restore {n : Nat} (small : frame.bytes < 2147483648)
    (h : Framed frame m₀ base room (r :: saved) m) (callee : r.isCalleeSaved = true)
    (other : r ≠ .rbp) (slot : frame.saveSlot? r = some n)
    (does : m.Does (.mov (.register r) (Frame.slot n)) m') :
    Framed frame m₀ base room saved m' := by
  obtain ⟨v, c, read, cell, rfl⟩ := does.mov
  cases cell
  have value : v = m₀.registers r := by
    obtain ⟨k, found, stored⟩ := h.stored r List.mem_cons_self
    obtain rfl : n = k := Option.some.inj (slot.symm.trans found)
    obtain ⟨c, cell, read⟩ := Option.bind_eq_some_iff.1
      (show (m.cell? (Frame.slot n)).bind m.value? = some v from read)
    rw [cell_of_slot (Frame.reaches_of_lt small (Frame.saveSlot?_lt slot)) h.rbp cell] at read
    exact (Option.some.inj read).symm.trans stored
  have notRsp : r ≠ .rsp := by
    rintro rfl
    cases callee
  have kept := h.of_free (Changes.put m (.register r) v) ?_
  · refine ⟨kept.rbp, kept.rsp, kept.link, fun s callee other unsaved => ?_, fun s hs => ?_⟩
    · by_cases same : s = r
      · rw [same]
        simpa using value
      · exact kept.untouched s callee other fun hs => (List.mem_cons.1 hs).elim same unsaved
    · exact kept.stored s (List.mem_cons_of_mem _ hs)
  · rintro c rfl
    exact ⟨notRsp, other, fun _ => List.mem_cons_self⟩

/-- The stack pointer is moved. -/
theorem step_alu {room' : Nat} {op : AluOp} {w : Word} (h : Framed frame m₀ base room saved m)
    (value : op.eval? (.stack (base - room)) (.word w) = some (.stack (base - room')))
    (does : m.Does (.alu op (.register .rsp) (.immediate w)) m') :
    Framed frame m₀ base room' saved m' := by
  obtain ⟨-, rfl⟩ := does.alu h.rsp value
  refine h.of_changes (Changes.put m _ _).unflagged (fun c hc => .inl hc) ?_
  simp

theorem step_mov {dst src : Operand} (h : Framed frame m₀ base room saved m)
    (accepts : frame.Accepts saved dst) (does : m.Does (.mov dst src) m') :
    Framed frame m₀ base room saved m' := by
  obtain ⟨v, c, -, cell, rfl⟩ := does.mov
  exact h.of_free (Changes.put m c v) fun d hd => hd ▸ accepts.free h.rbp cell

theorem step_push {src : Operand} (h : Framed frame m₀ base room saved m)
    (inside : frame.bytes ≤ room) (does : m.Does (.push src) m') :
    Framed frame m₀ base (room + 8) saved m' := by
  obtain ⟨v, a, -, rsp, rfl⟩ := does.push
  obtain rfl : base - room = a := Value.stack.inj (h.rsp.symm.trans rsp)
  have changes : Changes m
      ((m.put (.stack (base - room - 8)) v).put (.register .rsp) (.stack (base - room - 8)))
      fun c => c = .stack (base - room - 8) ∨ c = .register .rsp :=
    ((Changes.put _ _ _).mono fun _ hc => .inl hc).trans
      ((Changes.put _ _ _).mono fun _ hc => .inr hc)
  refine h.of_changes changes (fun c hc => ?_) ?_
  · rcases hc with rfl | rfl
    · exact .inr (Frame.free_below inside)
    · exact .inl rfl
  · simp only [Machine.registers_put, if_true, Value.stack.injEq]
    omega

theorem step_pop {dst : Operand} (h : Framed frame m₀ base (room + 8) saved m)
    (accepts : frame.Accepts saved dst) (does : m.Does (.pop dst) m') :
    Framed frame m₀ base room saved m' := by
  obtain ⟨a, c, rsp, cell, rfl⟩ := does.pop
  obtain rfl := Value.stack.inj (h.rsp.symm.trans rsp)
  have rbp : (m.put (.register .rsp) (.stack (base - (room + 8 : Nat) + 8))).registers .rbp =
      .stack base := by simpa using h.rbp
  have free := accepts.free rbp cell
  have changes : Changes m ((m.put (.register .rsp) (.stack (base - (room + 8 : Nat) + 8))).put c
      (m.stack (base - (room + 8 : Nat)))) fun d => d = .register .rsp ∨ d = c :=
    ((Changes.put _ _ _).mono fun _ hc => .inl hc).trans
      ((Changes.put _ _ _).mono fun _ hc => .inr hc)
  refine h.of_changes changes (fun d hd => ?_) ?_
  · rcases hd with rfl | rfl
    · exact .inl rfl
    · exact .inr free
  have other : ¬ (Cell.register .rsp = c) := by
    rintro rfl
    exact free.1 rfl
  simp only [Machine.registers_put, other, if_true, if_false, Value.stack.injEq]
  omega

end Framed

/-- An allowed instruction leads to what is known behind it. -/
theorem Stance.Step.holds (small : frame.bytes < 2147483648)
    (step : Stance.Step frame stages s i s') (h : s.Holds frame m₀ base m) (does : m.Does i m') :
    s'.Holds frame m₀ base m' := by
  cases step with
  | enter =>
    obtain ⟨rsp, callee⟩ := h
    obtain ⟨v, a, read, rsp', rfl⟩ := does.push
    obtain rfl : base + 8 = a := Value.stack.inj (rsp.symm.trans rsp')
    obtain rfl : m.registers .rbp = v := Option.some.inj read
    refine ⟨by simp, by simp [callee .rbp rfl], fun r hr => ?_⟩
    have other : r ≠ .rsp := by
      rintro rfl
      cases hr
    simp [other, callee r hr]
  | link =>
    obtain ⟨rsp, link, callee⟩ := h
    obtain ⟨v, c, read, cell, rfl⟩ := does.mov
    cases cell
    obtain rfl : m.registers .rsp = v := Option.some.inj read
    refine ⟨by simp [rsp], by simp [rsp], by simpa using link, fun r hr other _ => ?_,
      List.forall_mem_nil _⟩
    simp [other, callee r hr]
  | reserve size =>
    refine Framed.step_alu h ?_ does
    simp [AluOp.eval?, size]
  | save callee other slot fresh => exact Framed.step_save small h callee other slot fresh does
  | restore callee other slot => exact Framed.step_restore small h callee other slot does
  | drop =>
    obtain ⟨v, c, read, cell, rfl⟩ := does.mov
    cases cell
    obtain rfl : m.registers .rbp = v := Option.some.inj read
    refine Framed.of_changes h (Changes.put m _ _) (fun c hc => .inl hc) ?_
    simp [h.rbp]
  | unlink =>
    obtain ⟨a, c, rsp, cell, rfl⟩ := does.pop
    cases cell
    obtain rfl := Value.stack.inj (h.rsp.symm.trans rsp)
    refine ⟨by simp, fun r callee => ?_⟩
    have notRsp : r ≠ .rsp := by
      rintro rfl
      cases callee
    by_cases same : r = .rbp
    · subst same
      simpa using h.link
    · simp [same, notRsp, h.untouched r callee same (List.not_mem_nil)]
  | mov accepts => exact Framed.step_mov h accepts does
  | stage _ reaches => exact Framed.step_mov h (Frame.accepts_argument reaches _) does
  | compute computed accepts =>
    refine Framed.of_free h does.changes fun c hc => ?_
    obtain ⟨r, hr, rfl⟩ := written_of_computed? computed hc
    exact accepts r hr
  | push inside => exact Framed.step_push h inside does
  | pop inside accepts => exact Framed.step_pop h accepts does
  | lower amount inside =>
    refine Framed.step_alu h ?_ does
    simp only [AluOp.eval?, amount, Option.some.injEq, Value.stack.injEq]
    omega
  | raise amount inside =>
    refine Framed.step_alu h ?_ does
    simp only [AluOp.eval?, amount, Option.some.injEq, Value.stack.injEq]
    omega
  | label =>
    cases (does.effect rfl).2
    exact h
  | ret | call | jmp | jcc => cases (does.effect rfl).2
  | mark | skip => exact h.elim

/-- An allowed instruction writes no memory above the base of the frame. -/
theorem Stance.Step.written_le (small : frame.bytes < 2147483648)
    (step : Stance.Step frame stages s i s') (h : s.Holds frame m₀ base m) {a : Int}
    (ha : .stack a ∈ m.written i) : a ≤ base := by
  have register : ∀ {r : Register}, Cell.stack a ∉ (m.cell? (.register r)).toList := by simp
  have below : ∀ {b : Int}, m.registers .rsp = .stack b → Cell.stack a ∈ m.below?.toList →
      a = b - 8 := by
    intro b rsp ha
    simpa [Machine.below?, rsp] using ha
  have popped : ∀ {dst : Operand}, m.registers .rbp = .stack base →
      Cell.stack a ∈ m.written (.pop dst) →
      ∃ n : Machine, n.registers .rbp = .stack base ∧ n.cell? dst = some (.stack a) := by
    intro dst rbp ha
    obtain ⟨⟨v, n⟩, popped, cell⟩ :=
      Option.bind_eq_some_iff.1 (Option.mem_toList.1 ((List.mem_cons.1 ha).resolve_left (by simp)))
    obtain ⟨b, -, -, rfl⟩ := Machine.pop_eq_some popped
    exact ⟨_, by simpa using rbp, cell⟩
  cases step with
  | enter =>
    have := below h.1 ((List.mem_cons.1 ha).resolve_left (by simp))
    omega
  | save callee other slot fresh =>
    have reaches := Frame.reaches_of_lt small (Frame.saveSlot?_lt slot)
    rw [Cell.stack.inj (cell_of_slot reaches h.rbp (Option.mem_toList.1 ha))]
    exact Int.le_of_lt (Frame.address_lt base _)
  | mov accepts => exact Int.le_of_lt (accepts.free h.rbp (Option.mem_toList.1 ha)).1
  | stage _ reaches =>
    have accepts := Frame.accepts_argument reaches []
    exact Int.le_of_lt (accepts.free h.rbp (Option.mem_toList.1 ha)).1
  | compute computed =>
    obtain ⟨r, -, same⟩ := written_of_computed? computed ha
    cases same
  | push inside =>
    have := below h.rsp ((List.mem_cons.1 ha).resolve_left (by simp))
    omega
  | pop inside accepts =>
    obtain ⟨n, rbp, cell⟩ := popped h.rbp ha
    exact Int.le_of_lt (accepts.free rbp cell).1
  | unlink =>
    obtain ⟨n, -, cell⟩ := popped h.rbp ha
    cases cell
  | call inside aligned =>
    have := below h.rsp ha
    omega
  | link | restore | drop => exact absurd ha register
  | reserve | lower | raise => exact absurd ha register
  | ret => exact absurd ha (by simp [Machine.written])
  | jmp | jcc | label => cases ha
  | mark | skip => exact h.elim

/-! ## Paths -/

/-- Code that keeps to the rules from a stance on, such that `known` is true of each stance and the
code from there on. -/
def Disciplined (frame : Frame) (stages : Nat → Prop) (known : Stance → List Instr → Prop) :
    Stance → List Instr → Prop
  | s, [] => known s []
  | s, i :: rest => known s (i :: rest) ∧
      ∃ s', Stance.Step frame stages s i s' ∧ Disciplined frame stages known s' rest

variable {f : Function} {known : Stance → List Instr → Prop} {done : List (Instr × Machine)}
  {code rest : List Instr}

theorem Disciplined.here (h : Disciplined frame stages known s code) : known s code := by
  cases code with
  | nil => exact h
  | cons i rest => exact h.1

/-- Code that keeps to the rules does so from each of its labels on, where the frame is there. -/
theorem Disciplined.at_label {front : List Instr} {name : String}
    (labels : ∀ name rest, known frame.standing (.label name :: rest))
    (h : Disciplined frame stages known s (front ++ .label name :: rest)) :
    Disciplined frame stages known frame.standing (.label name :: rest) := by
  induction front generalizing s with
  | nil =>
    obtain ⟨-, s', step, more⟩ := h
    cases step with
    | label | mark => exact ⟨labels _ _, _, .label, more⟩
    | compute computed => cases computed
    | skip unmarked => exact absurd rfl (unmarked name)
  | cons i front ih =>
    obtain ⟨-, s', -, more⟩ := h
    exact ih more

theorem split_of_codeFrom? {name : String} (found : f.codeFrom? name = some code) :
    ∃ front rest, f.instrs = front ++ .label name :: rest ∧ code = .label name :: rest := by
  have split := List.takeWhile_append_dropWhile (p := fun i => i != .label name) (l := f.instrs)
  rw [Function.codeFrom?] at found
  cases dropped : f.instrs.dropWhile fun i => i != .label name with
  | nil =>
    rw [dropped] at found
    cases found
  | cons i rest =>
    rw [dropped] at found
    obtain rfl := Option.some.inj found
    have stop := List.head?_dropWhile_not (fun i => i != .label name) f.instrs
    rw [dropped] at stop
    obtain rfl : i = .label name := by simpa using stop
    exact ⟨_, rest, (dropped ▸ split).symm, rfl⟩

/-- On every path through a function that keeps to the rules, the function stands as the rules say,
and goes on keeping to them. -/
theorem Path.holds (small : f.frame.bytes < 2147483648)
    (labels : ∀ name rest, known f.frame.standing (.label name :: rest))
    (rules : Disciplined f.frame stages known .entered f.instrs)
    (entry : m₀.registers .rsp = .stack (base + 8))
    (path : Path f m₀ done code m) :
    ∃ s, s.Holds f.frame m₀ base m ∧ Disciplined f.frame stages known s code := by
  have jump : ∀ {m : Machine} {name code}, f.codeFrom? name = some code →
      f.frame.standing.Holds f.frame m₀ base m →
      ∃ s, s.Holds f.frame m₀ base m ∧ Disciplined f.frame stages known s code := by
    intro m name code found stands
    obtain ⟨front, rest, split, rfl⟩ := split_of_codeFrom? found
    rw [split] at rules
    exact ⟨_, stands, rules.at_label labels⟩
  induction path with
  | start => exact ⟨.entered, ⟨entry, fun _ _ => rfl⟩, rules⟩
  | goes before does ih =>
    obtain ⟨s, holds, -, s', step, more⟩ := ih
    exact ⟨s', step.holds small holds does, more⟩
  | jumps before found ih =>
    obtain ⟨s, holds, -, s', step, -⟩ := ih
    cases step with
    | jmp => exact jump found holds
    | compute computed => cases computed
    | skip => exact holds.elim
  | branches before found ih =>
    obtain ⟨s, holds, -, s', step, -⟩ := ih
    cases step with
    | jcc => exact jump found holds
    | compute computed => cases computed
    | skip => exact holds.elim
  | stays before ih =>
    obtain ⟨s, holds, -, s', step, more⟩ := ih
    cases step with
    | jcc => exact ⟨_, holds, more⟩
    | compute computed => cases computed
    | skip => exact holds.elim
  | calls before back ih =>
    obtain ⟨s, holds, -, s', step, more⟩ := ih
    cases step with
    | @call room saved => exact ⟨.framed room saved, Framed.of_comesBack holds back, more⟩
    | compute computed => cases computed
    | skip => exact holds.elim

end Target

end ThreeAddress
