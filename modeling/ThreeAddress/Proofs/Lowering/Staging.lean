import ThreeAddress.Proofs.Lowering.Stance
/-!
# Arguments that are laid ready

A function lays the arguments of its calls ready in slots of its frame. What was stored there as an
argument stays until the next argument of the same number is stored, whatever else is executed in
between, and functions that are called in between keep the frame.

* `Frame.lastStored?` : what was last stored as an argument on a path;
* `Frame.Staged` : it is in its slot;
* `Stance.Step.stages_of_mov`, `Stance.Step.mov_of_written` : the slots of arguments are written
  where arguments are laid ready, and nowhere else;
* `Stance.Step.staged`, `Path.staged` : one instruction, and all paths.
-/

namespace ThreeAddress

namespace Target

namespace Frame

variable {frame : Frame} {base : Int} {k k' : Nat} {done : List (Instr × Machine)} {m m' : Machine}
  {e : Instr × Machine} {v : Value}

/-- The value that an instruction stores as an argument of this number. -/
def stored? (frame : Frame) (k : Nat) : Instr × Machine → Option Value
  | (.mov dst src, m) => if dst = frame.argument k then m.get src else none
  | _ => none

/-- The value that was last stored as an argument of this number. -/
def lastStored? (frame : Frame) (k : Nat) (done : List (Instr × Machine)) : Option Value :=
  (done.filterMap (frame.stored? k)).getLast?

theorem lastStored?_concat :
    frame.lastStored? k (done ++ [e]) = (frame.stored? k e).or (frame.lastStored? k done) := by
  rw [lastStored?, List.filterMap_append]
  cases stored : frame.stored? k e with
  | none => simp [stored, lastStored?]
  | some v => simp [stored]

theorem stored?_mov {src : Operand} :
    frame.stored? k (.mov (frame.argument k) src, m) = m.get src := if_pos rfl

theorem argument_eq (reaches : frame.Reaches k) (reaches' : frame.Reaches k') :
    frame.argument k = frame.argument k' ↔ frame.argumentSlot k = frame.argumentSlot k' :=
  slot_inj reaches reaches'

/-- What was last stored as an argument is in its slot, which is within the frame if it is within
reach at all. -/
def Staged (frame : Frame) (base : Int) (done : List (Instr × Machine)) (m : Machine) : Prop :=
  ∀ k v, frame.Reaches k → frame.lastStored? k done = some v →
    frame.argumentSlot k < frame.count ∧ m.stack (address base (frame.argumentSlot k)) = v

/-- Nothing is stored, and the slots of arguments are kept. -/
theorem Staged.pass (h : frame.Staged base done m) (none : ∀ k, frame.stored? k e = none)
    (kept : ∀ k, frame.argumentSlot k < frame.count →
      m'.stack (address base (frame.argumentSlot k)) =
        m.stack (address base (frame.argumentSlot k))) :
    frame.Staged base (done ++ [e]) m' := by
  intro k v reaches last
  rw [lastStored?_concat, none, Option.none_or] at last
  obtain ⟨inside, value⟩ := h k v reaches last
  exact ⟨inside, (kept k inside).trans value⟩

/-- An operand that may be written is a slot, if its cell is that of the slot. -/
theorem Accepts.eq_slot {saved : List Register} {o : Operand} {n : Nat}
    (reaches : 8 * (n + 1) ≤ 2147483648) (h : frame.Accepts saved o)
    (rbp : m.registers .rbp = .stack base) (cell : m.cell? o = some (.stack (address base n))) :
    o = slot n := by
  cases o with
  | register r => cases cell
  | immediate w => cases cell
  | memory a =>
    obtain ⟨origin, offset⟩ := a
    cases origin with
    | symbol name =>
      simp only [Machine.cell?] at cell
      split at cell <;> cases cell
    | register r =>
      obtain ⟨rfl, -, -⟩ := h
      simp only [Machine.cell?, rbp] at cell
      split at cell
      · simp only [address, Option.some.injEq, Cell.stack.injEq] at cell
        simp only [slot_eq reaches, Operand.memory.injEq, Address.mk.injEq, true_and]
        omega
      · cases cell

end Frame

variable {frame : Frame} {stages : Nat → Prop} {base : Int} {s s' : Stance} {i : Instr}
  {m₀ m m' : Machine} {k : Nat} {done : List (Instr × Machine)}

namespace Stance.Step

/-- Only arguments that may be laid ready are, while the frame is there. -/
theorem stages_of_mov {src : Operand} (small : frame.bytes < 2147483648) (reaches : frame.Reaches k)
    (step : Stance.Step frame stages s (.mov (frame.argument k) src) s')
    (h : s.Holds frame m₀ base m) : m.registers .rbp = .stack base ∧
      ∃ k', stages k' ∧ frame.argumentSlot k' = frame.argumentSlot k := by
  generalize same : frame.argument k = dst at step
  cases step with
  | link | restore | drop => cases same
  | save _ _ slot =>
    have bounds := Frame.saveSlot?_bounds slot
    have saved := Frame.reaches_of_lt small (Frame.saveSlot?_lt slot)
    have := (Frame.slot_inj (m := frame.argumentSlot k) reaches saved).1 same
    simp only [Frame.argumentSlot] at this
    omega
  | mov _ other => exact absurd same.symm (other k reaches)
  | stage allowed reaches' =>
    exact ⟨h.rbp, _, allowed, (Frame.argument_eq reaches' reaches).1 same.symm⟩
  | compute computed => cases computed
  | skip => exact h.elim

/-- What writes the slot of an argument lays the argument ready. -/
theorem mov_of_written (small : frame.bytes < 2147483648) (step : Stance.Step frame stages s i s')
    (h : s.Holds frame m₀ base m) (inside : frame.argumentSlot k < frame.count)
    (written : .stack (Frame.address base (frame.argumentSlot k)) ∈ m.written i) :
    ∃ src, i = .mov (frame.argument k) src := by
  have low : base - frame.bytes ≤ Frame.address base (frame.argumentSlot k) :=
    Frame.bytes_le_address inside
  have high := Frame.address_lt base (frame.argumentSlot k)
  have reaches : frame.Reaches k := Frame.reaches_of_lt small inside
  have below : ∀ {b : Int}, m.registers .rsp = .stack b →
      .stack (Frame.address base (frame.argumentSlot k)) ∈ m.below?.toList →
      Frame.address base (frame.argumentSlot k) = b - 8 := by
    intro b rsp written
    simpa [Machine.below?, rsp] using written
  cases step with
  | enter =>
    have := below h.1 ((List.mem_cons.1 written).resolve_left (by simp))
    omega
  | save callee other slot =>
    have saved := Frame.reaches_of_lt small (Frame.saveSlot?_lt slot)
    have same := Cell.stack.inj (cell_of_slot saved h.rbp (Option.mem_toList.1 written))
    have bounds := Frame.saveSlot?_bounds slot
    have := Frame.address_inj.1 same
    simp only [Frame.argumentSlot] at this
    omega
  | mov accepts =>
    obtain rfl := accepts.eq_slot reaches h.rbp (Option.mem_toList.1 written)
    exact ⟨_, rfl⟩
  | @stage room saved k' _ _ reaches' =>
    have same : frame.argument k' = frame.argument k :=
      (Frame.accepts_argument reaches' saved).eq_slot reaches h.rbp (Option.mem_toList.1 written)
    rw [same]
    exact ⟨_, rfl⟩
  | compute computed =>
    obtain ⟨r, -, same⟩ := written_of_computed? computed written
    cases same
  | push within =>
    have := below h.rsp ((List.mem_cons.1 written).resolve_left (by simp))
    omega
  | pop within accepts other =>
    obtain ⟨⟨v, n⟩, popped, cell⟩ :=
      Option.bind_eq_some_iff.1
        (Option.mem_toList.1 ((List.mem_cons.1 written).resolve_left (by simp)))
    obtain ⟨b, -, -, rfl⟩ := Machine.pop_eq_some popped
    exact absurd (accepts.eq_slot reaches (by simpa using h.rbp) cell) (other k reaches)
  | unlink =>
    obtain ⟨⟨v, n⟩, popped, cell⟩ :=
      Option.bind_eq_some_iff.1
        (Option.mem_toList.1 ((List.mem_cons.1 written).resolve_left (by simp)))
    cases cell
  | call within =>
    have := below h.rsp written
    omega
  | link | restore | drop | reserve | lower | raise => simp [Machine.written] at written
  | ret => simp [Machine.written] at written
  | jmp | jcc | label => cases written
  | mark | skip => exact h.elim

/-- What was last stored as an argument is in its slot behind an allowed instruction. -/
theorem staged (small : frame.bytes < 2147483648)
    (inside : ∀ k, stages k → frame.argumentSlot k < frame.count)
    (step : Stance.Step frame stages s i s') (h : s.Holds frame m₀ base m) (does : m.Does i m')
    (before : frame.Staged base done m) : frame.Staged base (done ++ [(i, m)]) m' := by
  intro k v reaches last
  rw [Frame.lastStored?_concat] at last
  by_cases lays : ∃ src, i = .mov (frame.argument k) src
  · obtain ⟨src, rfl⟩ := lays
    obtain ⟨rbp, k', allowed, same⟩ := step.stages_of_mov small reaches h
    obtain ⟨w, c, read, cell, rfl⟩ := does.mov
    rw [Frame.stored?_mov, read] at last
    obtain rfl : w = v := Option.some.inj last
    have within := same ▸ inside k' allowed
    obtain rfl := cell_of_slot (n := frame.argumentSlot k) reaches rbp cell
    exact ⟨within, by simp⟩
  · have none : frame.stored? k (i, m) = none := by
      cases i with
      | mov dst src =>
        refine if_neg ?_
        rintro rfl
        exact lays ⟨src, rfl⟩
      | _ => rfl
    rw [none, Option.none_or] at last
    obtain ⟨within, value⟩ := before k v reaches last
    refine ⟨within, (does.changes.stack fun written => lays ?_).trans value⟩
    exact step.mov_of_written small h within written

end Stance.Step

variable {f : Function} {known : Stance → List Instr → Prop} {code : List Instr}

/-- On every path, what was last stored as an argument is in its slot. -/
theorem Path.staged (small : f.frame.bytes < 2147483648)
    (labels : ∀ name rest, known f.frame.standing (.label name :: rest))
    (rules : Disciplined f.frame stages known .entered f.instrs)
    (inside : ∀ k, stages k → f.frame.argumentSlot k < f.frame.count)
    (entry : m₀.registers .rsp = .stack (base + 8)) (path : Path f m₀ done code m) :
    f.frame.Staged base done m := by
  have holds : ∀ {done code m}, Path f m₀ done code m → _ :=
    fun path => path.holds small labels rules entry
  induction path with
  | start => exact fun k v _ last => by cases last
  | goes before does ih =>
    obtain ⟨s, here, -, s', step, -⟩ := holds before
    exact step.staged small inside here does ih
  | jumps before found ih | branches before found ih => exact ih.pass (fun _ => rfl) fun _ _ => rfl
  | stays before ih => exact ih.pass (fun _ => rfl) fun _ _ => rfl
  | calls before back ih =>
    obtain ⟨s, here, -, s', step, -⟩ := holds before
    refine ih.pass (fun _ => rfl) fun k within => ?_
    cases step with
    | call =>
      exact back.frame base _ here.rbp (Frame.bytes_le_address within)
        (Int.le_of_lt (Frame.address_lt base _))
    | compute computed => cases computed
    | skip => exact here.elim

end Target

end ThreeAddress
