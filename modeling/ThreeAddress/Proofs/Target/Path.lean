import ThreeAddress.Proofs.Target.Cells
import ThreeAddress.Proofs.Target.Frame
/-!
# Paths through a function

What a function may do, whatever its registers and the memory hold. A path follows the instructions
from the beginning of the function on. Both ways are open at a jump that depends on a condition, an
operation on values that are not words may give anything, and so may the function that is called, as
long as it comes back with the stack and the registers that belong to the caller.

* `Machine.Does` : the effect of an instruction, also on values that are not words;
* `ComesBack` : what is relied on about the functions that are called;
* `Path` : a path from the beginning of a function, with the instructions on it;
* `Path.of_step?` : what the machine does is on a path.
-/

namespace ThreeAddress

namespace Target

/-! ## Effects -/

/-- Does the instruction compute something? -/
def Instr.computes : Instr → Bool
  | alu _ _ _ | neg _ | not _ | cqo | idiv _ | shift _ _ _ | cmp _ _ => true
  | _ => false

/-- The effect of an instruction that goes on with the next one. -/
inductive Machine.Does (m : Machine) (i : Instr) (m' : Machine) : Prop
  | applies (h : m.apply i = some m')
  /-- A computation with values that are not words leaves anything where it writes. -/
  | garbles (computes : i.computes = true) (exist : i.badOperands? = none) (none : m.apply i = none)
      (changes : Changes m m' (· ∈ m.written i))

theorem wide?_of_alu {op : AluOp} {r : Register} {src : Operand}
    (exist : (Instr.alu op (.register r) src).badOperands? = none) : src.wide? = none := by
  rw [Instr.badOperands?] at exist
  split at exist
  · cases exist
  · have none : Operand.wide? (.register r) = none := rfl
    simpa [Instr.takesWide, Instr.operands, none] using exist

theorem fits_of_wide? {w : Word} (narrow : (Operand.immediate w).wide? = none) :
    Operand.fits w = true := by
  rw [Operand.wide?] at narrow
  split at narrow
  · next fits => exact fits
  · cases narrow

namespace Machine.Does

variable {m m' : Machine} {i : Instr} {dst src : Operand} {r : Register}

theorem changes (h : m.Does i m') : Changes m m' (· ∈ m.written i) := by
  cases h with
  | applies h => exact changes_of_apply h
  | garbles _ _ _ changes => exact changes

/-- An instruction that computes nothing has its effect, and it exists. -/
theorem effect (h : m.Does i m') (other : i.computes = false) :
    i.badOperands? = none ∧ m.effect i = some m' := by
  cases h with
  | applies h => exact effect_of_apply h
  | garbles computes => cases other.symm.trans computes

theorem mov (h : m.Does (.mov dst src) m') :
    ∃ v c, m.get src = some v ∧ m.cell? dst = some c ∧ m' = m.put c v := by
  obtain ⟨v, read, set⟩ := Option.bind_eq_some_iff.1 (h.effect rfl).2
  obtain ⟨c, cell, rfl⟩ := set_eq_some set
  exact ⟨v, c, read, cell, rfl⟩

theorem push (h : m.Does (.push src) m') : ∃ v a, m.get src = some v ∧
    m.registers .rsp = .stack a ∧
    m' = (m.put (.stack (a - 8)) v).put (.register .rsp) (.stack (a - 8)) := by
  obtain ⟨v, read, pushed⟩ := Option.bind_eq_some_iff.1 (h.effect rfl).2
  obtain ⟨a, rsp, rfl⟩ := push_eq_some pushed
  exact ⟨v, a, read, rsp, rfl⟩

theorem pop (h : m.Does (.pop dst) m') : ∃ a c, m.registers .rsp = .stack a ∧
    (m.put (.register .rsp) (.stack (a + 8))).cell? dst = some c ∧
    m' = (m.put (.register .rsp) (.stack (a + 8))).put c (m.stack a) := by
  obtain ⟨⟨v, n⟩, popped, set⟩ := Option.bind_eq_some_iff.1 (h.effect rfl).2
  obtain ⟨a, rsp, rfl, rfl⟩ := pop_eq_some popped
  obtain ⟨c, cell, rfl⟩ := set_eq_some set
  exact ⟨a, c, rsp, cell, rfl⟩

/-- A word is added to a place on the stack or taken from it, if it has no more than 32 bits. -/
theorem alu {op : AluOp} {w : Word} {a v : Value}
    (h : m.Does (.alu op (.register r) (.immediate w)) m') (read : m.registers r = a)
    (value : op.eval? a (.word w) = some v) :
    Operand.fits w = true ∧ m' = (m.put (.register r) v).unflagged := by
  have exist : (Instr.alu op (.register r) (.immediate w)).badOperands? = none := by
    cases h with
    | applies h => exact (effect_of_apply h).1
    | garbles _ exist => exact exist
  have narrow := wide?_of_alu exist
  have applied := apply_alu narrow read (get_immediate m w) value
  refine ⟨fits_of_wide? narrow, ?_⟩
  cases h with
  | applies h => exact Option.some.inj (h.symm.trans applied)
  | garbles _ _ none => cases none.symm.trans applied

end Machine.Does

/-- The called function keeps the stack pointer, the registers that it has to give back, and the
caller's frame, which has so many bytes below its base. -/
structure ComesBack (size : Nat) (m m' : Machine) : Prop where
  rsp : m'.registers .rsp = m.registers .rsp
  calleeSaved : ∀ r : Register, r.isCalleeSaved = true → m'.registers r = m.registers r
  frame : ∀ base a, m.registers .rbp = .stack base → base - size ≤ a → a ≤ base →
    m'.stack a = m.stack a

/-- A path from the beginning of a function, with the instructions that were executed on it and the
machine in front of each, to the code that is next and the machine there. -/
inductive Path (f : Function) (m₀ : Machine) :
    List (Instr × Machine) → List Instr → Machine → Prop
  | start : Path f m₀ [] f.instrs m₀
  | goes {done : List (Instr × Machine)} {i : Instr} {rest : List Instr} {m m' : Machine}
      (before : Path f m₀ done (i :: rest) m) (does : m.Does i m') :
      Path f m₀ (done ++ [(i, m)]) rest m'
  | jumps {done : List (Instr × Machine)} {target : String} {rest code : List Instr} {m : Machine}
      (before : Path f m₀ done (.jmp target :: rest) m) (found : f.codeFrom? target = some code) :
      Path f m₀ (done ++ [(.jmp target, m)]) code m
  | branches {done : List (Instr × Machine)} {condition : Condition} {target : String}
      {rest code : List Instr} {m : Machine}
      (before : Path f m₀ done (.jcc condition target :: rest) m)
      (found : f.codeFrom? target = some code) :
      Path f m₀ (done ++ [(.jcc condition target, m)]) code m
  | stays {done : List (Instr × Machine)} {condition : Condition} {target : String}
      {rest : List Instr} {m : Machine}
      (before : Path f m₀ done (.jcc condition target :: rest) m) :
      Path f m₀ (done ++ [(.jcc condition target, m)]) rest m
  | calls {done : List (Instr × Machine)} {target : String} {rest : List Instr} {m m' : Machine}
      (before : Path f m₀ done (.call target :: rest) m) (back : ComesBack f.frame.bytes m m') :
      Path f m₀ (done ++ [(.call target, m)]) rest m'

variable {f : Function} {m₀ m m' : Machine} {done : List (Instr × Machine)} {i : Instr}
  {code rest : List Instr}

/-- A step of the machine within the function goes along a path. -/
theorem Path.of_step? {functions : List Function} {litter : Litter} {place : Place}
    (before : Path f m₀ done (i :: rest) m) (inside : ∀ target, i ≠ .call target)
    (stays : i ≠ .ret)
    (step : Config.step? functions litter ⟨some ⟨f, i :: rest⟩, m⟩ = some ⟨some place, m'⟩) :
    Path f m₀ (done ++ [(i, m)]) place.code m' := by
  cases i with
  | jmp target =>
    obtain ⟨code, found, same⟩ := Option.map_eq_some_iff.1 step
    cases same
    exact .jumps before found
  | jcc condition target =>
    obtain ⟨flags, -, step⟩ := Option.bind_eq_some_iff.1 step
    split at step
    · obtain ⟨code, found, same⟩ := Option.map_eq_some_iff.1 step
      cases same
      exact .branches before found
    · cases step
      exact .stays before
  | call target => exact absurd rfl (inside target)
  | ret => exact absurd rfl stays
  | label name =>
    cases step
    exact .goes before (.applies rfl)
  | _ =>
    obtain ⟨next, applied, same⟩ := Option.map_eq_some_iff.1 step
    cases same
    exact .goes before (.applies applied)

/-- Straight code is a piece of a path. -/
theorem Path.of_applyAll (before : Path f m₀ done (code ++ rest) m)
    (h : m.applyAll code = some m') : ∃ done', Path f m₀ done' rest m' := by
  induction code generalizing done m with
  | nil =>
    cases h
    exact ⟨done, before⟩
  | cons i code ih =>
    obtain ⟨next, first, more⟩ := Option.bind_eq_some_iff.1 h
    exact ih (.goes before (.applies first)) more

/-- So are so many instructions of the code that is next. -/
theorem Path.split (before : Path f m₀ done code m) (n : Nat)
    (h : m.applyAll (code.take n) = some m') (behind : code.drop n = rest) :
    ∃ done', Path f m₀ done' rest m' := by
  rw [← List.take_append_drop n code, behind] at before
  exact Path.of_applyAll before h

end Target

end ThreeAddress
