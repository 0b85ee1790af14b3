import ThreeAddress.Proofs.Lowering.Code
import ThreeAddress.Proofs.Lowering.Values
/-!
# Calls between frames

A call finds its arguments in registers and above `rsp`, and what it may not overwrite is there
again when it returns.

* `Passes`, `Returns` : the state in front of a call and the state behind it;
* `Answers` : a call prints and returns what it has to;
* `answers_builtIn` : the printing routines do;
* `Layout.steps_callFunction` : arguments are passed, and the stack is left as it was;
* `Layout.Resumes`, `Layout.steps_saved` : a caller finds its values at home again.
-/

namespace ThreeAddress

open Execution Target

namespace Target

/-- Where an argument is when `rsp` points to `a`; arguments are counted from zero. -/
def argumentCell (a : Int) (k : Nat) : Cell :=
  match Register.arguments[k]? with
  | some r => .register r
  | none => .stack (a + 8 * ((k : Int) - 6))

theorem argumentCell_register {a : Int} {k : Nat} {r : Register} (h : Register.arguments[k]? = some r) :
    argumentCell a k = .register r := by
  simp only [argumentCell, h]

theorem argumentCell_stack {a : Int} {k : Nat} (h : 6 ≤ k) :
    argumentCell a k = .stack (a + 8 * ((k : Int) - 6)) := by
  have none : Register.arguments[k]? = none := List.getElem?_eq_none h
  simp only [argumentCell, none]

/-- The arguments of a call, and the data that it finds. The arguments on the stack can be reached
from there. -/
structure Passes (a : Int) (args : List Word) (globals : Store Global) (m : Machine) : Prop where
  aligned : a % 16 = 0
  few : 8 * args.length < 2147483648
  args : ∀ k w, args[k]? = some w → m.value? (argumentCell a k) = some (.word w)
  data : m.data = globalData globals

/-- The state in which a call that was made in the state `m` comes back. -/
structure Returns (a : Int) (out : List Printed) (w : Word) (globals : Store Global)
    (m m' : Machine) : Prop where
  result : m'.registers .rax = .word w
  rsp : m'.registers .rsp = .stack a
  kept : ∀ r, r.isCalleeSaved = true → m'.registers r = m.registers r
  stack : ∀ b, a ≤ b → m'.stack b = m.stack b
  data : m'.data = globalData globals
  printed : m'.printed = m.printed ++ out.toArray

/-- A call prints `out`, leaves the global variables like this and returns `w`, wherever it is
made. -/
def Answers (functions : List Function) (litter : Litter) (callee : Global) (args : List Word)
    (globals : Store Global) (out : List Printed) (w : Word) (globals' : Store Global) : Prop :=
  ∀ (f : Function) (rest : List Instr) (a : Int) (m : Machine), Passes a args globals m →
    m.registers .rsp = .stack a →
    ∃ m', Steps functions litter ⟨some ⟨f, .call callee.name :: rest⟩, m⟩ ⟨some ⟨f, rest⟩, m'⟩ ∧
      Returns a out w globals' m m'

variable {functions : List Function} {litter : Litter}

/-- The printing routines print a line and return zero. -/
theorem answers_builtIn {callee : Global} (builtIn : callee.isBuiltIn)
    (missing : functions.find? (fun f => f.name == callee.name) = none) (w : Word)
    (globals : Store Global) :
    Answers functions litter callee [w] globals [callee.line w] 0 globals := by
  intro f rest a m passes rsp
  have rdi : m.registers .rdi = .word w := Option.some.inj (passes.args 0 w rfl)
  have printed : m.print litter callee.name = some
      { registers := fun r =>
          if r = .rax then .word 0
          else if r.isCallerSaved then litter.registers m r
          else m.registers r
        flags := none
        stack := fun b => if b < a then litter.stack m b else m.stack b
        data := m.data
        printed := m.printed.push (callee.line w) } := by
    simp only [Machine.print, if_pos builtIn, rsp, rdi]
  refine ⟨_, .single (step?_print missing printed), rfl, rsp, fun r hr => ?_, fun b hb => ?_,
    passes.data, rfl⟩
  · cases r <;> first | rfl | cases hr
  · exact if_neg (Int.not_lt.2 hb)

end Target

/-! ## Moving the stack -/

section Adjust

variable {m : Machine} {n : Nat}

theorem toInt_ofNat_of_small (small : n < 2147483648) : (Int64.ofNat n).toInt = n :=
  Int64.toInt_ofNat_of_lt (by omega)

/-- A number of bytes below two to the thirty-first can be an immediate. -/
theorem wide?_ofNat (small : n < 2147483648) :
    (Target.Operand.immediate (.ofNat n)).wide? = none := by
  have value := toInt_ofNat_of_small small
  have fits : Target.Operand.fits (.ofNat n) = true := by
    simp only [Target.Operand.fits, Bool.and_eq_true, decide_eq_true_eq, Int64.le_iff_toInt_le, value]
    have least : (-2147483648 : Word).toInt = -2147483648 := rfl
    have greatest : (2147483647 : Word).toInt = 2147483647 := rfl
    rw [least, greatest]
    omega
  simp only [Target.Operand.wide?, fits, if_true]

/-- Move the stack by a number of bytes. -/
def adjustCode (op : AluOp) (n : Nat) : List Target.Instr :=
  if n = 0 then [] else [.alu op (.register .rsp) (.immediate (.ofNat n))]

/-- `rsp` is moved by a number of bytes. -/
theorem executes_adjustCode {a : Int} (rsp : m.registers .rsp = .stack a) (small : n < 2147483648)
    (op : AluOp) {b : Int} (moves : op = .sub ∧ b = a - n ∨ op = .add ∧ b = a + n) :
    m.Executes (adjustCode op n) fun m' =>
      m'.registers .rsp = .stack b ∧ Changes m m' (· = .register .rsp) := by
  rw [adjustCode]
  split
  · next none =>
    refine .nil ⟨rsp.trans (congrArg Value.stack ?_), .refl m _⟩
    omega
  · have value : op.eval? (.stack a) (.word (.ofNat n)) = some (.stack b) := by
      rcases moves with ⟨rfl, rfl⟩ | ⟨rfl, rfl⟩ <;>
        simp only [AluOp.eval?, toInt_ofNat_of_small small]
    refine .cons (Machine.apply_alu (wide?_ofNat small) rsp (Machine.get_immediate ..) value)
      (.nil ⟨?_, ?_⟩)
    · simp
    · exact (Changes.put m _ _).unflagged

end Adjust

namespace Layout

variable {layout : Layout} {base : Int} {m m' : Machine} {args : List Word} {globals : Store Global}

/-! ## Passing arguments -/

/-- Push arguments, the last one first, of which so many are in registers. -/
def pushCode (frame : Target.Frame) (inRegisters onStack : Nat) : List Target.Instr :=
  ((List.range onStack).reverse.map fun k => frame.argument (inRegisters + 1 + k)).map .push

/-- The arguments lie on the stack in order. -/
theorem executes_pushCode (sound : layout.Sound) (based : Based base m) {b : Int}
    (rsp : m.registers .rsp = .stack b) (aligned : b % 8 = 0) (le : b ≤ base - layout.frame.bytes)
    {n onStack : Nat} (few : n + onStack ≤ layout.frame.arguments) :
    m.Executes (pushCode layout.frame n onStack) fun m' =>
      m'.registers .rsp = .stack (b - 8 * onStack) ∧
      (∀ k < onStack, m'.stack (b - 8 * onStack + 8 * k) =
        m.stack (Frame.address base (layout.frame.argumentSlot (n + k + 1)))) ∧
      Changes m m' (Machine.Below b) := by
  let srcs := (List.range onStack).reverse.map fun k => layout.frame.argument (n + 1 + k)
  have length : srcs.length = onStack := by simp [srcs]
  have movable : ∀ k < onStack, m.Movable b (layout.frame.argument (n + 1 + k))
      (.stack (Frame.address base (layout.frame.argumentSlot (n + k + 1)))) := fun k hk => by
    have movable := based.movable_slot sound
      (Frame.argumentSlot_lt (f := layout.frame) (Nat.le_add_left 1 (n + k)) (by omega))
    have slot : layout.frame.argument (n + 1 + k) =
        Frame.slot (layout.frame.argumentSlot (n + k + 1)) := by
      rw [Nat.add_right_comm]
      rfl
    rw [slot]
    exact ⟨movable.cell, movable.there, movable.framed, movable.free.mono le⟩
  obtain ⟨m', pushed, top, values, -, changes⟩ := Machine.applyAll_pushes srcs rsp aligned
    fun o ho => by
      obtain ⟨k, hk, rfl⟩ := List.mem_map.1 ho
      exact ⟨_, movable k (by simpa using hk)⟩
  rw [length] at top
  refine ⟨m', pushed, top, fun k hk => ?_, changes⟩
  -- what is pushed last lies where `rsp` points to
  have there : srcs[onStack - 1 - k]? = some (layout.frame.argument (n + 1 + k)) := by
    rw [List.getElem?_map, List.getElem?_reverse (by simp; omega), List.length_range,
      List.getElem?_range (by omega), Option.map_some]
    congr 3
    omega
  have value := values _ _ there
  rw [(movable k hk).get, Machine.value?_stack] at value
  rw [← Option.some.inj value]
  congr 1
  omega

/-- Load so many arguments into registers. -/
def loadCode (frame : Target.Frame) (inRegisters : Nat) : List Target.Instr :=
  (Register.arguments.take inRegisters).mapIdx
    fun k r => .mov (.register r) (frame.argument (k + 1))

/-- The arguments are in their registers. -/
theorem executes_loadCode (sound : layout.Sound) (based : Based base m) {n : Nat}
    (few : n ≤ layout.frame.arguments) :
    m.Executes (loadCode layout.frame n) fun m' =>
      (∀ k < n, ∀ r, Register.arguments[k]? = some r →
        m'.registers r = m.stack (Frame.address base (layout.frame.argumentSlot (k + 1)))) ∧
      Changes m m' fun c => ∃ r ∈ Register.arguments, c = .register r := by
  let loads := (Register.arguments.take n).mapIdx fun k r => (r, layout.frame.argumentSlot (k + 1))
  have code : loadCode layout.frame n = loads.map fun e => .mov (.register e.1) (Frame.slot e.2) :=
    List.ext_getElem? fun k => by
      simp only [loadCode, loads, List.getElem?_map, List.getElem?_mapIdx, Option.map_map]
      rfl
  have mem : ∀ {r j}, (r, j) ∈ loads ↔ ∃ k, Register.arguments[k]? = some r ∧ k < n ∧
      layout.frame.argumentSlot (k + 1) = j := by
    intro r j
    rw [List.mem_iff_getElem?]
    refine exists_congr fun k => ?_
    rw [List.getElem?_mapIdx, List.getElem?_take]
    split
    · next lt => simp [lt, and_comm]
    · next ge => simp [ge]
  have nodup : Register.arguments.Nodup := by decide
  rw [code]
  refine (executes_loads sound based (fun e he rbp => ?_) (fun e he => ?_) fun e he e' he' same => ?_).imp
    fun m' _ ⟨loaded, changes⟩ => ⟨fun k hk r found => loaded (r, _) (mem.2 ⟨k, found, hk, rfl⟩),
      changes.mono ?_⟩
  · obtain ⟨k, found, -⟩ := mem.1 he
    exact absurd (rbp ▸ List.mem_of_getElem? found) (by decide)
  · obtain ⟨k, -, hk, same⟩ := mem.1 he
    rw [← same]
    exact Frame.argumentSlot_lt (by omega) (by omega)
  · obtain ⟨k, found, -, slot⟩ := mem.1 he
    obtain ⟨k', found', -, slot'⟩ := mem.1 he'
    have lt := (List.getElem?_eq_some_iff.1 found).1
    rw [← slot, ← slot', (List.getElem?_inj lt nodup).1 (found.trans (same ▸ found'.symm))]
  · rintro c ⟨e, he, rfl⟩
    obtain ⟨k, found, -⟩ := mem.1 he
    exact ⟨e.1, List.mem_of_getElem? found, rfl⟩

theorem callFunction_eq (frame : Target.Frame) (callee : String) (argc : Nat) :
    callFunction frame callee argc =
      adjustCode .sub (8 * ((argc - min argc 6) % 2)) ++
        (pushCode frame (min argc 6) (argc - min argc 6) ++ (loadCode frame (min argc 6) ++
          (.call callee ::
            adjustCode .add (8 * (argc - min argc 6 + (argc - min argc 6) % 2))))) := by
  have registers : Register.arguments.length = 6 := rfl
  have slots : ∀ (op : AluOp) (n : Nat), adjustCode op (8 * n) =
      if n = 0 then [] else [.alu op (.register .rsp) (.immediate (.ofNat (8 * n)))] := fun op n => by
    simp [adjustCode]
  simp only [callFunction, slots, pushCode, loadCode, registers, List.map_map, List.append_assoc,
    List.cons_append, List.nil_append]
  rfl

/-- What is changed while arguments are passed. -/
def PassCells (layout : Layout) (base : Int) (c : Cell) : Prop :=
  c = .register .rsp ∨ (∃ b < base - layout.frame.bytes, c = .stack b) ∨
    ∃ r ∈ Register.arguments, c = .register r

/-- What is laid ready for arguments is passed, whatever it is. -/
theorem executes_arguments (sound : layout.Sound) (stands : layout.Stands base m) {argc : Nat}
    (few : argc ≤ layout.frame.arguments) {n onStack : Nat} (hn : min argc 6 = n)
    (hs : argc - n = onStack) {a : Int}
    (ha : a = base - layout.frame.bytes - 8 * ((onStack + onStack % 2 : Nat) : Int)) :
    m.Executes (adjustCode .sub (8 * (onStack % 2)) ++ (pushCode layout.frame n onStack ++
        loadCode layout.frame n)) fun m' =>
      m'.registers .rsp = .stack a ∧ a % 16 = 0 ∧
        (∀ k < argc, m'.value? (argumentCell a k) =
          some (m.stack (Frame.address base (layout.frame.argumentSlot (k + 1))))) ∧
        Changes m m' (layout.PassCells base) := by
  have slots := layout.frame.count_le_bytes
  have small := sound.small
  have aligned := stands.rsp_aligned
  have total : argc ≤ layout.frame.count := by
    simp only [Frame.count]
    omega
  -- with the padding, `rsp` comes to a multiple of 16
  refine (executes_adjustCode stands.rsp (by omega) .sub (.inl ⟨rfl, rfl⟩)).append ?_
  rintro m₁ - ⟨rsp₁, changes₁⟩
  have based₁ := stands.toBased.of_changes changes₁ (by simp)
  refine (executes_pushCode sound based₁ rsp₁ (by omega) (by omega) (by omega)).append ?_
  rintro m₂ - ⟨rsp₂, pushed, changes₂⟩
  have based₂ := based₁.of_changes changes₂ Machine.Below.not_rbp
  refine (executes_loadCode sound based₂ (by omega)).imp ?_
  rintro m₃ - ⟨loaded, changes₃⟩
  have kept : ∀ k < argc, m₂.stack (Frame.address base (layout.frame.argumentSlot (k + 1))) =
      m.stack (Frame.address base (layout.frame.argumentSlot (k + 1))) := fun k hk => by
    have above : base - layout.frame.bytes ≤ Frame.address base (layout.frame.argumentSlot (k + 1)) :=
      Frame.bytes_le_address (Frame.argumentSlot_lt (Nat.le_add_left 1 k) (by omega))
    rw [changes₂.stack, changes₁.stack (by simp)]
    rintro (same | ⟨b, below, same⟩)
    · cases same
    · cases same
      omega
  have rsp : m₃.registers .rsp = .stack a := by
    rw [changes₃.register (by decide), rsp₂, ha]
    congr 1
    omega
  refine ⟨rsp, by omega, fun k hk => ?_, ((changes₁.mono ?_).trans (changes₂.mono ?_)).trans
    (changes₃.mono ?_)⟩
  · by_cases inRegister : k < 6
    · obtain ⟨r, found⟩ : ∃ r, Register.arguments[k]? = some r :=
        ⟨_, List.getElem?_eq_getElem inRegister⟩
      rw [argumentCell_register found, Machine.value?_register, loaded k (by omega) _ found,
        kept k hk]
    · have index : n + (k - 6) + 1 = k + 1 := by omega
      have value := pushed (k - 6) (by omega)
      rw [changes₁.stack (by simp), index] at value
      rw [argumentCell_stack (by omega), Machine.value?_stack, changes₃.stack (by simp), ← value]
      congr 2
      omega
  · rintro c rfl
    exact .inl rfl
  · rintro c (rfl | ⟨b, below, rfl⟩)
    · exact .inl rfl
    · exact .inr (.inl ⟨b, by omega, rfl⟩)
  · exact fun c hc => .inr (.inr hc)

/-- Arguments that are laid ready are passed. -/
theorem executes_passing (sound : layout.Sound) (stands : layout.Stands base m)
    (few : args.length ≤ layout.frame.arguments)
    (laid : ∀ k w, args[k]? = some w →
      m.stack (Frame.address base (layout.frame.argumentSlot (k + 1))) = .word w)
    (data : m.data = globalData globals) {n onStack : Nat} (hn : min args.length 6 = n)
    (hs : args.length - n = onStack) {a : Int}
    (ha : a = base - layout.frame.bytes - 8 * ((onStack + onStack % 2 : Nat) : Int)) :
    m.Executes (adjustCode .sub (8 * (onStack % 2)) ++ (pushCode layout.frame n onStack ++
        loadCode layout.frame n)) fun m' =>
      Passes a args globals m' ∧ m'.registers .rsp = .stack a ∧
        Changes m m' (layout.PassCells base) := by
  have slots := layout.frame.count_le_bytes
  have small := sound.small
  refine (executes_arguments sound stands few hn hs ha).imp fun m' _ ⟨rsp, aligned, passed, changes⟩ => ?_
  refine ⟨⟨aligned, ?_, fun k w hk => ?_, ?_⟩, rsp, changes⟩
  · simp only [Frame.count] at slots
    omega
  · exact (passed k (List.getElem?_eq_some_iff.1 hk).1).trans (congrArg some (laid k w hk))
  · exact (funext fun name => changes.data (by simp [PassCells])).trans data

variable {functions : List Function} {litter : Litter} {callee : Global} {out : List Printed}
  {w : Word} {globals' : Store Global} {f : Function} {rest : List Target.Instr}

/-- A call with arguments that are laid ready leaves the stack where it was. -/
theorem steps_callFunction (sound : layout.Sound) (stands : layout.Stands base m)
    (few : args.length ≤ layout.frame.arguments)
    (laid : ∀ k w, args[k]? = some w →
      m.stack (Frame.address base (layout.frame.argumentSlot (k + 1))) = .word w)
    (data : m.data = globalData globals)
    (answers : Answers functions litter callee args globals out w globals') :
    ∃ m', Steps functions litter
        ⟨some ⟨f, callFunction layout.frame callee.name args.length ++ rest⟩, m⟩ ⟨some ⟨f, rest⟩, m'⟩ ∧
      Returns (base - layout.frame.bytes) out w globals' m m' := by
  rw [callFunction_eq]
  generalize hn : min args.length 6 = n
  generalize hs : args.length - n = onStack
  obtain ⟨m₁, passing, passes, rsp, changes⟩ := executes_passing sound stands few laid data hn hs rfl
  obtain ⟨m₂, called, returns⟩ := answers f
    (adjustCode .add (8 * (onStack + onStack % 2)) ++ rest) _ m₁ passes rsp
  have slots := layout.frame.count_le_bytes
  have small := sound.small
  have total : args.length ≤ layout.frame.count := by
    simp only [Frame.count]
    omega
  obtain ⟨m₃, adjusted, rsp₃, changes₃⟩ := executes_adjustCode returns.rsp
    (n := 8 * (onStack + onStack % 2)) (by omega) .add (b := base - layout.frame.bytes) (.inr ⟨rfl, by omega⟩)
  refine ⟨m₃, ?_, ?_, rsp₃, fun r hr => ?_, fun b hb => ?_, ?_, ?_⟩
  · refine .trans ?_ (.trans called (steps_of_applyAll adjusted))
    simpa only [List.append_assoc, List.cons_append] using steps_of_applyAll passing
  · exact (changes₃.register (by simp)).trans returns.result
  · have other : ∀ s, s = .rsp ∨ s ∈ Register.arguments → r ≠ s := by
      rintro s hs rfl
      revert hr hs
      cases r <;> decide
    rw [changes₃.register (by simpa using other .rsp (.inl rfl)), returns.kept r hr, changes.register]
    rintro (same | ⟨b, -, same⟩ | ⟨s, hs, same⟩)
    · exact other .rsp (.inl rfl) (Cell.register.inj same)
    · cases same
    · exact other s (.inr hs) (Cell.register.inj same)
  · rw [changes₃.stack (by simp), returns.stack b (by omega), changes.stack]
    rintro (same | ⟨b', below, same⟩ | ⟨s, -, same⟩)
    · cases same
    · cases same
      omega
    · cases same
  · exact (funext fun name => changes₃.data (by simp)).trans returns.data
  · rw [changes₃.printed, returns.printed, changes.printed]

/-! ## Values across a call -/

/-- The registers that are kept across a call. -/
theorem mem_kept {after : SortedSet Temp} {result : Option Register} {r : Register} :
    r ∈ layout.kept after result ↔
      (∃ t ∈ after, layout.locations.get? t = some (.register r)) ∧ r.isCallerSaved = true ∧
        some r ≠ result := by
  have held : (∃ t ∈ after, layout.locations.get? t = some (.register r)) ↔
      ∃ t ∈ after.toList, (layout.locations.get? t).bind Location.register? = some r := by
    refine exists_congr fun t => and_congr SortedSet.mem_iff.symm ?_
    cases layout.locations.get? t with
    | none => simp
    | some l => cases l <;> simp [Location.register?]
  rw [kept, List.mem_filter, ← SortedSet.mem_iff, SortedSet.mem_ofList, List.mem_filterMap, held]
  simp

theorem not_saveCells_home {registers : List Register} {l : Location} (has : layout.Has l) :
    ¬ layout.SaveCells base registers (l.cell base) := by
  rintro ⟨r, -, n, found, same⟩
  cases l with
  | register s => cases same
  | slot k =>
    have lt : k < layout.frame.spills := has
    have le := (Frame.saveSlot?_bounds found).1
    have := Frame.address_inj.1 (Cell.stack.inj same)
    omega

theorem not_saveCells_argument {registers : List Register} (k : Nat) :
    ¬ layout.SaveCells base registers
      (.stack (Frame.address base (layout.frame.argumentSlot k))) := by
  rintro ⟨r, -, n, found, same⟩
  have lt := (Frame.saveSlot?_bounds found).2
  have := Frame.address_inj.1 (Cell.stack.inj same)
  simp only [Frame.argumentSlot] at this
  omega

/-- Registers that a call may overwrite are no others. -/
theorem not_calleeSaved_of_callerSaved {r : Register} (h : r.isCallerSaved = true) :
    r.isCalleeSaved = false ∧ r ≠ .rsp := by
  revert h
  cases r <;> decide

/-- Registers that were saved in front of a call are restored behind it, and all homes that the call
keeps are as they were. -/
theorem executes_kept (sound : layout.Sound) (stands : layout.Stands base m) {kept : List Register}
    (caller : ∀ r ∈ kept, r.isCallerSaved = true) (slots : ∀ r ∈ kept, layout.frame.saved? r ≠ none)
    {m₁ m₂ : Machine}
    (saved : ∀ r ∈ kept, ∀ n, layout.frame.saveSlot? r = some n →
      m₁.stack (Frame.address base n) = m.registers r)
    (changes : Changes m m₁ (layout.SaveCells base kept))
    (callee : ∀ r, r.isCalleeSaved = true → m₂.registers r = m₁.registers r)
    (frame : ∀ b, base - layout.frame.bytes ≤ b → b ≤ base → m₂.stack b = m₁.stack b) :
    m₂.Executes (layout.restore kept) fun m₃ =>
      (∀ l, layout.Has l → (∀ r, l = .register r → r.isCallerSaved = true → r ∈ kept) →
        m₃.value? (l.cell base) = m.value? (l.cell base)) ∧
      Changes m₂ m₃ fun c => ∃ r ∈ kept, c = .register r := by
  have based₂ : Based base m₂ :=
    ⟨stands.aligned, (callee .rbp rfl).trans ((changes.register (by simp [SaveCells])).trans stands.rbp)⟩
  refine (executes_restore sound based₂ kept fun h => by
    cases (not_calleeSaved_of_callerSaved (caller _ h)).1).imp fun m₃ _ ⟨restored, changes₃⟩ => ?_
  refine ⟨fun l has hl => ?_, changes₃⟩
  cases l with
  | slot n =>
    refine congrArg some ?_
    rw [changes₃.stack (by simp), frame _ (Frame.bytes_le_address (has_slot_lt has))
      (Int.le_of_lt (Frame.address_lt base n)), changes.stack (not_saveCells_home has)]
  | register r =>
    refine congrArg some ?_
    by_cases hr : r ∈ kept
    · obtain ⟨slot, saveSlot⟩ := Option.ne_none_iff_exists'.1 (slots r hr)
      rw [Frame.saved?_eq, Option.map_eq_some_iff] at saveSlot
      obtain ⟨n, found, -⟩ := saveSlot
      rw [restored r hr n found, frame _ (Frame.bytes_le_address (Frame.saveSlot?_lt found))
        (Int.le_of_lt (Frame.address_lt base n)), saved r hr n found]
    · have palette := has.1
      have notCaller : ¬ r.isCallerSaved = true := fun h => hr (hl r rfl h)
      have owned : r.isCalleeSaved = true := by
        revert palette notCaller
        cases r <;> decide
      rw [changes₃.register, callee r owned, changes.register (by simp [SaveCells])]
      rintro ⟨s, hs, same⟩
      exact hr (Cell.register.inj same ▸ hs)

/-- What is as it was behind a call, if some registers are kept. -/
structure Resumes (layout : Layout) (base : Int) (kept : List Register) (out : List Printed)
    (w : Word) (globals : Store Global) (m m' : Machine) : Prop where
  result : m'.registers .rax = .word w
  homes : ∀ l, layout.Has l → (∀ r, l = .register r → r.isCallerSaved = true → r ∈ kept) →
    m'.value? (l.cell base) = m.value? (l.cell base)
  arguments : ∀ k, 1 ≤ k → k ≤ layout.frame.arguments →
    m'.stack (Frame.address base (layout.frame.argumentSlot k)) =
      m.stack (Frame.address base (layout.frame.argumentSlot k))
  others : ∀ c, ¬ layout.Own base c → m'.value? c = m.value? c
  data : m'.data = globalData globals
  printed : m'.printed = m.printed ++ out.toArray

/-- Registers are saved in front of a call and restored behind it. -/
theorem steps_saved (sound : layout.Sound) (stands : layout.Stands base m) {kept : List Register}
    (caller : ∀ r ∈ kept, r.isCallerSaved = true) (scratch : .rax ∉ kept) {saving : List Target.Instr}
    (save : layout.save kept = .ok saving) {call : List Target.Instr}
    (calling : ∀ m₁, layout.Stands base m₁ → Changes m m₁ (layout.SaveCells base kept) →
      ∃ m₂, Steps functions litter ⟨some ⟨f, call ++ (layout.restore kept ++ rest)⟩, m₁⟩
          ⟨some ⟨f, layout.restore kept ++ rest⟩, m₂⟩ ∧
        Returns (base - layout.frame.bytes) out w globals' m₁ m₂) :
    ∃ m', Steps functions litter ⟨some ⟨f, saving ++ (call ++ (layout.restore kept ++ rest))⟩, m⟩
        ⟨some ⟨f, rest⟩, m'⟩ ∧
      layout.Resumes base kept out w globals' m m' := by
  obtain ⟨slots, rfl⟩ := save_eq_ok save
  obtain ⟨m₁, stored, saved, changes₁⟩ := executes_store sound stands kept
  have stands₁ := stands.of_changes changes₁ (by simp [SaveCells]) (by simp [SaveCells])
  obtain ⟨m₂, called, returns⟩ := calling m₁ stands₁ changes₁
  obtain ⟨m₃, loaded, homes, changes₃⟩ := executes_kept sound stands caller slots saved changes₁
    returns.kept fun b le _ => returns.stack b le
  have not_callee : ∀ r ∈ kept, r.isCalleeSaved = false ∧ r ≠ .rsp :=
    fun r hr => not_calleeSaved_of_callerSaved (caller r hr)
  have other : ∀ r, r ∉ kept → m₃.registers r = m₂.registers r := fun r hr => by
    refine changes₃.register ?_
    rintro ⟨s, hs, same⟩
    exact hr (Cell.register.inj same ▸ hs)
  have calleeSaved : ∀ r, r.isCalleeSaved = true → m₃.registers r = m.registers r := fun r callee => by
    have free : r ∉ kept := fun hr => by cases (not_callee r hr).1.symm.trans callee
    rw [other r free, returns.kept r callee, changes₁.register (by simp [SaveCells])]
  have stack : ∀ b, base - layout.frame.bytes ≤ b → ¬ layout.SaveCells base kept (.stack b) →
      m₃.stack b = m.stack b := fun b le hb => by
    rw [changes₃.stack (by simp), returns.stack b le, changes₁.stack hb]
  refine ⟨m₃, .trans (steps_of_applyAll stored) (.trans called (steps_of_applyAll loaded)),
    (other _ scratch).trans returns.result, homes, fun k first last => ?_, fun c hc => ?_,
    (funext fun name => changes₃.data (by simp)).trans returns.data, ?_⟩
  · exact stack _ (Frame.bytes_le_address (Frame.argumentSlot_lt first last)) (not_saveCells_argument k)
  · cases c with
    | datum name => exact absurd trivial hc
    | register r =>
      refine congrArg some ?_
      by_cases pointer : r = .rsp
      · subst pointer
        rw [other _ fun hr => (not_callee _ hr).2 rfl, returns.rsp, stands.rsp]
      · refine calleeSaved r ?_
        by_contra callee
        exact hc ⟨pointer, fun e => callee (e ▸ rfl), fun h => absurd h callee⟩
    | stack b =>
      refine congrArg some (stack b ?_ fun hb => hc ?_)
      · by_contra below
        exact hc (own_below (by omega))
      · obtain ⟨r, hr, n, found, same⟩ := hb
        rw [same]
        exact own_callerSaved_slot sound (caller r hr) found
  · rw [changes₃.printed, returns.printed, changes₁.printed]

end Layout

end ThreeAddress
