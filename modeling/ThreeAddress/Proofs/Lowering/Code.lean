import Mathlib.Data.List.Nodup
import ThreeAddress.Lowering.Function
import ThreeAddress.Proofs.Liveness.Solution
import ThreeAddress.Proofs.Lowering.Moves
import ThreeAddress.Proofs.Results
/-!
# Where the code is

The code of a block is found under the name of the block, and the code of a detour under the name of
the detour, since no name is defined twice in a function.

* `labelsOf` : the names that code defines;
* `Nameless`, `Layout.nameless_lower` : code that has to do with no names;
* `FlowGraph.labelsOf_lower`, `FlowGraph.nodup_labelsOf_lower` : the names of a function;
* `CodeAt` : code that is met within a block;
* `Lowers`, `FlowGraph.lowers_of_lower` : the code of every block of a function.
-/

namespace ThreeAddress

open Target

/-! ## Labels -/

namespace Target

/-- The name that an instruction defines. -/
@[simp] def Instr.label? : Instr → Option String
  | label name => some name
  | _ => none

/-- The names that code defines. -/
def labelsOf (code : List Instr) : List String := code.filterMap Instr.label?

@[simp] theorem labelsOf_nil : labelsOf [] = [] := rfl

@[simp] theorem labelsOf_append (code rest : List Instr) :
    labelsOf (code ++ rest) = labelsOf code ++ labelsOf rest := List.filterMap_append

@[simp] theorem labelsOf_cons (i : Instr) (rest : List Instr) :
    labelsOf (i :: rest) = i.label?.toList ++ labelsOf rest := by
  rw [labelsOf, List.filterMap_cons]
  cases i.label? <;> rfl

theorem labelsOf_eq_nil {code : List Instr} (h : ∀ i ∈ code, i.label? = none) :
    labelsOf code = [] := List.filterMap_eq_nil_iff.2 h

/-- Code is found under a name that is defined nowhere else. -/
theorem Function.codeFrom?_of_split {f : Function} {front rest : List Instr} {name : String}
    (nodup : (labelsOf f.instrs).Nodup) (split : f.instrs = front ++ .label name :: rest) :
    f.codeFrom? name = some (.label name :: rest) := by
  have fresh : ∀ i ∈ front, (i != .label name) = true := by
    intro i hi
    rw [bne_iff_ne]
    rintro rfl
    rw [split, labelsOf_append, List.nodup_append] at nodup
    exact nodup.2.2 name (List.mem_filterMap.2 ⟨_, hi, rfl⟩) name (by simp) rfl
  have drop : f.instrs.dropWhile (fun i => i != .label name) = .label name :: rest := by
    rw [split, List.dropWhile_append_of_pos fresh, List.dropWhile_cons_of_neg (by simp)]
  rw [codeFrom?, drop]

end Target

/-! ## Code without names -/

section Nameless

variable {i : Target.Instr} {code rest : List Target.Instr}

/-- Does the instruction neither define a name nor jump to one? -/
@[simp] def Target.Instr.nameless : Target.Instr → Bool
  | label _ | jmp _ | jcc _ _ => false
  | _ => true

/-- The code neither defines names nor jumps to any. -/
def Nameless (code : List Target.Instr) : Prop := ∀ i ∈ code, i.nameless = true

@[simp] theorem nameless_nil : Nameless [] := List.forall_mem_nil _

@[simp] theorem nameless_cons : Nameless (i :: rest) ↔ i.nameless = true ∧ Nameless rest :=
  List.forall_mem_cons

@[simp] theorem nameless_append : Nameless (code ++ rest) ↔ Nameless code ∧ Nameless rest :=
  List.forall_mem_append

theorem Nameless.labelsOf_eq_nil (h : Nameless code) : labelsOf code = [] :=
  Target.labelsOf_eq_nil fun i hi => by
    have nameless := h i hi
    cases i <;> first | rfl | cases nameless

theorem nameless_map {α : Type} (l : List α) {make : α → Target.Instr}
    (h : ∀ a, (make a).nameless = true) : Nameless (l.map make) := by
  intro i hi
  obtain ⟨a, -, rfl⟩ := List.mem_map.1 hi
  exact h a

@[simp] theorem nameless_move (dst src : Target.Operand) : Nameless (move dst src) := by
  rw [move]
  split
  · simp
  · split <;> simp

@[simp] theorem nameless_moveAll (moves : List Move) : Nameless (moveAll moves) := by
  match moves with
  | [] => exact nameless_nil
  | [m] => exact nameless_move m.dst m.src
  | m :: m' :: rest =>
    rw [moveAll_cons_cons, nameless_append]
    exact ⟨nameless_map _ fun _ => rfl, nameless_map _ fun _ => rfl⟩

@[simp] theorem labelsOf_moveAll (moves : List Move) : labelsOf (moveAll moves) = [] :=
  (nameless_moveAll moves).labelsOf_eq_nil

@[simp] theorem nameless_divide (lhs rhs : Target.Operand) : Nameless (divide lhs rhs) := by
  simp [divide, divisorMask, replaceDivisor]

@[simp] theorem nameless_applyBinary (op : BinaryOp) (lhs rhs : Target.Operand) :
    Nameless (applyBinary op lhs rhs).1 := by
  cases op <;> simp [applyBinary, applyAlu, applyShift, negateQuotient]

@[simp] theorem nameless_applyUnary (op : UnaryOp) (arg : Target.Operand) :
    Nameless (applyUnary op arg) := by
  cases op <;> simp [applyUnary]

@[simp] theorem nameless_callFunction (frame : Frame) (callee : String) (argc : Nat) :
    Nameless (callFunction frame callee argc) := by
  have adjust : ∀ (op : AluOp) (slots : Nat), Nameless (if slots = 0 then [] else
      [.alu op (.register .rsp) (.immediate (.ofNat (8 * slots)))]) := fun op slots => by
    split <;> simp
  have loads : ∀ registers : List Register, Nameless (registers.mapIdx fun k r =>
      .mov (.register r) (frame.argument (k + 1))) := fun registers i hi => by
    obtain ⟨k, _, rfl⟩ := List.mem_mapIdx.1 hi
    rfl
  simp only [callFunction, nameless_append]
  exact ⟨⟨⟨⟨adjust _ _, nameless_map _ fun _ => rfl⟩, loads _⟩, by simp⟩, adjust _ _⟩

@[simp] theorem Layout.nameless_store (layout : Layout) (registers : List Register) :
    Nameless (layout.store registers) := by
  intro i hi
  obtain ⟨r, -, hr⟩ := List.mem_filterMap.1 hi
  obtain ⟨slot, -, rfl⟩ := Option.map_eq_some_iff.1 hr
  rfl

@[simp] theorem Layout.nameless_restore (layout : Layout) (registers : List Register) :
    Nameless (layout.restore registers) := by
  intro i hi
  obtain ⟨r, -, hr⟩ := List.mem_filterMap.1 hi
  obtain ⟨slot, -, rfl⟩ := Option.map_eq_some_iff.1 hr
  rfl

@[simp] theorem Layout.nameless_leave (layout : Layout) : Nameless layout.leave := by
  simp [leave]

@[simp] theorem Layout.nameless_leaveZero (layout : Layout) : Nameless layout.leaveZero := by
  simp [leaveZero, zeroResult]

end Nameless

namespace Layout

variable {layout : Layout} {after : SortedSet Temp} {code : List Target.Instr}

/-! ## The code of instructions -/

theorem writeBack_eq_ok {dest : Var} {r : Register} (h : layout.writeBack dest r = .ok code) :
    ∃ dst, layout.destination dest = .ok dst ∧
      code = (dst.map fun dst => move dst (.register r)).getD [] := by
  obtain ⟨dst, found, h⟩ := bind_eq_ok_iff.1 h
  cases dst <;> cases h <;> exact ⟨_, found, rfl⟩

theorem lower_binary {op : BinaryOp} {dest lhs rhs : Var}
    (h : layout.lower after (.binary op dest lhs rhs) = .ok code) :
    ∃ l r back, layout.source lhs = .ok l ∧ layout.source rhs = .ok r ∧
      layout.writeBack dest (applyBinary op l r).2 = .ok back ∧
      code = (applyBinary op l r).1 ++ back := by
  obtain ⟨l, hl, h⟩ := bind_eq_ok_iff.1 h
  obtain ⟨r, hr, h⟩ := bind_eq_ok_iff.1 h
  generalize applied : applyBinary op l r = made at h
  obtain ⟨front, result⟩ := made
  obtain ⟨back, written, h⟩ := bind_eq_ok_iff.1 h
  refine ⟨l, r, back, hl, hr, ?_, ?_⟩
  · rw [applied]
    exact written
  · rw [applied]
    exact (Except.ok.inj h).symm

theorem lower_unary {op : UnaryOp} {dest arg : Var}
    (h : layout.lower after (.unary op dest arg) = .ok code) :
    ∃ src back, layout.source arg = .ok src ∧ layout.writeBack dest .rax = .ok back ∧
      code = applyUnary op src ++ back := by
  obtain ⟨src, source, h⟩ := bind_eq_ok_iff.1 h
  obtain ⟨back, written, h⟩ := bind_eq_ok_iff.1 h
  exact ⟨src, back, source, written, (Except.ok.inj h).symm⟩

theorem lower_const {dest : Var} {value : Word}
    (h : layout.lower after (.const dest value) = .ok code) :
    ∃ dst, layout.destination dest = .ok dst ∧
      code = (dst.map fun dst => move dst (.immediate value)).getD [] := by
  obtain ⟨dst, found, h⟩ := bind_eq_ok_iff.1 h
  cases dst <;> cases h <;> exact ⟨_, found, rfl⟩

theorem lower_copy {dest src : Var} (h : layout.lower after (.copy dest src) = .ok code) :
    layout.destination dest = .ok none ∧ code = [] ∨
      ∃ dst o, layout.destination dest = .ok (some dst) ∧ layout.source src = .ok o ∧
        code = move dst o := by
  obtain ⟨dst, found, h⟩ := bind_eq_ok_iff.1 h
  cases dst with
  | none =>
    cases h
    exact .inl ⟨found, rfl⟩
  | some dst =>
    obtain ⟨o, source, h⟩ := bind_eq_ok_iff.1 h
    exact .inr ⟨dst, o, found, source, (Except.ok.inj h).symm⟩

theorem lower_param {index : Nat} {arg : Var}
    (h : layout.lower after (.param index arg) = .ok code) :
    ∃ src, layout.source arg = .ok src ∧ code = move (layout.frame.argument index) src := by
  obtain ⟨src, source, h⟩ := bind_eq_ok_iff.1 h
  exact ⟨src, source, (Except.ok.inj h).symm⟩

theorem lower_call {dest : Var} {callee : Global} {argc : Nat}
    (h : layout.lower after (.call dest callee argc) = .ok code) :
    ∃ dst kept saving, layout.destination dest = .ok dst ∧
      kept = layout.kept after (dst.bind Target.Operand.register?) ∧
      layout.save kept = .ok saving ∧
      code = saving ++ callFunction layout.frame callee.name argc ++ layout.restore kept ++
        (dst.map fun dst => move dst (.register .rax)).getD [] := by
  obtain ⟨dst, found, h⟩ := bind_eq_ok_iff.1 h
  obtain ⟨saving, saved, h⟩ := bind_eq_ok_iff.1 h
  refine ⟨dst, _, saving, found, rfl, saved, ?_⟩
  cases dst <;> cases h <;> rfl

theorem lower_print {arg : Var} (h : layout.lower after (.print arg) = .ok code) :
    ∃ saving src, layout.save (layout.kept after none) = .ok saving ∧
      layout.source arg = .ok src ∧
      code = saving ++ move (.register .rdi) src ++ [.call Global.printWord.name] ++
        layout.restore (layout.kept after none) := by
  obtain ⟨saving, saved, h⟩ := bind_eq_ok_iff.1 h
  obtain ⟨src, source, h⟩ := bind_eq_ok_iff.1 h
  exact ⟨saving, src, saved, source, (Except.ok.inj h).symm⟩

theorem lower_ret {arg : Var} (h : layout.lower after (.ret arg) = .ok code) :
    ∃ src, layout.source arg = .ok src ∧
      code = (if src = .immediate 0 then [zeroResult] else move (.register .rax) src) ++
        layout.leave := by
  obtain ⟨src, source, h⟩ := bind_eq_ok_iff.1 h
  exact ⟨src, source, (Except.ok.inj h).symm⟩

theorem save_eq_ok {registers : List Register} (h : layout.save registers = .ok code) :
    (∀ r ∈ registers, layout.frame.saved? r ≠ none) ∧ code = layout.store registers := by
  rw [save] at h
  split at h
  · cases h
  · next all =>
    refine ⟨fun r hr none => ?_, (Except.ok.inj h).symm⟩
    have := List.find?_eq_none.1 all r hr
    simp [none] at this

/-! ## Instructions that stay within their block -/

theorem nameless_writeBack {dest : Var} {r : Register} (h : layout.writeBack dest r = .ok code) :
    Nameless code := by
  obtain ⟨dst, -, rfl⟩ := writeBack_eq_ok h
  cases dst <;> simp

/-- Only jumps and branches have code with names. -/
theorem nameless_lower {i : Instr} (h : layout.lower after i = .ok code) : Nameless code := by
  cases i with
  | binary op dest lhs rhs =>
    obtain ⟨l, r, back, -, -, written, rfl⟩ := lower_binary h
    simp [nameless_writeBack written]
  | unary op dest arg =>
    obtain ⟨src, back, -, written, rfl⟩ := lower_unary h
    simp [nameless_writeBack written]
  | const dest value =>
    obtain ⟨dst, -, rfl⟩ := lower_const h
    cases dst <;> simp
  | copy dest src =>
    obtain ⟨-, rfl⟩ | ⟨dst, o, -, -, rfl⟩ := lower_copy h
    · simp
    · simp
  | param index arg =>
    obtain ⟨src, -, rfl⟩ := lower_param h
    simp
  | call dest callee argc =>
    obtain ⟨dst, kept, saving, -, -, saved, rfl⟩ := lower_call h
    obtain ⟨-, rfl⟩ := save_eq_ok saved
    cases dst <;> simp
  | print arg =>
    obtain ⟨saving, src, saved, -, rfl⟩ := lower_print h
    obtain ⟨-, rfl⟩ := save_eq_ok saved
    simp
  | ret arg =>
    obtain ⟨src, -, rfl⟩ := lower_ret h
    rw [nameless_append]
    refine ⟨?_, nameless_leave layout⟩
    split
    · simp [zeroResult]
    · simp
  | _ =>
    cases h
    exact nameless_nil

end Layout

/-! ## Names -/

section Names

variable {layout : Layout} {l l' : Label} {m n : Nat}

theorem decimalText_inj (h : decimalText m = decimalText n) : m = n := by
  rw [← decimalValue_decimalText m, h, decimalValue_decimalText]

/-- The name of a detour. -/
def Layout.detourName (layout : Layout) (n : Nat) : String :=
  ".L" ++ layout.proc.name ++ ".T" ++ decimalText n

theorem Layout.blockName_inj (h : layout.blockName l = layout.blockName l') : l = l' := by
  have text : l.text = l'.text := (String.append_right_inj _).1 h
  have suffix : l.suffix = l'.suffix := (String.append_right_inj _).1 text
  cases l
  cases l'
  exact congrArg Label.mk suffix

theorem Layout.detourName_inj (h : layout.detourName m = layout.detourName n) : m = n :=
  decimalText_inj ((String.append_right_inj _).1 h)

/-- No block has the name of a detour. -/
theorem Layout.blockName_ne_detourName : layout.blockName l ≠ layout.detourName n := by
  intro h
  have h := congrArg String.toList h
  simp [blockName, detourName, Label.text] at h

end Names

/-! ## Detours -/

namespace Code

variable {layout : Layout} {n : Nat}

@[simp] theorem instrs_append (c d : Code) : (c ++ d).instrs = c.instrs ++ d.instrs := rfl

@[simp] theorem detours_append (c d : Code) : (c ++ d).detours = c.detours ++ d.detours := rfl

@[simp] theorem instrs_straight (instrs : List Target.Instr) : (straight instrs).instrs = instrs := rfl

@[simp] theorem detours_straight (instrs : List Target.Instr) : (straight instrs).detours = [] := rfl

theorem append_assoc (c d e : Code) : c ++ d ++ e = c ++ (d ++ e) :=
  congrArg₂ Code.mk (List.append_assoc ..) (List.append_assoc ..)

/-- The code defines certain names, and its detours are numbered on from a number. -/
def Defines (c : Code) (layout : Layout) (n : Nat) (names : List String) : Prop :=
  labelsOf c.instrs = names ∧
    c.detours.map Detour.name = (List.range' n c.detours.length).map layout.detourName

theorem defines_straight {instrs : List Target.Instr} :
    (straight instrs).Defines layout n (labelsOf instrs) := ⟨rfl, rfl⟩

theorem Defines.append {c d : Code} {names more : List String} (h : c.Defines layout n names)
    (h' : d.Defines layout (n + c.detours.length) more) :
    (c ++ d).Defines layout n (names ++ more) := by
  refine ⟨by rw [instrs_append, labelsOf_append, h.1, h'.1], ?_⟩
  rw [detours_append, List.map_append, h.2, h'.2, List.length_append, ← List.map_append]
  congr 1
  exact List.range'_append_1

end Code

namespace FlowGraph

variable {g : FlowGraph} {live : Liveness} {layout : Layout} {b : Block} {l : Label} {code : Code}
  {n : Nat}

/-! ## Blocks -/

theorem lowerInstr_jump {after : SortedSet Temp} {target : Label}
    (h : g.lowerInstr layout l n after (.jump target) = .ok code) :
    ∃ moves, g.edgeMoves layout (.block l) target = .ok moves ∧
      code = .straight (moveAll moves ++ [.jmp (layout.blockName target)]) := by
  obtain ⟨moves, found, h⟩ := bind_eq_ok_iff.1 h
  exact ⟨moves, found, (Except.ok.inj h).symm⟩

/-- A branch compares a value with zero. -/
def compareCode (src : Target.Operand) : List Target.Instr :=
  (Layout.loadTested src).1 ++ [.cmp (Layout.loadTested src).2 (.immediate 0)]

theorem lowerInstr_branch {after : SortedSet Temp} {test : Test} {arg : Var} {target : Label}
    (h : g.lowerInstr layout l n after (.branch test arg target) = .ok code) :
    ∃ src moves, layout.source arg = .ok src ∧ g.edgeMoves layout (.block l) target = .ok moves ∧
      (moves = [] ∧ code = .straight
          (compareCode src ++ [.jcc (.ofTest test) (layout.blockName target)]) ∨
        code = ⟨compareCode src ++ [.jcc (.ofTest test) (layout.detourName n)],
          [⟨layout.detourName n, moves, layout.blockName target⟩]⟩) := by
  obtain ⟨src, source, h⟩ := bind_eq_ok_iff.1 h
  generalize tested : Layout.loadTested src = loaded at h
  obtain ⟨load, lhs⟩ := loaded
  obtain ⟨moves, found, h⟩ := bind_eq_ok_iff.1 h
  have compare : compareCode src = load ++ [.cmp lhs (.immediate 0)] := by rw [compareCode, tested]
  refine ⟨src, moves, source, found, ?_⟩
  rw [compare]
  split at h
  · next empty => exact .inl ⟨List.isEmpty_iff.1 empty, (Except.ok.inj h).symm⟩
  · exact .inr (Except.ok.inj h).symm

theorem lowerInstr_of_target? {after : SortedSet Temp} {i : Instr} (stays : i.target? = none)
    (h : g.lowerInstr layout l n after i = .ok code) :
    ∃ instrs, layout.lower after i = .ok instrs ∧ code = .straight instrs := by
  cases i with
  | jump | branch => cases stays
  | _ =>
    obtain ⟨instrs, found, h⟩ := bind_eq_ok_iff.1 h
    exact ⟨instrs, found, (Except.ok.inj h).symm⟩

theorem nameless_compareCode (src : Target.Operand) : Nameless (compareCode src) := by
  cases src <;> simp [compareCode, Layout.loadTested]

theorem labelsOf_compareCode (src : Target.Operand) : labelsOf (compareCode src) = [] :=
  (nameless_compareCode src).labelsOf_eq_nil

theorem defines_lowerInstr {after : SortedSet Temp} {i : Instr}
    (h : g.lowerInstr layout l n after i = .ok code) : code.Defines layout n [] := by
  cases i with
  | jump target =>
    obtain ⟨moves, -, rfl⟩ := lowerInstr_jump h
    exact ⟨by simp, rfl⟩
  | branch test arg target =>
    obtain ⟨src, moves, -, -, ⟨-, rfl⟩ | rfl⟩ := lowerInstr_branch h
    · exact ⟨by simp [labelsOf_compareCode], rfl⟩
    · exact ⟨by simp [labelsOf_compareCode], rfl⟩
  | _ =>
    obtain ⟨instrs, lowered, rfl⟩ := lowerInstr_of_target? rfl h
    exact ⟨(Layout.nameless_lower lowered).labelsOf_eq_nil, rfl⟩

theorem lowerBody_cons {i : Instr} {point : InstrLive} {rest : List (Instr × InstrLive)}
    (h : g.lowerBody layout l n ((i, point) :: rest) = .ok code) :
    ∃ first more, g.lowerInstr layout l n point.after i = .ok first ∧
      g.lowerBody layout l (n + first.detours.length) rest = .ok more ∧ code = first ++ more := by
  obtain ⟨first, found, h⟩ := bind_eq_ok_iff.1 h
  obtain ⟨more, found', h⟩ := bind_eq_ok_iff.1 h
  exact ⟨first, more, found, found', (Except.ok.inj h).symm⟩

/-- The code of a part of the instructions of a block. -/
theorem lowerBody_append {points later : List (Instr × InstrLive)}
    (h : g.lowerBody layout l n (points ++ later) = .ok code) :
    ∃ front back, g.lowerBody layout l n points = .ok front ∧
      g.lowerBody layout l (n + front.detours.length) later = .ok back ∧ code = front ++ back := by
  induction points generalizing n code with
  | nil => exact ⟨.straight [], code, rfl, h, rfl⟩
  | cons e points ih =>
    obtain ⟨first, more, found, found', rfl⟩ := lowerBody_cons h
    obtain ⟨front, back, lowered, lowered', rfl⟩ := ih found'
    refine ⟨first ++ front, back, ?_, ?_, (Code.append_assoc ..).symm⟩
    · exact bind_eq_ok_iff.2 ⟨first, found, bind_eq_ok_iff.2 ⟨front, lowered, rfl⟩⟩
    · rwa [Code.detours_append, List.length_append, ← Nat.add_assoc]

theorem defines_lowerBody {points : List (Instr × InstrLive)}
    (h : g.lowerBody layout l n points = .ok code) : code.Defines layout n [] := by
  induction points generalizing n code with
  | nil =>
    cases h
    exact ⟨rfl, rfl⟩
  | cons point rest ih =>
    obtain ⟨first, more, found, found', rfl⟩ := lowerBody_cons h
    exact (defines_lowerInstr found).append (ih found')

/-- Phis have no code of their own. -/
theorem lowerBody_phis {phis : List Instr} {point : InstrLive} {rest : List (Instr × InstrLive)}
    (all : ∀ i ∈ phis, i.isPhi = true) :
    g.lowerBody layout l n (phis.map (fun i => (i, point)) ++ rest) =
      g.lowerBody layout l n rest := by
  induction phis with
  | nil => rfl
  | cons i phis ih =>
    have phi := all i List.mem_cons_self
    cases i with
    | phi d args =>
      have skip : ∀ code : Code, Code.straight [] ++ code = code := fun _ => rfl
      rw [← ih fun i hi => all i (List.mem_cons_of_mem _ hi)]
      simp only [List.map_cons, List.cons_append]
      generalize phis.map (fun i => (i, point)) ++ rest = points
      rw [lowerBody]
      cases h : g.lowerBody layout l n points with
      | error e => simp [lowerInstr, Layout.lower, h, bind, Except.bind, pure, Except.pure, Code.straight]
      | ok code => simp [lowerInstr, Layout.lower, h, bind, Except.bind, pure, Except.pure, skip]
    | _ => cases phi

/-- Control that runs past the end of a block does not jump. -/
theorem nameless_lowerFallThrough {next : Option Label} {code : List Target.Instr}
    (h : g.lowerFallThrough layout l next = .ok code) : Nameless code := by
  cases next with
  | none =>
    cases h
    exact layout.nameless_leaveZero
  | some next =>
    obtain ⟨moves, -, h⟩ := bind_eq_ok_iff.1 h
    cases h
    exact nameless_moveAll moves

theorem lowerBlock_eq_ok {next : Option Label} (h : g.lowerBlock live layout n b next = .ok code) :
    ∃ body falling, g.lowerBody layout b.label n (b.body.zip (live.instrs b.label)) = .ok body ∧
      (b.fallsThrough = true → g.lowerFallThrough layout b.label next = .ok falling) ∧
      (b.fallsThrough = false → falling = []) ∧ labelsOf falling = [] ∧
      code = .straight [.label (layout.blockName b.label)] ++ body ++ .straight falling := by
  obtain ⟨body, found, h⟩ := bind_eq_ok_iff.1 h
  by_cases falls : b.fallsThrough = true
  · simp only [if_pos falls] at h
    obtain ⟨falling, found', h⟩ := bind_eq_ok_iff.1 h
    exact ⟨body, falling, found, fun _ => found', fun no => absurd falls (by simp [no]),
      (nameless_lowerFallThrough found').labelsOf_eq_nil, (Except.ok.inj h).symm⟩
  · simp only [if_neg falls] at h
    obtain ⟨falling, found', h⟩ := bind_eq_ok_iff.1 h
    cases found'
    exact ⟨body, [], found, fun h => absurd h falls, fun _ => rfl, rfl, (Except.ok.inj h).symm⟩

theorem defines_lowerBlock {next : Option Label} (h : g.lowerBlock live layout n b next = .ok code) :
    code.Defines layout n [layout.blockName b.label] := by
  obtain ⟨body, falling, found, -, -, none, rfl⟩ := lowerBlock_eq_ok h
  have front : (Code.straight [.label (layout.blockName b.label)]).Defines layout n
      [layout.blockName b.label] := Code.defines_straight
  have back : (Code.straight falling).Defines layout (n + (Code.straight
      [.label (layout.blockName b.label)] ++ body).detours.length) [] :=
    none ▸ Code.defines_straight
  exact (front.append (defines_lowerBody found)).append back

theorem lowerBlocks_cons {bs : List Block} (h : g.lowerBlocks live layout n (b :: bs) = .ok code) :
    ∃ first more, g.lowerBlock live layout n b (bs.head?.map Block.label) = .ok first ∧
      g.lowerBlocks live layout (n + first.detours.length) bs = .ok more ∧ code = first ++ more := by
  obtain ⟨first, found, h⟩ := bind_eq_ok_iff.1 h
  obtain ⟨more, found', h⟩ := bind_eq_ok_iff.1 h
  exact ⟨first, more, found, found', (Except.ok.inj h).symm⟩

theorem defines_lowerBlocks {bs : List Block} (h : g.lowerBlocks live layout n bs = .ok code) :
    code.Defines layout n (bs.map fun b => layout.blockName b.label) := by
  induction bs generalizing n code with
  | nil =>
    cases h
    exact ⟨rfl, rfl⟩
  | cons b bs ih =>
    obtain ⟨first, more, found, found', rfl⟩ := lowerBlocks_cons h
    exact (defines_lowerBlock found).append (ih found')

/-- The code of blocks begins with the name of the first one. -/
theorem exists_label_of_lowerBlocks {bs : List Block}
    (h : g.lowerBlocks live layout n (b :: bs) = .ok code) :
    ∃ rest, code.instrs = .label (layout.blockName b.label) :: rest := by
  obtain ⟨first, more, found, -, rfl⟩ := lowerBlocks_cons h
  obtain ⟨body, falling, -, -, -, -, rfl⟩ := lowerBlock_eq_ok found
  exact ⟨_, rfl⟩

/-- The code of one of several blocks, with the code in front of it and behind it. What is true of no
code, and is still true with the code of a block put in front, is true of the code in front. -/
theorem exists_of_lowerBlocks {before later : List Block} {P : Code → Prop} (nil : P (.straight []))
    (cons : ∀ c ∈ before, ∀ n next first more, g.lowerBlock live layout n c next = .ok first →
      P more → P (first ++ more))
    (h : g.lowerBlocks live layout n (before ++ b :: later) = .ok code) :
    ∃ n' front here n'' back, P front ∧
      g.lowerBlock live layout n' b (later.head?.map Block.label) = .ok here ∧
      g.lowerBlocks live layout n'' later = .ok back ∧ code = front ++ (here ++ back) := by
  induction before generalizing n code with
  | nil =>
    obtain ⟨here, back, found, found', rfl⟩ := lowerBlocks_cons h
    exact ⟨n, .straight [], here, _, back, nil, found, found', rfl⟩
  | cons c before ih =>
    obtain ⟨first, more, lowered, rest, rfl⟩ := lowerBlocks_cons h
    obtain ⟨n', front, here, n'', back, all, found, found', rfl⟩ :=
      ih (fun d hd => cons d (List.mem_cons_of_mem _ hd)) rest
    exact ⟨n', first ++ front, here, n'', back, cons c List.mem_cons_self _ _ _ _ lowered all, found,
      found', (Code.append_assoc ..).symm⟩

end FlowGraph

/-! ## Functions -/

namespace Layout

variable {layout : Layout} {g : FlowGraph} {code : List Target.Instr}

theorem nameless_stackParams {offset : Int32} {params : List Temp}
    (h : layout.stackParams offset params = .ok code) : Nameless code := by
  induction params generalizing offset code with
  | nil =>
    cases h
    exact nameless_nil
  | cons t rest ih =>
    rw [stackParams] at h
    split at h
    · exact ih h
    · obtain ⟨dst, -, h⟩ := bind_eq_ok_iff.1 h
      obtain ⟨more, found, h⟩ := bind_eq_ok_iff.1 h
      cases h
      simp [ih found]

/-- What a function is entered with: the frame is set up, and parameters and the values of phis are
moved home. -/
theorem enter_eq_ok {code : List Target.Instr} (h : layout.enter g = .ok code) :
    ∃ inRegisters onStack moves,
      layout.registerParams (g.params.zip Register.arguments) = .ok inRegisters ∧
      layout.stackParams firstStackParam (g.params.drop Register.arguments.length) = .ok onStack ∧
      (∀ l, g.entry? = some l → g.edgeMoves layout .entry l = .ok moves) ∧
      (g.entry? = none → moves = []) ∧
      code = layout.setUp ++ moveAll inRegisters ++ onStack ++ moveAll moves := by
  obtain ⟨inRegisters, found, h⟩ := bind_eq_ok_iff.1 h
  obtain ⟨onStack, found', h⟩ := bind_eq_ok_iff.1 h
  cases entry : g.entry? with
  | none =>
    simp only [entry] at h
    exact ⟨inRegisters, onStack, [], found, found', nofun, fun _ => rfl, (Except.ok.inj h).symm⟩
  | some l =>
    simp only [entry] at h
    obtain ⟨moves, found'', h⟩ := bind_eq_ok_iff.1 h
    refine ⟨inRegisters, onStack, moves, found, found', ?_, nofun, (Except.ok.inj h).symm⟩
    rintro _ ⟨⟩
    exact found''

theorem nameless_enter (h : layout.enter g = .ok code) : Nameless code := by
  obtain ⟨inRegisters, onStack, moves, -, found, -, -, rfl⟩ := enter_eq_ok h
  have setUp : Nameless layout.setUp := by
    rw [Layout.setUp]
    split <;> simp
  simp [setUp, nameless_stackParams found]

theorem labelsOf_enter (h : layout.enter g = .ok code) : labelsOf code = [] :=
  (nameless_enter h).labelsOf_eq_nil

end Layout

/-- Code that is met within a block, in front of the rest of its instructions: their code, and what
is behind it. -/
def CodeAt (f : Function) (g : FlowGraph) (live : Liveness) (layout : Layout) (b : Block)
    (rest : List Instr) (code : List Target.Instr) : Prop :=
  ∃ n body falling later,
    g.lowerBody layout b.label n (livePoints (live.after g b.label) rest) = .ok body ∧
    (∀ d ∈ body.detours, ∃ more, f.codeFrom? d.name = some (d.code ++ more)) ∧
    (b.fallsThrough = true → g.lowerFallThrough layout b.label (g.next? b.label) = .ok falling) ∧
    (∀ next, g.next? b.label = some next → f.codeFrom? (layout.blockName next) = some later) ∧
    code = body.instrs ++ (falling ++ later)

/-- A function is the code of a procedure. -/
structure Lowers (f : Function) (g : FlowGraph) (live : Liveness) (layout : Layout) : Prop where
  /-- It begins with the code that sets the frame up, and the first block follows. -/
  entry : ∃ entering, layout.enter g = .ok entering ∧ ∀ l, g.entry? = some l →
    ∃ code, f.codeFrom? (layout.blockName l) = some code ∧ f.instrs = entering ++ code
  /-- Every block is found under its name. -/
  blocks : ∀ b ∈ g.blocks, ∃ code,
    f.codeFrom? (layout.blockName b.label) = some (.label (layout.blockName b.label) :: code) ∧
      CodeAt f g live layout b b.code code

/-- Every detour defines its name. -/
theorem labelsOf_detours (detours : List Detour) :
    labelsOf (detours.flatMap Detour.code) = detours.map Detour.name := by
  induction detours with
  | nil => rfl
  | cons d rest ih =>
    rw [List.flatMap_cons, labelsOf_append, ih, List.map_cons]
    simp [Detour.code]

namespace FlowGraph

variable {g : FlowGraph} {live : Liveness} {a : Assignment} {f : Function}

/-- A function is the code on entry, that of the blocks, and that of the detours. -/
theorem lower_eq_ok (h : g.lower live a = .ok f) : ∃ entering code,
    (Layout.ofAssignment g a).enter g = .ok entering ∧
    g.lowerBlocks live (.ofAssignment g a) 0 g.blocks = .ok code ∧
    f = ⟨g.name.name, (Layout.ofAssignment g a).frame,
      entering ++ code.instrs ++ code.detours.flatMap Detour.code⟩ := by
  obtain ⟨entering, entered, h⟩ := bind_eq_ok_iff.1 h
  obtain ⟨code, lowered, h⟩ := bind_eq_ok_iff.1 h
  exact ⟨entering, code, entered, lowered, (Except.ok.inj h).symm⟩

theorem frame_of_lower (h : g.lower live a = .ok f) : f.frame = (Layout.ofAssignment g a).frame := by
  obtain ⟨entering, code, -, -, rfl⟩ := lower_eq_ok h
  rfl

/-- The names of the blocks. -/
def blockNames (g : FlowGraph) (layout : Layout) : List String := g.labels.map layout.blockName

theorem labelsOf_lowerBlocks {layout : Layout} {n : Nat} {code : Code}
    (h : g.lowerBlocks live layout n g.blocks = .ok code) :
    labelsOf code.instrs = g.blockNames layout := by
  rw [(defines_lowerBlocks h).1, blockNames, labels, List.map_map]
  rfl

/-- A function has the names of its blocks, and those of its detours. -/
theorem labelsOf_lower (h : g.lower live a = .ok f) :
    ∃ detours, labelsOf f.instrs = g.blockNames (.ofAssignment g a) ++
      (List.range' 0 detours).map (Layout.ofAssignment g a).detourName := by
  obtain ⟨entering, code, entered, lowered, rfl⟩ := lower_eq_ok h
  refine ⟨code.detours.length, ?_⟩
  rw [labelsOf_append, labelsOf_append, Layout.labelsOf_enter entered, List.nil_append,
    labelsOf_lowerBlocks lowered, labelsOf_detours, (defines_lowerBlocks lowered).2]

/-- They are all different. -/
theorem nodup_labelsOf_lower (nodup : g.labels.Nodup) (h : g.lower live a = .ok f) :
    (labelsOf f.instrs).Nodup := by
  obtain ⟨detours, names⟩ := labelsOf_lower h
  rw [names, List.nodup_append]
  refine ⟨nodup.map fun _ _ => Layout.blockName_inj, ?_, ?_⟩
  · exact List.Nodup.map (fun _ _ => Layout.detourName_inj) List.nodup_range'
  · rintro _ hb _ hd rfl
    obtain ⟨b, -, rfl⟩ := List.mem_map.1 hb
    obtain ⟨n, -, same⟩ := List.mem_map.1 hd
    exact Layout.blockName_ne_detourName same.symm

end FlowGraph

/-- The function of a procedure is its code. -/
theorem FlowGraph.lowers_of_lower {g : FlowGraph} {live : Liveness} {a : Assignment} {f : Function}
    (nodup : g.labels.Nodup) (solved : Solved g live) (h : g.lower live a = .ok f) :
    Lowers f g live (.ofAssignment g a) ∧ f.name = g.name.name ∧
      f.frame = (Layout.ofAssignment g a).frame := by
  have unique := nodup_labelsOf_lower nodup h
  obtain ⟨entering, code, entered, lowered, rfl⟩ := lower_eq_ok h
  generalize Layout.ofAssignment g a = layout at *
  let f : Function := ⟨g.name.name, layout.frame,
    entering ++ code.instrs ++ code.detours.flatMap Detour.code⟩
  -- blocks are found wherever their code is
  have found : ∀ {b : Block} {later : List Block} {n : Nat} {back : Code} (front : List Target.Instr),
      g.lowerBlocks live layout n (b :: later) = .ok back →
      f.instrs = front ++ (back.instrs ++ code.detours.flatMap Detour.code) →
      f.codeFrom? (layout.blockName b.label) =
        some (back.instrs ++ code.detours.flatMap Detour.code) := by
    intro b later n back front lowered split
    obtain ⟨rest, starts⟩ := exists_label_of_lowerBlocks lowered
    rw [starts] at split ⊢
    exact Function.codeFrom?_of_split unique split
  refine ⟨⟨⟨entering, entered, fun l entry => ?_⟩, fun b hb => ?_⟩, rfl, rfl⟩
  · cases blocks : g.blocks with
    | nil => simp [FlowGraph.entry?, FlowGraph.labels, blocks] at entry
    | cons b later =>
      obtain rfl : b.label = l := by simpa [FlowGraph.entry?, FlowGraph.labels, blocks] using entry
      have split : f.instrs = entering ++ (code.instrs ++ code.detours.flatMap Detour.code) :=
        List.append_assoc ..
      exact ⟨_, found entering (blocks ▸ lowered) split, split⟩
  · obtain ⟨before, later, split⟩ := List.append_of_mem hb
    rw [split] at lowered
    obtain ⟨n, front, here, n', back, -, lowered', lowered'', rfl⟩ :=
      exists_of_lowerBlocks (P := fun _ => True) trivial (fun _ _ _ _ _ _ _ _ => trivial) lowered
    obtain ⟨body, falling, bodies, falls, -, -, rfl⟩ := lowerBlock_eq_ok lowered'
    rw [solved.zip_instrs hb, lowerBody_phis fun i => Block.isPhi_of_mem_phis] at bodies
    rw [← next?_of_split nodup split] at falls
    let detours := (front ++ (Code.straight [.label (layout.blockName b.label)] ++ body ++
      .straight falling ++ back)).detours
    let behind := back.instrs ++ detours.flatMap Detour.code
    have instrs : f.instrs = (entering ++ front.instrs) ++ .label (layout.blockName b.label) ::
        (body.instrs ++ (falling ++ behind)) := by
      simp [f, behind, detours]
    refine ⟨body.instrs ++ (falling ++ behind), Function.codeFrom?_of_split unique instrs, n, body,
      falling, behind, bodies, fun d hd => ?_, falls, fun next h => ?_, rfl⟩
    · have mem : d ∈ detours := by simp [detours, hd]
      obtain ⟨pre, post, parts⟩ := List.append_of_mem mem
      refine ⟨post.flatMap Detour.code, ?_⟩
      have instrs : f.instrs = (entering ++ (front.instrs ++ .label (layout.blockName b.label) ::
          (body.instrs ++ (falling ++ back.instrs))) ++ pre.flatMap Detour.code) ++
          .label d.name :: (moveAll d.moves ++ [.jmp d.target] ++ post.flatMap Detour.code) := by
        have flat : detours.flatMap Detour.code = pre.flatMap Detour.code ++
            (d.code ++ post.flatMap Detour.code) := by
          rw [parts, List.flatMap_append, List.flatMap_cons]
        simp only [instrs, behind, flat]
        simp [Detour.code]
      exact Function.codeFrom?_of_split unique instrs
    · rw [next?_of_split nodup split] at h
      cases later with
      | nil => cases h
      | cons c later =>
        cases h
        refine found ((entering ++ front.instrs) ++
          .label (layout.blockName b.label) :: (body.instrs ++ falling)) lowered'' ?_
        simp [instrs, behind, detours]

end ThreeAddress
