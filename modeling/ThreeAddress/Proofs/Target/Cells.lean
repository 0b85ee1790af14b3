import ThreeAddress.Proofs.Target.Machine
/-!
# Cells and straight code

What an instruction reads and writes is a cell, and most of what has to be said of code is which
cells it changes.

* `Machine.value?_put` : the cells behind a write;
* `Machine.get_of_cell?`, `Machine.set_of_cell?` : operands by their cells;
* `Machine.apply_mov`, `Machine.apply_alu`, … : instructions by their operands;
* `Changes` : two states that differ in certain cells only;
* `Machine.written`, `Machine.changes_of_apply` : the cells that an instruction writes;
* `steps_of_applyAll` : straight code is executed in steps.
-/

namespace ThreeAddress

namespace Target

/-! ## Operands that exist -/

namespace Instr

theorem badOperands?_eq_none {i : Instr} (few : i.operands.countP Operand.isMemory ≤ 1)
    (narrow : ∀ o ∈ i.operands, o.wide? = none) : i.badOperands? = none := by
  have none : i.operands.findSome? Operand.wide? = none := List.findSome?_eq_none_iff.2 narrow
  rw [badOperands?, if_neg (Nat.not_lt.2 few), none]
  exact ite_self _

theorem badOperands?_mov {dst src : Operand} (one : dst.isMemory = false ∨ src.isMemory = false)
    (narrow : dst.wide? = none) (narrow' : src.wide? = none) : (mov dst src).badOperands? = none := by
  refine badOperands?_eq_none (i := mov dst src) ?_ ?_
  · have few : [dst, src].countP Operand.isMemory ≤ 1 := by
      rcases one with one | one
      · rw [List.countP_cons_of_neg (by simp [one])]
        exact List.countP_le_length
      · rw [List.countP_cons, List.countP_cons_of_neg (by simp [one]), List.countP_nil]
        split <;> simp
    exact few
  · intro o ho
    rcases List.mem_cons.1 ho with rfl | ho
    · exact narrow
    · exact List.mem_singleton.1 ho ▸ narrow'

/-- A register can be loaded with anything. -/
theorem badOperands?_mov_register (r : Register) (src : Operand) :
    (mov (.register r) src).badOperands? = none := by
  cases src with
  | immediate w => rfl
  | _ => exact badOperands?_mov (.inl rfl) rfl rfl

theorem badOperands?_alu_register (op : AluOp) (r : Register) {src : Operand}
    (narrow : src.wide? = none) : (alu op (.register r) src).badOperands? = none := by
  have same : (alu op (.register r) src).badOperands? = (mov src (.register r)).badOperands? := by
    cases src <;> rfl
  exact same.trans (badOperands?_mov (.inr rfl) narrow rfl)

end Instr

namespace Machine

variable {m m' : Machine} {c d : Cell} {v w : Value} {o dst src : Operand} {r : Register}

/-! ## Cells -/

@[simp] theorem value?_register (m : Machine) (r : Register) :
    m.value? (.register r) = some (m.registers r) := rfl

@[simp] theorem value?_stack (m : Machine) (a : Int) : m.value? (.stack a) = some (m.stack a) := rfl

@[simp] theorem value?_datum (m : Machine) (name : String) : m.value? (.datum name) = m.data name :=
  rfl

@[simp] theorem value?_put (m : Machine) (c d : Cell) (v : Value) :
    (m.put c v).value? d = if d = c then some v else m.value? d := by
  cases c <;> cases d <;> simp only [put, value?, Cell.register.injEq, Cell.stack.injEq,
    Cell.datum.injEq, reduceCtorEq, if_false] <;> split <;> rfl

@[simp] theorem registers_put (m : Machine) (c : Cell) (v : Value) (r : Register) :
    (m.put c v).registers r = if .register r = c then v else m.registers r := by
  cases c <;> simp [put]

@[simp] theorem stack_put (m : Machine) (c : Cell) (v : Value) (a : Int) :
    (m.put c v).stack a = if .stack a = c then v else m.stack a := by
  cases c <;> simp [put]

@[simp] theorem printed_put (m : Machine) (c : Cell) (v : Value) : (m.put c v).printed = m.printed := by
  cases c <;> rfl

@[simp] theorem flags_put (m : Machine) (c : Cell) (v : Value) : (m.put c v).flags = m.flags := by
  cases c <;> rfl

@[simp] theorem value?_unflagged (m : Machine) (c : Cell) : m.unflagged.value? c = m.value? c := by
  cases c <;> rfl

@[simp] theorem registers_unflagged (m : Machine) (r : Register) :
    m.unflagged.registers r = m.registers r := rfl

@[simp] theorem stack_unflagged (m : Machine) (a : Int) : m.unflagged.stack a = m.stack a := rfl

@[simp] theorem printed_unflagged (m : Machine) : m.unflagged.printed = m.printed := rfl

/-- Writing a cell what it holds changes nothing that can be read. -/
theorem registers_eq_of_value? (h : m'.value? (.register r) = m.value? (.register r)) :
    m'.registers r = m.registers r := Option.some.inj h

theorem stack_eq_of_value? {a : Int} (h : m'.value? (.stack a) = m.value? (.stack a)) :
    m'.stack a = m.stack a := Option.some.inj h

/-! ## Operands -/

@[simp] theorem cell?_register (m : Machine) (r : Register) :
    m.cell? (.register r) = some (.register r) := rfl

@[simp] theorem cell?_symbol (m : Machine) (name : String) :
    m.cell? (.symbol name) = some (.datum name) := rfl

theorem cell?_memory {a offset : Int} (h : m.registers r = .stack a) (reaches : Reaches offset)
    (aligned : (a + offset) % 8 = 0) :
    m.cell? (.memory ⟨.register r, offset⟩) = some (.stack (a + offset)) := by
  simp only [cell?, h, reaches, aligned, and_self, if_true]

/-- What has a cell is no immediate. -/
theorem wide?_of_cell? (h : m.cell? o = some c) : o.wide? = none := by
  cases o with
  | immediate w => cases h
  | _ => rfl

/-- The cell of an operand depends on the registers that it is addressed by. -/
theorem cell?_congr (h : ∀ r ∈ o.addressing, m'.registers r = m.registers r) :
    m'.cell? o = m.cell? o := by
  cases o with
  | register r => rfl
  | immediate w => rfl
  | memory a =>
    obtain ⟨base, offset⟩ := a
    cases base with
    | symbol name => rfl
    | register r =>
      have same := h r (by simp [Operand.addressing, Base.register?])
      simp only [cell?, same]

@[simp] theorem get_immediate (m : Machine) (w : Word) : m.get (.immediate w) = some (.word w) := rfl

@[simp] theorem get_register (m : Machine) (r : Register) :
    m.get (.register r) = some (m.registers r) := rfl

theorem get_of_cell? (h : m.cell? o = some c) : m.get o = m.value? c := by
  cases o with
  | immediate w => cases h
  | register r =>
    cases h
    rfl
  | memory a => exact (congrArg (Option.bind · m.value?) h).trans rfl

theorem set_of_cell? (h : m.cell? o = some c) (exists_ : m.value? c = some w) :
    m.set o v = some (m.put c v) := by
  rw [set, h, Option.bind_some, exists_]
  rfl

@[simp] theorem set_register (m : Machine) (r : Register) (v : Value) :
    m.set (.register r) v = some (m.put (.register r) v) := rfl

/-! ## Instructions -/

theorem apply_eq {i : Instr} (exist : i.badOperands? = none) : m.apply i = m.effect i := by
  simp only [apply, exist, Option.isSome_none, Bool.false_eq_true, if_false]

theorem apply_mov (exist : (Instr.mov dst src).badOperands? = none) (read : m.get src = some v)
    (write : m.set dst v = some m') : m.apply (.mov dst src) = some m' := by
  simp only [apply_eq exist, effect, read, Option.bind_some,
    write]

theorem apply_mov_register (read : m.get src = some v) :
    m.apply (.mov (.register r) src) = some (m.put (.register r) v) :=
  apply_mov (Instr.badOperands?_mov_register r src) read (set_register m r v)

theorem apply_alu {op : AluOp} {a b : Value} (narrow : src.wide? = none)
    (read : m.registers r = a) (read' : m.get src = some b) (value : op.eval? a b = some v) :
    m.apply (.alu op (.register r) src) = some (m.put (.register r) v).unflagged := by
  have exist := Instr.badOperands?_alu_register op r narrow
  simp only [apply_eq exist, effect, get_register, read, read',
    value, Option.bind_some, set_register, Option.map_some]

theorem apply_neg {w : Word} (read : m.registers r = .word w) :
    m.apply (.neg (.register r)) = some (m.put (.register r) (.word (-w))).unflagged := by
  have exist : (Instr.neg (.register r)).badOperands? = none := rfl
  simp only [apply_eq exist, effect, mapWord, get_register,
    read, set_register, Option.map_some]

theorem apply_not {w : Word} (read : m.registers r = .word w) :
    m.apply (.not (.register r)) = some (m.put (.register r) (.word (~~~w))) := by
  have exist : (Instr.not (.register r)).badOperands? = none := rfl
  simp only [apply_eq exist, effect, get_register, read,
    set_register]

theorem apply_shift {op : ShiftOp} {count : Register} {w n : Word} (read : m.registers r = .word w)
    (read' : m.registers count = .word n) :
    m.apply (.shift op (.register r) count) =
      some (m.put (.register r) (.word (op.eval w n))).unflagged := by
  have exist : (Instr.shift op (.register r) count).badOperands? = none := rfl
  simp only [apply_eq exist, effect, mapWord, get_register,
    read, read', set_register, Option.map_some]

theorem apply_cqo {w : Word} (read : m.registers .rax = .word w) :
    m.apply .cqo = some (m.put (.register .rdx) (.word (if w < 0 then -1 else 0))) := by
  have exist : Instr.cqo.badOperands? = none := rfl
  simp only [apply_eq exist, effect, read]

theorem apply_idiv {high low divisor quotient remainder : Word}
    (rdx : m.registers .rdx = .word high) (rax : m.registers .rax = .word low)
    (read : m.registers r = .word divisor)
    (value : divide? high low divisor = some (quotient, remainder)) :
    m.apply (.idiv (.register r)) =
      some ((m.put (.register .rax) (.word quotient)).put (.register .rdx)
        (.word remainder)).unflagged := by
  have exist : (Instr.idiv (.register r)).badOperands? = none := rfl
  simp only [apply_eq exist, effect, rdx, rax, get_register,
    read, value, Option.map_some]

theorem apply_cmp {a b : Word} (exist : (Instr.cmp dst src).badOperands? = none)
    (read : m.get dst = some (.word a)) (read' : m.get src = some (.word b)) :
    m.apply (.cmp dst src) = some { m with flags := some (.compare a b) } := by
  simp only [apply_eq exist, effect, read, read']

theorem apply_push {a : Int} (rsp : m.registers .rsp = .stack a) (aligned : a % 8 = 0)
    (narrow : src.wide? = none) (read : m.get src = some v) :
    m.apply (.push src) =
      some ((m.put (.stack (a - 8)) v).put (.register .rsp) (.stack (a - 8))) := by
  have exist : (Instr.push src).badOperands? = none :=
    Instr.badOperands?_eq_none List.countP_le_length (by simpa [Instr.operands] using narrow)
  simp only [apply_eq exist, effect, read, Option.bind_some,
    push, rsp, aligned, if_true]

theorem pop_eq {a : Int} (rsp : m.registers .rsp = .stack a) (aligned : a % 8 = 0) :
    m.pop = some (m.stack a, m.put (.register .rsp) (.stack (a + 8))) := by
  simp only [pop, rsp, aligned, if_true]

theorem apply_pop {a : Int} (rsp : m.registers .rsp = .stack a) (aligned : a % 8 = 0)
    (narrow : dst.wide? = none)
    (write : (m.put (.register .rsp) (.stack (a + 8))).set dst (m.stack a) = some m') :
    m.apply (.pop dst) = some m' := by
  have exist : (Instr.pop dst).badOperands? = none :=
    Instr.badOperands?_eq_none List.countP_le_length (by simpa [Instr.operands] using narrow)
  simp only [apply_eq exist, effect, pop_eq rsp aligned,
    Option.bind_some, write]

@[simp] theorem apply_label (m : Machine) (name : String) : m.apply (.label name) = some m := rfl

/-! ## Straight code -/

@[simp] theorem applyAll_nil (m : Machine) : m.applyAll [] = some m := rfl

theorem applyAll_cons {i : Instr} {rest : List Instr} (h : m.apply i = some m') :
    m.applyAll (i :: rest) = m'.applyAll rest := by
  rw [applyAll, h, Option.bind_some]

theorem applyAll_append {code rest : List Instr} (h : m.applyAll code = some m') :
    m.applyAll (code ++ rest) = m'.applyAll rest := by
  induction code generalizing m with
  | nil =>
    cases h
    rfl
  | cons i code ih =>
    obtain ⟨next, first, more⟩ := Option.bind_eq_some_iff.1 h
    rw [List.cons_append, applyAll_cons first]
    exact ih more

/-- Straight code is executed to its end, and a property holds there. -/
def Executes (m : Machine) (code : List Instr) (P : Machine → Prop) : Prop :=
  ∃ m', m.applyAll code = some m' ∧ P m'

namespace Executes

variable {P Q : Machine → Prop} {code rest : List Instr} {i : Instr}

theorem nil (h : P m) : m.Executes [] P := ⟨m, rfl, h⟩

theorem cons (h : m.apply i = some m') (more : m'.Executes rest P) : m.Executes (i :: rest) P :=
  more.imp fun _ ⟨done, last⟩ => ⟨(applyAll_cons h).trans done, last⟩

theorem append (h : m.Executes code Q) (more : ∀ m', m.applyAll code = some m' → Q m' →
    m'.Executes rest P) : m.Executes (code ++ rest) P := by
  obtain ⟨m', done, middle⟩ := h
  exact (more m' done middle).imp fun _ ⟨done', last⟩ => ⟨(applyAll_append done).trans done', last⟩

theorem imp (h : m.Executes code P) (le : ∀ m', m.applyAll code = some m' → P m' → Q m') :
    m.Executes code Q := Exists.imp (fun m' ⟨done, last⟩ => ⟨done, le m' done last⟩) h

end Executes

end Machine

/-! ## Changes -/

/-- Nothing but certain cells, and the flags, is different in the second state. -/
structure Changes (m m' : Machine) (cells : Cell → Prop) : Prop where
  kept : ∀ c, ¬ cells c → m'.value? c = m.value? c
  printed : m'.printed = m.printed

namespace Changes

variable {m m' m'' : Machine} {cells cells' : Cell → Prop}

theorem refl (m : Machine) (cells : Cell → Prop) : Changes m m cells := ⟨fun _ _ => rfl, rfl⟩

theorem mono (h : Changes m m' cells) (le : ∀ c, cells c → cells' c) : Changes m m' cells' :=
  ⟨fun c hc => h.kept c fun hc' => hc (le c hc'), h.printed⟩

theorem trans (h : Changes m m' cells) (h' : Changes m' m'' cells) : Changes m m'' cells :=
  ⟨fun c hc => (h'.kept c hc).trans (h.kept c hc), h'.printed.trans h.printed⟩

theorem put (m : Machine) (c : Cell) (v : Value) : Changes m (m.put c v) (· = c) :=
  ⟨fun d hd => by rw [Machine.value?_put, if_neg hd], Machine.printed_put m c v⟩

theorem unflagged (h : Changes m m' cells) : Changes m m'.unflagged cells :=
  ⟨fun c hc => (Machine.value?_unflagged m' c).trans (h.kept c hc), h.printed⟩

theorem register (h : Changes m m' cells) {r : Register} (hr : ¬ cells (.register r)) :
    m'.registers r = m.registers r := Machine.registers_eq_of_value? (h.kept _ hr)

theorem stack (h : Changes m m' cells) {a : Int} (ha : ¬ cells (.stack a)) :
    m'.stack a = m.stack a := Machine.stack_eq_of_value? (h.kept _ ha)

theorem data (h : Changes m m' cells) {name : String} (hn : ¬ cells (.datum name)) :
    m'.data name = m.data name := h.kept _ hn

/-- An operand stays in its cell if the registers that it is addressed by are not changed. -/
theorem cell? (h : Changes m m' cells) {o : Operand} (ho : ∀ r ∈ o.addressing, ¬ cells (.register r)) :
    m'.cell? o = m.cell? o := Machine.cell?_congr fun r hr => h.register (ho r hr)

theorem get (h : Changes m m' cells) {o : Operand} (ho : ∀ r ∈ o.addressing, ¬ cells (.register r))
    (away : ∀ c, m.cell? o = some c → ¬ cells c) : m'.get o = m.get o := by
  cases o with
  | immediate w => rfl
  | register r => exact congrArg some (h.register (away _ rfl))
  | memory a =>
    cases cell : m.cell? (.memory a) with
    | none =>
      have cell' := (h.cell? ho).trans cell
      simp only [Machine.get, cell, cell', Option.bind_none]
    | some c =>
      rw [Machine.get_of_cell? ((h.cell? ho).trans cell), Machine.get_of_cell? cell]
      exact h.kept c (away c cell)

end Changes

/-! ## Written cells -/

namespace Machine

variable {m m' : Machine} {i : Instr} {o : Operand} {v : Value}

/-- The eight bytes below the end of the stack. -/
def below? (m : Machine) : Option Cell :=
  match m.registers .rsp with
  | .stack a => some (.stack (a - 8))
  | _ => none

/-- The cells that an instruction writes. A call puts the place to return to on the stack. -/
def written (m : Machine) : Instr → List Cell
  | .mov dst _ | .alu _ dst _ | .neg dst | .not dst | .shift _ dst _ => (m.cell? dst).toList
  | .cqo => [.register .rdx]
  | .idiv _ => [.register .rax, .register .rdx]
  | .push _ => .register .rsp :: m.below?.toList
  | .pop dst => .register .rsp :: (m.pop.bind fun e => e.2.cell? dst).toList
  | .call _ => m.below?.toList
  | .ret => [.register .rsp]
  | .cmp _ _ | .jmp _ | .jcc _ _ | .label _ => []

theorem set_eq_some (h : m.set o v = some m') : ∃ c, m.cell? o = some c ∧ m' = m.put c v := by
  obtain ⟨c, cell, h⟩ := Option.bind_eq_some_iff.1 h
  obtain ⟨_, -, rfl⟩ := Option.map_eq_some_iff.1 h
  exact ⟨c, cell, rfl⟩

theorem push_eq_some (h : m.push v = some m') : ∃ a, m.registers .rsp = .stack a ∧
    m' = (m.put (.stack (a - 8)) v).put (.register .rsp) (.stack (a - 8)) := by
  rw [push] at h
  split at h
  · next a rsp =>
    split at h
    · exact ⟨a, rsp, (Option.some.inj h).symm⟩
    · cases h
  · cases h

theorem pop_eq_some (h : m.pop = some (v, m')) : ∃ a, m.registers .rsp = .stack a ∧
    v = m.stack a ∧ m' = m.put (.register .rsp) (.stack (a + 8)) := by
  rw [pop] at h
  split at h
  · next a rsp =>
    split at h
    · cases h
      exact ⟨a, rsp, rfl, rfl⟩
    · cases h
  · cases h

theorem effect_of_apply (h : m.apply i = some m') :
    i.badOperands? = none ∧ m.effect i = some m' := by
  rw [apply] at h
  split at h
  · cases h
  · next exist => exact ⟨Option.not_isSome_iff_eq_none.1 exist, h⟩

theorem changes_of_set (h : m.set o v = some m') : Changes m m' (· ∈ (m.cell? o).toList) := by
  obtain ⟨c, cell, rfl⟩ := set_eq_some h
  rw [cell]
  exact (Changes.put m c v).mono fun d hd => List.mem_singleton.2 hd

theorem changes_of_mapWord {f : Word → Word} (h : m.mapWord o f = some m') :
    Changes m m' (· ∈ (m.cell? o).toList) := by
  rw [mapWord] at h
  split at h
  · obtain ⟨n, set, rfl⟩ := Option.map_eq_some_iff.1 h
    exact (changes_of_set set).unflagged
  · cases h

/-- Nothing but the cells that an instruction writes is changed. -/
theorem changes_of_apply (h : m.apply i = some m') : Changes m m' (· ∈ m.written i) := by
  obtain ⟨-, h⟩ := effect_of_apply h
  cases i with
  | mov dst src =>
    obtain ⟨v, -, h⟩ := Option.bind_eq_some_iff.1 h
    exact changes_of_set h
  | alu op dst src =>
    obtain ⟨a, -, h⟩ := Option.bind_eq_some_iff.1 h
    obtain ⟨b, -, h⟩ := Option.bind_eq_some_iff.1 h
    obtain ⟨v, -, h⟩ := Option.bind_eq_some_iff.1 h
    obtain ⟨n, set, rfl⟩ := Option.map_eq_some_iff.1 h
    exact (changes_of_set set).unflagged
  | neg dst => exact changes_of_mapWord h
  | not dst =>
    simp only [effect] at h
    split at h
    · exact changes_of_set h
    · cases h
  | cqo =>
    simp only [effect] at h
    split at h
    · cases h
      exact (Changes.put _ _ _).mono fun c hc => List.mem_singleton.2 hc
    · cases h
  | idiv src =>
    simp only [effect] at h
    split at h
    · obtain ⟨⟨q, r⟩, -, rfl⟩ := Option.map_eq_some_iff.1 h
      have rax : Changes m (m.put (.register .rax) (.word q)) (· ∈ m.written (.idiv src)) :=
        (Changes.put _ _ _).mono fun c hc => hc ▸ List.mem_cons_self
      have rdx : Changes (m.put (.register .rax) (.word q))
          ((m.put (.register .rax) (.word q)).put (.register .rdx) (.word r))
          (· ∈ m.written (.idiv src)) :=
        (Changes.put _ _ _).mono fun c hc => hc ▸ List.mem_cons_of_mem _ List.mem_cons_self
      exact (rax.trans rdx).unflagged
    · cases h
  | shift op dst count =>
    simp only [effect] at h
    split at h
    · exact changes_of_mapWord h
    · cases h
  | cmp lhs rhs =>
    simp only [effect] at h
    split at h
    · cases h
      exact ⟨fun c _ => by cases c <;> rfl, rfl⟩
    · cases h
  | push src =>
    obtain ⟨v, -, h⟩ := Option.bind_eq_some_iff.1 h
    obtain ⟨a, rsp, rfl⟩ := push_eq_some h
    have below : m.below? = some (.stack (a - 8)) := by rw [below?, rsp]
    refine ((Changes.put m _ v).mono fun c hc => ?_).trans
      ((Changes.put _ _ _).mono fun c hc => ?_)
    · rw [hc, written, below]
      exact List.mem_cons_of_mem _ List.mem_cons_self
    · rw [hc]
      exact List.mem_cons_self
  | pop dst =>
    obtain ⟨⟨v, n⟩, popped, h⟩ := Option.bind_eq_some_iff.1 h
    have set := changes_of_set h
    obtain ⟨a, -, -, rfl⟩ := pop_eq_some popped
    refine ((Changes.put m _ _).mono fun c hc => ?_).trans (set.mono fun c hc => ?_)
    · rw [hc]
      exact List.mem_cons_self
    · rw [written, popped]
      exact List.mem_cons_of_mem _ hc
  | label name =>
    cases h
    exact .refl _ _
  | jmp | jcc | call | ret => cases h

end Machine

/-! ## Steps -/

namespace Steps

variable {functions : List Function} {litter : Litter} {c c' : Config}

theorem refl (c : Config) : Steps functions litter c c := Relation.ReflTransGen.refl

theorem trans {c'' : Config} (h : Steps functions litter c c') (h' : Steps functions litter c' c'') :
    Steps functions litter c c'' := Relation.ReflTransGen.trans h h'

theorem single (h : c.step? functions litter = some c') : Steps functions litter c c' :=
  Relation.ReflTransGen.single h

end Steps

variable {functions : List Function} {litter : Litter} {f : Function} {m m' : Machine}

theorem step?_of_apply {i : Instr} {rest : List Instr} (h : m.apply i = some m') :
    Config.step? functions litter ⟨some ⟨f, i :: rest⟩, m⟩ = some ⟨some ⟨f, rest⟩, m'⟩ := by
  cases i with
  | jmp | jcc | call | ret => simp [Machine.apply, Machine.effect] at h
  | _ => simp only [Config.step?, h, Option.map_some]

/-- Straight code is executed in steps. -/
theorem steps_of_applyAll {code rest : List Instr} (h : m.applyAll code = some m') :
    Steps functions litter ⟨some ⟨f, code ++ rest⟩, m⟩ ⟨some ⟨f, rest⟩, m'⟩ := by
  induction code generalizing m with
  | nil =>
    cases h
    exact .refl _
  | cons i code ih =>
    obtain ⟨next, first, more⟩ := Option.bind_eq_some_iff.1 h
    exact .trans (.single (step?_of_apply first)) (ih more)

theorem step?_jmp {target : String} {rest code : List Instr} (h : f.codeFrom? target = some code) :
    Config.step? functions litter ⟨some ⟨f, .jmp target :: rest⟩, m⟩ = some ⟨some ⟨f, code⟩, m⟩ := by
  simp only [Config.step?, Config.goto, h, Option.map_some]

theorem step?_jcc {condition : Condition} {target : String} {rest code : List Instr} {flags : Flags}
    (set : m.flags = some flags) (h : f.codeFrom? target = some code) :
    Config.step? functions litter ⟨some ⟨f, .jcc condition target :: rest⟩, m⟩ =
      some ⟨some ⟨f, if condition.holds flags then code else rest⟩, m⟩ := by
  simp only [Config.step?, Config.goto, set, h, Option.map_some, Option.bind_some]
  split <;> rfl

theorem step?_ret {a : Int} {rest : List Instr} {place : Option Place}
    (rsp : m.registers .rsp = .stack a) (aligned : a % 8 = 0) (back : m.stack a = .back place) :
    Config.step? functions litter ⟨some ⟨f, .ret :: rest⟩, m⟩ =
      some ⟨place, m.put (.register .rsp) (.stack (a + 8))⟩ := by
  simp only [Config.step?, Machine.pop_eq rsp aligned, back]

theorem step?_call {callee : Function} {target : String} {rest : List Instr} {a : Int}
    (found : functions.find? (fun callee => callee.name == target) = some callee)
    (rsp : m.registers .rsp = .stack a) (aligned : a % 8 = 0) :
    Config.step? functions litter ⟨some ⟨f, .call target :: rest⟩, m⟩ =
      some ⟨some ⟨callee, callee.instrs⟩,
        (m.put (.stack (a - 8)) (.back (some ⟨f, rest⟩))).put (.register .rsp) (.stack (a - 8))⟩ := by
  simp only [Config.step?, found, Machine.push, rsp, aligned, if_true, Option.map_some]

theorem step?_print {target : String} {rest : List Instr}
    (missing : functions.find? (fun callee => callee.name == target) = none)
    (printed : m.print litter target = some m') :
    Config.step? functions litter ⟨some ⟨f, .call target :: rest⟩, m⟩ = some ⟨some ⟨f, rest⟩, m'⟩ := by
  simp only [Config.step?, missing, printed, Option.map_some]

end Target

end ThreeAddress
