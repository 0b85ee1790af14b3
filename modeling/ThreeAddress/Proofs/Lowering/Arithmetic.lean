import ThreeAddress.Lowering.Arithmetic
import ThreeAddress.Proofs.Lowering.Moves
/-!
# What the arithmetic code computes

The code of an operator leaves the value of the operator in a scratch register, and changes nothing
but scratch registers.

* `sar_mask`, `divide?_extended` : the words that a division goes through;
* `Instr.changes_scratch` : instructions that write scratch registers only;
* `Machine.executes_applyBinary`, `Machine.executes_applyUnary` : operators;
* `Condition.holds_ofTest` : tests.
-/

namespace ThreeAddress

namespace Target

/-! ## Words -/

theorem sar_mask (b : Word) :
    ShiftOp.sar.eval (b + 1 ||| -(b + 1)) 63 = if b = -1 then 0 else -1 := by
  split
  · next h =>
    subst h
    rfl
  · next h =>
    have ne : (b + 1).toBitVec ≠ 0#64 := fun e => by
      have zero : b + 1 = 0 := Int64.toBitVec_inj.1 e
      refine h ?_
      rw [← Int64.add_sub_cancel b 1, zero]
      rfl
    generalize b + 1 = e at ne
    have sign : (e ||| -e).toBitVec.msb = true := by
      rw [Int64.toBitVec_or, Int64.toBitVec_neg, BitVec.msb_or, BitVec.msb_neg]
      cases h : e.toBitVec.msb with
      | true => rfl
      | false =>
        have least : e.toBitVec ≠ BitVec.intMin 64 := by
          intro same
          rw [same] at h
          revert h
          decide
        simp [ne, least]
    have bits : (e ||| -e).toBitVec.sshiftRight 63 = BitVec.allOnes 64 := by
      rw [BitVec.sshiftRight_eq_of_msb_true sign]
      have clear : (~~~(e ||| -e).toBitVec) >>> 63 = 0#64 := by
        refine BitVec.eq_of_toNat_eq ?_
        have small : (~~~(e ||| -e).toBitVec).msb = false := by rw [BitVec.msb_not, sign]; rfl
        rw [BitVec.toNat_ushiftRight, Nat.shiftRight_eq_div_pow]
        exact Nat.div_eq_of_lt (BitVec.toNat_lt_of_msb_false small)
      rw [clear]
      rfl
    have e : ShiftOp.sar.eval (e ||| -e) 63 = .ofBitVec ((e ||| -e).toBitVec.sshiftRight 63) := rfl
    rw [e, bits]
    rfl

theorem divide?_extended (a : Word) {d : Word} (zero : d ≠ 0) (one : d ≠ -1) :
    divide? (if a < 0 then -1 else 0) a d = some (a / d, a % d) := by
  have dividend : (if a < 0 then (-1 : Word) else 0).toInt * 18446744073709551616 +
      (a.toBitVec.toNat : Int) = a.toInt := by
    have value := BitVec.toInt_eq_toNat_cond a.toBitVec
    have small := a.toBitVec.isLt
    rw [Int64.toInt_toBitVec] at value
    split
    · next negative =>
      have negative : a.toInt < 0 := Int64.lt_iff_toInt_lt.1 negative
      have e : (-1 : Word).toInt = -1 := rfl
      rw [e]
      split at value <;> omega
    · next positive =>
      have positive : ¬ a.toInt < 0 := fun h => positive (Int64.lt_iff_toInt_lt.2 h)
      have e : (0 : Word).toInt = 0 := rfl
      rw [e]
      split at value <;> omega
  have low := a.le_toInt
  have high := a.toInt_lt
  have inside : Literal.least ≤ a.toInt.tdiv d.toInt ∧ a.toInt.tdiv d.toInt ≤ Literal.greatest := by
    have zero : d.toInt ≠ 0 := fun e => zero (Int64.toInt_inj.1 e)
    have one : d.toInt ≠ -1 := fun e => one (Int64.toInt_inj.1 e)
    simp only [Literal.least, Literal.greatest]
    by_cases unit : d.toInt = 1
    · rw [unit, Int.tdiv_one]
      omega
    · have small : (a.toInt.tdiv d.toInt).natAbs ≤ a.toInt.natAbs / 2 := by
        have abs : (a.toInt.tdiv d.toInt).natAbs = a.toInt.natAbs / d.toInt.natAbs :=
          Int.natAbs_tdiv ..
        rw [abs]
        exact Nat.div_le_div_left (by omega) (by omega)
      omega
  have none : ¬ (d = 0 ∨ a.toInt.tdiv d.toInt < Literal.least ∨
      Literal.greatest < a.toInt.tdiv d.toInt) := by
    rintro (h | h | h)
    · exact zero h
    · exact Int.not_lt.2 inside.1 h
    · exact Int.not_lt.2 inside.2 h
  have least : Int64.minValue.toInt = -2 ^ 63 := rfl
  have greatest : Int64.maxValue.toInt = 2 ^ 63 - 1 := rfl
  have bounds : ∀ w : Word, Int64.minValue.toInt ≤ w.toInt ∧ w.toInt ≤ Int64.maxValue.toInt := by
    intro w
    have := w.le_toInt
    have := w.toInt_lt
    omega
  rw [divide?, dividend]
  simp only [if_neg none]
  rw [Int64.ofInt_tdiv (bounds a).1 (bounds a).2 (bounds d).1 (bounds d).2,
    Int64.ofInt_tmod (bounds a).1 (bounds a).2 (bounds d).1 (bounds d).2, Int64.ofInt_toInt,
    Int64.ofInt_toInt]

theorem toNat_smod (b : BitVec 64) : (b.smod 64).toNat = b.toNat % 64 := by
  rw [show (64 : BitVec 64) = 64#64 from rfl]
  have small := b.isLt
  have msb : (64#64).msb = false := rfl
  have value : (64#64).toNat = 64 := rfl
  rw [BitVec.toNat_smod, msb]
  cases h : b.msb with
  | false => rw [BitVec.umod_eq, BitVec.toNat_umod, value]
  | true =>
    have large := BitVec.msb_eq_true_iff_two_mul_ge.1 h
    have rest : ((-b).umod 64#64).toNat = (18446744073709551616 - b.toNat) % 64 := by
      rw [BitVec.umod_eq, BitVec.toNat_umod, BitVec.toNat_neg, value]
      omega
    simp only
    split
    · next zero =>
      rw [zero] at rest
      have rest : 0 = (18446744073709551616 - b.toNat) % 64 := rest
      rw [zero]
      show 0 = _
      omega
    · next nonzero =>
      have nonzero : ((-b).umod 64#64).toNat ≠ 0 := fun e => nonzero (BitVec.eq_of_toNat_eq e)
      rw [BitVec.toNat_sub, value]
      omega

theorem sal_eval (a b : Word) : ShiftOp.sal.eval a b = a <<< b := by
  refine Int64.toBitVec_inj.1 ?_
  rw [Int64.toBitVec_shiftLeft, BitVec.shiftLeft_eq', toNat_smod]
  rfl

theorem sar_eval (a b : Word) : ShiftOp.sar.eval a b = a >>> b := by
  refine Int64.toBitVec_inj.1 ?_
  rw [Int64.toBitVec_shiftRight, BitVec.sshiftRight_eq', toNat_smod]
  rfl

theorem div_neg_one (a : Word) : a / -1 = -a := by
  have one : (-1 : Word).toInt = -1 := rfl
  refine Int64.toInt_inj.1 ?_
  rw [Int64.toInt_div, one, Int.tdiv_neg, Int.tdiv_one, Int64.toInt_neg]

theorem mod_neg_one (a : Word) : a % -1 = 0 := by
  have one : (-1 : Word).toInt = -1 := rfl
  refine Int64.toInt_inj.1 ?_
  rw [Int64.toInt_mod, one, Int.tmod_neg, Int.tmod_one]
  rfl

/-- A complement less `-1` is a negative. -/
theorem complement_sub (a : Word) : (a ^^^ -1) - -1 = -a := by
  rw [Int64.xor_neg_one, Int64.sub_neg, Int64.neg_eq_not_add]

/-- A test is a condition on a comparison with zero. -/
theorem Condition.holds_ofTest (t : Test) (w : Word) :
    (Condition.ofTest t).holds (.compare w 0) = t.holds w := by
  have flags : Flags.compare w 0 = ⟨w == 0, w < 0, false⟩ := by simp [Flags.compare]
  have zero : w = 0 ↔ w.toInt = 0 := Int64.toInt_inj.symm
  rw [flags, Bool.eq_iff_iff]
  cases t <;>
    simp [Condition.ofTest, Condition.holds, Test.holds, zero, Int64.lt_iff_toInt_lt,
      Int64.le_iff_toInt_le] <;>
    omega

/-! ## Scratch registers -/

/-- What the code of an instruction may use for itself. -/
def Cell.Scratch (c : Cell) : Prop := ∃ r : Register, r.isScratch = true ∧ c = .register r

/-- The instruction writes nothing but a scratch register. -/
def Instr.inScratch : Instr → Bool
  | mov (.register r) _ | alu _ (.register r) _ | neg (.register r) | not (.register r)
  | shift _ (.register r) _ => r.isScratch
  | cqo | idiv _ | cmp _ _ => true
  | _ => false

namespace Machine

variable {m m' : Machine} {i : Instr} {code : List Instr}

/-- An instruction that writes scratch registers changes nothing else. -/
theorem changes_scratch (scratch : i.inScratch = true) (h : m.apply i = some m') :
    Changes m m' Cell.Scratch := by
  refine (changes_of_apply h).mono fun c hc => ?_
  cases i with
  | mov dst _ | alu _ dst _ | neg dst | not dst | shift _ dst _ =>
    cases dst with
    | register r => exact ⟨r, scratch, List.mem_singleton.1 hc⟩
    | _ => cases scratch
  | cqo => exact ⟨.rdx, rfl, List.mem_singleton.1 hc⟩
  | idiv src =>
    rcases List.mem_pair.1 hc with rfl | rfl
    · exact ⟨.rax, rfl, rfl⟩
    · exact ⟨.rdx, rfl, rfl⟩
  | cmp lhs rhs => cases hc
  | _ => cases scratch

theorem changes_scratch_applyAll (scratch : ∀ i ∈ code, i.inScratch = true)
    (h : m.applyAll code = some m') : Changes m m' Cell.Scratch := by
  induction code generalizing m with
  | nil =>
    cases h
    exact .refl _ _
  | cons i code ih =>
    obtain ⟨next, first, more⟩ := Option.bind_eq_some_iff.1 h
    exact (changes_scratch (scratch i List.mem_cons_self) first).trans
      (ih (fun j hj => scratch j (List.mem_cons_of_mem _ hj)) more)

end Machine

/-- The operand can be read by any instruction, and does not depend on scratch registers. -/
structure Operand.Steady (o : Operand) : Prop where
  read : ∀ r ∈ o.read, r.isScratch = false
  narrow : o.wide? = none

namespace Machine

variable {m m' : Machine} {lhs rhs : Operand} {a b w : Word}

theorem get_steady {o : Operand} (steady : o.Steady) (changes : Changes m m' Cell.Scratch) :
    m'.get o = m.get o := by
  cases o with
  | immediate w => rfl
  | register r =>
    refine congrArg some (changes.register ?_)
    rintro ⟨_, hr, ⟨⟩⟩
    cases (steady.read r (List.mem_singleton.2 rfl)).symm.trans hr
  | memory address =>
    refine changes.get (fun r hr => ?_) fun c hc => ?_
    · rintro ⟨_, hr', ⟨⟩⟩
      cases (steady.read r hr).symm.trans hr'
    · rintro ⟨r, -, rfl⟩
      obtain ⟨base, offset⟩ := address
      cases base with
      | symbol name =>
        rw [cell?] at hc
        split at hc <;> cases hc
      | register r' =>
        rw [cell?] at hc
        split at hc
        · split at hc <;> cases hc
        · cases hc

theorem inScratch_move {r : Register} (hr : r.isScratch = true) (o : Operand) :
    ∀ i ∈ move (.register r) o, i.inScratch = true := by
  have never : indirect (.register r) o = false := by cases o <;> rfl
  intro i hi
  rw [move, never] at hi
  split at hi
  · cases hi
  · obtain rfl := List.mem_singleton.1 hi
    exact hr

/-- Loading a scratch register. -/
theorem executes_load {r : Register} {o : Operand} {v : Value} (read : m.get o = some v) :
    m.Executes (move (.register r) o) fun m' => m'.registers r = v :=
  (applyAll_move_register read).imp fun _ h => ⟨h.1, h.2.1⟩

/-! ## Division -/

theorem executes_divisorMask (r11 : m.registers .r11 = .word b) :
    m.Executes divisorMask fun m' => m'.registers .r11 = .word b ∧
      m'.registers .rax = .word (if b = -1 then 0 else -1) := by
  refine .cons (apply_mov_register (congrArg some r11)) ?_
  refine .cons (apply_alu (a := .word b) rfl (by simp) (get_immediate _ 1) rfl) ?_
  refine .cons (apply_mov_register (get_register _ .rax)) ?_
  refine .cons (apply_neg (w := b + 1) (by simp)) ?_
  refine .cons (apply_alu (b := .word (-(b + 1))) rfl (a := .word (b + 1)) (by simp) (by simp) rfl) ?_
  refine .cons (apply_mov_register (get_immediate _ 63)) ?_
  refine .cons (apply_shift (w := b + 1 ||| -(b + 1)) (n := 63) (by simp) (by simp)) (.nil ⟨?_, ?_⟩)
  · simp [r11]
  · simp [sar_mask]

theorem executes_replaceDivisor (r11 : m.registers .r11 = .word b)
    (rax : m.registers .rax = .word (if b = -1 then 0 else -1)) :
    m.Executes replaceDivisor fun m' => m'.registers .r11 = .word (if b = -1 then 1 else b) ∧
      m'.registers .rcx = .word (if b = -1 then -1 else 0) := by
  refine .cons (apply_alu rfl r11 (get_immediate _ 1) rfl) ?_
  let mask : Word := if b = -1 then 0 else -1
  refine .cons (apply_alu (a := .word (b - 1)) (b := .word mask) rfl (by simp) (by simp [rax, mask])
    rfl) ?_
  refine .cons (apply_alu (a := .word ((b - 1) &&& mask)) rfl (by simp) (get_immediate _ 1) rfl) ?_
  refine .cons (apply_not (w := mask) (by simp [rax, mask])) ?_
  refine .cons (apply_mov_register (get_register _ .rax)) (.nil ?_)
  by_cases h : b = -1
  · simp [h, mask]
  · simp [h, mask]

/-- The code in front of the division itself. -/
def prepareDivision (lhs rhs : Operand) : List Instr :=
  .mov (.register .r11) rhs :: (divisorMask ++ (replaceDivisor ++ (move (.register .rax) lhs ++ [.cqo])))

theorem divide_eq (lhs rhs : Operand) :
    divide lhs rhs = prepareDivision lhs rhs ++ [.idiv (.register .r11)] := by
  simp [divide, prepareDivision]

/-- Before the division there is the dividend in `rax`, with its sign in `rdx`, and the divisor in
`r11`, or one instead of the divisor `-1`. -/
theorem executes_prepareDivision (left : lhs.Steady) (hl : m.get lhs = some (.word a))
    (hr : m.get rhs = some (.word b)) :
    m.Executes (prepareDivision lhs rhs) fun m' =>
      m'.registers .rax = .word a ∧
      m'.registers .rdx = .word (if a < 0 then -1 else 0) ∧
      m'.registers .r11 = .word (if b = -1 then 1 else b) ∧
      m'.registers .rcx = .word (if b = -1 then -1 else 0) := by
  refine .cons (apply_mov_register hr) ?_
  have loaded : Changes m (m.put (.register .r11) (.word b)) Cell.Scratch :=
    (Changes.put m _ _).mono fun c hc => ⟨.r11, rfl, hc⟩
  refine (executes_divisorMask (b := b) (by simp)).append fun m₁ done₁ ⟨r11, rax⟩ => ?_
  have masked := loaded.trans (changes_scratch_applyAll (by decide) done₁)
  refine (executes_replaceDivisor r11 rax).append fun m₂ done₂ ⟨r11, rcx⟩ => ?_
  have replaced := masked.trans (changes_scratch_applyAll (by decide) done₂)
  refine Executes.append (Q := fun m' => m'.registers .rax = .word a ∧
    Changes m₂ m' (· = .register .rax)) ?_ fun m₃ _ ⟨rax, changes⟩ => ?_
  · exact applyAll_move_register ((get_steady left replaced).trans hl)
  have kept : ∀ r, r ≠ .rax → m₃.registers r = m₂.registers r :=
    fun r hr => changes.register fun e => hr (Cell.register.inj e)
  refine .cons (apply_cqo rax) (.nil ⟨?_, ?_, ?_, ?_⟩)
  · simp [rax]
  · simp
  · simp [kept, r11]
  · simp [kept, rcx]

/-- A division by anything but zero leaves the quotient and the remainder by the divisor, or by one
if the divisor is `-1`. -/
theorem executes_divide (left : lhs.Steady) (hl : m.get lhs = some (.word a))
    (hr : m.get rhs = some (.word b)) (nonzero : b ≠ 0) :
    m.Executes (divide lhs rhs) fun m' =>
      m'.registers .rax = .word (if b = -1 then a else a / b) ∧
      m'.registers .rdx = .word (a % b) ∧
      m'.registers .rcx = .word (if b = -1 then -1 else 0) := by
  rw [divide_eq]
  refine (executes_prepareDivision left hl hr).append fun m₁ _ ⟨rax, rdx, r11, rcx⟩ => ?_
  have divisor : (if b = -1 then 1 else b) ≠ (0 : Word) ∧ (if b = -1 then 1 else b) ≠ (-1 : Word) := by
    split
    · decide
    · next other => exact ⟨nonzero, other⟩
  refine .cons (apply_idiv rdx rax r11 (divide?_extended a divisor.1 divisor.2)) (.nil ⟨?_, ?_, ?_⟩)
  · simp only [registers_unflagged, registers_put, Cell.register.injEq, reduceCtorEq, if_false, if_true]
    by_cases h : b = -1
    · simp [h]
    · simp [h]
  · simp only [registers_unflagged, registers_put, if_true]
    by_cases h : b = -1
    · simp [h, mod_neg_one]
    · simp [h]
  · simp [rcx]

theorem executes_negateQuotient (rax : m.registers .rax = .word (if b = -1 then a else a / b))
    (rcx : m.registers .rcx = .word (if b = -1 then -1 else 0)) :
    m.Executes negateQuotient fun m' => m'.registers .rax = .word (a / b) := by
  let mask : Word := if b = -1 then -1 else 0
  let quotient : Word := if b = -1 then a else a / b
  refine .cons (apply_alu rfl rax (congrArg some rcx) rfl) ?_
  refine .cons (apply_alu (a := .word (quotient ^^^ mask)) (b := .word mask) rfl
    (by simp [mask, quotient]) (by simp [rcx, mask]) rfl) (.nil ?_)
  have result : (quotient ^^^ mask) - mask = a / b := by
    by_cases h : b = -1
    · simp only [mask, quotient, h, if_true, complement_sub, div_neg_one]
    · simp only [mask, quotient, h, if_false, Int64.xor_zero, Int64.sub_zero]
  simp [result]

/-! ## Operators -/

theorem executes_applyAlu {op : AluOp} (right : rhs.Steady) (hl : m.get lhs = some (.word a))
    (hr : m.get rhs = some (.word b)) (value : op.eval? (.word a) (.word b) = some (.word w)) :
    m.Executes (applyAlu op lhs rhs) fun m' => m'.registers .rax = .word w := by
  refine (executes_load hl).append fun m₁ done rax => ?_
  have changes := changes_scratch_applyAll (inScratch_move rfl lhs) done
  exact .cons (apply_alu right.narrow rax ((get_steady right changes).trans hr) value)
    (.nil (by simp))

theorem executes_applyShift (op : ShiftOp) (left : lhs.Steady) (hl : m.get lhs = some (.word a))
    (hr : m.get rhs = some (.word b)) :
    m.Executes (applyShift op lhs rhs) fun m' => m'.registers .rax = .word (op.eval a b) := by
  rw [applyShift, List.append_assoc]
  refine (executes_load hr).append fun m₁ done rcx => ?_
  have changes := changes_scratch_applyAll (inScratch_move rfl rhs) done
  refine Executes.append (Q := fun m' => m'.registers .rax = .word a ∧
    Changes m₁ m' (· = .register .rax)) ?_ fun m₂ _ ⟨rax, changes'⟩ => ?_
  · exact applyAll_move_register ((get_steady left changes).trans hl)
  · exact .cons (apply_shift rax ((changes'.register (by simp)).trans rcx)) (.nil (by simp))

/-- The code of an operator leaves its value in a register. -/
theorem executes_applyBinary {op : BinaryOp} (left : lhs.Steady) (right : rhs.Steady)
    (hl : m.get lhs = some (.word a)) (hr : m.get rhs = some (.word b)) (value : op.eval? a b = some w) :
    m.Executes (applyBinary op lhs rhs).1 fun m' =>
      m'.registers (applyBinary op lhs rhs).2 = .word w := by
  cases op with
  | add | sub | mul | and | or | xor =>
    exact executes_applyAlu right hl hr (congrArg (Option.map Value.word) value)
  | shl =>
    obtain rfl : ShiftOp.sal.eval a b = w := (sal_eval a b).trans (Option.some.inj value)
    exact executes_applyShift .sal left hl hr
  | shr =>
    obtain rfl : ShiftOp.sar.eval a b = w := (sar_eval a b).trans (Option.some.inj value)
    exact executes_applyShift .sar left hl hr
  | div =>
    rw [BinaryOp.eval?] at value
    split at value
    · cases value
    · next nonzero =>
      cases value
      exact (executes_divide left hl hr nonzero).append fun m₁ _ h => executes_negateQuotient h.1 h.2.2
  | mod =>
    rw [BinaryOp.eval?] at value
    split at value
    · cases value
    · next nonzero =>
      cases value
      exact (executes_divide left hl hr nonzero).imp fun m' _ h => h.2.1

theorem executes_applyUnary (op : UnaryOp) (hl : m.get lhs = some (.word a)) :
    m.Executes (applyUnary op lhs) fun m' => m'.registers .rax = .word (op.eval a) := by
  refine (executes_load hl).append fun m₁ _ rax => ?_
  cases op with
  | neg => exact .cons (apply_neg rax) (.nil (by simp [UnaryOp.eval]))
  | not => exact .cons (apply_not rax) (.nil (by simp [UnaryOp.eval]))

end Machine

end Target

end ThreeAddress
