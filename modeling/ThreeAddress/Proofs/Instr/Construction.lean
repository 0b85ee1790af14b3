import ThreeAddress.Instr.Build
import ThreeAddress.Proofs.Instr.Literals
import ThreeAddress.Proofs.Results
/-!
# Construction of instructions

The checked constructor tests one operand after the other. What it makes of them can be said without
that order, opcode by opcode.

* `Var.operand` : the operand that a variable is written as;
* `Instr.expectVar_eq_ok_iff` and its like : what each check accepts;
* `Instr.Made` : the instructions of each opcode, with the operands that they are made of;
* `Instr.buildOpcode_eq_ok_iff` : the constructor makes these and no others;
* `Opcode.ofName?_name`, `Instr.build_name` : an opcode is found by its name.
-/

namespace ThreeAddress

namespace Var

/-- The operand as it is written. -/
def operand : Var → Operand
  | temp t => .temp t
  | global g => .global g

end Var

namespace Instr

variable {opcode : String} {place : Place} {o dest first second : Option Operand} {u : Unit}

/-! ## What each check accepts -/

theorem expectNoDest_eq_ok_iff : expectNoDest opcode o = .ok u ↔ o = none := by
  cases o <;> simp [expectNoDest]

theorem expectAbsent_eq_ok_iff : expectAbsent opcode place o = .ok u ↔ o = none := by
  cases o <;> simp [expectAbsent]

theorem expectVar_eq_ok_iff {v : Var} :
    expectVar opcode place o = .ok v ↔ o = some v.operand := by
  rcases o with _ | (t | g | l | text) <;> cases v <;> simp [expectVar, Var.operand]

theorem expectLabel_eq_ok_iff {l : Label} : expectLabel opcode o = .ok l ↔ o = some (.label l) := by
  rcases o with _ | (t | g | l | text) <;> simp [expectLabel]

theorem expectGlobal_eq_ok_iff {g : Global} :
    expectGlobal opcode o = .ok g ↔ o = some (.global g) := by
  rcases o with _ | (t | g | l | text) <;> simp [expectGlobal]

theorem expectWord_eq_ok_iff {w : Word} : expectWord opcode o = .ok w ↔
    ∃ text, o = some (.literal text) ∧ Literal.Denotes text w.toInt := by
  rcases o with _ | (t | g | l | text) <;> simp [expectWord, Literal.parse_eq_ok_iff]

theorem expectCount_eq_ok_iff {least : Int} {reason : Mismatch} {w : Word} {n : Nat}
    (nonneg : 0 ≤ least) : expectCount opcode least reason w = .ok n ↔
      w.toInt = n ∧ least ≤ w.toInt ∧ w.toInt ≤ maxArguments := by
  rw [expectCount]
  split
  · next bounds =>
    rw [Except.ok.injEq]
    omega
  · next outside => simp [outside]

theorem expectTemp_eq_ok_iff {o : Operand} {t : Temp} :
    expectTemp place o = .ok t ↔ o = .temp t ∧ t ≠ Temp.sink := by
  cases o with
  | temp u =>
    rw [expectTemp, Operand.temp.injEq]
    by_cases sink : u = Temp.sink
    · subst sink
      simp only [Temp.isSink, beq_self_eq_true, if_true, reduceCtorEq, false_iff]
      rintro ⟨rfl, other⟩
      exact other rfl
    · simp only [Temp.isSink, beq_iff_eq, sink, if_false, Except.ok.injEq]
      constructor
      · rintro rfl
        exact ⟨rfl, sink⟩
      · exact fun h => h.1
  | _ => simp [expectTemp]

/-- A literal for a number of arguments passes for a word and for a count. -/
theorem exists_count {text : String} {n : Nat} {least : Int} (denotes : Literal.Denotes text n)
    (nonneg : 0 ≤ least) (lower : least ≤ n) (upper : (n : Int) ≤ maxArguments) (opcode : String)
    (reason : Mismatch) : ∃ w, expectWord opcode (some (.literal text)) = .ok w ∧
      expectCount opcode least reason w = .ok n := by
  have small : (n : Int) ≤ Literal.greatest := Int.le_trans upper (by decide)
  have above : Literal.least ≤ n := Int.le_trans (by decide) (Int.natCast_nonneg n)
  obtain ⟨w, word, value⟩ := Literal.exists_parse denotes above small
  exact ⟨w, word, (expectCount_eq_ok_iff nonneg).2 ⟨value, value ▸ lower, value ▸ upper⟩⟩

/-! ## The instructions of an opcode -/

/-- The instructions that the opcodes make, each with the destination and the two operands given. A
destination and a result may be left out, and then `%_` stands for them. -/
inductive Made : Opcode → Option Operand → Option Operand → Option Operand → Instr → Prop
  | nop : Made .nop none none none nop
  | jump (target : Label) : Made .jump none (some (.label target)) none (jump target)
  | label (l : Label) : Made .label none (some (.label l)) none (label l)
  | branch (test : Test) (arg : Var) (target : Label) :
    Made (.branch test) none (some arg.operand) (some (.label target)) (branch test arg target)
  | binary (op : BinaryOp) (dest lhs rhs : Var) :
    Made (.binary op) (some dest.operand) (some lhs.operand) (some rhs.operand)
      (binary op dest lhs rhs)
  | unary (op : UnaryOp) (dest arg : Var) :
    Made (.unary op) (some dest.operand) (some arg.operand) none (unary op dest arg)
  | const (dest : Var) {text : String} {value : Word}
    (denotes : Literal.Denotes text value.toInt) :
    Made .const (some dest.operand) (some (.literal text)) none (const dest value)
  | copy (dest src : Var) : Made .copy (some dest.operand) (some src.operand) none (copy dest src)
  | param {text : String} {index : Nat} (arg : Var) (denotes : Literal.Denotes text index)
    (lower : 1 ≤ index) (upper : (index : Int) ≤ maxArguments) :
    Made .param none (some (.literal text)) (some arg.operand) (param index arg)
  | call (dest : Var) (callee : Global) {text : String} {argc : Nat}
    (denotes : Literal.Denotes text argc) (upper : (argc : Int) ≤ maxArguments) :
    Made .call (some dest.operand) (some (.global callee)) (some (.literal text))
      (call dest callee argc)
  | callToSink (callee : Global) {text : String} {argc : Nat}
    (denotes : Literal.Denotes text argc) (upper : (argc : Int) ≤ maxArguments) :
    Made .call none (some (.global callee)) (some (.literal text)) (call .sink callee argc)
  | ret (arg : Var) : Made .ret none (some arg.operand) none (ret arg)
  | retSink : Made .ret none none none (ret .sink)
  | print (arg : Var) : Made .print none (some arg.operand) none (print arg)

theorem made_of_buildOpcode {op : Opcode} {i : Instr} (h : buildOpcode op dest first second = .ok i) :
    Made op dest first second i := by
  cases op with
  | nop =>
    simp only [buildOpcode, bind_eq_ok_iff, expectNoDest_eq_ok_iff, expectAbsent_eq_ok_iff] at h
    obtain ⟨_, rfl, _, rfl, _, rfl, ⟨⟩⟩ := h
    exact .nop
  | jump =>
    simp only [buildOpcode, bind_eq_ok_iff, expectNoDest_eq_ok_iff, expectLabel_eq_ok_iff,
      expectAbsent_eq_ok_iff] at h
    obtain ⟨_, rfl, l, rfl, _, rfl, ⟨⟩⟩ := h
    exact .jump l
  | label =>
    simp only [buildOpcode, bind_eq_ok_iff, expectNoDest_eq_ok_iff, expectLabel_eq_ok_iff,
      expectAbsent_eq_ok_iff] at h
    obtain ⟨_, rfl, l, rfl, _, rfl, ⟨⟩⟩ := h
    exact .label l
  | branch test =>
    simp only [buildOpcode, bind_eq_ok_iff, expectNoDest_eq_ok_iff, expectVar_eq_ok_iff,
      expectLabel_eq_ok_iff] at h
    obtain ⟨_, rfl, arg, rfl, l, rfl, ⟨⟩⟩ := h
    exact .branch test arg l
  | binary op =>
    simp only [buildOpcode, bind_eq_ok_iff, expectVar_eq_ok_iff] at h
    obtain ⟨d, rfl, l, rfl, r, rfl, ⟨⟩⟩ := h
    exact .binary op d l r
  | unary op =>
    simp only [buildOpcode, bind_eq_ok_iff, expectVar_eq_ok_iff, expectAbsent_eq_ok_iff] at h
    obtain ⟨d, rfl, arg, rfl, _, rfl, ⟨⟩⟩ := h
    exact .unary op d arg
  | copy =>
    simp only [buildOpcode, bind_eq_ok_iff, expectVar_eq_ok_iff, expectAbsent_eq_ok_iff] at h
    obtain ⟨d, rfl, src, rfl, _, rfl, ⟨⟩⟩ := h
    exact .copy d src
  | const =>
    simp only [buildOpcode, bind_eq_ok_iff, expectVar_eq_ok_iff, expectWord_eq_ok_iff,
      expectAbsent_eq_ok_iff] at h
    obtain ⟨d, rfl, w, ⟨text, rfl, denotes⟩, _, rfl, ⟨⟩⟩ := h
    exact .const d denotes
  | param =>
    simp only [buildOpcode, bind_eq_ok_iff, expectNoDest_eq_ok_iff, expectWord_eq_ok_iff,
      expectCount_eq_ok_iff Int.one_nonneg, expectVar_eq_ok_iff] at h
    obtain ⟨_, rfl, w, ⟨text, rfl, denotes⟩, n, ⟨count, lower, upper⟩, arg, rfl, ⟨⟩⟩ := h
    rw [count] at denotes lower upper
    exact .param arg denotes (by omega) upper
  | call =>
    simp only [buildOpcode] at h
    split at h <;> simp only [bind_eq_ok_iff, expectVar_eq_ok_iff, expectGlobal_eq_ok_iff,
      expectWord_eq_ok_iff, expectCount_eq_ok_iff (Int.le_refl 0)] at h
    · obtain ⟨d, rfl, g, rfl, w, ⟨text, rfl, denotes⟩, n, ⟨count, -, upper⟩, ⟨⟩⟩ := h
      rw [count] at denotes upper
      exact .call d g denotes upper
    · next absent =>
      obtain rfl := Option.not_isSome_iff_eq_none.1 absent
      obtain ⟨d, ⟨⟩, g, rfl, w, ⟨text, rfl, denotes⟩, n, ⟨count, -, upper⟩, ⟨⟩⟩ := h
      rw [count] at denotes upper
      exact .callToSink g denotes upper
  | ret =>
    simp only [buildOpcode, bind_eq_ok_iff, expectNoDest_eq_ok_iff] at h
    obtain ⟨_, rfl, h⟩ := h
    split at h <;> simp only [bind_eq_ok_iff, expectVar_eq_ok_iff, expectAbsent_eq_ok_iff] at h
    · obtain ⟨arg, rfl, _, rfl, ⟨⟩⟩ := h
      exact .ret arg
    · next absent =>
      obtain rfl := Option.not_isSome_iff_eq_none.1 absent
      obtain ⟨arg, ⟨⟩, _, rfl, ⟨⟩⟩ := h
      exact .retSink
  | print =>
    simp only [buildOpcode, bind_eq_ok_iff, expectNoDest_eq_ok_iff, expectVar_eq_ok_iff,
      expectAbsent_eq_ok_iff] at h
    obtain ⟨_, rfl, arg, rfl, _, rfl, ⟨⟩⟩ := h
    exact .print arg
  | phi => cases h

theorem expectVar_operand (opcode : String) (place : Place) (v : Var) :
    expectVar opcode place (some v.operand) = .ok v := expectVar_eq_ok_iff.2 rfl

theorem buildOpcode_of_made {op : Opcode} {i : Instr} (h : Made op dest first second i) :
    buildOpcode op dest first second = .ok i := by
  cases h with
  | nop | jump | label | retSink => rfl
  | branch | binary | unary | copy | ret | print =>
    simp [buildOpcode, expectNoDest, expectVar_operand, expectLabel, expectAbsent, bind, Except.bind,
      pure, Except.pure]
  | @const dest text value denotes =>
    have word : expectWord Opcode.const.name (some (.literal text)) = .ok value :=
      expectWord_eq_ok_iff.2 ⟨text, rfl, denotes⟩
    simp [buildOpcode, expectVar_operand, word, expectAbsent, bind, Except.bind, pure, Except.pure]
  | param arg denotes lower upper =>
    obtain ⟨w, word, count⟩ := exists_count denotes Int.one_nonneg (by omega) upper
      Opcode.param.name .badArgumentIndex
    simp [buildOpcode, expectNoDest, expectVar_operand, word, count, bind, Except.bind, pure,
      Except.pure]
  | call dest callee denotes upper | callToSink callee denotes upper =>
    obtain ⟨w, word, count⟩ := exists_count denotes (Int.le_refl 0) (Int.natCast_nonneg _) upper
      Opcode.call.name .badArgumentCount
    simp [buildOpcode, expectVar_operand, expectGlobal, word, count, bind, Except.bind, pure,
      Except.pure]

/-- The constructor makes the instructions of the opcode, and no others. -/
theorem buildOpcode_eq_ok_iff {op : Opcode} {i : Instr} :
    buildOpcode op dest first second = .ok i ↔ Made op dest first second i :=
  ⟨made_of_buildOpcode, buildOpcode_of_made⟩

/-! ## Phis -/

section Phi

variable {pairs : List (Origin × Operand)} {gathered m : SortedMap Origin Temp} {edge : Origin}

/-- Arguments are added to a phi as long as they are temporaries on new edges. -/
theorem gatherPhiArgs_cons {arg : Operand} : gatherPhiArgs ((edge, arg) :: pairs) gathered = .ok m ↔
    ∃ t, arg = .temp t ∧ t ≠ Temp.sink ∧ gathered.get? edge = none ∧
      gatherPhiArgs pairs (gathered.insert edge t) = .ok m := by
  rw [gatherPhiArgs, bind_eq_ok_iff]
  refine exists_congr fun t => ?_
  rw [expectTemp_eq_ok_iff, and_assoc]
  refine and_congr_right fun _ => and_congr_right fun _ => ?_
  cases present : gathered.get? edge <;> simp [SortedMap.contains, present]

theorem buildPhi_eq_ok {dest : Operand} {i : Instr} : buildPhi dest pairs = .ok i ↔
    ∃ t m, dest = .temp t ∧ t ≠ Temp.sink ∧ gatherPhiArgs pairs ∅ = .ok m ∧ i = phi t m := by
  simp only [buildPhi, bind_eq_ok_iff, expectTemp_eq_ok_iff, pure, Except.pure, Except.ok.injEq]
  constructor
  · rintro ⟨t, ⟨rfl, named⟩, m, more, rfl⟩
    exact ⟨t, m, rfl, named, more, rfl⟩
  · rintro ⟨t, m, rfl, named, more, rfl⟩
    exact ⟨t, ⟨rfl, named⟩, m, more, rfl⟩

end Phi

end Instr

/-! ## Names of opcodes -/

theorem Opcode.ofName?_name (op : Opcode) : ofName? op.name = some op := by
  cases op with
  | branch test => cases test <;> decide
  | binary op => cases op <;> decide
  | unary op => cases op <;> decide
  | _ => decide

/-- With at most two operands, an opcode is built by its name. -/
theorem Instr.build_name (op : Opcode) (dest : Option Operand) {args : List Operand}
    (few : args.length ≤ 2) : build op.name dest args = buildOpcode op dest args[0]? args[1]? := by
  rw [build, Opcode.ofName?_name]
  match args with
  | [] | [_] | [_, _] => rfl
  | _ :: _ :: _ :: _ => simp at few

end ThreeAddress
