import ThreeAddress.Proofs.Instr.Construction
/-!
# The signatures of the opcodes

Every opcode but `phi` has a signature: what stands in front of the equals sign and in the two
places behind the opcode. The checked constructors accept just the operands that the signature asks
for, drop none of them and change none of them.

* `Opcode.signature?` : the table of signatures;
* `Signature.Accepts` : the operands that match a signature;
* `Signature.parts`, `Instr.parts` : the operands given and the operands of an instruction, by sort;
* `Instr.build_iff_signature` : the constructors accept the table, and nothing else.
-/

namespace ThreeAddress

/-! ## Signatures -/

/-- What can stand in a place of an instruction. -/
inductive Slot where
  /-- Nothing. -/
  | empty
  /-- A temporary or a global. -/
  | value
  /-- A temporary or a global, or nothing, which means `%_`. -/
  | valueOrSink
  /-- A label. -/
  | label
  /-- A global. -/
  | global
  /-- A decimal integer within bounds. -/
  | integer (least greatest : Int)

namespace Slot

/-- Does the operand, or its absence, match the place? -/
def Accepts : Slot → Option Operand → Prop
  | empty, o => o = none
  | value, o => ∃ v : Var, o = some v.operand
  | valueOrSink, o => o = none ∨ ∃ v : Var, o = some v.operand
  | label, o => ∃ l, o = some (.label l)
  | global, o => ∃ g, o = some (.global g)
  | integer least greatest, o =>
    ∃ text n, o = some (.literal text) ∧ Literal.Denotes text n ∧ least ≤ n ∧ n ≤ greatest

/-- The value that stands in the place. -/
def var? : Slot → Option Operand → Option Var
  | value, some (.temp t) | valueOrSink, some (.temp t) => some (.temp t)
  | value, some (.global g) | valueOrSink, some (.global g) => some (.global g)
  | valueOrSink, none => some .sink
  | _, _ => none

/-- The label that stands in the place. -/
def label? : Slot → Option Operand → Option Label
  | label, some (.label l) => some l
  | _, _ => none

/-- The global that stands in the place, where it is no value. -/
def global? : Slot → Option Operand → Option Global
  | global, some (.global g) => some g
  | _, _ => none

/-- The integer that stands in the place. -/
def integer? : Slot → Option Operand → Option Int
  | integer _ _, some (.literal text) => Literal.integer? text
  | _, _ => none

/-- Is the place one for immediates? -/
def isInteger : Slot → Bool
  | integer _ _ => true
  | _ => false

end Slot

/-- What stands in the places of an instruction. -/
structure Signature where
  /-- In front of the equals sign. -/
  dest : Slot
  /-- Right behind the opcode. -/
  first : Slot
  /-- Behind the comma. -/
  second : Slot

/-- The signatures of the opcodes. A phi has none, since its operands come in pairs. -/
def Opcode.signature? : Opcode → Option Signature
  | nop => some ⟨.empty, .empty, .empty⟩
  | jump | label => some ⟨.empty, .label, .empty⟩
  | branch _ => some ⟨.empty, .value, .label⟩
  | binary _ => some ⟨.value, .value, .value⟩
  | unary _ | copy => some ⟨.value, .value, .empty⟩
  | const => some ⟨.value, .integer (-9223372036854775808) 9223372036854775807, .empty⟩
  | param => some ⟨.empty, .integer 1 4294967295, .value⟩
  | call => some ⟨.valueOrSink, .global, .integer 0 4294967295⟩
  | ret => some ⟨.empty, .valueOrSink, .empty⟩
  | print => some ⟨.empty, .value, .empty⟩
  | phi => none

/-- The opcode with this name takes these operands. -/
def Signature.Of (opcode : String) (s : Signature) : Prop :=
  ∃ op : Opcode, op.name = opcode ∧ op.signature? = some s

/-- Do the destination and the two operands match the signature? -/
def Signature.Accepts (s : Signature) (dest first second : Option Operand) : Prop :=
  s.dest.Accepts dest ∧ s.first.Accepts first ∧ s.second.Accepts second

/-! ## Parts -/

/-- The operands of an instruction, sort by sort. -/
structure Instr.Parts where
  /-- The operand written. -/
  dest : Option Var
  /-- The operands read. -/
  operands : List Var
  /-- The label marked or jumped to. -/
  label : Option Label
  /-- The procedure called. -/
  callee : Option Global
  /-- The constant, the index or the count. -/
  immediate : Option Int

/-- The operands given, each taken for what the signature says it is. -/
def Signature.parts (s : Signature) (dest first second : Option Operand) : Instr.Parts where
  dest := s.dest.var? dest
  operands := (s.first.var? first).toList ++ (s.second.var? second).toList
  label := (s.first.label? first).or (s.second.label? second)
  callee := (s.first.global? first).or (s.second.global? second)
  immediate := (s.first.integer? first).or (s.second.integer? second)

namespace Instr

/-- The label that the instruction marks or jumps to. -/
def label? : Instr → Option Label
  | label l => some l
  | i => i.target?

/-- The procedure that the instruction calls. -/
def callee? : Instr → Option Global
  | call _ callee _ => some callee
  | _ => none

/-- The immediate value of the instruction. -/
def immediate? : Instr → Option Int
  | const _ value => some value.toInt
  | param index _ => some index
  | call _ _ argc => some argc
  | _ => none

/-- The operands of the instruction. -/
def parts (i : Instr) : Instr.Parts := ⟨i.dest?, i.operands, i.label?, i.callee?, i.immediate?⟩

variable {opcode : String} {place : Place} {o dest first second : Option Operand}

/-! ## Plain instructions -/

/-- An instruction is made of operands that match the signature of its opcode, and of all of them. -/
theorem Made.matches {op : Opcode} {i : Instr} (made : Made op dest first second i) :
    ∃ s, op.signature? = some s ∧ s.Accepts dest first second ∧ i.opcode = op.name ∧
      i.parts = s.parts dest first second := by
  cases made with
  | nop => exact ⟨_, rfl, ⟨rfl, rfl, rfl⟩, rfl, rfl⟩
  | jump l | label l => exact ⟨_, rfl, ⟨rfl, ⟨l, rfl⟩, rfl⟩, rfl, rfl⟩
  | branch test arg target =>
    exact ⟨_, rfl, ⟨rfl, ⟨arg, rfl⟩, ⟨target, rfl⟩⟩, rfl, by cases arg <;> rfl⟩
  | binary op dest lhs rhs =>
    refine ⟨_, rfl, ⟨⟨dest, rfl⟩, ⟨lhs, rfl⟩, ⟨rhs, rfl⟩⟩, rfl, ?_⟩
    cases dest <;> cases lhs <;> cases rhs <;> rfl
  | unary _ dest arg | copy dest arg =>
    exact ⟨_, rfl, ⟨⟨dest, rfl⟩, ⟨arg, rfl⟩, rfl⟩, rfl, by cases dest <;> cases arg <;> rfl⟩
  | @const dest text w denotes =>
    have value := Literal.integer?_eq_some_iff.2 denotes
    refine ⟨_, rfl, ⟨⟨dest, rfl⟩, ⟨text, _, rfl, denotes, w.le_toInt, ?_⟩, rfl⟩, rfl, ?_⟩
    · exact Int.le_of_lt_add_one w.toInt_lt
    · simp only [Signature.parts, Slot.integer?, value]
      cases dest <;> rfl
  | @param text index arg denotes lower upper =>
    have value := Literal.integer?_eq_some_iff.2 denotes
    have lower : (1 : Int) ≤ index := by omega
    refine ⟨_, rfl, ⟨rfl, ⟨text, _, rfl, denotes, lower, upper⟩, ⟨arg, rfl⟩⟩, rfl, ?_⟩
    simp only [Signature.parts, Slot.integer?, value]
    cases arg <;> rfl
  | @call dest callee text argc denotes upper =>
    have value := Literal.integer?_eq_some_iff.2 denotes
    have lower := Int.natCast_nonneg argc
    refine ⟨_, rfl, ⟨.inr ⟨dest, rfl⟩, ⟨callee, rfl⟩, ⟨text, _, rfl, denotes, lower, upper⟩⟩, rfl, ?_⟩
    simp only [Signature.parts, Slot.integer?, value]
    cases dest <;> rfl
  | @callToSink callee text argc denotes upper =>
    have value := Literal.integer?_eq_some_iff.2 denotes
    have lower := Int.natCast_nonneg argc
    refine ⟨_, rfl, ⟨.inl rfl, ⟨callee, rfl⟩, ⟨text, _, rfl, denotes, lower, upper⟩⟩, rfl, ?_⟩
    simp only [Signature.parts, Slot.integer?, value]
    rfl
  | ret arg => exact ⟨_, rfl, ⟨rfl, .inr ⟨arg, rfl⟩, rfl⟩, rfl, by cases arg <;> rfl⟩
  | retSink => exact ⟨_, rfl, ⟨rfl, .inl rfl, rfl⟩, rfl, rfl⟩
  | print arg => exact ⟨_, rfl, ⟨rfl, ⟨arg, rfl⟩, rfl⟩, rfl, by cases arg <;> rfl⟩

/-- Operands that match the signature of an opcode make an instruction. -/
theorem exists_made {op : Opcode} {s : Signature} (signature : op.signature? = some s)
    (accepts : s.Accepts dest first second) : ∃ i, Made op dest first second i := by
  obtain ⟨dest_, first_, second_⟩ := accepts
  cases op with
  | nop =>
    cases signature
    cases dest_
    cases first_
    cases second_
    exact ⟨_, .nop⟩
  | jump =>
    cases signature
    cases dest_
    obtain ⟨l, rfl⟩ := first_
    cases second_
    exact ⟨_, .jump l⟩
  | label =>
    cases signature
    cases dest_
    obtain ⟨l, rfl⟩ := first_
    cases second_
    exact ⟨_, .label l⟩
  | branch test =>
    cases signature
    cases dest_
    obtain ⟨arg, rfl⟩ := first_
    obtain ⟨target, rfl⟩ := second_
    exact ⟨_, .branch test arg target⟩
  | binary op =>
    cases signature
    obtain ⟨dest, rfl⟩ := dest_
    obtain ⟨lhs, rfl⟩ := first_
    obtain ⟨rhs, rfl⟩ := second_
    exact ⟨_, .binary op dest lhs rhs⟩
  | unary op =>
    cases signature
    obtain ⟨dest, rfl⟩ := dest_
    obtain ⟨arg, rfl⟩ := first_
    cases second_
    exact ⟨_, .unary op dest arg⟩
  | copy =>
    cases signature
    obtain ⟨dest, rfl⟩ := dest_
    obtain ⟨src, rfl⟩ := first_
    cases second_
    exact ⟨_, .copy dest src⟩
  | const =>
    cases signature
    obtain ⟨dest, rfl⟩ := dest_
    obtain ⟨text, n, rfl, denotes, lower, upper⟩ := first_
    cases second_
    obtain ⟨w, -, rfl⟩ := Literal.exists_parse denotes lower upper
    exact ⟨_, .const dest denotes⟩
  | param =>
    cases signature
    cases dest_
    obtain ⟨text, n, rfl, denotes, lower, upper⟩ := first_
    obtain ⟨arg, rfl⟩ := second_
    obtain ⟨index, rfl⟩ := Int.eq_ofNat_of_zero_le (Int.le_trans Int.one_nonneg lower)
    exact ⟨_, .param arg denotes (by omega) upper⟩
  | call =>
    cases signature
    obtain ⟨callee, rfl⟩ := first_
    obtain ⟨text, n, rfl, denotes, lower, upper⟩ := second_
    obtain ⟨argc, rfl⟩ := Int.eq_ofNat_of_zero_le lower
    obtain rfl | ⟨dest, rfl⟩ := dest_
    · exact ⟨_, .callToSink callee denotes upper⟩
    · exact ⟨_, .call dest callee denotes upper⟩
  | ret =>
    cases signature
    cases dest_
    cases second_
    obtain rfl | ⟨arg, rfl⟩ := first_
    · exact ⟨_, .retSink⟩
    · exact ⟨_, .ret arg⟩
  | print =>
    cases signature
    cases dest_
    obtain ⟨arg, rfl⟩ := first_
    cases second_
    exact ⟨_, .print arg⟩
  | phi => cases signature

/-! ## Literals out of range -/

/-- If the computation finds a literal out of range, then one of which this holds. -/
def Blames {α : Type} (P : String → Prop) (x : Except InstrError α) : Prop :=
  ∀ literal, x = .error (.literalOutOfRange literal) → P literal

namespace Blames

variable {α β : Type} {P : String → Prop}

theorem ok {a : α} : Blames P (.ok a : Except InstrError α) := fun _ h => by cases h

theorem malformed {reason : Mismatch} :
    Blames P (.error (.malformed opcode reason) : Except InstrError α) := fun _ h => by cases h

theorem bind {x : Except InstrError α} {f : α → Except InstrError β} (first : Blames P x)
    (next : ∀ a, Blames P (f a)) : Blames P (x >>= f) := by
  cases x with
  | error e =>
    intro literal h
    exact first literal (by cases h; rfl)
  | ok a => exact next a

theorem noDest : Blames P (expectNoDest opcode o) := by
  cases o
  · exact ok
  · exact malformed

theorem absent : Blames P (expectAbsent opcode place o) := by
  cases o
  · exact ok
  · exact malformed

theorem var : Blames P (expectVar opcode place o) := by
  rcases o with _ | (t | g | l | text)
  · exact malformed
  · exact ok
  · exact ok
  · exact malformed
  · exact malformed

theorem label : Blames P (expectLabel opcode o) := by
  rcases o with _ | (t | g | l | text)
  · exact malformed
  · exact malformed
  · exact malformed
  · exact ok
  · exact malformed

theorem global : Blames P (expectGlobal opcode o) := by
  rcases o with _ | (t | g | l | text)
  · exact malformed
  · exact malformed
  · exact ok
  · exact malformed
  · exact malformed

theorem count {least : Int} {reason : Mismatch} {w : Word} :
    Blames P (expectCount opcode least reason w) := by
  rw [expectCount]
  split
  · exact ok
  · exact malformed

theorem temp {o : Operand} : Blames P (expectTemp place o) := by
  cases o with
  | temp t =>
    rw [expectTemp]
    split
    · exact malformed
    · exact ok
  | _ => exact malformed

end Blames

/-- The operand is a literal for an integer, and that integer is no word. -/
def OutOfRange (literal : String) (o : Option Operand) : Prop :=
  o = some (.literal literal) ∧ ∃ n, Literal.Denotes literal n ∧
    (n < -9223372036854775808 ∨ 9223372036854775807 < n)

/-- The only check that finds literals out of range. -/
theorem blames_expectWord : Blames (OutOfRange · o) (expectWord opcode o) := by
  rcases o with _ | (t | g | l | text)
  · exact .malformed
  · exact .malformed
  · exact .malformed
  · exact .malformed
  · intro literal h
    obtain ⟨rfl, n, denotes, outside⟩ := Literal.of_parse_eq_literalOutOfRange h
    exact ⟨rfl, n, denotes, outside⟩

/-- Only an immediate is found out of range. -/
theorem blames_buildOpcode (op : Opcode) :
    Blames (fun literal => ∃ s, op.signature? = some s ∧
      (s.first.isInteger = true ∧ OutOfRange literal first ∨
        s.second.isInteger = true ∧ OutOfRange literal second))
      (buildOpcode op dest first second) := by
  cases op with
  | nop => exact .bind .noDest fun _ => .bind .absent fun _ => .bind .absent fun _ => .ok
  | jump | label => exact .bind .noDest fun _ => .bind .label fun _ => .bind .absent fun _ => .ok
  | branch test => exact .bind .noDest fun _ => .bind .var fun _ => .bind .label fun _ => .ok
  | binary op => exact .bind .var fun _ => .bind .var fun _ => .bind .var fun _ => .ok
  | unary op | copy => exact .bind .var fun _ => .bind .var fun _ => .bind .absent fun _ => .ok
  | const =>
    exact .bind .var fun _ =>
      .bind (fun l h => ⟨_, rfl, .inl ⟨rfl, blames_expectWord l h⟩⟩) fun _ =>
        .bind .absent fun _ => .ok
  | param =>
    exact .bind .noDest fun _ =>
      .bind (fun l h => ⟨_, rfl, .inl ⟨rfl, blames_expectWord l h⟩⟩) fun _ =>
        .bind .count fun _ => .bind .var fun _ => .ok
  | call =>
    rw [buildOpcode]
    split
    all_goals
      refine .bind ?_ fun _ => .bind .global fun _ =>
        .bind (fun l h => ⟨_, rfl, .inr ⟨rfl, blames_expectWord l h⟩⟩) fun _ =>
          .bind .count fun _ => .ok
      first | exact .var | exact .ok
  | ret =>
    refine .bind .noDest fun _ => ?_
    dsimp only
    split
    · exact .bind .var fun _ => .bind .absent fun _ => .ok
    · exact .bind .ok fun _ => .bind .absent fun _ => .ok
  | print => exact .bind .noDest fun _ => .bind .var fun _ => .bind .absent fun _ => .ok
  | phi => exact .malformed

/-! ## From names and lists of operands -/

variable {args : List Operand} {i : Instr}

/-- A name that is an opcode with at most two operands is built by its opcode, and nothing else is
built. -/
theorem build_cases (opcode : String) (dest : Option Operand) (args : List Operand) :
    (∃ op : Opcode, op.name = opcode ∧ args.length ≤ 2 ∧
      build opcode dest args = buildOpcode op dest args[0]? args[1]?) ∨
    (¬ ((∃ op : Opcode, op.name = opcode) ∧ args.length ≤ 2) ∧
      ∃ reason, build opcode dest args = .error (.malformed opcode reason)) := by
  by_cases known : ∃ op : Opcode, op.name = opcode
  · obtain ⟨op, rfl⟩ := known
    by_cases few : args.length ≤ 2
    · exact .inl ⟨op, rfl, few, build_name op dest few⟩
    · refine .inr ⟨fun h => few h.2, .tooManyOperands, ?_⟩
      match args with
      | [] | [_] | [_, _] => simp at few
      | _ :: _ :: _ :: _ => rw [build, Opcode.ofName?_name]
  · refine .inr ⟨fun h => known h.1, .unknownOpcode, ?_⟩
    have unknown : Opcode.ofName? opcode = none := by
      refine List.find?_eq_none.2 fun op _ same => known ⟨op, eq_of_beq same⟩
    rw [build, unknown]

/-- No two opcodes share their name. -/
theorem signature_eq {op : Opcode} {s : Signature} (h : Signature.Of op.name s) :
    op.signature? = some s := by
  obtain ⟨other, same, signature⟩ := h
  have ofName := Opcode.ofName?_name other
  rw [same, Opcode.ofName?_name, Option.some.injEq] at ofName
  exact ofName ▸ signature

theorem exists_build_iff : (∃ i, build opcode dest args = .ok i) ↔
    ∃ s, Signature.Of opcode s ∧ args.length ≤ 2 ∧ s.Accepts dest args[0]? args[1]? := by
  obtain ⟨op, rfl, few, same⟩ | ⟨not, reason, failed⟩ := build_cases opcode dest args
  · rw [same]
    constructor
    · rintro ⟨i, built⟩
      obtain ⟨s, signature, accepts, -⟩ := (made_of_buildOpcode built).matches
      exact ⟨s, ⟨op, rfl, signature⟩, few, accepts⟩
    · rintro ⟨s, of, -, accepts⟩
      obtain ⟨i, made⟩ := exists_made (signature_eq of) accepts
      exact ⟨i, buildOpcode_of_made made⟩
  · constructor
    · rintro ⟨i, built⟩
      cases built.symm.trans failed
    · rintro ⟨s, ⟨op, name, -⟩, few, -⟩
      exact absurd ⟨⟨op, name⟩, few⟩ not

/-- What is built has just the operands given. -/
theorem parts_of_build {s : Signature} (of : Signature.Of opcode s)
    (h : build opcode dest args = .ok i) :
    i.opcode = opcode ∧ i.parts = s.parts dest args[0]? args[1]? := by
  obtain ⟨op, rfl, -, same⟩ | ⟨-, reason, failed⟩ := build_cases opcode dest args
  · obtain ⟨s', signature, -, name, parts⟩ := (made_of_buildOpcode (same.symm.trans h)).matches
    rw [signature_eq of, Option.some.injEq] at signature
    exact ⟨name, signature ▸ parts⟩
  · cases failed.symm.trans h

/-- An immediate operand for this opcode that is an integer but no word. -/
def BadImmediate (opcode : String) (args : List Operand) (literal : String) : Prop :=
  ∃ s, Signature.Of opcode s ∧
    (s.first.isInteger = true ∧ OutOfRange literal args[0]? ∨
      s.second.isInteger = true ∧ OutOfRange literal args[1]?)

theorem blames_build : Blames (BadImmediate opcode args) (build opcode dest args) := by
  obtain ⟨op, rfl, -, same⟩ | ⟨-, reason, failed⟩ := build_cases opcode dest args
  · intro literal h
    obtain ⟨s, signature, bad⟩ := blames_buildOpcode op literal (same.symm.trans h)
    exact ⟨s, ⟨op, rfl, signature⟩, bad⟩
  · rw [failed]
    exact .malformed

/-! ## Phis -/

/-- The operand is a temporary other than `%_`. -/
def IsNamedTemp (o : Operand) : Prop := ∃ t, o = .temp t ∧ t ≠ Temp.sink

section Phi

variable {pairs : List (Origin × Operand)} {gathered m : SortedMap Origin Temp} {edge : Origin}

theorem exists_gatherPhiArgs_iff : (∃ m, gatherPhiArgs pairs gathered = .ok m) ↔
    (∀ p ∈ pairs, IsNamedTemp p.2) ∧ (pairs.map Prod.fst).Nodup ∧
      ∀ p ∈ pairs, gathered.get? p.1 = none := by
  induction pairs generalizing gathered with
  | nil => simp [gatherPhiArgs]
  | cons p pairs ih =>
    obtain ⟨edge, arg⟩ := p
    simp only [gatherPhiArgs_cons, List.forall_mem_cons, List.map_cons, List.nodup_cons,
      List.mem_map, not_exists, not_and]
    constructor
    · rintro ⟨m, t, rfl, named, absent, more⟩
      obtain ⟨temps, nodup, fresh⟩ := ih.1 ⟨m, more⟩
      have apart : ∀ q ∈ pairs, q.1 ≠ edge := by
        intro q mem same
        have found := fresh q mem
        rw [SortedMap.get?_insert, if_pos same] at found
        cases found
      refine ⟨⟨⟨t, rfl, named⟩, temps⟩, ⟨apart, nodup⟩, absent, fun q mem => ?_⟩
      have found := fresh q mem
      rwa [SortedMap.get?_insert, if_neg (apart q mem)] at found
    · rintro ⟨⟨⟨t, rfl, named⟩, temps⟩, ⟨apart, nodup⟩, absent, fresh⟩
      obtain ⟨m, more⟩ := (@ih (gathered.insert edge t)).2 ⟨temps, nodup, fun q mem => by
        rw [SortedMap.get?_insert, if_neg (apart q mem)]
        exact fresh q mem⟩
      exact ⟨m, t, rfl, named, absent, more⟩

/-- The arguments gathered are the pairs given, and what was there before. -/
theorem get?_gatherPhiArgs {t : Temp} (h : gatherPhiArgs pairs gathered = .ok m) :
    m.get? edge = some t ↔ gathered.get? edge = some t ∨ (edge, .temp t) ∈ pairs := by
  induction pairs generalizing gathered with
  | nil =>
    cases h
    simp
  | cons p pairs ih =>
    obtain ⟨other, arg⟩ := p
    obtain ⟨u, rfl, -, absent, more⟩ := gatherPhiArgs_cons.1 h
    rw [ih more, SortedMap.get?_insert, List.mem_cons, Prod.mk.injEq, Operand.temp.injEq]
    by_cases same : edge = other
    · subst same
      simp only [if_true, absent, Option.some.injEq, reduceCtorEq, false_or, true_and]
      exact or_congr eq_comm Iff.rfl
    · simp only [same, if_false, false_and, false_or]

theorem blames_gatherPhiArgs : Blames (fun _ => False) (gatherPhiArgs pairs gathered) := by
  induction pairs generalizing gathered with
  | nil => exact .ok
  | cons p pairs ih =>
    refine .bind .temp fun t => ?_
    split
    · exact .malformed
    · exact ih

theorem exists_buildPhi_iff {dest : Operand} : (∃ i, buildPhi dest pairs = .ok i) ↔
    IsNamedTemp dest ∧ (∀ p ∈ pairs, IsNamedTemp p.2) ∧ (pairs.map Prod.fst).Nodup := by
  have fresh : (∃ m, gatherPhiArgs pairs ∅ = .ok m) ↔
      (∀ p ∈ pairs, IsNamedTemp p.2) ∧ (pairs.map Prod.fst).Nodup := by
    rw [exists_gatherPhiArgs_iff]
    simp
  rw [← fresh]
  constructor
  · rintro ⟨i, built⟩
    obtain ⟨t, m, rfl, named, more, -⟩ := buildPhi_eq_ok.1 built
    exact ⟨⟨t, rfl, named⟩, m, more⟩
  · rintro ⟨⟨t, rfl, named⟩, m, more⟩
    exact ⟨_, buildPhi_eq_ok.2 ⟨t, m, rfl, named, more, rfl⟩⟩

theorem blames_buildPhi {dest : Operand} : Blames (fun _ => False) (buildPhi dest pairs) :=
  .bind .temp fun _ => .bind blames_gatherPhiArgs fun _ => .ok

end Phi

/-! ## The constructors and the table -/

/-- The constructors accept the table of opcodes, and nothing else. An instruction is built from just
the opcodes and operands that match a signature, and it has that opcode and those operands; a phi is
built from just the temporaries on edges that are listed once. A literal is found out of range only
if it is an immediate operand and an integer that is no word. -/
theorem build_iff_signature (opcode : String) (dest : Option Operand) (args : List Operand)
    (phiDest : Operand) (pairs : List (Origin × Operand)) :
    ((∃ i, build opcode dest args = .ok i) ↔
      ∃ s, Signature.Of opcode s ∧ args.length ≤ 2 ∧ s.Accepts dest args[0]? args[1]?) ∧
    (∀ i s, build opcode dest args = .ok i → Signature.Of opcode s →
      i.opcode = opcode ∧ i.parts = s.parts dest args[0]? args[1]?) ∧
    (∀ literal, build opcode dest args = .error (.literalOutOfRange literal) →
      BadImmediate opcode args literal) ∧
    ((∃ i, buildPhi phiDest pairs = .ok i) ↔
      IsNamedTemp phiDest ∧ (∀ p ∈ pairs, IsNamedTemp p.2) ∧ (pairs.map Prod.fst).Nodup) ∧
    (∀ i, buildPhi phiDest pairs = .ok i → ∃ t m, i = phi t m ∧ phiDest = .temp t ∧
      ∀ edge u, m.get? edge = some u ↔ (edge, .temp u) ∈ pairs) ∧
    ∀ literal, buildPhi phiDest pairs ≠ .error (.literalOutOfRange literal) := by
  refine ⟨exists_build_iff, fun i s built of => parts_of_build of built, blames_build,
    exists_buildPhi_iff, fun i built => ?_, blames_buildPhi⟩
  obtain ⟨t, m, same, -, more, rfl⟩ := buildPhi_eq_ok.1 built
  refine ⟨t, m, rfl, same, fun edge u => ?_⟩
  rw [get?_gatherPhiArgs more]
  simp

/-- The least word may have leading zeros, the number above the greatest word is out of range, and a
phi takes one argument on an edge. -/
theorem build_iff_signature_bounds :
    (∃ s, Signature.Of "const" s ∧
      s.Accepts (some (.temp .sink)) (some (.literal "-0009223372036854775808")) none) ∧
    BadImmediate "const" [.literal "9223372036854775808"] "9223372036854775808" ∧
    (∃ t m, buildPhi (.temp ⟨"x", none⟩) [(.entry, .temp ⟨"y", none⟩)] = .ok (phi t m) ∧
      m.get? .entry = some ⟨"y", none⟩) ∧
    ¬ ∃ i, buildPhi (.temp ⟨"x", none⟩)
      [(.entry, .temp ⟨"y", none⟩), (.entry, .temp ⟨"z", none⟩)] = .ok i := by
  obtain ⟨accepted, -, -, once, arguments, -⟩ := build_iff_signature "const" (some (.temp .sink))
    [.literal "-0009223372036854775808"] (.temp ⟨"x", none⟩) [(.entry, .temp ⟨"y", none⟩)]
  obtain ⟨-, -, bad, twice, -⟩ := build_iff_signature "const" (some (.temp .sink))
    [.literal "9223372036854775808"] (.temp ⟨"x", none⟩)
    [(.entry, .temp ⟨"y", none⟩), (.entry, .temp ⟨"z", none⟩)]
  obtain ⟨s, of, -, accepts⟩ := accepted.1 ⟨const .sink (-9223372036854775808), by rfl⟩
  obtain ⟨i, built⟩ := once.2 ⟨⟨_, rfl, by decide⟩, by simp [IsNamedTemp, Temp.sink], by simp⟩
  obtain ⟨t, m, rfl, -, get⟩ := arguments i built
  refine ⟨⟨s, of, accepts⟩, bad _ rfl, ⟨t, m, built, (get _ _).2 List.mem_cons_self⟩, fun built => ?_⟩
  have nodup := (twice.1 built).2.2
  simp at nodup

end Instr

end ThreeAddress
