import ThreeAddress.Proofs.Instr.Construction
import ThreeAddress.Proofs.Source.Items
import ThreeAddress.Source.Diagnostic
/-!
# Written instructions

An instruction is written as an item, and the item is checked and made into the instruction again.

* `Instr.item` : the item that an instruction is written as;
* `Instr.isProper`, `Instr.fits` : the instructions that can be written;
* `Instr.text_item` : the text of an instruction is that of its item;
* `Instr.build_item` : the item makes the instruction.
-/

namespace ThreeAddress

/-! ## Instructions that can be written -/

namespace Var

/-- Can the operand be written, if its version is not too great? -/
def isProper : Var → Bool
  | temp t => t.isProper
  | global g => g.isWritten

theorem text_operand (v : Var) : v.operand.text = v.text := by cases v <;> rfl

end Var

namespace Instr

/-- The item that an instruction is written as. -/
def item : Instr → Item
  | nop => .instr none Opcode.nop.name (.plain [])
  | label l => .label l
  | jump target => .instr none Opcode.jump.name (.plain [.label target])
  | branch test arg target =>
    .instr none (Opcode.branch test).name (.plain [arg.operand, .label target])
  | binary op dest lhs rhs =>
    .instr (some dest.operand) (Opcode.binary op).name (.plain [lhs.operand, rhs.operand])
  | unary op dest arg => .instr (some dest.operand) (Opcode.unary op).name (.plain [arg.operand])
  | const dest value =>
    .instr (some dest.operand) Opcode.const.name (.plain [.literal (wordText value)])
  | copy dest src => .instr (some dest.operand) Opcode.copy.name (.plain [src.operand])
  | param index arg =>
    .instr none Opcode.param.name (.plain [.literal (decimalText index), arg.operand])
  | call dest callee argc =>
    .instr (if dest.isSink then none else some dest.operand) Opcode.call.name
      (.plain [.global callee, .literal (decimalText argc)])
  | ret arg => .instr none Opcode.ret.name (.plain (if arg.isSink then [] else [arg.operand]))
  | print arg => .instr none Opcode.print.name (.plain [arg.operand])
  | phi dest args =>
    .instr (some (.temp dest)) Opcode.phi.name (.pairs (args.toList.map fun e => (e.1, .temp e.2)))

/-- Can all names and counts of the instruction be written, if no version is too great? -/
def isProper : Instr → Bool
  | nop => true
  | label l | jump l => l.isWritten
  | branch _ arg target => arg.isProper && target.isWritten
  | binary _ dest lhs rhs => dest.isProper && lhs.isProper && rhs.isProper
  | unary _ dest arg | copy dest arg => dest.isProper && arg.isProper
  | const dest _ => dest.isProper
  | param index arg => decide (1 ≤ index ∧ (index : Int) ≤ maxArguments) && arg.isProper
  | call dest callee argc =>
    dest.isProper && callee.isWritten && decide ((argc : Int) ≤ maxArguments)
  | ret arg | print arg => arg.isProper
  | phi dest args => dest.isNamed && args.toList.all fun e => e.1.isWritten && e.2.isNamed

/-- Arguments are counted from one. -/
theorem pos_of_isProper {index : Nat} {arg : Var} (h : (param index arg).isProper = true) :
    1 ≤ index := by
  simp only [isProper, Bool.and_eq_true, decide_eq_true_eq] at h
  exact h.1.1

/-- Is no version of the instruction too great? -/
def fits (i : Instr) : Bool := i.temps.all Temp.fits

end Instr

/-! ## Text -/

/-- The text of an instruction is that of its item. -/
theorem Instr.text_item (i : Instr) : i.item.text = i.text := by
  rw [← String.toList_inj]
  cases i with
  | label l => rfl
  | call dest callee argc =>
    cases sink : dest.isSink <;>
      simp [item, text, Item.text, Arguments.text, Var.text_operand, sink, Opcode.name]
  | ret arg =>
    cases sink : arg.isSink <;>
      simp [item, text, Item.text, Arguments.text, Var.text_operand, sink, Opcode.name]
  | phi dest args =>
    simp [item, text, Item.text, Arguments.text, Function.comp_def, Opcode.name]
  | _ =>
    simp [item, text, Item.text, Arguments.text, Var.text_operand, Opcode.name]

/-! ## Checked construction -/

/-- A key above all others comes last. -/
theorem SortedMap.insertAt_last {κ ν : Type} [Ord κ] [Std.TransOrd κ] {k : κ} {v : ν} {l : List (κ × ν)}
    (above : ∀ e ∈ l, compare e.1 k = .lt) : SortedMap.insertAt k v l = l ++ [(k, v)] := by
  induction l with
  | nil => rfl
  | cons e l ih =>
    have gt : compare k e.1 = .gt := Std.OrientedCmp.gt_of_lt (above e List.mem_cons_self)
    rw [insertAt, gt, List.cons_append]
    exact congrArg (e :: ·) (ih fun f hf => above f (List.mem_cons_of_mem _ hf))

namespace Instr

/-- The arguments of a phi are gathered in the order of their edges. -/
theorem gatherPhiArgs_toList {args gathered : SortedMap Origin Temp} {es : List (Origin × Temp)}
    (named : ∀ e ∈ es, e.2.isNamed = true) (all : gathered.toList ++ es = args.toList) :
    gatherPhiArgs (es.map fun e => (e.1, .temp e.2)) gathered = .ok args := by
  induction es generalizing gathered with
  | nil =>
    obtain ⟨l, sorted⟩ := gathered
    rw [List.append_nil] at all
    subst all
    rfl
  | cons e es ih =>
    have ascending := args.ascending
    rw [← all] at ascending
    have above : ∀ f ∈ gathered.toList, compare f.1 e.1 = .lt := fun f hf =>
      (List.pairwise_append.1 ascending).2.2 f hf e List.mem_cons_self
    have absent : gathered.get? e.1 = none := by
      refine Option.eq_none_iff_forall_ne_some.2 fun v hv => ?_
      have same := above _ (SortedMap.get?_eq_some.1 hv)
      simp at same
    have last : (gathered.insert e.1 e.2).toList ++ es = args.toList := by
      have inserted : (gathered.insert e.1 e.2).toList = gathered.toList ++ [e] :=
        SortedMap.insertAt_last above
      rw [inserted, List.append_assoc]
      exact all
    have more := ih (fun f hf => named f (List.mem_cons_of_mem _ hf)) last
    exact gatherPhiArgs_cons.2
      ⟨e.2, rfl, Temp.ne_sink_of_isNamed (named e List.mem_cons_self), absent, more⟩

/-- An item of plain operands makes what its opcode makes of them. -/
theorem build_plain {op : Opcode} {dest : Option Operand} {args : List Operand} {i : Instr}
    (few : args.length ≤ 2) (made : Made op dest args[0]? args[1]? i) :
    (Item.instr dest op.name (.plain args)).build = .ok i :=
  mapError_eq_ok_iff.2 ((build_name op dest few).trans (buildOpcode_of_made made))

theorem isSink_eq_true {v : Var} (h : v.isSink = true) : v = .sink := eq_of_beq h

/-- The item of an instruction makes the instruction. -/
theorem build_item {i : Instr} (proper : i.isProper = true) : i.item.build = .ok i := by
  cases i with
  | nop => exact build_plain (by simp) .nop
  | label l => rfl
  | jump target => exact build_plain (by simp) (.jump target)
  | branch test arg target => exact build_plain (by simp) (.branch test arg target)
  | binary op dest lhs rhs => exact build_plain (by simp) (.binary op dest lhs rhs)
  | unary op dest arg => exact build_plain (by simp) (.unary op dest arg)
  | const dest value =>
    exact build_plain (by simp) (.const dest (Literal.denotes_wordText value))
  | copy dest src => exact build_plain (by simp) (.copy dest src)
  | param index arg =>
    simp only [isProper, Bool.and_eq_true, decide_eq_true_eq] at proper
    obtain ⟨⟨lower, upper⟩, -⟩ := proper
    exact build_plain (by simp) (.param arg (Literal.denotes_decimalText index) lower upper)
  | call dest callee argc =>
    simp only [isProper, Bool.and_eq_true, decide_eq_true_eq] at proper
    obtain ⟨-, upper⟩ := proper
    have denotes := Literal.denotes_decimalText argc
    rw [item]
    split
    · next sink =>
      rw [isSink_eq_true sink]
      exact build_plain (by simp) (.callToSink callee denotes upper)
    · exact build_plain (by simp) (.call dest callee denotes upper)
  | ret arg =>
    rw [item]
    split
    · next sink =>
      rw [isSink_eq_true sink]
      exact build_plain (by simp) .retSink
    · exact build_plain (by simp) (.ret arg)
  | print arg => exact build_plain (by simp) (.print arg)
  | phi dest args =>
    simp only [isProper, Bool.and_eq_true, List.all_eq_true] at proper
    obtain ⟨named, all⟩ := proper
    have gathered : gatherPhiArgs (args.toList.map fun e => (e.1, .temp e.2)) ∅ = .ok args :=
      gatherPhiArgs_toList (fun e he => (all e he).2) rfl
    exact mapError_eq_ok_iff.2
      (buildPhi_eq_ok.2 ⟨dest, args, rfl, Temp.ne_sink_of_isNamed named, gathered, rfl⟩)

end Instr

/-! ## Items that can be written -/

/-- The operand of a variable can be written. -/
theorem Var.isWritten_operand {v : Var} (proper : v.isProper = true)
    (fits : v.named?.all Temp.fits = true) : v.operand.isWritten = true := by
  cases v with
  | global g => exact proper
  | temp t =>
    rw [operand, Operand.isWritten, Bool.and_eq_true]
    refine ⟨proper, ?_⟩
    cases sink : t.isSink with
    | true =>
      rw [show t = Temp.sink from eq_of_beq sink]
      rfl
    | false => simpa [Var.named?, sink] using fits

theorem Var.isSome_destination? (v : Var) (written : v.operand.isWritten = true) :
    (Grammar.destination? v.operand.token).isSome = true := by
  cases v with
  | temp t =>
    obtain ⟨proper, fits⟩ := Bool.and_eq_true_iff.1 written
    simp [operand, Operand.token, Grammar.destination?, Temp.ofText?_name proper fits]
  | global g => rfl

namespace Instr

theorem isSpelled_opcode (op : Opcode) : (Token.word op.name).isSpelled = true := by
  cases op with
  | branch test => cases test <;> decide
  | binary op => cases op <;> decide
  | unary op => cases op <;> decide
  | _ => decide

/-- The variables of an instruction that can be written can be written. -/
theorem isWritten_var {i : Instr} (proper : i.isProper = true) (small : i.fits = true) {v : Var}
    (hv : v ∈ i.dest?.toList ++ i.operands) : v.operand.isWritten = true := by
  refine Var.isWritten_operand ?_ ?_
  · cases i <;> simp only [isProper, Bool.and_eq_true] at proper <;>
      simp only [dest?, operands, Option.toList_some, Option.toList_none, List.nil_append,
        List.append_nil, List.cons_append, List.mem_cons, List.not_mem_nil, or_false] at hv <;>
      grind
  · cases named : v.named? with
    | none => rfl
    | some t =>
      refine List.all_eq_true.1 small t (List.mem_append_left _ ?_)
      rcases List.mem_append.1 hv with dest | operand
      · have defined : i.dest? = some v := Option.mem_toList.1 dest
        refine List.mem_append_left _ (Option.mem_toList.2 ?_)
        cases i with
        | phi => cases defined
        | _ => simp only [def?, defined, Option.bind_some, named]
      · exact List.mem_append_right _ (List.mem_filterMap.2 ⟨v, operand, named⟩)

/-- The item of an instruction that can be written can be written. -/
theorem isWritten_item {i : Instr} (proper : i.isProper = true) (small : i.fits = true) :
    i.item.isWritten = true := by
  have vars := fun v => @isWritten_var i proper small v
  cases i with
  | label l => exact proper
  | phi dest args =>
    simp only [isProper, Bool.and_eq_true, List.all_eq_true] at proper
    have written : ∀ t ∈ (phi dest args).temps, t.isNamed = true →
        (Operand.temp t).isWritten = true := fun t ht named => by
      rw [Operand.isWritten_temp, Temp.isProper, named, Bool.or_true, List.all_eq_true.1 small t ht]
      rfl
    have dest_ := written dest (by simp [temps, def?]) proper.1
    have args_ : ∀ e ∈ args.toList, e.1.isWritten = true ∧ (Operand.temp e.2).isWritten = true :=
      fun e he => ⟨(proper.2 e he).1, written e.2 (List.mem_append_right _
        (List.mem_map.2 ⟨e, he, rfl⟩)) (proper.2 e he).2⟩
    have kind := Var.isSome_destination? (.temp dest) dest_
    rw [item, Item.isWritten, isSpelled_opcode, Bool.and_true, Bool.and_eq_true, Option.all_some,
      Bool.and_eq_true]
    refine ⟨⟨dest_, kind⟩, List.all_eq_true.2 fun e he => ?_⟩
    obtain ⟨e', he', rfl⟩ := List.mem_map.1 he
    exact Bool.and_eq_true_iff.2 (args_ e' he')
  | call dest callee argc =>
    simp only [isProper, Bool.and_eq_true] at proper
    simp only [dest?, operands, Option.toList_some, List.append_nil, List.mem_singleton, forall_eq] at vars
    cases sink : dest.isSink <;>
      simp [item, Item.isWritten, Arguments.isWritten, isSpelled_opcode, Var.isSome_destination?,
        isNumberText_decimalText, proper, vars, sink]
  | ret arg =>
    simp only [dest?, operands, Option.toList_none, List.nil_append, List.mem_singleton, forall_eq] at vars
    cases sink : arg.isSink <;>
      simp [item, Item.isWritten, Arguments.isWritten, isSpelled_opcode, vars, sink]
  | _ =>
    simp [isProper] at proper
    simp [dest?, operands] at vars
    simp [item, Item.isWritten, Arguments.isWritten, isSpelled_opcode, Var.isSome_destination?,
      isNumberText_decimalText, isNumberText_wordText, proper, vars]

end Instr

end ThreeAddress
