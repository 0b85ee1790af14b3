import ThreeAddress.Proofs.Activation.Renaming
import ThreeAddress.Proofs.FlowGraph.Build
import ThreeAddress.Proofs.Liveness.Rounds
import ThreeAddress.Proofs.Lowering.Legal
import ThreeAddress.Proofs.Lowering.Scratch
/-!
# Lowering succeeds

Lowering asks for the homes of the temporaries that an instruction mentions, and for slots to save
registers in. Where they are given it has a result, and the check finds nothing wrong with it. No
code relies on scratch registers written by the code in front of it, apart from the function that is
entered with some of its arguments in them.

* `Layout.Covers` : what lowering relies on;
* `Layout.Covers.lower`, `Layout.Covers.lowerInstr` : instructions;
* `Layout.Covers.lowerBlocks`, `Layout.Covers.enter` : blocks, and the code in front of them;
* `FlowGraph.succeeds_lower` : a whole function;
* `Layout.covers_ofAssignment` : which assignments are enough;
* `FlowGraph.check_lower` : any assignment of slots and registers can be lowered to legal code.
-/

namespace ThreeAddress

open Target

/-- What lowering relies on about the homes and the frame of a procedure. -/
structure Layout.Covers (layout : Layout) (g : FlowGraph) : Prop where
  /-- Temporaries have homes whose value does not depend on scratch registers. -/
  homes : ∀ t ∈ g.temps, ∃ l, layout.locations.get? t = some l ∧ (place l).Steady
  callee : ∀ r ∈ layout.frame.calleeSaved, r.isScratch = false
  /-- If anything is called, registers that calls overwrite have slots. -/
  saved : (∃ i ∈ g.code, i.isCall = true) → ∀ t r, layout.locations.get? t = some (.register r) →
    r.isCallerSaved = true → r ∈ layout.frame.callerSaved
  /-- Calls do not have so many arguments that the stack cannot be moved behind them. -/
  few : ∀ i ∈ g.code, i.count < 2 ^ 20

namespace Layout

variable {layout : Layout} {g : FlowGraph} {l : Location} {i : Instr} {v : Var} {t : Temp}
  {after : SortedSet Temp}

/-! ## Operands -/

theorem assignable_place (l : Location) : (place l).Assignable := by
  cases l with
  | register r => exact Operand.assignable_register r
  | slot n => exact Operand.assignable_frame _

theorem Covers.home (h : layout.Covers g) (ht : t ∈ g.temps) :
    Succeeds (layout.home t) fun o => o.Assignable ∧ o.Steady := by
  obtain ⟨l, found, steady⟩ := h.homes t ht
  exact ⟨place l, home_eq_ok.2 ⟨l, found, rfl⟩, assignable_place l, steady⟩

theorem steady_symbol (name : String) : (Target.Operand.symbol name).Steady :=
  ⟨List.forall_mem_nil _, rfl⟩

theorem assignable_symbol (name : String) : (Target.Operand.symbol name).Assignable :=
  ⟨(fun _ e => by cases e), List.forall_mem_nil _⟩

/-- What an instruction reads can be read anywhere. -/
theorem Covers.source (h : layout.Covers g) (hi : i ∈ g.code) (hv : v ∈ i.operands) :
    Succeeds (layout.source v) Target.Operand.Steady := by
  rcases v.cases_named with ⟨t, rfl, named, used⟩ | ⟨rfl, -⟩ | ⟨global, rfl, -⟩
  · have ht : t ∈ i.temps :=
      Instr.mem_temps.2 (.inr (.inl (List.mem_filterMap.2 ⟨_, hv, used⟩)))
    simp only [Layout.source, named, Bool.false_eq_true, if_false]
    exact (h.home (FlowGraph.mem_temps_of_mem_code hi ht)).imp fun _ => And.right
  · exact .ok ⟨List.forall_mem_nil _, rfl⟩
  · exact .ok (steady_symbol _)

/-- What an instruction writes can be written, unless it is discarded. -/
theorem Covers.destination (h : layout.Covers g) (hi : i ∈ g.code) (hv : i.dest? = some v) :
    Succeeds (layout.destination v) fun dst => ∀ o ∈ dst, o.Assignable := by
  rcases v.cases_named with ⟨t, rfl, named, defined⟩ | ⟨rfl, -⟩ | ⟨global, rfl, -⟩
  · have ht : t ∈ i.temps := by
      refine Instr.mem_temps.2 (.inl ?_)
      cases i with
      | binary | unary | const | copy | call => exact (congrArg (·.bind Var.named?) hv).trans defined
      | _ => cases hv
    obtain ⟨o, found, assignable, -⟩ := h.home (FlowGraph.mem_temps_of_mem_code hi ht)
    refine ⟨some o, ?_, ?_⟩
    · simp only [Layout.destination, Var.isSink_temp, Layout.source, named, Bool.false_eq_true,
        if_false, found]
      rfl
    · intro o' ho
      cases ho
      exact assignable
  · refine ⟨none, rfl, ?_⟩
    intro o ho
    cases ho
  · refine ⟨some (.symbol global.name), rfl, ?_⟩
    intro o ho
    cases ho
    exact assignable_symbol _

/-! ## Instructions -/

theorem Covers.writeBack (h : layout.Covers g) (hi : i ∈ g.code) (hv : i.dest? = some v)
    (r : Register) : Succeeds (layout.writeBack v r) (Legal [r] · []) := by
  refine (h.destination hi hv).bind fun dst assignable => ?_
  cases dst with
  | none => exact .ok Legal.nil.forget
  | some o =>
    exact .ok (legal_move (assignable o rfl)
      (Operand.readAmong_register fun _ => List.mem_cons_self)).forget

/-- The registers kept across a call are homes, no scratch registers. -/
theorem Covers.kept_not_scratch (h : layout.Covers g) (inside : ∀ t ∈ after, t ∈ g.temps)
    (result : Option Register) : ∀ r ∈ layout.kept after result, r.isScratch = false := by
  intro r hr
  obtain ⟨⟨t, live, home⟩, -, -⟩ := mem_kept.1 hr
  obtain ⟨l, found, steady⟩ := h.homes t (inside t live)
  obtain rfl : l = .register r := Option.some.inj (found.symm.trans home)
  exact steady.read r (List.mem_singleton.2 rfl)

/-- They can be saved. -/
theorem Covers.save (h : layout.Covers g) (inside : ∀ t ∈ after, t ∈ g.temps) (hi : i ∈ g.code)
    (call : i.isCall = true) (result : Option Register) :
    Succeeds (layout.save (layout.kept after result)) (Legal [] · []) := by
  have slots : (layout.kept after result).find? (fun r => (layout.frame.saved? r).isNone) = none := by
    refine List.find?_eq_none.2 fun r hr => ?_
    obtain ⟨⟨t, -, home⟩, caller, -⟩ := mem_kept.1 hr
    obtain ⟨n, slot⟩ := Frame.exists_saveSlot?.2 (.inr (h.saved ⟨i, hi, call⟩ t r home caller))
    simp [Frame.saved?_eq, slot]
  rw [Layout.save, slots]
  exact .ok (legal_store (h.kept_not_scratch inside result))

/-- The code of an instruction that is not about control. -/
theorem Covers.lower (h : layout.Covers g) (inside : ∀ t ∈ after, t ∈ g.temps) (hi : i ∈ g.code) :
    Succeeds (layout.lower after i) (Legal [] · []) := by
  cases i with
  | nop | label | phi | jump | branch => exact .ok .nil
  | binary op dest lhs rhs =>
    refine (h.source hi List.mem_cons_self).bind fun l left => ?_
    refine (h.source hi (List.mem_cons_of_mem _ List.mem_cons_self)).bind fun r right => ?_
    have applied := legal_applyBinary op left right
    generalize applyBinary op l r = made at applied ⊢
    exact (h.writeBack hi rfl made.2).bind fun back written => .ok (applied.append written)
  | unary op dest arg =>
    refine (h.source hi List.mem_cons_self).bind fun src steady => ?_
    exact (h.writeBack hi rfl .rax).bind fun back written =>
      .ok ((legal_applyUnary op steady).append written)
  | const dest value =>
    refine (h.destination hi rfl).bind fun dst assignable => ?_
    cases dst with
    | none => exact .ok .nil
    | some o => exact .ok (legal_move (assignable o rfl) (Operand.readAmong_immediate value))
  | copy dest src =>
    refine (h.destination hi rfl).bind fun dst assignable => ?_
    cases dst with
    | none => exact .ok .nil
    | some o =>
      exact (h.source hi List.mem_cons_self).bind fun src steady =>
        .ok (legal_move (assignable o rfl) steady.readAmong)
  | param index arg =>
    exact (h.source hi List.mem_cons_self).bind fun src steady =>
      .ok (legal_move (Operand.assignable_frame _) steady.readAmong)
  | call dest callee argc =>
    refine (h.destination hi rfl).bind fun dst assignable => ?_
    refine (h.save inside hi rfl _).bind fun saving saved => .ok ?_
    have called := saved.append (legal_callFunction layout.frame callee.name (h.few _ hi))
    refine (called.append (legal_restore _)).append ?_
    cases dst with
    | none => exact Legal.nil.forget
    | some o =>
      exact (legal_move (assignable o rfl)
        (Operand.readAmong_register fun _ => List.mem_cons_self)).forget
  | print arg =>
    refine (h.save inside hi rfl none).bind fun saving saved => ?_
    refine (h.source hi List.mem_cons_self).bind fun src steady => .ok ?_
    have passed := saved.append (legal_move (Operand.assignable_register .rdi) steady.readAmong)
    exact ((passed.append (Legal.call _)).append (legal_restore _)).forget
  | ret arg =>
    refine (h.source hi List.mem_cons_self).bind fun src steady => .ok ?_
    have result : Legal [] (if src = .immediate 0 then [zeroResult] else move (.register .rax) src)
        [.rax] := by
      split
      · exact legal_zeroResult
      · exact legal_load .rax steady.readAmong
    exact result.append legal_leave

/-! ## Moves on edges -/

/-- What is asked of moves that are made between homes. -/
def HomeMoves (moves : List Move) : Prop := ∀ m ∈ moves, m.dst.Assignable ∧ m.src.Steady

theorem legal_homeMoves {moves : List Move} (h : HomeMoves moves) : Legal [] (moveAll moves) [] :=
  legal_moveAll (fun m hm => (h m hm).1) fun m hm => ⟨(h m hm).2.narrow, (h m hm).2.readAmong⟩

theorem Covers.phiMoves (h : layout.Covers g) (origin : Origin) {phis : List Instr}
    (temps : ∀ i ∈ phis, ∀ t ∈ i.temps, t ∈ g.temps) :
    Succeeds (phiMoves layout origin phis) HomeMoves := by
  induction phis with
  | nil => exact .ok (List.forall_mem_nil _)
  | cons i phis ih =>
    have rest := ih fun j hj => temps j (List.mem_cons_of_mem _ hj)
    have here := temps i List.mem_cons_self
    cases i with
    | phi dest args =>
      rw [ThreeAddress.phiMoves]
      cases found : args.get? origin with
      | none => exact rest
      | some arg =>
        have harg : arg ∈ (Instr.phi dest args).temps := List.mem_append_right _
          (List.mem_map.2 ⟨_, SortedMap.get?_eq_some.1 found, rfl⟩)
        refine (h.home (here dest List.mem_cons_self)).bind fun dst place => ?_
        refine (h.home (here arg harg)).bind fun src value => ?_
        refine rest.bind fun more moves => .ok ?_
        split
        · exact moves
        · exact List.forall_mem_cons.2 ⟨⟨place.1, value.2⟩, moves⟩
    | _ =>
      rw [ThreeAddress.phiMoves]
      · exact rest
      · simp

theorem Covers.edgeMoves (h : layout.Covers g) (origin : Origin) (target : Label) :
    Succeeds (g.edgeMoves layout origin target) HomeMoves := by
  rw [FlowGraph.edgeMoves]
  split
  · next b found =>
    refine h.phiMoves origin fun i hi t ht => ?_
    exact FlowGraph.mem_temps_of_mem_temps (List.mem_of_find?_eq_some found)
      (List.takeWhile_subset _ hi) ht
  · exact .ok (List.forall_mem_nil _)

end Layout

/-! ## Code with detours -/

/-- The code is legal, and so is that of each of its detours. -/
structure Code.Legal (c : Code) : Prop where
  instrs : Target.Legal [] c.instrs []
  detours : ∀ d ∈ c.detours, Target.Legal [] d.code []

theorem Code.legal_straight {instrs : List Target.Instr} (h : Target.Legal [] instrs []) :
    (Code.straight instrs).Legal := ⟨h, List.forall_mem_nil _⟩

theorem Code.Legal.append {c d : Code} (h : c.Legal) (h' : d.Legal) : (c ++ d).Legal :=
  ⟨h.instrs.append h'.instrs, List.forall_mem_append.2 ⟨h.detours, h'.detours⟩⟩

/-- A value is compared with zero. -/
theorem legal_compareCode {src : Target.Operand} (steady : src.Steady) :
    Legal [] (FlowGraph.compareCode src) [] := by
  cases src with
  | register | memory => exact (Legal.plain (plain_cmp_zero rfl steady.readAmong)).forget
  | immediate w =>
    have loaded : Legal [] [.mov (.register .rax) (.immediate w)] [.rax] :=
      .plain (plain_mov_register .rax (Operand.readAmong_immediate w))
    have compared : Legal [.rax] [.cmp (.register .rax) (.immediate 0)] [] :=
      (Legal.plain (by decide)).forget
    exact loaded.append compared

namespace Layout

variable {layout : Layout} {g : FlowGraph} {live : Liveness}

theorem Covers.lowerInstr (h : layout.Covers g) (block : Label) (n : Nat) {after : SortedSet Temp}
    (inside : ∀ t ∈ after, t ∈ g.temps) {i : Instr} (hi : i ∈ g.code) :
    Succeeds (g.lowerInstr layout block n after i) Code.Legal := by
  cases i with
  | jump target =>
    refine (h.edgeMoves (.block block) target).bind fun moves made => .ok (Code.legal_straight ?_)
    exact (legal_homeMoves made).append (Legal.plain (plain_jmp _)).forget
  | branch test arg target =>
    refine (h.source hi List.mem_cons_self).bind fun src steady => ?_
    have compared := legal_compareCode steady
    rw [FlowGraph.compareCode] at compared
    generalize loadTested src = loaded at compared ⊢
    refine (h.edgeMoves (.block block) target).bind fun moves made => ?_
    split
    · exact .ok (Code.legal_straight (compared.append (Legal.plain (plain_jcc _ _)).forget))
    · refine .ok ⟨compared.append (Legal.plain (plain_jcc _ _)).forget, fun d hd => ?_⟩
      rw [List.mem_singleton.1 hd]
      exact (Legal.label _).append ((legal_homeMoves made).append (Legal.plain (plain_jmp _)).forget)
  | _ => exact (h.lower inside hi).bind fun code legal => .ok (Code.legal_straight legal)

theorem Covers.lowerBody (h : layout.Covers g) (block : Label) (n : Nat)
    {points : List (Instr × InstrLive)}
    (inside : ∀ e ∈ points, e.1 ∈ g.code ∧ ∀ t ∈ e.2.after, t ∈ g.temps) :
    Succeeds (g.lowerBody layout block n points) Code.Legal := by
  induction points generalizing n with
  | nil => exact .ok (Code.legal_straight .nil)
  | cons e rest ih =>
    obtain ⟨hi, after⟩ := inside e List.mem_cons_self
    refine (h.lowerInstr block n after hi).bind fun code legal => ?_
    refine (ih _ fun e he => inside e (List.mem_cons_of_mem _ he)).bind fun more legal' => .ok ?_
    exact legal.append legal'

theorem Covers.lowerFallThrough (h : layout.Covers g) (block : Label) (next : Option Label) :
    Succeeds (g.lowerFallThrough layout block next) (Legal [] · []) := by
  cases next with
  | none => exact .ok legal_leaveZero
  | some target =>
    exact (h.edgeMoves (.block block) target).bind fun moves made => .ok (legal_homeMoves made)

theorem Covers.lowerBlock (h : layout.Covers g) (nodup : g.labels.Nodup)
    (found : g.liveness = .ok live) (n : Nat) {b : Block} (hb : b ∈ g.blocks)
    (next : Option Label) : Succeeds (g.lowerBlock live layout n b next) Code.Legal := by
  have inside : ∀ e ∈ b.body.zip (live.instrs b.label),
      e.1 ∈ g.code ∧ ∀ t ∈ e.2.after, t ∈ g.temps := fun e he =>
    ⟨FlowGraph.mem_code.2 ⟨b, hb, (List.of_mem_zip he).1⟩,
      fun t ht => FlowGraph.mem_temps_of_mem_after nodup found hb he ht⟩
  refine (h.lowerBody b.label n inside).bind fun body legal => ?_
  have together : ∀ {code}, Legal [] code [] →
      (Code.straight [.label (layout.blockName b.label)] ++ body ++ .straight code).Legal :=
    fun falling => ((Code.legal_straight (Legal.label _)).append legal).append
      (Code.legal_straight falling)
  cases b.fallsThrough with
  | false => exact .ok (together .nil)
  | true =>
    exact (h.lowerFallThrough b.label next).bind fun code falling => .ok (together falling)

theorem Covers.lowerBlocks (h : layout.Covers g) (nodup : g.labels.Nodup)
    (found : g.liveness = .ok live) (n : Nat) {bs : List Block} (inside : bs ⊆ g.blocks) :
    Succeeds (g.lowerBlocks live layout n bs) Code.Legal := by
  induction bs generalizing n with
  | nil => exact .ok (Code.legal_straight .nil)
  | cons b rest ih =>
    obtain ⟨hb, inside⟩ := List.cons_subset.1 inside
    refine (h.lowerBlock nodup found n hb _).bind fun code legal => ?_
    exact (ih _ inside).bind fun more legal' => .ok (legal.append legal')

/-! ## Entering a function -/

/-- The moves of parameters read only the registers that arguments are in. -/
theorem Covers.registerParams (h : layout.Covers g) {params : List (Temp × Register)}
    (inside : ∀ e ∈ params, e.1 ∈ g.params ∧ e.2 ∈ Register.arguments) :
    Succeeds (layout.registerParams params) fun moves => ∀ m ∈ moves, m.dst.Assignable ∧
      m.src.wide? = none ∧ m.src.ReadAmong Register.arguments := by
  induction params with
  | nil => exact .ok (List.forall_mem_nil _)
  | cons e rest ih =>
    obtain ⟨t, r⟩ := e
    obtain ⟨⟨param, arrives⟩, inside⟩ := List.forall_mem_cons.1 inside
    rw [Layout.registerParams]
    split
    · exact ih inside
    · next named =>
      have mem := FlowGraph.mem_temps_of_param param (Bool.eq_false_iff.2 named)
      refine (h.home mem).bind fun dst place => ?_
      refine (ih inside).bind fun more moves => .ok ?_
      split
      · exact moves
      · have moved := Operand.readAmong_register fun _ => arrives
        exact List.forall_mem_cons.2 ⟨⟨place.1, rfl, moved⟩, moves⟩

theorem Covers.stackParams (h : layout.Covers g) (offset : Int32) {params : List Temp}
    (inside : params ⊆ g.params) : Succeeds (layout.stackParams offset params) (Legal [] · []) := by
  induction params generalizing offset with
  | nil => exact .ok .nil
  | cons t rest ih =>
    obtain ⟨param, inside⟩ := List.cons_subset.1 inside
    rw [Layout.stackParams]
    split
    · exact ih _ inside
    · next named =>
      have mem := FlowGraph.mem_temps_of_param param (Bool.eq_false_iff.2 named)
      refine (h.home mem).bind fun dst place => ?_
      refine (ih _ inside).bind fun more legal => .ok ?_
      have loaded :
          Legal [] [.mov (.register .r11) (.memory ⟨.register .rbp, offset.toInt⟩)] [.r11] :=
        .plain (plain_mov_register .r11 (Operand.steady_frame _).readAmong)
      have stored : Legal [.r11] (move dst (.register .r11)) [] :=
        (legal_move place.1 (Operand.readAmong_register fun _ => List.mem_cons_self)).forget
      exact loaded.append (stored.append legal)

/-- The frame is set up without scratch registers. -/
theorem Covers.legal_setUp (h : layout.Covers g) (known : List Register) :
    Legal known layout.setUp known := by
  have saved : Legal known (layout.store layout.frame.calleeSaved) known := legal_store h.callee
  have based : ∀ i ∈ [Target.Instr.push (.register .rbp), .mov (.register .rbp) (.register .rsp)],
      i.Plain known := by
    intro i hi
    rcases List.mem_cons.1 hi with rfl | hi
    · exact plain_push rfl (Operand.readAmong_register fun scratch => by cases scratch)
    · rw [List.mem_singleton.1 hi]
      exact plain_mov_register .rbp (Operand.readAmong_register fun scratch => by cases scratch)
  rw [setUp]
  refine ((Legal.all based).append ?_).append saved
  split
  · exact .one (plain_alu .sub (fun scratch => by cases scratch) (wide?_toInt64 _)
      (Operand.readAmong_immediate _))
  · exact .nil

theorem Covers.enter (h : layout.Covers g) :
    Succeeds (layout.enter g) (Legal Register.arguments · []) := by
  have inside : ∀ e ∈ g.params.zip Register.arguments, e.1 ∈ g.params ∧ e.2 ∈ Register.arguments :=
    fun _ => List.of_mem_zip
  refine (h.registerParams inside).bind fun inRegisters moved => ?_
  refine (h.stackParams firstStackParam (List.drop_subset _ g.params)).bind fun onStack loaded => ?_
  have arrived := (h.legal_setUp Register.arguments).append
    (legal_moveAll (fun m hm => (moved m hm).1) fun m hm => (moved m hm).2)
  have together : ∀ {moves}, HomeMoves moves → Legal Register.arguments
      (layout.setUp ++ moveAll inRegisters ++ onStack ++ moveAll moves) [] :=
    fun made => (arrived.forget.append loaded).append (legal_homeMoves made)
  cases g.entry? with
  | none => exact .ok (together (List.forall_mem_nil _))
  | some entry => exact (h.edgeMoves .entry entry).bind fun moves made => .ok (together made)

end Layout

/-! ## Functions -/

theorem legal_detours {detours : List Detour} (h : ∀ d ∈ detours, Legal [] d.code []) :
    Legal [] (detours.flatMap Detour.code) [] := by
  induction detours with
  | nil => exact .nil
  | cons d rest ih =>
    obtain ⟨first, more⟩ := List.forall_mem_cons.1 h
    exact first.append (ih more)

/-- If all temporaries have homes, the procedure has a function, which passes the check. -/
theorem FlowGraph.succeeds_lower {g : FlowGraph} {a : Assignment} {live : Liveness}
    (h : (Layout.ofAssignment g a).Covers g) (nodup : g.labels.Nodup)
    (found : g.liveness = .ok live) : Succeeds (g.lower live a) fun f => f.check = .ok () := by
  refine h.enter.bind fun entering entered => ?_
  refine (h.lowerBlocks nodup found 0 (List.Subset.refl _)).bind fun code legal => .ok ?_
  have whole := (entered.append legal.instrs).append (legal_detours legal.detours)
  have entry : ∀ r ∈ Register.arguments, r.isScratch = true → r ∈ writtenOnEntry :=
    fun _ hr scratch => SortedSet.mem_ofList.2 (List.mem_filter.2 ⟨hr, scratch⟩)
  rw [Function.check, whole.check entry]

/-! ## Any assignment -/

namespace Layout

variable {g : FlowGraph} {a : Assignment}

/-- Any assignment is what lowering relies on that gives all temporaries slots or registers of the
palette. Whether the homes of temporaries are apart does not matter, nor where others live. -/
theorem covers_ofAssignment
    (homes : ∀ t ∈ g.temps, ∃ l, a.locations.get? t = some l ∧
      ∀ r, l = .register r → r ∈ Register.palette)
    (few : ∀ i ∈ g.code, i.count < 2 ^ 20) : (ofAssignment g a).Covers g where
  homes t ht := by
    obtain ⟨l, found, palette⟩ := homes t ht
    exact ⟨l, found, steady_place_of_palette palette⟩
  callee r hr := by
    have callee := (List.mem_filter.1 hr).2
    revert callee
    cases r <;> decide
  saved := by
    rintro ⟨i, hi, call⟩ t r home caller
    have calls : g.code.any Instr.isCall = true := List.any_eq_true.2 ⟨i, hi, call⟩
    simp only [ofAssignment, calls, if_true]
    exact List.mem_filter.2 ⟨mem_registers.2 ⟨t, home⟩, caller⟩
  few

end Layout

namespace FlowGraph

/-- Whatever homes the temporaries of a procedure are given, as long as they are slots and registers
of the palette, lowering has a result that passes the check, on the live sets of the procedure and
with phis or without: every instruction of it is allowed behind those in front of it. The assignment
may be no coloring: several temporaries that are live at once may share a home, and slots may be
given out that nothing is spilled to. -/
theorem check_lower {g : FlowGraph} {a : Assignment} (wf : g.WellFormed)
    (homes : ∀ t ∈ g.temps, ∃ l, a.locations.get? t = some l ∧
      ∀ r, l = .register r → r ∈ Register.palette)
    (few : ∀ i ∈ g.code, i.count < 2 ^ 20) :
    ∃ live, g.liveness = .ok live ∧ ∃ f, g.lower live a = .ok f ∧ f.check = .ok () ∧
      ∀ (k : Nat) (i : Target.Instr), f.instrs[k]? = some i → i.Allowed (f.instrs.take k) := by
  obtain ⟨live, found⟩ := exists_liveness wf.nodup
  have covers := Layout.covers_ofAssignment homes few
  obtain ⟨f, lowered, checked⟩ := succeeds_lower covers wf.nodup found
  exact ⟨live, found, f, lowered, checked, Function.check_eq_ok_iff.1 checked⟩

/-- A loop with two phis, a division, a shift, a call and a print. -/
def busyLoop : FlowGraph :=
  let v (s : String) : Temp := ⟨s, none⟩
  ⟨⟨"busy"⟩, [v "a", v "b"], [
    ⟨⟨"entry"⟩, true, [.const (.temp (v "k")) 5000000000]⟩,
    ⟨⟨"loop"⟩, true, [
      .phi (v "x") (.ofList [(.block ⟨"entry"⟩, v "a"), (.block ⟨"loop"⟩, v "y")]),
      .phi (v "y") (.ofList [(.block ⟨"entry"⟩, v "b"), (.block ⟨"loop"⟩, v "x")]),
      .binary .div (.temp (v "q")) (.temp (v "x")) (.temp (v "y")),
      .binary .shl (.global ⟨"g"⟩) (.temp (v "q")) (.temp (v "k")),
      .param 1 (.temp (v "q")),
      .call (.temp (v "q")) ⟨"busy"⟩ 1,
      .print (.temp .sink),
      .branch .nonzero (.temp (v "q")) ⟨"loop"⟩]⟩,
    ⟨⟨"exit"⟩, true, [.ret (.global ⟨"g"⟩)]⟩]⟩

/-- All its temporaries in two places, although nothing is spilled. -/
def crowded : Assignment :=
  let v (s : String) : Temp := ⟨s, none⟩
  ⟨.ofList [(v "a", .register .rsi), (v "b", .register .rsi), (v "k", .slot 7),
    (v "q", .slot 7), (v "x", .register .rsi), (v "y", .slot 7)], ∅, []⟩

/-- The code is wrong, but it is legal. -/
theorem check_lower_busyLoop : busyLoop.WellFormed ∧
    ∃ live, busyLoop.liveness = .ok live ∧ ∃ f, busyLoop.lower live crowded = .ok f ∧
      f.check = .ok () ∧
      ∀ (k : Nat) (i : Target.Instr), f.instrs[k]? = some i → i.Allowed (f.instrs.take k) := by
  have built : ∃ names, ofProc busyLoop.toProc = .ok (busyLoop, names) := ⟨_, rfl⟩
  obtain ⟨names, built⟩ := built
  have wf := (builtFrom_of_ofProc built).wellFormed
  have homes : ∀ t ∈ busyLoop.temps.toList, ∃ l ∈ crowded.locations.get? t,
      ∀ r ∈ l.register?, r ∈ Register.palette := by decide +kernel
  refine ⟨wf, check_lower wf (fun t ht => ?_) (by decide)⟩
  obtain ⟨l, home, palette⟩ := homes t (SortedSet.mem_iff.1 ht)
  exact ⟨l, home, fun r e => palette r (by rw [e]; rfl)⟩

end FlowGraph

end ThreeAddress
