import ThreeAddress.Proofs.Lowering.Arithmetic
import ThreeAddress.Proofs.Lowering.Entry
import ThreeAddress.Proofs.Target.Legal
/-!
# Lowered code is legal

The pieces that the code of a function is made of are legal: operands are never two in memory or too
wide, divisions follow the sign extension, and the scratch registers are written in front of their
readers. Operands whose value does not depend on scratch registers can be read anywhere.

* `Target.Operand.Assignable`, `Target.Operand.ReadAmong` : the operands that can be written, and
  those that can be read where certain scratch registers are written;
* `legal_move`, `legal_moveAll` : moves;
* `legal_applyBinary`, `legal_applyUnary` : operators;
* `legal_callFunction`, `Layout.legal_store`, `Layout.legal_restore`, `Layout.legal_leave` : calls
  and returns.
-/

namespace ThreeAddress

open Target

/-! ## Operands -/

namespace Target.Operand

/-- The scratch registers that the value of the operand depends on are among some registers. -/
def ReadAmong (known : List Register) (o : Operand) : Prop :=
  ∀ r ∈ o.read, r.isScratch = true → r ∈ known

/-- The operand can be written, and its place does not depend on scratch registers. -/
structure Assignable (o : Operand) : Prop where
  place : ∀ w, o ≠ .immediate w
  addressed : ∀ r ∈ o.addressing, r.isScratch = false

variable {known : List Register} {o : Operand}

theorem Steady.readAmong (steady : o.Steady) : o.ReadAmong known := fun r hr scratch => by
  cases (steady.read r hr).symm.trans scratch

theorem assignable_register (r : Register) : (register r).Assignable :=
  ⟨(fun _ e => by cases e), List.forall_mem_nil _⟩

theorem readAmong_register {r : Register} (h : r.isScratch = true → r ∈ known) :
    (register r).ReadAmong known := fun _ hs scratch => by
  obtain rfl := List.mem_singleton.1 hs
  exact h scratch

theorem readAmong_immediate (w : Word) : (immediate w).ReadAmong known := List.forall_mem_nil _

/-- A place relative to the base of the frame can be written, and read by any instruction. -/
theorem assignable_frame (offset : Int) : (memory ⟨.register .rbp, offset⟩).Assignable :=
  ⟨(fun _ e => by cases e), fun r hr => by rw [List.mem_singleton.1 hr]; rfl⟩

theorem steady_frame (offset : Int) : (memory ⟨.register .rbp, offset⟩).Steady :=
  ⟨fun r hr => by rw [List.mem_singleton.1 hr]; rfl, rfl⟩

end Target.Operand

namespace Target

variable {known : List Register} {dst src lhs rhs : Operand}

theorem plain_mov (operands : (Instr.mov dst src).badOperands? = none)
    (addressed : ∀ r ∈ dst.addressing, r.isScratch = false) (read : src.ReadAmong known) :
    (Instr.mov dst src).Plain known := by
  refine ⟨operands, rfl, fun r hr scratch => ?_, rfl⟩
  rcases List.mem_append.1 hr with value | place
  · exact read r value scratch
  · cases (addressed r place).symm.trans scratch

theorem plain_mov_register (r : Register) (read : src.ReadAmong known) :
    (Instr.mov (.register r) src).Plain known :=
  plain_mov (Instr.badOperands?_mov_register r src) (List.forall_mem_nil _) read

theorem plain_alu (op : AluOp) {r : Register} (written : r.isScratch = true → r ∈ known)
    (narrow : src.wide? = none) (read : src.ReadAmong known) :
    (Instr.alu op (.register r) src).Plain known := by
  refine ⟨Instr.badOperands?_alu_register op r narrow, rfl, fun s hs scratch => ?_, rfl⟩
  have hs : s ∈ (Operand.register r).read ++ src.read := by
    rw [Instr.readList] at hs
    split at hs
    · cases hs
    · exact hs
  rcases List.mem_append.1 hs with dst | value
  · exact Operand.readAmong_register written s dst scratch
  · exact read s value scratch

theorem plain_push (narrow : src.wide? = none) (read : src.ReadAmong known) :
    (Instr.push src).Plain known := by
  have operands : (Instr.push src).badOperands? = none :=
    Instr.badOperands?_eq_none List.countP_le_length fun o ho => List.mem_singleton.1 ho ▸ narrow
  refine ⟨operands, rfl, fun r hr scratch => ?_, rfl⟩
  rcases List.mem_append.1 hr with value | rsp
  · exact read r value scratch
  · rw [List.mem_singleton.1 rsp] at scratch
    cases scratch

theorem plain_pop (place : dst.Assignable) : (Instr.pop dst).Plain known := by
  have operands : (Instr.pop dst).badOperands? = none := by
    refine Instr.badOperands?_eq_none List.countP_le_length fun o ho => ?_
    rw [List.mem_singleton.1 ho]
    cases dst with
    | immediate w => exact absurd rfl (place.place w)
    | _ => rfl
  refine ⟨operands, rfl, fun r hr scratch => ?_, rfl⟩
  rcases List.mem_append.1 hr with address | rsp
  · cases (place.addressed r address).symm.trans scratch
  · rw [List.mem_singleton.1 rsp] at scratch
    cases scratch

theorem plain_cmp_zero (narrow : src.wide? = none) (read : src.ReadAmong known) :
    (Instr.cmp src (.immediate 0)).Plain known := by
  have operands : (Instr.cmp src (.immediate 0)).badOperands? = none := by
    refine Instr.badOperands?_eq_none ?_ fun o ho => ?_
    · rw [Instr.operands, List.countP_cons]
      split <;> decide
    · rcases List.mem_cons.1 ho with rfl | ho
      · exact narrow
      · exact List.mem_singleton.1 ho ▸ rfl
  refine ⟨operands, rfl, fun r hr scratch => read r ?_ scratch, rfl⟩
  exact (List.append_nil src.read) ▸ hr

theorem plain_jmp (target : String) : (Instr.jmp target).Plain known :=
  ⟨rfl, rfl, List.forall_mem_nil _, rfl⟩

theorem plain_jcc (condition : Condition) (target : String) :
    (Instr.jcc condition target).Plain known := ⟨rfl, rfl, List.forall_mem_nil _, rfl⟩

end Target

/-! ## Moves -/

section Pieces

variable {known : List Register} {dst src lhs rhs : Target.Operand} {layout : Layout}

theorem legal_move (place : dst.Assignable) (read : src.ReadAmong known) :
    Legal known (move dst src) known := by
  rw [move]
  split
  · exact .nil
  · split
    · have loaded : Legal known [.mov (.register .rax) src] (.rax :: known) :=
        .plain (plain_mov_register .rax read)
      have value : (Operand.register .rax).ReadAmong (.rax :: known) :=
        Operand.readAmong_register fun _ => List.mem_cons_self
      have operands : (Target.Instr.mov dst (.register .rax)).badOperands? = none :=
        Target.Instr.badOperands?_of_direct place.place rfl
      have stored : Legal (.rax :: known) [.mov dst (.register .rax)] (.rax :: known) :=
        .one (plain_mov operands place.addressed value)
      exact (loaded.append stored).imp (fun _ hr _ => hr) fun _ hr _ => List.mem_cons_of_mem _ hr
    · next direct =>
      have operands := Target.Instr.badOperands?_of_direct place.place (Bool.eq_false_iff.2 direct)
      exact .one (plain_mov operands place.addressed read)

/-- Behind a move to a register, the register is written. -/
theorem legal_load (r : Register) (read : src.ReadAmong known) :
    Legal known (move (.register r) src) (r :: known) := by
  have direct : indirect (.register r) src = false := by cases src <;> rfl
  rw [move]
  split
  · next same =>
    refine .imp .nil (fun _ hs _ => hs) fun s hs scratch => ?_
    rcases List.mem_cons.1 hs with rfl | hs
    · exact read s (same ▸ List.mem_singleton.2 rfl) scratch
    · exact hs
  · rw [direct]
    exact .plain (plain_mov_register r read)

theorem legal_moveAll {moves : List Move} (places : ∀ m ∈ moves, m.dst.Assignable)
    (reads : ∀ m ∈ moves, m.src.wide? = none ∧ m.src.ReadAmong known) :
    Legal known (moveAll moves) known := by
  match moves with
  | [] => exact .nil
  | [m] =>
    exact legal_move (places m List.mem_cons_self) (reads m List.mem_cons_self).2
  | m :: m' :: rest =>
    rw [moveAll_cons_cons]
    refine .append (.all fun i hi => ?_) (.all fun i hi => ?_)
    · obtain ⟨o, ho, rfl⟩ := List.mem_map.1 hi
      obtain ⟨mv, hmv, rfl⟩ := List.mem_map.1 ho
      exact plain_push (reads mv hmv).1 (reads mv hmv).2
    · obtain ⟨o, ho, rfl⟩ := List.mem_map.1 hi
      obtain ⟨mv, hmv, rfl⟩ := List.mem_map.1 ho
      exact plain_pop (places mv (List.mem_reverse.1 hmv))

/-! ## Arithmetic -/

/-- A division leaves the quotient and the remainder, and the register that says whether the
quotient has to be negated. -/
theorem legal_divide (left : lhs.Steady) (right : rhs.Steady) :
    Legal [] (divide lhs rhs) [.rax, .rdx, .rcx] := by
  have masked : Legal [.r11] (divisorMask ++ replaceDivisor) [.r11, .rcx] :=
    (Legal.of_plainCode (by decide)).imp (fun _ hr _ => hr) (by decide)
  refine .cons (plain_mov_register .r11 right.readAmong) ?_
  have divided : Legal [.rax, .r11, .rcx] [.cqo, .idiv (.register .r11)]
      [.rax, .rdx, .rax, .r11, .rcx] :=
    .divide (by simp) (fun _ => by simp) (by decide)
  refine (masked.append (legal_load .rax left.readAmong)).append ?_
  exact divided.imp (fun _ hr _ => hr) (by decide)

theorem legal_applyAlu (op : AluOp) (left : lhs.Steady) (right : rhs.Steady) :
    Legal [] (applyAlu op lhs rhs) [.rax] := by
  have applied : Legal [.rax] [.alu op (.register .rax) rhs] [.rax] :=
    .one (plain_alu op (fun _ => List.mem_cons_self) right.narrow right.readAmong)
  exact (legal_load .rax left.readAmong).append applied

theorem legal_applyShift (op : ShiftOp) (left : lhs.Steady) (right : rhs.Steady) :
    Legal [] (applyShift op lhs rhs) [.rax] := by
  have shift : Legal [.rax, .rcx] [.shift op (.register .rax) .rcx] [.rax] :=
    (Legal.plain (by cases op <;> decide)).imp (fun _ hr _ => hr) (by cases op <;> decide)
  exact ((legal_load .rcx right.readAmong).append (legal_load .rax left.readAmong)).append shift

/-- The code of an operator writes the register that its value is in. -/
theorem legal_applyBinary (op : BinaryOp) (left : lhs.Steady) (right : rhs.Steady) :
    Legal [] (applyBinary op lhs rhs).1 [(applyBinary op lhs rhs).2] := by
  cases op with
  | add | sub | mul | and | or | xor => exact legal_applyAlu _ left right
  | shl | shr => exact legal_applyShift _ left right
  | div =>
    have negate : Legal [.rax, .rdx, .rcx] negateQuotient [.rax] :=
      (Legal.of_plainCode (by decide)).imp (fun _ hr _ => hr) (by decide)
    exact (legal_divide left right).append negate
  | mod =>
    refine (legal_divide left right).imp (fun _ hr _ => hr) fun r hr _ => ?_
    exact List.mem_singleton.1 hr ▸ List.mem_cons_of_mem _ List.mem_cons_self

theorem legal_applyUnary (op : UnaryOp) (arg : src.Steady) :
    Legal [] (applyUnary op src) [.rax] := by
  refine (legal_load .rax arg.readAmong).append ?_
  cases op <;> exact (Legal.plain (by decide)).imp (fun _ hr _ => hr) (by decide)

/-! ## Calls -/

/-- A number of 32 bits is no wide immediate. -/
theorem wide?_toInt64 (x : Int32) : (Operand.immediate x.toInt64).wide? = none := by
  have least : (-2147483648 : Word).toInt = -2147483648 := rfl
  have greatest : (2147483647 : Word).toInt = 2147483647 := rfl
  have fits : Operand.fits x.toInt64 = true := by
    simp only [Operand.fits, Bool.and_eq_true, decide_eq_true_eq, Int64.le_iff_toInt_le,
      Int32.toInt_toInt64, least, greatest]
    exact ⟨x.le_toInt, Int.le_of_lt_add_one x.toInt_lt⟩
  simp only [Operand.wide?, fits, if_true]

theorem legal_adjustCode (op : AluOp) {n : Nat} (small : n < 2147483648) :
    Legal known (adjustCode op n) known := by
  rw [adjustCode]
  split
  · exact .nil
  · exact .one (plain_alu op (fun scratch => by cases scratch) (wide?_ofNat small)
      (Operand.readAmong_immediate _))

/-- A call with few arguments leaves the result. -/
theorem legal_callFunction (frame : Target.Frame) (callee : String) {argc : Nat}
    (few : argc < 2 ^ 20) : Legal known (callFunction frame callee argc) [.rax] := by
  have pushed : ∀ n k, Legal known (Layout.pushCode frame n k) known := by
    refine fun n k => .all fun i hi => ?_
    obtain ⟨o, ho, rfl⟩ := List.mem_map.1 hi
    obtain ⟨j, -, rfl⟩ := List.mem_map.1 ho
    exact plain_push rfl (Operand.steady_frame _).readAmong
  have loaded : ∀ n, Legal known (Layout.loadCode frame n) known := by
    refine fun n => .all fun i hi => ?_
    obtain ⟨j, -, rfl⟩ := List.mem_mapIdx.1 hi
    exact plain_mov_register _ (Operand.steady_frame _).readAmong
  rw [Layout.callFunction_eq]
  refine (legal_adjustCode .sub (by omega)).append ((pushed _ _).append ((loaded _).append ?_))
  exact (Legal.call callee).append (legal_adjustCode .add (by omega))

namespace Layout

theorem legal_store {registers : List Register} (other : ∀ r ∈ registers, r.isScratch = false) :
    Legal known (layout.store registers) known := by
  refine .all fun i hi => ?_
  obtain ⟨r, hr, stored⟩ := List.mem_filterMap.1 hi
  rw [Frame.saved?_eq, Option.map_map] at stored
  obtain ⟨n, -, rfl⟩ := Option.map_eq_some_iff.1 stored
  have value : (Operand.register r).ReadAmong known :=
    Operand.readAmong_register fun scratch => by cases (other r hr).symm.trans scratch
  exact plain_mov (Target.Instr.badOperands?_mov (.inr rfl) rfl rfl)
    (Operand.assignable_frame _).addressed value

theorem legal_restore (registers : List Register) :
    Legal known (layout.restore registers) known := by
  refine .all fun i hi => ?_
  obtain ⟨r, -, loaded⟩ := List.mem_filterMap.1 hi
  rw [Frame.saved?_eq, Option.map_map] at loaded
  obtain ⟨n, -, rfl⟩ := Option.map_eq_some_iff.1 loaded
  exact plain_mov_register r (Operand.steady_frame _).readAmong

/-- A function is left with its result. -/
theorem legal_leave : Legal [.rax] layout.leave [] :=
  (legal_restore _).append (Legal.of_plainCode (by decide)).forget

/-- The code sets the result without reading it. -/
theorem legal_zeroResult : Legal [] [zeroResult] [.rax] :=
  (Legal.plain (by decide)).imp (fun _ hr _ => hr) (by decide)

theorem legal_leaveZero : Legal [] layout.leaveZero [] := legal_zeroResult.append legal_leave

end Layout

end Pieces

end ThreeAddress
