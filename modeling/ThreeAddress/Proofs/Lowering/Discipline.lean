import ThreeAddress.Proofs.Lowering.Entry
import ThreeAddress.Proofs.Lowering.Stance
import ThreeAddress.Proofs.Lowering.Total
/-!
# Lowered code keeps the stack in order

The pieces that the code of a function is made of keep to the rules of `Stance.Step`: temporaries
are moved to homes, which are neither slots of saved registers nor registers that are not saved,
what is pushed is popped again, and the padding of a call is taken off again. So on every path the
frame is there at each label, `rsp` is a multiple of 16 at each call, and the caller finds
everything at a return that the function has to give back.

* `Leads` : code that leads from one stance to another;
* `leads_move`, `leads_moveAll`, `leads_applyBinary`, `leads_callFunction`, … : the pieces;
* `Layout.Placed` : where temporaries live;
* `Layout.Placed.leads_lower`, `Layout.Placed.leads_enter`, `FlowGraph.disciplined_lower` :
  instructions, the code in front of the first block, and whole functions;
* `FlowGraph.stack_kept_on_paths` : the stack and the registers of the caller on every path;
* `FlowGraph.stack_left_on_path` : a frame whose size wraps, which is nowhere reserved.
-/

namespace ThreeAddress

open Target

namespace Target

/-- Behind the code the stance is `s'`, if it is `s` in front of it. -/
def Leads (frame : Frame) (stages : Nat → Prop) : Stance → List Instr → Stance → Prop
  | s, [], s' => s = s'
  | s, i :: rest, s' => ∃ t, Stance.Step frame stages s i t ∧ Leads frame stages t rest s'

namespace Leads

variable {frame : Frame} {stages : Nat → Prop} {s s' s'' : Stance} {code back : List Instr}
  {i : Instr}

theorem nil : Leads frame stages s [] s := rfl

theorem cons (step : Stance.Step frame stages s i s') (more : Leads frame stages s' code s'') :
    Leads frame stages s (i :: code) s'' := ⟨s', step, more⟩

theorem one (step : Stance.Step frame stages s i s') : Leads frame stages s [i] s' := cons step nil

theorem append (h : Leads frame stages s code s') (h' : Leads frame stages s' back s'') :
    Leads frame stages s (code ++ back) s'' := by
  induction code generalizing s with
  | nil =>
    obtain rfl : s = s' := h
    exact h'
  | cons i code ih =>
    obtain ⟨t, step, more⟩ := h
    exact ⟨t, step, ih more⟩

/-- Every instruction leaves the stance as it is. -/
theorem all (h : ∀ i ∈ code, Stance.Step frame stages s i s) : Leads frame stages s code s := by
  induction code with
  | nil => exact nil
  | cons i code ih =>
    exact cons (h i List.mem_cons_self) (ih fun j hj => h j (List.mem_cons_of_mem _ hj))

/-- Code that leads somewhere keeps to the rules. -/
theorem rules (h : Leads frame stages s code s') :
    Disciplined frame stages (fun _ _ => True) s code := by
  induction code generalizing s with
  | nil => trivial
  | cons i code ih =>
    obtain ⟨t, step, more⟩ := h
    exact ⟨trivial, t, step, ih more⟩

/-- Code that leads somewhere keeps to the rules, whatever is known of stances in front of code that
is longer. -/
theorem disciplined_of_lt (h : Leads frame stages s code s') (shorter : code.length < back.length)
    (P : Stance → Prop) : Disciplined frame stages (fun s c => c = back → P s) s code := by
  induction code generalizing s with
  | nil =>
    rintro rfl
    exact absurd shorter (Nat.lt_irrefl _)
  | cons i code ih =>
    obtain ⟨t, step, more⟩ := h
    refine ⟨?_, t, step, ih more (Nat.lt_of_succ_lt shorter)⟩
    rintro rfl
    exact absurd shorter (Nat.lt_irrefl _)

/-- What is true of the stance in front of some piece of the code is known there. -/
theorem disciplined (h : Leads frame stages s code s') (h' : Leads frame stages s' back s'')
    {P : Stance → Prop} (here : P s') :
    Disciplined frame stages (fun s c => c = back → P s) s (code ++ back) := by
  induction code generalizing s with
  | nil =>
    obtain rfl : s = s' := h
    cases back with
    | nil => exact fun _ => here
    | cons i back =>
      obtain ⟨t, step, more⟩ := h'
      exact ⟨fun _ => here, t, step, more.disciplined_of_lt (Nat.lt_succ_self _) P⟩
  | cons i code ih =>
    obtain ⟨t, step, more⟩ := h
    refine ⟨fun same => ?_, t, step, ih more⟩
    have longer : (i :: (code ++ back)).length = back.length := congrArg List.length same
    simp only [List.length_cons, List.length_append] at longer
    omega

/-- Code that is not reached, and has no label that it could be reached by. -/
theorem skip (unmarked : labelsOf code = []) : Leads frame stages .unreached code .unreached := by
  refine all fun i hi => .skip ?_
  rintro name rfl
  have defined : name ∈ labelsOf code := List.mem_filterMap.2 ⟨_, hi, rfl⟩
  rw [unmarked] at defined
  cases defined

end Leads

namespace Frame

variable {frame : Frame} {saved : List Register}

/-- A register that calls may overwrite may be written. -/
theorem accepts_callerSaved {r : Register} (h : r.isCallerSaved = true) :
    frame.Accepts saved (.register r) := by
  have facts : r ≠ .rsp ∧ r ≠ .rbp ∧ r.isCalleeSaved = false := by
    revert h
    cases r <;> decide
  exact ⟨facts.1, facts.2.1, fun callee => by cases facts.2.2.symm.trans callee⟩

/-- No argument is laid ready where a register is saved. -/
theorem slot_ne_argument {r : Register} {n : Nat} (small : frame.bytes < 2147483648)
    (saved : frame.saveSlot? r = some n) (k : Nat) (reaches : frame.Reaches k) :
    slot n ≠ frame.argument k := by
  intro same
  have := saveSlot?_bounds saved
  obtain rfl := (slot_inj (reaches_of_lt small (saveSlot?_lt saved)) reaches).1 same
  simp only [argumentSlot] at this
  omega

/-- An operand that a value may be moved to for good. -/
structure Home (frame : Frame) (o : Operand) : Prop where
  accepts : frame.Accepts frame.calleeSaved o
  other : ∀ k, frame.Reaches k → o ≠ frame.argument k

/-- The stances in front of a label: the frame is there, or the label is reached from elsewhere. -/
def Open (frame : Frame) (s : Stance) : Prop := s = frame.standing ∨ s = .unreached

/-- Behind the code the stance may be in front of a label, if it may be in front of the code. -/
def Keeps (frame : Frame) (stages : Nat → Prop) (code : List Instr) : Prop :=
  ∀ s, frame.Open s → ∃ s', frame.Open s' ∧ Leads frame stages s code s'

variable {code back : List Instr} {s : Stance}

theorem Keeps.append (h : frame.Keeps stages code) (h' : frame.Keeps stages back) :
    frame.Keeps stages (code ++ back) := by
  intro s here
  obtain ⟨s', middle, first⟩ := h s here
  obtain ⟨s'', last, second⟩ := h' s' middle
  exact ⟨s'', last, first.append second⟩

theorem keeps_nil : frame.Keeps stages [] := fun s here => ⟨s, here, .nil⟩

/-- Code without labels is left out where it is not reached. -/
theorem keeps_of_leads (unmarked : labelsOf code = []) (last : frame.Open s)
    (h : Leads frame stages frame.standing code s) : frame.Keeps stages code := by
  rintro _ (rfl | rfl)
  · exact ⟨s, last, h⟩
  · exact ⟨.unreached, .inr rfl, .skip unmarked⟩

theorem keeps_label (name : String) : frame.Keeps stages [.label name] := by
  rintro _ (rfl | rfl)
  · exact ⟨_, .inl rfl, .one .label⟩
  · exact ⟨_, .inl rfl, .one .mark⟩

end Frame

end Target

/-! ## Moves -/

section Pieces

variable {frame : Frame} {stages : Nat → Prop} {room : Nat} {saved : List Register}
  {dst src lhs rhs : Target.Operand}

/-- A register that calls may overwrite is loaded. -/
theorem step_load {r : Register} (caller : r.isCallerSaved = true) :
    Stance.Step frame stages (.framed room saved) (.mov (.register r) src) (.framed room saved) :=
  .mov (Frame.accepts_callerSaved caller) fun k _ h => by cases h

theorem leads_move_of_step (step : ∀ src, Stance.Step frame stages (.framed room saved)
      (.mov dst src) (.framed room saved)) :
    Leads frame stages (.framed room saved) (move dst src) (.framed room saved) := by
  rw [move]
  split
  · exact .nil
  · split
    · exact .cons (step_load rfl) (.one (step _))
    · exact .one (step _)

theorem Target.Frame.Home.leads_move (home : frame.Home dst) :
    Leads frame stages frame.standing (move dst src) frame.standing :=
  leads_move_of_step fun _ => .mov home.accepts home.other

theorem leads_pushes (inside : frame.bytes ≤ room) (srcs : List Target.Operand) :
    Leads frame stages (.framed room saved) (srcs.map .push)
      (.framed (room + 8 * srcs.length) saved) := by
  induction srcs generalizing room with
  | nil => exact .nil
  | cons o srcs ih =>
    refine .cons (.push inside) ?_
    rw [List.length_cons, Nat.mul_succ, Nat.add_comm (8 * _), ← Nat.add_assoc]
    exact ih (by omega)

theorem leads_pops (inside : frame.bytes ≤ room) {dsts : List Target.Operand}
    (homes : ∀ o ∈ dsts, frame.Accepts saved o ∧ ∀ k, frame.Reaches k → o ≠ frame.argument k) :
    Leads frame stages (.framed (room + 8 * dsts.length) saved) (dsts.map .pop)
      (.framed room saved) := by
  induction dsts generalizing room with
  | nil => exact .nil
  | cons o dsts ih =>
    obtain ⟨⟨accepts, other⟩, homes⟩ := List.forall_mem_cons.1 homes
    rw [List.length_cons, Nat.mul_succ, ← Nat.add_assoc]
    exact .cons (.pop (by omega) accepts other) (ih inside homes)

/-- What is pushed is popped again. -/
theorem leads_moveAll {moves : List Move} (homes : ∀ mv ∈ moves, frame.Home mv.dst) :
    Leads frame stages frame.standing (moveAll moves) frame.standing := by
  match moves with
  | [] => exact .nil
  | [mv] => exact (homes mv List.mem_cons_self).leads_move
  | mv :: mv' :: rest =>
    rw [moveAll_cons_cons]
    generalize mv :: mv' :: rest = moves at homes
    refine (leads_pushes (Nat.le_refl _) _).append ?_
    have length : (moves.map Move.src).length = (moves.reverse.map Move.dst).length := by simp
    rw [length]
    refine leads_pops (Nat.le_refl _) fun o ho => ?_
    obtain ⟨mv, hmv, rfl⟩ := List.mem_map.1 ho
    have home := homes mv (List.mem_reverse.1 hmv)
    exact ⟨home.accepts, home.other⟩

/-! ## Arithmetic -/

/-- The instruction writes nothing but registers that calls may overwrite. -/
def Target.Instr.isLight : Target.Instr → Bool
  | .mov (.register r) _ => r.isCallerSaved
  | i => i.computed?.any fun written => written.all Register.isCallerSaved

theorem leads_light {code : List Target.Instr} (light : code.all Target.Instr.isLight = true) :
    Leads frame stages (.framed room saved) code (.framed room saved) := by
  refine .all fun i hi => ?_
  have light := List.all_eq_true.1 light i hi
  have computes : (i.computed?.any fun written => written.all Register.isCallerSaved) = true →
      Stance.Step frame stages (.framed room saved) i (.framed room saved) := fun h => by
    obtain ⟨written, computed, all⟩ := (Option.any_eq_true _ _).1 h
    exact .compute computed fun r hr =>
      Frame.accepts_callerSaved (List.all_eq_true.1 all r hr)
  cases i with
  | mov dst src =>
    cases dst with
    | register r => exact step_load light
    | _ => exact computes light
  | _ => exact computes light

theorem leads_load (r : Register) (caller : r.isCallerSaved = true) :
    Leads frame stages (.framed room saved) (move (.register r) src) (.framed room saved) :=
  leads_move_of_step fun _ => step_load caller

theorem leads_divide :
    Leads frame stages (.framed room saved) (divide lhs rhs) (.framed room saved) := by
  refine .cons (step_load rfl) ?_
  have masked : Leads frame stages (.framed room saved) (divisorMask ++ replaceDivisor)
      (.framed room saved) := leads_light (by decide)
  exact (masked.append (leads_load .rax rfl)).append (leads_light (by decide))

theorem leads_applyBinary (op : BinaryOp) :
    Leads frame stages (.framed room saved) (applyBinary op lhs rhs).1 (.framed room saved) := by
  cases op with
  | add | sub | mul | and | or | xor => exact (leads_load .rax rfl).append (leads_light rfl)
  | shl | shr =>
    exact ((leads_load .rcx rfl).append (leads_load .rax rfl)).append (leads_light rfl)
  | div => exact leads_divide.append (leads_light rfl)
  | mod => exact leads_divide

theorem leads_applyUnary (op : UnaryOp) :
    Leads frame stages (.framed room saved) (applyUnary op src) (.framed room saved) := by
  refine (leads_load .rax rfl).append ?_
  cases op <;> exact leads_light rfl

/-! ## Calls -/

theorem leads_lower {n : Nat} (small : n < 2 ^ 63) (inside : frame.bytes ≤ room) :
    Leads frame stages (.framed room saved) (adjustCode .sub n) (.framed (room + n) saved) := by
  rw [adjustCode]
  split
  · next none =>
    rw [none]
    exact .nil
  · exact .one (.lower (Int64.toInt_ofNat_of_lt small) inside)

theorem leads_raise {n : Nat} (small : n < 2 ^ 63) (inside : frame.bytes ≤ room) :
    Leads frame stages (.framed (room + n) saved) (adjustCode .add n) (.framed room saved) := by
  rw [adjustCode]
  split
  · next none =>
    rw [none]
    exact .nil
  · exact .one (.raise (Int64.toInt_ofNat_of_lt small) inside)

/-- With the padding the stack is at a multiple of 16, and behind the call it is where it was. -/
theorem leads_callFunction (callee : String) {argc : Nat} (few : argc < 2 ^ 32) :
    Leads frame stages frame.standing (callFunction frame callee argc) frame.standing := by
  rw [Layout.callFunction_eq]
  generalize hn : argc - min argc 6 = onStack
  have bound : onStack ≤ argc := by omega
  have size := frame.bytes_mod
  refine (leads_lower (by omega) (Nat.le_refl _)).append ?_
  refine (leads_pushes (by omega) _).append ?_
  have back : Leads frame stages
      (.framed (frame.bytes + 8 * (onStack + onStack % 2)) frame.calleeSaved)
      (.call callee :: adjustCode .add (8 * (onStack + onStack % 2))) frame.standing :=
    .cons (.call (by omega) (by omega)) (leads_raise (by omega) (Nat.le_refl _))
  refine Leads.append ?_ back
  have together : frame.bytes + 8 * (onStack % 2) + 8 * ((List.range onStack).reverse.map
      fun k => frame.argument (min argc 6 + 1 + k)).length =
      frame.bytes + 8 * (onStack + onStack % 2) := by
    simp only [List.length_map, List.length_reverse, List.length_range]
    omega
  rw [together]
  refine .all fun i hi => ?_
  obtain ⟨k, hk, rfl⟩ := List.mem_mapIdx.1 hi
  refine step_load ?_
  have arguments : ∀ r ∈ Register.arguments, r.isCallerSaved = true := by decide
  exact arguments _ (List.mem_of_mem_take (List.getElem_mem hk))

end Pieces

/-! ## Homes -/

namespace Layout

/-- Temporaries live where they may: in registers that they are given, saved if they have to be, and
in slots of their own. -/
structure Placed (layout : Layout) : Prop where
  homes : ∀ t l, layout.locations.get? t = some l → layout.Has l
  callee : ∀ r ∈ layout.frame.calleeSaved, r.isCalleeSaved = true ∧ r ≠ .rbp
  once : layout.frame.calleeSaved.Nodup
  /-- Offsets from the base have 32 bits. -/
  small : layout.frame.bytes < 2147483648

variable {layout : Layout} {stages : Nat → Prop} {v : Var} {t : Temp} {l : Location}
  {o : Target.Operand} {room : Nat} {code : List Target.Instr}

theorem home_place (small : layout.frame.bytes < 2147483648) (has : layout.Has l) :
    layout.frame.Home (place l) := by
  cases l with
  | register r =>
    obtain ⟨palette, callee⟩ := has
    refine ⟨⟨?_, ?_, callee⟩, fun k _ h => by cases h⟩ <;>
      · rintro rfl
        exact absurd palette (by decide)
  | slot n =>
    have lt : n < layout.frame.spills := has
    have here := Frame.reaches_of_lt small (has_slot_lt has)
    refine ⟨Frame.accepts_slot here fun r hr found => ?_, fun k reaches same => ?_⟩
    · have := Frame.saveSlot?_bounds found
      omega
    · have := (Frame.slot_inj (n := layout.frame.argumentSlot k) here reaches).1 same
      simp only [Frame.argumentSlot] at this
      omega

theorem Placed.home (placed : layout.Placed) (h : layout.home t = .ok o) : layout.frame.Home o := by
  obtain ⟨l, stored, rfl⟩ := home_eq_ok.1 h
  exact home_place placed.small (placed.homes t l stored)

theorem Placed.destination (placed : layout.Placed)
    (h : layout.destination v = .ok (some o)) : layout.frame.Home o := by
  rw [Layout.destination] at h
  split at h
  · cases h
  · cases source : layout.source v with
    | error e =>
      rw [source] at h
      cases h
    | ok o' =>
      rw [source] at h
      cases h
      obtain ⟨rfl, -⟩ | ⟨t, l, -, -, stored, rfl⟩ | ⟨g, -, rfl⟩ := source_eq_ok source
      · next sink => exact absurd rfl sink
      · exact home_place placed.small (placed.homes t l stored)
      · exact ⟨trivial, fun k _ h => by cases h⟩

/-! ## Saved registers -/

theorem store_cons {r : Register} {n : Nat} (slot : layout.frame.saveSlot? r = some n)
    (rest : List Register) :
    layout.store (r :: rest) = .mov (Frame.slot n) (.register r) :: layout.store rest := by
  rw [store, List.filterMap_cons_some (b := .mov (Frame.slot n) (.register r))]
  · rfl
  · rw [Frame.saved?_eq, slot]
    rfl

theorem restore_cons {r : Register} {n : Nat} (slot : layout.frame.saveSlot? r = some n)
    (rest : List Register) :
    layout.restore (r :: rest) = .mov (.register r) (Frame.slot n) :: layout.restore rest := by
  rw [restore, List.filterMap_cons_some (b := .mov (.register r) (Frame.slot n))]
  · rfl
  · rw [Frame.saved?_eq, slot]
    rfl

/-- Registers that have to be given back go to their slots. -/
theorem Placed.leads_store (placed : layout.Placed) {registers saved : List Register}
    (inside : registers ⊆ layout.frame.calleeSaved) (once : (saved ++ registers).Nodup) :
    Leads layout.frame stages (.framed room saved) (layout.store registers)
      (.framed room (saved ++ registers)) := by
  induction registers generalizing saved with
  | nil =>
    rw [List.append_nil]
    exact .nil
  | cons r rest ih =>
    obtain ⟨owned, inside⟩ := List.cons_subset.1 inside
    obtain ⟨n, slot⟩ := Frame.exists_saveSlot?.2 (.inl owned)
    obtain ⟨callee, other⟩ := placed.callee r owned
    have fresh : r ∉ saved := fun hr =>
      (List.nodup_append.1 once).2.2 r hr r List.mem_cons_self rfl
    rw [store_cons slot, List.append_cons]
    rw [List.append_cons] at once
    exact .cons (.save callee other slot fresh) (ih inside once)

/-- They come back from there. -/
theorem Placed.leads_restore (placed : layout.Placed) {registers : List Register}
    (inside : registers ⊆ layout.frame.calleeSaved) :
    Leads layout.frame stages (.framed room registers) (layout.restore registers)
      (.framed room []) := by
  induction registers with
  | nil => exact .nil
  | cons r rest ih =>
    obtain ⟨owned, inside⟩ := List.cons_subset.1 inside
    obtain ⟨n, slot⟩ := Frame.exists_saveSlot?.2 (.inl owned)
    obtain ⟨callee, other⟩ := placed.callee r owned
    rw [restore_cons slot]
    exact .cons (.restore callee other slot) (ih inside)

/-- Registers that calls may overwrite are saved elsewhere. -/
theorem Placed.leads_store_kept (placed : layout.Placed) {after : SortedSet Temp}
    {result : Option Register} :
    Leads layout.frame stages layout.frame.standing (layout.store (layout.kept after result))
      layout.frame.standing := by
  refine .all fun i hi => ?_
  obtain ⟨r, hr, stored⟩ := List.mem_filterMap.1 hi
  obtain ⟨-, caller, -⟩ := mem_kept.1 hr
  rw [Frame.saved?_eq, Option.map_map] at stored
  obtain ⟨n, slot, rfl⟩ := Option.map_eq_some_iff.1 stored
  have reaches := Frame.reaches_of_lt placed.small (Frame.saveSlot?_lt slot)
  refine .mov (Frame.accepts_slot reaches fun s hs found => ?_)
    (Frame.slot_ne_argument placed.small slot)
  have callee := (placed.callee s hs).1
  rw [Frame.saveSlot?_inj found slot] at callee
  exact absurd callee (by revert caller; cases r <;> decide)

theorem leads_restore_kept {after : SortedSet Temp} {result : Option Register} :
    Leads layout.frame stages layout.frame.standing (layout.restore (layout.kept after result))
      layout.frame.standing := by
  refine .all fun i hi => ?_
  obtain ⟨r, hr, loaded⟩ := List.mem_filterMap.1 hi
  obtain ⟨-, caller, -⟩ := mem_kept.1 hr
  rw [Frame.saved?_eq, Option.map_map] at loaded
  obtain ⟨n, -, rfl⟩ := Option.map_eq_some_iff.1 loaded
  exact step_load caller

/-- A function is left as it was entered. -/
theorem Placed.leads_leave (placed : layout.Placed) :
    Leads layout.frame stages layout.frame.standing layout.leave .unreached := by
  rw [leave]
  exact (placed.leads_restore (List.Subset.refl _)).append
    (.cons .drop (.cons .unlink (.one .ret)))

theorem Placed.leads_leaveZero (placed : layout.Placed) :
    Leads layout.frame stages layout.frame.standing layout.leaveZero .unreached :=
  .cons (.compute rfl fun r hr => by
    rw [List.mem_singleton.1 hr]
    exact Frame.accepts_callerSaved rfl) placed.leads_leave

/-! ## Instructions -/

end Layout

/-- The count of the instruction has 32 bits, and the argument that it lays ready is one of `stages`,
whose slot is within reach. -/
structure Instr.Allowed (frame : Frame) (stages : Nat → Prop) (i : Instr) : Prop where
  few : i.count < 2 ^ 32
  stages : ∀ k arg, i = .param k arg → stages k
  reaches : ∀ k arg, i = .param k arg → frame.Reaches k

namespace Layout

variable {layout : Layout} {stages : Nat → Prop} {v : Var} {code : List Target.Instr}

theorem Placed.leads_writeBack (placed : layout.Placed) {r : Register}
    (h : layout.writeBack v r = .ok code) :
    Leads layout.frame stages layout.frame.standing code layout.frame.standing := by
  obtain ⟨dst, found, rfl⟩ := writeBack_eq_ok h
  cases dst with
  | none => exact .nil
  | some o => exact (placed.destination found).leads_move

/-- The frame is there behind the code of an instruction, or the code returned. -/
theorem Placed.leads_lower (placed : layout.Placed) {after : SortedSet Temp} {i : Instr}
    (allowed : i.Allowed layout.frame stages) (h : layout.lower after i = .ok code) :
    ∃ s, layout.frame.Open s ∧ Leads layout.frame stages layout.frame.standing code s := by
  cases i with
  | nop | label | phi | jump | branch =>
    cases h
    exact ⟨_, .inl rfl, .nil⟩
  | binary op dest lhs rhs =>
    obtain ⟨l, r, back, -, -, written, rfl⟩ := lower_binary h
    exact ⟨_, .inl rfl, (leads_applyBinary op).append (placed.leads_writeBack written)⟩
  | unary op dest arg =>
    obtain ⟨src, back, -, written, rfl⟩ := lower_unary h
    exact ⟨_, .inl rfl, (leads_applyUnary op).append (placed.leads_writeBack written)⟩
  | const dest value =>
    obtain ⟨dst, found, rfl⟩ := lower_const h
    cases dst with
    | none => exact ⟨_, .inl rfl, .nil⟩
    | some o => exact ⟨_, .inl rfl, (placed.destination found).leads_move⟩
  | copy dest src =>
    obtain ⟨-, rfl⟩ | ⟨o, src, found, -, rfl⟩ := lower_copy h
    · exact ⟨_, .inl rfl, .nil⟩
    · exact ⟨_, .inl rfl, (placed.destination found).leads_move⟩
  | param index arg =>
    obtain ⟨src, -, rfl⟩ := lower_param h
    exact ⟨_, .inl rfl, leads_move_of_step fun _ =>
      .stage (allowed.stages index arg rfl) (allowed.reaches index arg rfl)⟩
  | call dest callee argc =>
    obtain ⟨dst, kept, saving, found, rfl, saved, rfl⟩ := lower_call h
    obtain ⟨-, rfl⟩ := save_eq_ok saved
    refine ⟨_, .inl rfl, ((placed.leads_store_kept.append (leads_callFunction _ allowed.few)).append
      leads_restore_kept).append ?_⟩
    cases dst with
    | none => exact .nil
    | some o => exact (placed.destination found).leads_move
  | print arg =>
    obtain ⟨saving, src, saved, -, rfl⟩ := lower_print h
    obtain ⟨-, rfl⟩ := save_eq_ok saved
    exact ⟨_, .inl rfl, ((placed.leads_store_kept.append (leads_load .rdi rfl)).append
      (.one (.call (Nat.le_refl _) layout.frame.bytes_mod))).append leads_restore_kept⟩
  | ret arg =>
    obtain ⟨src, -, rfl⟩ := lower_ret h
    refine ⟨_, .inr rfl, Leads.append ?_ placed.leads_leave⟩
    split
    · exact leads_light rfl
    · exact leads_load .rax rfl

/-! ## Moves on edges -/

theorem Placed.leads_edgeMoves (placed : layout.Placed) {g : FlowGraph} {origin : Origin}
    {target : Label} {moves : List Move} (h : g.edgeMoves layout origin target = .ok moves) :
    Leads layout.frame stages layout.frame.standing (moveAll moves) layout.frame.standing := by
  refine leads_moveAll fun mv hmv => ?_
  rw [FlowGraph.edgeMoves] at h
  split at h
  · rw [phiMoves_eq placed.homes placed.small h] at hmv
    obtain ⟨e, he, rfl⟩ := List.mem_map.1 hmv
    obtain ⟨d, args, a, -, -, -, stored⟩ := mem_homeMoves.1 (List.mem_of_mem_filter he)
    exact home_place placed.small (placed.homes d e.1 stored)
  · cases h
    cases hmv

/-! ## Entering a function -/

theorem Placed.leads_setUp (placed : layout.Placed) :
    Leads layout.frame stages .entered layout.setUp layout.frame.standing := by
  rw [setUp_eq placed.small]
  refine .cons .enter (.cons .link ?_)
  have made : Leads layout.frame stages (.framed 0 []) (adjustCode .sub layout.frame.bytes)
      (.framed layout.frame.bytes []) := by
    rw [adjustCode]
    split
    · next none =>
      rw [none]
      exact .nil
    · exact .one (.reserve (Int64.toInt_ofNat_of_lt (Nat.lt_trans placed.small (by decide))))
  exact made.append (placed.leads_store (List.Subset.refl _) placed.once)

theorem Placed.leads_stackParams (placed : layout.Placed) {offset : Int32} {params : List Temp}
    (h : layout.stackParams offset params = .ok code) :
    Leads layout.frame stages layout.frame.standing code layout.frame.standing := by
  induction params generalizing offset code with
  | nil =>
    cases h
    exact .nil
  | cons t rest ih =>
    rw [stackParams] at h
    split at h
    · exact ih h
    · obtain ⟨dst, home, h⟩ := bind_eq_ok_iff.1 h
      obtain ⟨more, found, h⟩ := bind_eq_ok_iff.1 h
      cases h
      exact .cons (step_load rfl)
        ((placed.home home).leads_move.append (ih found))

/-- The frame is set up in front of the first block. -/
theorem Placed.leads_enter (placed : layout.Placed) {g : FlowGraph}
    (h : layout.enter g = .ok code) :
    Leads layout.frame stages .entered code layout.frame.standing := by
  obtain ⟨inRegisters, onStack, moves, found, found', edge, none, rfl⟩ := enter_eq_ok h
  have params : Leads layout.frame stages layout.frame.standing (moveAll inRegisters)
      layout.frame.standing := by
    refine leads_moveAll fun mv hmv => ?_
    rw [registerParams_eq found] at hmv
    obtain ⟨e, he, rfl⟩ := List.mem_map.1 hmv
    obtain ⟨t, r, -, -, stored, -⟩ := mem_paramMoves.1 (List.mem_of_mem_filter he)
    exact home_place placed.small (placed.homes t e.1 stored)
  refine ((placed.leads_setUp.append params).append (placed.leads_stackParams found')).append ?_
  cases entry : g.entry? with
  | none =>
    rw [none entry]
    exact .nil
  | some l => exact placed.leads_edgeMoves (edge l entry)

end Layout

/-! ## Blocks -/

/-- The code keeps to the rules, and so does that of each of its detours. -/
structure Code.Keeps (c : Code) (frame : Frame) (stages : Nat → Prop) : Prop where
  instrs : frame.Keeps stages c.instrs
  detours : ∀ d ∈ c.detours, frame.Keeps stages d.code

theorem Code.keeps_straight {frame : Frame} {stages : Nat → Prop} {instrs : List Target.Instr}
    (h : frame.Keeps stages instrs) : (Code.straight instrs).Keeps frame stages :=
  ⟨h, List.forall_mem_nil _⟩

theorem Code.Keeps.append {frame : Frame} {stages : Nat → Prop} {c d : Code}
    (h : c.Keeps frame stages) (h' : d.Keeps frame stages) : (c ++ d).Keeps frame stages :=
  ⟨h.instrs.append h'.instrs, List.forall_mem_append.2 ⟨h.detours, h'.detours⟩⟩

namespace Layout

variable {layout : Layout} {stages : Nat → Prop} {g : FlowGraph} {live : Liveness} {block : Label}
  {n : Nat} {code : Code}

theorem leads_compareCode {frame : Frame} (src : Target.Operand) :
    Leads frame stages frame.standing (FlowGraph.compareCode src) frame.standing := by
  cases src <;> exact leads_light rfl

theorem Placed.keeps_detour (placed : layout.Placed) {origin : Origin} {target : Label}
    {moves : List Move} (h : g.edgeMoves layout origin target = .ok moves) (name goal : String) :
    layout.frame.Keeps stages (Detour.code ⟨name, moves, goal⟩) := by
  have moved : Leads layout.frame stages layout.frame.standing (moveAll moves ++ [.jmp goal])
      .unreached := (placed.leads_edgeMoves h).append (.one .jmp)
  exact (Frame.keeps_label name).append (Frame.keeps_of_leads (by simp) (.inr rfl) moved)

theorem Placed.keeps_lowerInstr (placed : layout.Placed) {after : SortedSet Temp} {i : Instr}
    (allowed : i.Allowed layout.frame stages) (h : g.lowerInstr layout block n after i = .ok code) :
    code.Keeps layout.frame stages := by
  have unmarked : labelsOf code.instrs = [] := (FlowGraph.defines_lowerInstr h).1
  cases i with
  | jump target =>
    obtain ⟨moves, found, rfl⟩ := FlowGraph.lowerInstr_jump h
    exact Code.keeps_straight (Frame.keeps_of_leads unmarked (.inr rfl)
      ((placed.leads_edgeMoves found).append (.one .jmp)))
  | branch test arg target =>
    obtain ⟨src, moves, -, found, ⟨-, rfl⟩ | rfl⟩ := FlowGraph.lowerInstr_branch h
    · exact Code.keeps_straight (Frame.keeps_of_leads unmarked (.inl rfl)
        ((leads_compareCode src).append (.one .jcc)))
    · refine ⟨Frame.keeps_of_leads unmarked (.inl rfl)
        ((leads_compareCode src).append (.one .jcc)), fun d hd => ?_⟩
      rw [List.mem_singleton.1 hd]
      exact placed.keeps_detour found _ _
  | _ =>
    obtain ⟨instrs, lowered, rfl⟩ := FlowGraph.lowerInstr_of_target? rfl h
    obtain ⟨s, last, leads⟩ := placed.leads_lower allowed lowered
    exact Code.keeps_straight (Frame.keeps_of_leads unmarked last leads)

theorem Placed.keeps_lowerBody (placed : layout.Placed) {points : List (Instr × InstrLive)}
    (allowed : ∀ e ∈ points, e.1.Allowed layout.frame stages)
    (h : g.lowerBody layout block n points = .ok code) : code.Keeps layout.frame stages := by
  induction points generalizing n code with
  | nil =>
    cases h
    exact Code.keeps_straight Frame.keeps_nil
  | cons e rest ih =>
    obtain ⟨first, more, found, found', rfl⟩ := FlowGraph.lowerBody_cons h
    obtain ⟨here, allowed⟩ := List.forall_mem_cons.1 allowed
    exact (placed.keeps_lowerInstr here found).append (ih allowed found')

/-- The code at the end of a block, which control may run past. -/
theorem Placed.keeps_falling (placed : layout.Placed) {b : Block} {next : Option Label}
    {falling : List Target.Instr}
    (falls : b.fallsThrough = true → g.lowerFallThrough layout b.label next = .ok falling)
    (stays : b.fallsThrough = false → falling = []) (unmarked : labelsOf falling = []) :
    layout.frame.Keeps stages falling := by
  cases fallsThrough : b.fallsThrough with
  | false =>
    rw [stays fallsThrough]
    exact Frame.keeps_nil
  | true =>
    have fallen := falls fallsThrough
    cases next with
    | none =>
      cases fallen
      exact Frame.keeps_of_leads unmarked (.inr rfl) placed.leads_leaveZero
    | some l =>
      obtain ⟨moves, edge, fallen⟩ := bind_eq_ok_iff.1 fallen
      cases fallen
      exact Frame.keeps_of_leads unmarked (.inl rfl) (placed.leads_edgeMoves edge)

theorem Placed.keeps_lowerBlock (placed : layout.Placed) {b : Block} {next : Option Label}
    (allowed : ∀ i ∈ b.body, i.Allowed layout.frame stages)
    (h : g.lowerBlock live layout n b next = .ok code) :
    code.Keeps layout.frame stages := by
  obtain ⟨body, falling, found, falls, stays, unmarked, rfl⟩ := FlowGraph.lowerBlock_eq_ok h
  have keeps := placed.keeps_lowerBody (fun e he => allowed _ (List.of_mem_zip he).1) found
  exact ((Code.keeps_straight (Frame.keeps_label _)).append keeps).append
    (Code.keeps_straight (placed.keeps_falling falls stays unmarked))

theorem Placed.keeps_lowerBlocks (placed : layout.Placed) {bs : List Block}
    (allowed : ∀ b ∈ bs, ∀ i ∈ b.body, i.Allowed layout.frame stages)
    (h : g.lowerBlocks live layout n bs = .ok code) : code.Keeps layout.frame stages := by
  induction bs generalizing n code with
  | nil =>
    cases h
    exact Code.keeps_straight Frame.keeps_nil
  | cons b rest ih =>
    obtain ⟨first, more, found, found', rfl⟩ := FlowGraph.lowerBlocks_cons h
    obtain ⟨here, allowed⟩ := List.forall_mem_cons.1 allowed
    exact (placed.keeps_lowerBlock here found).append (ih allowed found')

end Layout

/-! ## Functions -/

theorem Target.Frame.keeps_detours {frame : Frame} {stages : Nat → Prop} {detours : List Detour}
    (h : ∀ d ∈ detours, frame.Keeps stages d.code) :
    frame.Keeps stages (detours.flatMap Detour.code) := by
  induction detours with
  | nil => exact Frame.keeps_nil
  | cons d rest ih =>
    obtain ⟨first, more⟩ := List.forall_mem_cons.1 h
    exact first.append (ih more)

/-- Any assignment of registers of the palette and of slots that are given out places its
temporaries well, unless the frame is too large. -/
theorem Layout.placed_ofAssignment {g : FlowGraph} {a : Assignment}
    (homes : ∀ t l, a.locations.get? t = some l →
      (∃ r ∈ Register.palette, l = .register r) ∨ ∃ n < a.spilled.length, l = .slot n)
    (small : (Layout.ofAssignment g a).frame.bytes < 2147483648) :
    (Layout.ofAssignment g a).Placed where
  homes t l home := by
    rcases homes t l home with ⟨r, palette, rfl⟩ | ⟨n, lt, rfl⟩
    · exact ⟨palette, fun callee => List.mem_filter.2 ⟨mem_registers.2 ⟨t, home⟩, callee⟩⟩
    · exact lt
  callee r hr := by
    obtain ⟨used, callee⟩ := List.mem_filter.1 hr
    obtain ⟨t, home⟩ := mem_registers.1 used
    refine ⟨callee, ?_⟩
    rcases homes t _ home with ⟨s, palette, same⟩ | ⟨n, -, same⟩
    · cases same
      rintro rfl
      exact absurd palette (by decide)
    · cases same
  once := (SortedSet.nodup_toList _).filter _
  small

namespace FlowGraph

variable {g : FlowGraph} {live : Liveness} {a : Assignment} {f : Function}

/-- Instructions with small counts are allowed, unless the frame is too large. -/
theorem allowed_of_mem_code {stages : Nat → Prop}
    (small : (Layout.ofAssignment g a).frame.bytes < 2147483648)
    (few : ∀ i ∈ g.code, i.count < 2 ^ 32) (laid : ∀ k arg, .param k arg ∈ g.code → stages k) :
    ∀ i ∈ g.code, i.Allowed (Layout.ofAssignment g a).frame stages := by
  refine fun i hi => ⟨few i hi, ?_, ?_⟩
  · rintro k arg rfl
    exact laid k arg hi
  · rintro k arg rfl
    exact Frame.reaches_argument small (Layout.le_arguments hi)

/-- The function of a procedure keeps to the rules. -/
theorem disciplined_lower {stages : Nat → Prop} (placed : (Layout.ofAssignment g a).Placed)
    (allowed : ∀ i ∈ g.code, i.Allowed (Layout.ofAssignment g a).frame stages)
    (h : g.lower live a = .ok f) :
    Disciplined f.frame stages (fun _ _ => True) .entered f.instrs := by
  obtain ⟨entering, code, entered, lowered, rfl⟩ := lower_eq_ok h
  have keeps := placed.keeps_lowerBlocks
    (fun b hb i hi => allowed i (mem_code.2 ⟨b, hb, hi⟩)) lowered
  obtain ⟨s, here, blocks⟩ := keeps.instrs _ (.inl rfl)
  obtain ⟨s', -, detours⟩ := Frame.keeps_detours keeps.detours s here
  exact (((placed.leads_enter entered).append blocks).append detours).rules

/-- Wherever the temporaries of a procedure live, unless they take a frame of 2 ^ 31 bytes or more,
on every path through its function from a state with `rsp` eight bytes past a multiple of 16: at
each label `rsp` is as far below `rbp` as the frame is large; at each call `rsp` is a multiple of
16; at each return the stack pointer and the registers that have to be given back are as they were
at first; and of the stack no instruction writes but words that end below the place to return to. -/
theorem stack_kept_on_paths
    (homes : ∀ t l, a.locations.get? t = some l →
      (∃ r ∈ Register.palette, l = .register r) ∨ ∃ n < a.spilled.length, l = .slot n)
    (few : ∀ i ∈ g.code, i.count < 2 ^ 20) (lowered : g.lower live a = .ok f)
    (small : f.frame.bytes < 2147483648) {m₀ m : Machine} {top : Int}
    (rsp : m₀.registers .rsp = .stack top) (aligned : top % 16 = 8)
    {done : List (Target.Instr × Machine)} {code : List Target.Instr}
    (path : Path f m₀ done code m) :
    (∀ name rest, code = .label name :: rest → ∃ base : Int,
      m.registers .rbp = .stack base ∧ m.registers .rsp = .stack (base - f.frame.size.toInt)) ∧
    (∀ target rest, code = .call target :: rest → ∃ a : Int,
      m.registers .rsp = .stack a ∧ a % 16 = 0) ∧
    (∀ rest, code = .ret :: rest → ∀ r : Register, r = .rsp ∨ r.isCalleeSaved = true →
      m.registers r = m₀.registers r) ∧
    ∀ i rest a, code = i :: rest → .stack a ∈ m.written i → a + 8 ≤ top := by
  have size := Frame.toInt_size small
  have own := frame_of_lower lowered ▸ small
  have allowed : ∀ i ∈ g.code, i.Allowed (Layout.ofAssignment g a).frame fun _ => True :=
    allowed_of_mem_code own (fun i hi => Nat.lt_trans (few i hi) (by decide)) fun _ _ _ => trivial
  have rules := disciplined_lower (Layout.placed_ofAssignment homes own) allowed lowered
  have entry : m₀.registers .rsp = .stack (top - 8 + 8) := by rw [Int.sub_add_cancel, rsp]
  obtain ⟨s, holds, keeps⟩ := path.holds small (fun _ _ => trivial) rules entry
  refine ⟨?_, ?_, ?_, ?_⟩
  · rintro name rest rfl
    obtain ⟨-, s', step, -⟩ := keeps
    cases step with
    | label => exact ⟨top - 8, holds.rbp, size ▸ holds.rsp⟩
    | compute computed => cases computed
    | mark | skip => exact holds.elim
  · rintro target rest rfl
    obtain ⟨-, s', step, -⟩ := keeps
    cases step with
    | @call room saved _ inside even => exact ⟨_, holds.rsp, by omega⟩
    | compute computed => cases computed
    | skip => exact holds.elim
  · rintro rest rfl r hr
    obtain ⟨-, s', step, -⟩ := keeps
    cases step with
    | ret =>
      rcases hr with rfl | callee
      · exact holds.1.trans entry.symm
      · exact holds.2 r callee
    | compute computed => cases computed
    | skip => exact holds.elim
  · rintro i rest a rfl written
    obtain ⟨-, s', step, -⟩ := keeps
    have := step.written_le small holds written
    omega

/-- A procedure that calls with seven arguments, of which it lays the last one ready. -/
def passing : FlowGraph :=
  let a : Temp := ⟨"a", none⟩
  ⟨⟨"passing"⟩, [a], [⟨⟨"L0"⟩, true, [
    .param 7 (.temp a),
    .call (.temp .sink) ⟨"other"⟩ 7,
    .ret (.temp a)]⟩]⟩

/-- Its parameter in a register that has to be given back. -/
def passingHomes : Assignment := ⟨.ofList [(⟨"a", none⟩, .register .rbx)], ∅, []⟩

/-- A machine with the stack pointer where it is when a function is entered. -/
def entered : Machine where
  registers r := if r = .rsp then .stack 8 else .word 0
  flags := none
  stack _ := .word 0
  data _ := none
  printed := #[]

/-- The path through the call to the return. -/
theorem stack_kept_on_paths_passing : ∃ live f, passing.liveness = .ok live ∧
    passing.lower live passingHomes = .ok f ∧ f.frame.bytes < 2147483648 ∧
    entered.registers .rsp = .stack 8 ∧
    ∃ done m, Path f entered done [.ret] m ∧
      ∀ r : Register, r = .rsp ∨ r.isCalleeSaved = true → m.registers r = entered.registers r := by
  obtain ⟨live, f, found, lowered, instrs⟩ : ∃ live f, passing.liveness = .ok live ∧
      passing.lower live passingHomes = .ok f ∧ f.instrs = _ := ⟨_, _, rfl, rfl, rfl⟩
  have first : Path f entered [] f.instrs entered := .start
  rw [instrs] at first
  obtain ⟨_, called⟩ := first.split 15 rfl rfl
  obtain ⟨done, path⟩ :=
    (called.calls ⟨rfl, fun _ _ => rfl, fun _ _ _ _ _ => rfl⟩).split 5 rfl rfl
  have small : f.frame.bytes < 2147483648 := by
    rw [frame_of_lower lowered]
    decide
  refine ⟨live, f, found, lowered, small, rfl, done, _, path, ?_⟩
  refine (stack_kept_on_paths (fun t l home => ?_) (by decide) lowered small rfl rfl path).2.2.1
    [] rfl
  have entry : (t, l) = (⟨"a", none⟩, .register .rbx) :=
    List.mem_singleton.1 (SortedMap.get?_eq_some.1 home)
  cases entry
  exact .inl ⟨.rbx, by decide, rfl⟩

/-- A procedure that returns its parameter. -/
def sunken : FlowGraph :=
  let a : Temp := ⟨"a", none⟩
  ⟨⟨"sunken"⟩, [a], [⟨⟨"L0"⟩, true, [.ret (.temp a)]⟩]⟩

/-- Its parameter in the last of so many slots that the bytes of its frame, counted in 32 bits, are
fewer than none. -/
def sunkenHomes : Assignment :=
  ⟨.ofList [(⟨"a", none⟩, .slot 4294967293)], ∅, .replicate 4294967294 ⟨"a", none⟩⟩

/-- Nothing is reserved on the stack for the frame. -/
theorem stack_left_on_path : ∃ live f, sunken.liveness = .ok live ∧
    sunken.lower live sunkenHomes = .ok f ∧ f.frame.bytes = 34359738352 ∧ f.frame.size = -16 ∧
    ∃ done name rest m, Path f entered done (.label name :: rest) m ∧
      m.registers .rbp = .stack 0 ∧ m.registers .rsp = .stack 0 := by
  have layout : Layout.ofAssignment sunken sunkenHomes =
      ⟨⟨"sunken"⟩, .ofList [(⟨"a", none⟩, .slot 4294967293)], ⟨4294967294, [], [], 0⟩⟩ := by
    rw [Layout.ofAssignment, sunkenHomes, List.length_replicate]
    rfl
  obtain ⟨live, f, found, lowered, frame, instrs⟩ : ∃ live f, sunken.liveness = .ok live ∧
      sunken.lower live sunkenHomes = .ok f ∧ f.frame = ⟨4294967294, [], [], 0⟩ ∧
      ∃ rest, f.instrs = [.push (.register .rbp), .mov (.register .rbp) (.register .rsp),
        .mov (.memory ⟨.register .rbp, 16⟩) (.register .rdi)] ++ .label ".Lsunken.LL0" :: rest := by
    unfold lower
    rw [layout]
    exact ⟨_, _, rfl, rfl, rfl, _, rfl⟩
  obtain ⟨rest, instrs⟩ := instrs
  have first : Path f entered [] f.instrs entered := .start
  rw [instrs] at first
  obtain ⟨done, path⟩ := Path.of_applyAll first rfl
  exact ⟨live, f, found, lowered, frame ▸ by decide, frame ▸ by decide, done, _, rest, _, path, rfl,
    rfl⟩

end FlowGraph

end ThreeAddress
