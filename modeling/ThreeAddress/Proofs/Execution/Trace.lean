import Mathlib.Data.List.Induction
import Mathlib.Data.List.TakeWhile
import ThreeAddress.Execution.Basic
/-!
# Traces

A trace lists what a machine executes on its way from one state to another, with the number of
calls that are open at each instruction. An activation that begins in some state is there as long
as nothing is executed below its depth, and what is executed at its depth is its own. The
activations that its calls begin leave its temporaries alone.

* `Trace` : what is executed between two states;
* `Trace.run_eq` : a run goes along its trace;
* `Step`, `step_of_exec` : what an instruction does to the activations;
* `edge` : the edge on which control came to the current block;
* `settle_ready` : what returning from activations keeps holds at the next instruction;
* `Since` : where an activation is, and what it has executed since it began;
* `Trace.since` : the state at the end of a trace.
-/

namespace ThreeAddress

namespace Execution

/-- What one step executes: an instruction, or a whole group of phis. -/
def State.group (s : State) : Instr → List Instr
  | .phi dest args => .phi dest args :: s.frame.code.takeWhile Instr.isPhi
  | i => [i]

/-- The machine comes from one state to another and executes these instructions, each with the
number of calls that are open. -/
inductive Trace (p : Program) (s : State) : List (Nat × Instr) → State → Prop
  | refl : Trace p s [] s
  | step {done : List (Nat × Instr)} {t u v : State} {i : Instr} (before : Trace p s done t)
      (next : t.settle = .ready i u) (executed : exec p u i = .running v) :
      Trace p s (done ++ (u.group i).map (u.callers.length, ·)) v

/-- The instructions that are executed at a depth. -/
def ownAt (depth : Nat) (done : List (Nat × Instr)) : List Instr :=
  (done.filter fun e => e.1 = depth).map Prod.snd

/-- The labels among some instructions. -/
def labelsIn (own : List Instr) : List Label :=
  own.filterMap fun i =>
    match i with
    | .label l => some l
    | _ => none

/-- The block that control is in behind some instructions: that of the last label. -/
def current (own : List Instr) : Origin :=
  match (labelsIn own).reverse with
  | l :: _ => .block l
  | [] => .entry

/-- The edge on which control came there: from the block of the last label but one, or from the
entry. -/
def edge (own : List Instr) : Origin :=
  match (labelsIn own).reverse with
  | _ :: l :: _ => .block l
  | _ => .entry

variable {p : Program} {s t u v : State}

/-- A run takes the steps of a trace first. -/
theorem Trace.run_eq {done : List (Nat × Instr)} (h : Trace p s done t) :
    ∃ n, ∀ limit left, run p limit (left + n) s = run p limit left t := by
  induction h with
  | refl => exact ⟨0, fun _ _ => rfl⟩
  | step before next executed ih =>
    obtain ⟨n, ih⟩ := ih
    refine ⟨n + 1, fun limit left => ?_⟩
    rw [show left + (n + 1) = left + 1 + n by omega, ih, run.eq_def]
    simp only [next, executed]

theorem ownAt_append (depth : Nat) (done later : List (Nat × Instr)) :
    ownAt depth (done ++ later) = ownAt depth done ++ ownAt depth later := by
  rw [ownAt, List.filter_append, List.map_append]
  rfl

theorem ownAt_map (depth n : Nat) (group : List Instr) :
    ownAt depth (group.map (n, ·)) = if n = depth then group else [] := by
  unfold ownAt
  split
  · next h => simp [List.filter_map, Function.comp_def, h]
  · next h => simp [List.filter_map, Function.comp_def, h]

/-! ## Labels that are passed -/

@[simp] theorem labelsIn_append (own later : List Instr) :
    labelsIn (own ++ later) = labelsIn own ++ labelsIn later := List.filterMap_append

/-- The block before and the current one, behind some more labels. -/
def passLabels (origins : Origin × Origin) (labels : List Label) : Origin × Origin :=
  labels.foldl (fun o l => (o.2, .block l)) origins

theorem passLabels_append (origins : Origin × Origin) (labels later : List Label) :
    passLabels origins (labels ++ later) = passLabels (passLabels origins labels) later :=
  List.foldl_append

/-- From the beginning of a procedure on, the last two labels count. -/
theorem passLabels_labelsIn (own : List Instr) :
    passLabels (.entry, .entry) (labelsIn own) = (edge own, current own) := by
  unfold edge current
  generalize labelsIn own = labels
  induction labels using List.reverseRecOn with
  | nil => rfl
  | append_singleton labels l ih =>
    rw [passLabels_append, ih, List.reverse_append]
    cases labels.reverse <;> rfl

/-! ## What a frame goes through -/

/-- The second frame is what the first one becomes when its activation executes `own`. -/
structure Frame.Follows (own : List Instr) (f f' : Frame) : Prop where
  proc : f'.proc = f.proc
  origins : (f'.previous, f'.current) = passLabels (f.previous, f.current) (labelsIn own)
  temps : ∀ x, x ∉ own.filterMap Instr.def? → f'.temps.get? x = f.temps.get? x

namespace Frame.Follows

variable {own later : List Instr} {f f' f'' : Frame}

theorem refl : f.Follows [] f := ⟨rfl, rfl, fun _ _ => rfl⟩

theorem append (h : f.Follows own f') (next : f'.Follows later f'') :
    f.Follows (own ++ later) f'' where
  proc := next.proc.trans h.proc
  origins := by rw [next.origins, labelsIn_append, passLabels_append, h.origins]
  temps x hx := by
    rw [List.filterMap_append, List.mem_append, not_or] at hx
    exact (next.temps x hx.2).trans (h.temps x hx.1)

/-- No label is passed, and temporaries are written by their instruction only. -/
theorem of_temps {i : Instr} (silent : labelsIn [i] = []) (proc : f'.proc = f.proc)
    (previous : f'.previous = f.previous) (current : f'.current = f.current)
    (temps : ∀ x, i.def? ≠ some x → f'.temps.get? x = f.temps.get? x) : f.Follows [i] f' where
  proc := proc
  origins := by rw [silent, previous, current]; rfl
  temps x hx := temps x fun h => hx (List.mem_filterMap.2 ⟨i, List.mem_singleton_self i, h⟩)

end Frame.Follows

/-! ## Groups of phis -/

/-- Of several words that are written to a key, the last one counts. -/
theorem get?_setAll {κ : Type} [DecidableEq κ] (l : List (κ × Word)) (s : Store κ) (x : κ) :
    (s.setAll l).get? x =
      (l.filterMap fun e => if e.1 = x then some e.2 else none).getLast?.or (s.get? x) := by
  induction l using List.reverseRecOn with
  | nil => rfl
  | append_singleton l e ih =>
    rw [Store.setAll, List.foldl_append, List.filterMap_append]
    refine (Store.get?_set _ e.1 x e.2).trans ?_
    by_cases h : e.1 = x
    · simp [h]
    · rw [if_neg fun same => h same.symm]
      simp only [List.filterMap_cons, h, if_false, List.filterMap_nil, List.append_nil]
      exact ih

/-- The values that the phis of `x` in a group have for an edge. -/
def incoming (temps : Store Temp) (e : Origin) (x : Temp) (phis : List Instr) : List Word :=
  phis.filterMap fun i =>
    match i with
    | .phi dest args => if dest = x then (args.get? e).bind temps.get? else none
    | _ => none

theorem incoming_eq_nil {temps : Store Temp} {e : Origin} {x : Temp} {phis : List Instr}
    (h : x ∉ phis.filterMap Instr.def?) : incoming temps e x phis = [] := by
  refine List.filterMap_eq_nil_iff.2 fun i hi => ?_
  cases i with
  | phi dest args =>
    refine if_neg fun same => h (List.mem_filterMap.2 ⟨_, hi, ?_⟩)
    rw [Instr.def?, same]
  | _ => rfl

/-- The phi of a destination that a group has once has one value at most. -/
theorem incoming_of_nodup {temps : Store Temp} {e : Origin} {x : Temp} {phis : List Instr}
    {args : SortedMap Origin Temp} (nodup : (phis.filterMap Instr.def?).Nodup)
    (h : .phi x args ∈ phis) :
    incoming temps e x phis = ((args.get? e).bind temps.get?).toList := by
  induction phis with
  | nil => cases h
  | cons i rest ih =>
    rw [incoming, List.filterMap_cons]
    rcases List.mem_cons.1 h with rfl | later
    · have once : x ∉ rest.filterMap Instr.def? := (List.nodup_cons.1 nodup).1
      simp only [if_true]
      cases (args.get? e).bind temps.get? with
      | none => exact incoming_eq_nil once
      | some w => exact congrArg (w :: ·) (incoming_eq_nil once)
    · have found := ih (nodup.sublist ((List.sublist_cons_self i rest).filterMap _)) later
      cases i with
      | phi dest choices =>
        have ne : dest ≠ x := fun same =>
          (List.nodup_cons.1 nodup).1 (same ▸ List.mem_filterMap.2 ⟨_, later, rfl⟩)
        simp only [ne, if_false]
        exact found
      | _ => exact found

/-- The last phi that has a value for the edge writes, and without any the old value stays. -/
theorem get?_assignPhis (f : Frame) (phis : List Instr) (x : Temp) :
    (f.assignPhis phis).temps.get? x =
      (incoming f.temps f.previous x phis).getLast?.or (f.temps.get? x) := by
  rw [Frame.assignPhis, get?_setAll, List.filterMap_filterMap, incoming]
  congr 3
  funext i
  cases i with
  | phi dest args =>
    rw [phiValue?]
    by_cases h : dest = x
    · simp only [h, if_true]
      cases (args.get? f.previous).bind f.temps.get? <;> simp
    · cases (args.get? f.previous).bind f.temps.get? <;> simp [h]
  | _ => rfl

/-! ## What a step does -/

theorem reading_eq_running {x : Var} {next : Word → Outcome} (h : s.reading x next = .running u) :
    ∃ w, next w = .running u := by
  rw [State.reading] at h
  split at h
  · exact ⟨_, h⟩
  · cases h

/-- Writing an operand changes one temporary at most. -/
theorem write_eq_running {x : Var} {w : Word} (h : s.write x w = .running u) :
    u.callers = s.callers ∧ ∃ temps, u.frame = { s.frame with temps } ∧
      ∀ y, x.named? ≠ some y → temps.get? y = s.frame.temps.get? y := by
  cases x with
  | temp t =>
    rw [State.write] at h
    split at h
    · cases h
      exact ⟨rfl, s.frame.temps, rfl, fun _ _ => rfl⟩
    · next named =>
      cases h
      refine ⟨rfl, _, rfl, fun y hy => ?_⟩
      have ne : y ≠ t := fun same => hy (by rw [same, Var.named?, if_neg named])
      rw [Store.get?_set, if_neg ne]
  | global g =>
    rw [State.write] at h
    split at h
    · cases h
      exact ⟨rfl, s.frame.temps, rfl, fun _ _ => rfl⟩
    · cases h

theorem jump_eq_running {l : Label} (h : s.jump l = .running u) :
    ∃ code, u = { s with frame := { s.frame with code } } := by
  rw [State.jump] at h
  split at h
  · cases h
    exact ⟨_, rfl⟩
  · cases h

/-- What an instruction does to the activations. -/
inductive Step (s : State) (i : Instr) (u : State) : Prop
  /-- The running activation goes on. -/
  | stays (callers : u.callers = s.callers) (follows : s.frame.Follows (s.group i) u.frame)
  /-- It waits for a call. -/
  | calls (dest : Var) (frame : Frame) (callers : u.callers = ⟨frame, dest⟩ :: s.callers)
      (follows : s.frame.Follows (s.group i) frame)
      (writes : ∀ x, dest.named? = some x → x ∈ (s.group i).filterMap Instr.def?)
  /-- It is over, and the innermost waiting one goes on. -/
  | returns (waiting : Waiting) (callers : List Waiting) (w : Word)
      (waits : s.callers = waiting :: callers)
      (written : { s with frame := waiting.frame, callers }.write waiting.dest w = .running u)

namespace Step

variable {i : Instr}

/-- An instruction that writes its destination and nothing else. -/
theorem of_write {dest : Var} {w : Word} (silent : labelsIn [i] = []) (group : s.group i = [i])
    (def? : i.def? = dest.named?) (h : s.write dest w = .running u) : Step s i u := by
  obtain ⟨callers, temps, frame, kept⟩ := write_eq_running h
  rw [← def?] at kept
  refine .stays callers ?_
  rw [group, frame]
  exact .of_temps silent rfl rfl rfl kept

/-- An instruction that changes neither the callers nor the temporaries. -/
theorem of_frame (silent : labelsIn [i] = []) (group : s.group i = [i])
    (callers : u.callers = s.callers) (proc : u.frame.proc = s.frame.proc)
    (previous : u.frame.previous = s.frame.previous) (current : u.frame.current = s.frame.current)
    (temps : u.frame.temps = s.frame.temps) : Step s i u := by
  refine .stays callers ?_
  rw [group]
  exact .of_temps silent proc previous current fun x _ => by rw [temps]

theorem of_jump {l : Label} (silent : labelsIn [i] = []) (group : s.group i = [i])
    (h : s.jump l = .running u) : Step s i u := by
  obtain ⟨code, rfl⟩ := jump_eq_running h
  exact of_frame silent group rfl rfl rfl rfl rfl

end Step

/-- A call begins an activation, or writes its result at once if its procedure is built in. -/
theorem call_eq_running {dest : Var} {callee : Global} {args : List Word}
    (h : call p s dest callee args = .running u) :
    (u.callers = s.callers ∧ ∃ temps, u.frame = { s.frame with temps } ∧
      ∀ y, dest.named? ≠ some y → temps.get? y = s.frame.temps.get? y) ∨
    ∃ q, u.frame = .enter q args ∧ u.callers = ⟨s.frame, dest⟩ :: s.callers := by
  rw [call.eq_def] at h
  split at h
  · cases h
  split at h
  · split at h
    · next w =>
      left
      exact write_eq_running (s := s.print (if callee = .printWord then .word w else .truth w)) h
    · cases h
  · split at h
    · cases h
    · next q _ =>
      split at h
      · cases h
        exact .inr ⟨q, rfl, rfl⟩
      · cases h

theorem step_of_call {dest : Var} {callee : Global} {argc : Nat} {args : List Word}
    (h : call p { s with frame := { s.frame with staged := Store.empty } } dest callee args
      = .running u) : Step s (.call dest callee argc) u := by
  rcases call_eq_running h with ⟨callers, temps, frame, kept⟩ | ⟨q, -, callers⟩
  · refine .stays callers ?_
    rw [show s.group (.call dest callee argc) = [.call dest callee argc] from rfl, frame]
    exact .of_temps rfl rfl rfl rfl kept
  · refine .calls dest _ callers (.of_temps rfl rfl rfl rfl fun _ _ => rfl) fun x named => ?_
    exact List.mem_filterMap.2 ⟨_, List.mem_singleton_self _, named⟩

theorem labelsIn_of_isPhi {phis : List Instr} (all : ∀ i ∈ phis, i.isPhi = true) :
    labelsIn phis = [] := by
  refine List.filterMap_eq_nil_iff.2 fun i hi => ?_
  have phi := all i hi
  cases i with
  | label l => cases phi
  | _ => rfl

theorem State.isPhi_of_mem_group {dest : Temp} {args : SortedMap Origin Temp} {i : Instr}
    (h : i ∈ s.group (.phi dest args)) : i.isPhi = true := by
  rcases List.mem_cons.1 h with rfl | h
  · rfl
  · exact List.mem_takeWhile_imp h

/-- A group of phis passes no label, and writes its destinations only. -/
theorem follows_assignPhis (f : Frame) (code : List Instr) {phis : List Instr}
    (all : ∀ i ∈ phis, i.isPhi = true) :
    f.Follows phis { f.assignPhis phis with code } where
  proc := rfl
  origins := by
    rw [labelsIn_of_isPhi all]
    rfl
  temps x hx := (get?_assignPhis f phis x).trans (by rw [incoming_eq_nil hx]; rfl)

theorem step_of_exec {i : Instr} (h : exec p s i = .running u) : Step s i u := by
  cases i with
  | nop =>
    cases h
    exact .of_frame rfl rfl rfl rfl rfl rfl rfl
  | label l =>
    cases h
    exact .stays rfl ⟨rfl, rfl, fun _ _ => rfl⟩
  | jump target => exact .of_jump rfl rfl h
  | branch test arg target =>
    obtain ⟨w, h⟩ := reading_eq_running h
    split at h
    · exact .of_jump rfl rfl h
    · cases h
      exact .of_frame rfl rfl rfl rfl rfl rfl rfl
  | binary op dest lhs rhs =>
    obtain ⟨a, h⟩ := reading_eq_running h
    obtain ⟨b, h⟩ := reading_eq_running h
    split at h
    · exact .of_write rfl rfl rfl h
    · cases h
  | unary op dest arg =>
    obtain ⟨w, h⟩ := reading_eq_running h
    exact .of_write rfl rfl rfl h
  | const dest value => exact .of_write rfl rfl rfl h
  | copy dest src =>
    obtain ⟨w, h⟩ := reading_eq_running h
    exact .of_write rfl rfl rfl h
  | param index arg =>
    obtain ⟨w, h⟩ := reading_eq_running h
    cases h
    exact .of_frame rfl rfl rfl rfl rfl rfl rfl
  | call dest callee argc =>
    rw [exec] at h
    split at h
    · cases h
    · exact step_of_call h
  | ret arg =>
    obtain ⟨w, h⟩ := reading_eq_running h
    rw [State.leave] at h
    split at h
    · cases h
    · next waiting callers waits => exact .returns waiting callers w waits h
  | print arg =>
    obtain ⟨w, h⟩ := reading_eq_running h
    cases h
    exact .of_frame rfl rfl rfl rfl rfl rfl rfl
  | phi dest args =>
    cases h
    exact .stays rfl (follows_assignPhis _ _ fun _ => State.isPhi_of_mem_group)

/-! ## Coming to the next instruction -/

/-- What returning from an activation keeps holds of the state in front of the next instruction. -/
theorem settle_ready {P : State → Prop} {i : Instr}
    (leave : ∀ {s u : State} {waiting : Waiting} {callers : List Waiting} {w : Word}, P s →
      s.callers = waiting :: callers →
      { s with frame := waiting.frame, callers }.write waiting.dest w = .running u → P u)
    (h : P s) (next : s.settle = .ready i u) :
    P { u with frame := { u.frame with code := i :: u.frame.code } } := by
  obtain ⟨globals, printed, frame, callers⟩ := s
  rw [State.settle] at next
  induction callers generalizing globals printed frame with
  | nil =>
    obtain ⟨proc, code, temps, staged, previous, current⟩ := frame
    cases code with
    | nil => cases next
    | cons j code =>
      cases next
      exact h
  | cons waiting callers ih =>
    obtain ⟨proc, code, temps, staged, previous, current⟩ := frame
    cases code with
    | cons j code =>
      cases next
      exact h
    | nil =>
      simp only [settleFrame] at next
      split at next
      · next v written =>
        obtain ⟨same, -⟩ := write_eq_running written
        have left := leave h rfl written
        obtain ⟨globals', printed', frame', callers'⟩ := v
        obtain rfl : callers' = callers := same
        exact ih globals' printed' frame' left next
      · cases next

/-! ## Where an activation is -/

/-- An activation that began with the frame `f` above the waiting ones `base` has executed `own`
since. -/
inductive Since (base : List Waiting) (f : Frame) (own : List Instr) (s : State) : Prop
  /-- It is running. -/
  | runs (callers : s.callers = base) (follows : f.Follows own s.frame)
  /-- It waits for a call, whose destination counts as written. -/
  | waits (inner : List Waiting) (w : Waiting) (callers : s.callers = inner ++ w :: base)
      (follows : f.Follows own w.frame)
      (dest : ∀ x, w.dest.named? = some x → x ∈ own.filterMap Instr.def?)
  /-- It is over. -/
  | gone (below : s.callers.length < base.length)

namespace Since

variable {base : List Waiting} {f : Frame} {own : List Instr}

/-- The innermost activation is over, and what it returns is written. -/
theorem leave {waiting : Waiting} {callers : List Waiting} {w : Word} (h : Since base f own s)
    (waits : s.callers = waiting :: callers)
    (written : { s with frame := waiting.frame, callers }.write waiting.dest w = .running u) :
    Since base f own u := by
  obtain ⟨same, temps, frame, kept⟩ := write_eq_running written
  cases h with
  | runs own_callers follows =>
    refine .gone ?_
    rw [same, ← own_callers, waits]
    exact Nat.lt_succ_self _
  | gone below =>
    refine .gone ?_
    rw [waits] at below
    rw [same]
    exact Nat.lt_of_succ_lt below
  | waits inner v own_callers follows dest =>
    rw [waits] at own_callers
    cases inner with
    | nil =>
      -- The call of this activation comes back.
      obtain ⟨rfl, rfl⟩ := List.cons.inj own_callers
      refine .runs same ?_
      rw [frame]
      refine ⟨follows.proc, follows.origins, fun x hx => ?_⟩
      exact (kept x fun named => hx (dest x named)).trans (follows.temps x hx)
    | cons first inner =>
      obtain ⟨rfl, rfl⟩ := List.cons.inj own_callers
      exact .waits inner v same follows dest

/-- Returning from activations whose end is reached. -/
theorem settle {i : Instr} (h : Since base f own s) (next : s.settle = .ready i u) :
    Since base f own u := by
  cases settle_ready (fun before waits written => before.leave waits written) h next with
  | runs callers follows => exact .runs callers ⟨follows.proc, follows.origins, follows.temps⟩
  | waits inner w callers follows dest => exact .waits inner w callers follows dest
  | gone below => exact .gone below

/-- One step of this activation or of an activation above it. -/
theorem exec {i : Instr} (h : Since base f own s) (above : base.length ≤ s.callers.length)
    (step : Step s i u) :
    Since base f (own ++ if s.callers.length = base.length then s.group i else []) u := by
  cases h with
  | gone below => omega
  | runs callers follows =>
    rw [if_pos (by rw [callers])]
    cases step with
    | stays same next => exact .runs (same.trans callers) (follows.append next)
    | calls dest frame same next writes =>
      refine .waits [] ⟨frame, dest⟩ (by rw [same, callers]; rfl) (follows.append next) ?_
      intro x named
      rw [List.filterMap_append]
      exact List.mem_append_right _ (writes x named)
    | returns waiting rest w waits written =>
      obtain ⟨same, -⟩ := write_eq_running written
      refine .gone ?_
      rw [same, ← callers, waits]
      exact Nat.lt_succ_self _
  | waits inner w callers follows dest =>
    have deeper : s.callers.length ≠ base.length := by
      rw [callers, List.length_append, List.length_cons]
      omega
    rw [if_neg deeper, List.append_nil]
    cases step with
    | stays same next => exact .waits inner w (same.trans callers) follows dest
    | calls dest' frame same next writes =>
      refine .waits (⟨frame, dest'⟩ :: inner) w ?_ follows dest
      rw [same, callers]
      rfl
    | returns waiting rest v waits written =>
      exact leave (.waits inner w callers follows dest) waits written

end Since

/-- Every step executes something at the depth of the running activation. -/
theorem State.le_callers {i : Instr} {depth : Nat}
    (above : ∀ e ∈ (s.group i).map (s.callers.length, ·), depth ≤ e.1) :
    depth ≤ s.callers.length := by
  have nonempty : s.group i ≠ [] := by cases i <;> exact List.cons_ne_nil _ _
  obtain ⟨j, hj⟩ := List.exists_mem_of_ne_nil _ nonempty
  exact above _ (List.mem_map_of_mem hj)

/-- The state at the end of a trace in which nothing is executed below an activation. -/
theorem Trace.since {done : List (Nat × Instr)} (h : Trace p s done t)
    (above : ∀ e ∈ done, s.callers.length ≤ e.1) :
    Since s.callers s.frame (ownAt s.callers.length done) t := by
  induction h with
  | refl => exact .runs rfl .refl
  | @step done t u v i before next executed ih =>
    have first := (ih fun e he => above e (List.mem_append_left _ he)).settle next
    have here := State.le_callers fun e he => above e (List.mem_append_right _ he)
    rw [ownAt_append, ownAt_map]
    exact first.exec here (step_of_exec executed)

end Execution

end ThreeAddress
