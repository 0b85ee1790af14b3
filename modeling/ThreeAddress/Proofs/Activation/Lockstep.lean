import Mathlib.Data.List.Forall2
import ThreeAddress.Proofs.Activation.Replacement
/-!
# Procedures in step

Two procedures are in step if each step of an activation of one is a step of the other, with the
same effects. A program may have the one in place of the other, and nobody can tell from its runs,
not even from the number of steps that they take: they end in the same way under every limit.

* `InStep`, `Proc.Mirrors` : activations that go step by step;
* `Waits` : activations that wait for a call, and are in step when it returns;
* `endsAlike` : the machine runs in the same way from positions that are in step;
* `Program.run_mirrors`, `run_enter_mirrors` : runs of programs, and runs from a call on;
* `Program.run_replace_mirrors` : one procedure in the place of another.
-/

namespace ThreeAddress

open Execution

/-! ## Activations in step -/

/-- Two stages of activations have the same effects and failures. -/
abbrev SameStage (Q : Spot → Store Temp → Spot → Store Temp → Prop) :
    Stage Spot (Store Temp) → Stage Spot (Store Temp) → Prop :=
  Alike .byName .byName Q (FailsAs Spot (Store Temp) Eq)

/-- From positions and temporaries in the relation, two procedures take the same step. -/
structure InStep (q q' : Proc) (Q : Spot → Store Temp → Spot → Store Temp → Prop) : Prop where
  /-- The end of a body is no step, so it has to be reached at the same time. -/
  ended : ∀ {pos s pos' s'}, Q pos s pos' s' → (pos.code = [] ↔ pos'.code = [])
  step : ∀ {pos s pos' s'}, Q pos s pos' s' → ∀ staged globals,
    SameStage Q ((Control.ofBody q.name q.body).step .byName pos ⟨s, staged, globals⟩)
      ((Control.ofBody q'.name q'.body).step .byName pos' ⟨s', staged, globals⟩)

/-- The activations of the two procedures are in step from the beginning. -/
def Proc.Mirrors (q q' : Proc) : Prop :=
  ∃ Q, InStep q q' Q ∧ ∀ args, Q (.first q.body) (Store.empty.setAll (q.params.zip args))
    (.first q'.body) (Store.empty.setAll (q.params.zip args))

/-- The same position, with the same temporaries. -/
def SameSpot (pos : Spot) (s : Store Temp) (pos' : Spot) (s' : Store Temp) : Prop :=
  pos = pos' ∧ s = s'

theorem SameStage.write (pos : Spot) (a : Local (Store Temp)) (v : Var) (w : Word) :
    SameStage SameSpot (Keeping.byName.write pos a v w) (Keeping.byName.write pos a v w) := by
  cases v with
  | temp t =>
    simp only [Keeping.write]
    split
    · exact .going ⟨rfl, rfl⟩
    · exact .going ⟨rfl, rfl⟩
  | global g =>
    simp only [Keeping.write]
    cases a.globals.get? g with
    | none => exact .fails ⟨_, rfl, rfl⟩
    | some _ => exact .writes ⟨rfl, rfl⟩

theorem SameStage.refl (x : Stage Spot (Store Temp)) : SameStage SameSpot x x := by
  cases x with
  | going pos a => exact .going ⟨rfl, rfl⟩
  | prints line pos a => exact .prints ⟨rfl, rfl⟩
  | writes g w pos a => exact .writes ⟨rfl, rfl⟩
  | asks dest callee args pos a => exact .asks fun w G => SameStage.write pos _ dest w
  | ends r =>
    cases r with
    | ok v => exact .ends
    | error f => exact .fails ⟨f, rfl, rfl⟩

/-- A procedure is in step with itself. -/
theorem InStep.refl (q : Proc) : InStep q q SameSpot := by
  refine ⟨?_, ?_⟩
  · rintro pos s _ _ ⟨rfl, rfl⟩
    rfl
  · rintro pos s _ _ ⟨rfl, rfl⟩ staged globals
    exact SameStage.refl _

theorem Proc.Mirrors.refl (q : Proc) : q.Mirrors q := ⟨_, .refl q, fun _ => ⟨rfl, rfl⟩⟩

/-- Two activations that wait for a call are in step when it returns. -/
inductive Waits : Waiting → Waiting → Prop where
  | mk {q q' : Proc} {Q : Spot → Store Temp → Spot → Store Temp → Prop} {pos pos' : Spot}
      {s s' : Store Temp} {staged : Store Nat} {dest dest' : Var} (step : InStep q q' Q)
      (h : ∀ w globals, SameStage Q (Keeping.byName.write pos ⟨s, staged, globals⟩ dest w)
        (Keeping.byName.write pos' ⟨s', staged, globals⟩ dest' w)) :
      Waits ⟨⟨q, pos.code, s, staged, pos.previous, pos.current⟩, dest⟩
        ⟨⟨q', pos'.code, s', staged, pos'.previous, pos'.current⟩, dest'⟩

theorem Waits.refl (waiting : Waiting) : Waits waiting waiting := by
  obtain ⟨⟨q, code, temps, staged, previous, current⟩, dest⟩ := waiting
  exact @Waits.mk _ _ _ ⟨code, previous, current⟩ ⟨code, previous, current⟩ _ _ _ _ _ (.refl q)
    fun w globals => SameStage.write _ _ dest w

/-! ## The machine -/

namespace Execution

variable {p p' : Program} {limit left n : Nat} {q q' : Proc} {callers callers' : List Waiting}
  {printed : Array Printed} {Q : Spot → Store Temp → Spot → Store Temp → Prop}

/-- From positions in step, with so many waiting activations and steps left, the machine ends in
the same way. -/
def EndsAlike (p p' : Program) (limit left n : Nat) : Prop :=
  ∀ {q q' : Proc} {Q : Spot → Store Temp → Spot → Store Temp → Prop} {pos pos' : Spot}
    {s s' : Store Temp} {callers callers' : List Waiting} (staged : Store Nat)
    (globals : Store Global) (printed : Array Printed), InStep q q' Q → Q pos s pos' s' →
    List.Forall₂ Waits callers callers' → callers.length = n →
    run p limit left (.at q printed callers pos ⟨s, staged, globals⟩) =
      run p' limit left (.at q' printed callers' pos' ⟨s', staged, globals⟩)

/-- With no step left, nothing but the end of a body can be reached. -/
theorem run_zero (q : Proc) (printed : Array Printed) (callers : List Waiting) {pos : Spot}
    (more : pos.code ≠ []) (a : Local (Store Temp)) :
    run p limit 0 (.at q printed callers pos a) = ⟨printed, .error (.stepLimit limit)⟩ := by
  obtain ⟨code, previous, current⟩ := pos
  cases code with
  | nil => exact absurd rfl more
  | cons i rest =>
    rw [run.eq_def]
    simp only [settle_cons]
    rfl

/-- A result is written on both sides. -/
theorem write_alike (here : EndsAlike p p' limit left callers.length) (step : InStep q q' Q)
    (waits : List.Forall₂ Waits callers callers') {pos : Spot} {a : Local (Store Temp)} {v : Var}
    {w : Word} {y : Stage Spot (Store Temp)} (same : SameStage Q (Keeping.byName.write pos a v w) y)
    (printed : Array Printed) :
    (resume p q printed callers (Keeping.byName.write pos a v w)).run p limit left =
      (resume p' q' printed callers' y).run p' limit left := by
  generalize written : Keeping.byName.write pos a v w = x at same
  cases same with
  | going h => exact here _ _ _ step h waits rfl
  | writes h => exact here _ _ _ step h waits rfl
  | fails h =>
    obtain ⟨_, rfl, rfl⟩ := h
    rfl
  | hidden allowed => exact allowed.elim
  | prints | asks | ends =>
    -- a write does none of this
    exfalso
    cases v <;> simp only [Keeping.write] at written <;> split at written <;> cases written

/-- An activation returns on both sides. -/
theorem leave_alike (q q' : Proc) (below : ∀ m < callers.length, EndsAlike p p' limit left m)
    (waits : List.Forall₂ Waits callers callers') (v : Word × Store Global) :
    (resume p q printed callers (.ends (.ok v))).run p limit left =
      (resume p' q' printed callers' (.ends (.ok v))).run p' limit left := by
  cases waits with
  | nil => rfl
  | @cons waiting waiting' callers callers' first rest =>
    cases first with
    | @mk r r' Q pos pos' s s' staged dest dest' step h =>
      have written := h v.1 v.2
      have same := write_alike (below _ (Nat.lt_succ_self _)) step rest written printed
      rw [resume_write, resume_write] at same
      exact same

/-- What the machine makes of a call. -/
theorem call_at (pos : Spot) (a : Local (Store Temp)) (dest : Var) (callee : Global)
    (args : List Word) : call p (.at q printed callers pos a) dest callee args =
      if maxDepth < callers.length + 1 then .stopped ⟨printed, .error (.callDepth maxDepth)⟩
      else if callee.isBuiltIn then
        match args with
        | [w] => (State.at q (printed.push (callee.line w)) callers pos a).write dest 0
        | _ => .stopped ⟨printed, .error (.arityMismatch callee 1 args.length)⟩
      else
        match p.proc? callee with
        | none => .stopped ⟨printed, .error (.unknownProcedure callee)⟩
        | some r =>
          if r.params.length = args.length then
            .running (.at r printed
              (⟨⟨q, pos.code, a.temps, a.staged, pos.previous, pos.current⟩, dest⟩ :: callers)
              (.first r.body) (.enter .byName Store.empty r.params args a.globals))
          else .stopped ⟨printed, .error (.arityMismatch callee r.params.length args.length)⟩ := rfl

/-- A call is entered on both sides, or is answered at once. -/
theorem call_alike (h : p.Matches Proc.Mirrors p') (all : ∀ m, EndsAlike p p' limit left m)
    (step : InStep q q' Q) (waits : List.Forall₂ Waits callers callers') {pos pos' : Spot}
    {s s' : Store Temp} {staged : Store Nat} {globals : Store Global} {dest dest' : Var}
    (back : ∀ w globals, SameStage Q (Keeping.byName.write pos ⟨s, staged, globals⟩ dest w)
      (Keeping.byName.write pos' ⟨s', staged, globals⟩ dest' w)) (callee : Global)
    (args : List Word) :
    (call p (.at q printed callers pos ⟨s, staged, globals⟩) dest callee args).run p limit left =
      (call p' (.at q' printed callers' pos' ⟨s', staged, globals⟩) dest' callee args).run p' limit
        left := by
  have depth : callers'.length = callers.length := waits.length_eq.symm
  rw [call_at, call_at, depth]
  by_cases deep : maxDepth < callers.length + 1
  · rw [if_pos deep, if_pos deep]
    rfl
  rw [if_neg deep, if_neg deep]
  by_cases builtIn : callee.isBuiltIn
  · rw [if_pos builtIn, if_pos builtIn]
    obtain _ | ⟨w, _ | _⟩ := args
    · rfl
    · have same := write_alike (all _) step waits (back 0 globals) (printed.push (callee.line w))
      rwa [resume_write, resume_write] at same
    · rfl
  rw [if_neg builtIn, if_neg builtIn]
  cases hq : p.proc? callee with
  | none =>
    simp only [h.none hq]
    rfl
  | some r =>
    obtain ⟨r', hr', params, Q', step', first⟩ := h.some hq
    simp only [hr', params]
    by_cases arity : r.params.length = args.length
    · rw [if_pos arity, if_pos arity]
      exact all _ Store.empty globals printed step' (first args) (.cons (.mk step back) waits) rfl
    · rw [if_neg arity, if_neg arity]
      rfl

/-- What comes of the same stages is the same. -/
theorem resume_alike (h : p.Matches Proc.Mirrors p') (all : ∀ m, EndsAlike p p' limit left m)
    (step : InStep q q' Q) (waits : List.Forall₂ Waits callers callers')
    {x y : Stage Spot (Store Temp)} (same : SameStage Q x y) :
    (resume p q printed callers x).run p limit left =
      (resume p' q' printed callers' y).run p' limit left := by
  cases same with
  | going h => exact all _ _ _ _ step h waits rfl
  | prints h => exact all _ _ _ _ step h waits rfl
  | writes h => exact all _ _ _ _ step h waits rfl
  | hidden allowed => exact allowed.elim
  | asks back => exact call_alike h all step waits back _ _
  | ends => exact leave_alike _ _ (fun m _ => all m) waits _
  | fails e =>
    obtain ⟨_, rfl, rfl⟩ := e
    rfl

/-- The end of a body is reached on both sides, and it is enough to look at other positions. -/
theorem endsAlike_of_steps
    (steps : ∀ {q q' : Proc} {Q : Spot → Store Temp → Spot → Store Temp → Prop} {pos pos' : Spot}
      {s s' : Store Temp} {callers callers' : List Waiting} (staged : Store Nat)
      (globals : Store Global) (printed : Array Printed), InStep q q' Q → Q pos s pos' s' →
      List.Forall₂ Waits callers callers' → pos.code ≠ [] → pos'.code ≠ [] →
      run p limit left (.at q printed callers pos ⟨s, staged, globals⟩) =
        run p' limit left (.at q' printed callers' pos' ⟨s', staged, globals⟩)) (n : Nat) :
    EndsAlike p p' limit left n := by
  -- at the end of a body fewer activations wait, and no step is taken
  induction n using Nat.strongRecOn with
  | ind n below =>
    intro q q' Q pos pos' s s' callers callers' staged globals printed step here waits length
    by_cases ended : pos.code = []
    · have ended' := (step.ended here).1 ended
      obtain ⟨code, previous, current⟩ := pos
      obtain ⟨code', previous', current'⟩ := pos'
      cases ended
      cases ended'
      rw [settle_nil, settle_nil]
      exact leave_alike q q' (length ▸ below) waits (0, globals)
    · exact steps staged globals printed step here waits ended fun ended' =>
        ended ((step.ended here).2 ended')

/-- The machine ends in the same way from positions in step. -/
theorem endsAlike (h : p.Matches Proc.Mirrors p') (limit left n : Nat) :
    EndsAlike p p' limit left n := by
  induction left generalizing n with
  | zero =>
    refine endsAlike_of_steps (fun {q q' _ _ _ _ _ _ _} _ _ printed _ _ _ more more' => ?_) n
    rw [run_zero q printed _ more, run_zero q' printed _ more']
  | succ left all =>
    refine endsAlike_of_steps (fun {q q' Q pos pos' s s' callers callers'} staged globals printed
      step here waits more more' => ?_) n
    have first := @run_going p limit q printed callers pos ⟨s, staged, globals⟩ left
    have second := @run_going p' limit q' printed callers' pos' ⟨s', staged, globals⟩ left
    rw [if_neg more] at first
    rw [if_neg more'] at second
    rw [first, second]
    exact resume_alike h all step waits (step.step here staged globals)

end Execution

/-! ## Programs -/

namespace Program

variable {p p' : Program}

/-- Runs from a call on end in the same way, with any number of steps left. -/
theorem run_enter_mirrors (h : p.Matches Proc.Mirrors p') {q q' : Proc} (mirrors : q.Mirrors q')
    (params : q'.params = q.params) (limit left : Nat) (globals : Store Global)
    (printed : Array Printed) (args : List Word) (callers : List Waiting) :
    Execution.run p limit left ⟨globals, printed, .enter q args, callers⟩ =
      Execution.run p' limit left ⟨globals, printed, .enter q' args, callers⟩ := by
  obtain ⟨Q, step, first⟩ := mirrors
  have waits : List.Forall₂ Waits callers callers := List.forall₂_same.2 fun w _ => .refl w
  have same := endsAlike h limit left _ Store.empty globals printed step (first args) waits rfl
  rw [← params] at same
  rw [Frame.enter, Frame.enter, ← params]
  exact same

/-- Runs end in the same way under every limit. -/
theorem run_mirrors (h : p.Matches Proc.Mirrors p') (globals : p'.globals = p.globals)
    (limit : Nat) : p.run limit = p'.run limit := by
  rw [Program.run, Program.run, globals]
  cases hq : p.proc? ⟨"main"⟩ with
  | none => simp only [h.none hq]
  | some q =>
    obtain ⟨q', hq', params, mirrors⟩ := h.some hq
    simp only [hq', params]
    split
    · exact run_enter_mirrors h mirrors params limit limit _ _ _ _
    · rfl

/-- A program runs in the same way with a procedure in the place of another that it is in step with,
and so does the rest of a run from a call of the procedure on. -/
theorem run_replace_mirrors {k : Nat} {q q' : Proc} (hq : p.procs[k]? = some q)
    (name : q'.name = q.name) (params : q'.params = q.params) (mirrors : q.Mirrors q') :
    (∀ limit, (p.replace k q').run limit = p.run limit) ∧
      ∀ limit left globals printed args callers,
        Execution.run (p.replace k q') limit left ⟨globals, printed, .enter q' args, callers⟩ =
          Execution.run p limit left ⟨globals, printed, .enter q args, callers⟩ := by
  have related : p.Matches Proc.Mirrors (p.replace k q') :=
    matches_replace Proc.Mirrors.refl hq name params mirrors
  exact ⟨fun limit => (run_mirrors related rfl limit).symm,
    fun limit left globals printed args callers =>
      (run_enter_mirrors related mirrors params limit left globals printed args callers).symm⟩

end Program

end ThreeAddress
