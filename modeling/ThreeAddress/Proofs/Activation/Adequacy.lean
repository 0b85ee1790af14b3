import ThreeAddress.Proofs.Activation.Calls
/-!
# Runs as nested activations

The machine that runs a program keeps a list of waiting activations. Taken apart into activations
that answer each other's calls, a run ends in the same way.

* `resume` : what the machine makes of a stage of the running activation;
* `run_going` : one step of the machine is one step of the running activation;
* `run_of_yields`, `separable` : an activation in the machine and by itself;
* `Program.finishes_iff`, `Program.endsWith_of_run` : the runs of a program that are not cut short.
-/

namespace ThreeAddress

namespace Execution

variable {p : Program} {limit : Nat}

/-! ## The machine and the running activation -/

/-- The state of the machine when the running activation is at a position. -/
def State.at (q : Proc) (printed : Array Printed) (callers : List Waiting) (pos : Spot)
    (a : Local (Store Temp)) : State :=
  ⟨a.globals, printed, ⟨q, pos.code, a.temps, a.staged, pos.previous, pos.current⟩, callers⟩

/-- What the machine makes of a stage of the running activation. -/
def resume (p : Program) (q : Proc) (printed : Array Printed) (callers : List Waiting) :
    Stage Spot (Store Temp) → Outcome
  | .going pos a | .writes _ _ pos a => .running (.at q printed callers pos a)
  | .prints line pos a => .running (.at q (printed.push line) callers pos a)
  | .asks dest callee args pos a => call p (.at q printed callers pos a) dest callee args
  | .ends (.ok (w, globals)) =>
    (State.at q printed callers (.first []) ⟨Store.empty, Store.empty, globals⟩).leave w
  | .ends (.error f) => .stopped ⟨printed, .error f⟩

/-- How the run ends after a step. -/
def Outcome.run (p : Program) (limit left : Nat) : Outcome → Ending
  | .running s => Execution.run p limit left s
  | .stopped e => e

theorem resume_write (q : Proc) (printed : Array Printed) (callers : List Waiting) (pos : Spot)
    (a : Local (Store Temp)) (v : Var) (w : Word) :
    resume p q printed callers (Keeping.byName.write pos a v w) =
      (State.at q printed callers pos a).write v w := by
  cases v with
  | temp t =>
    simp only [Keeping.write, State.write]
    split <;> rfl
  | global g =>
    simp only [Keeping.write, State.write, State.at]
    cases a.globals.get? g <;> rfl

theorem collect_eq (s : State) (callee : Global) (index n : Nat) :
    s.collect callee index n = gather s.frame.staged callee index n := by
  induction n generalizing index with
  | zero => rfl
  | succ n ih =>
    rw [State.collect, gather]
    cases s.frame.staged.get? index with
    | none => rfl
    | some w => exact congrArg (Except.map (w :: ·)) (ih (index + 1))

theorem reading_eq {q : Proc} {printed : Array Printed} {callers : List Waiting} {pos : Spot}
    {a : Local (Store Temp)} {v : Var} {k : Word → Stage Spot (Store Temp)} {k' : Word → Outcome}
    (h : ∀ w, k' w = resume p q printed callers (k w)) :
    (State.at q printed callers pos a).reading v k' =
      resume p q printed callers ((Control.ofBody q.name q.body).reading .byName a v k) := by
  have same : (State.at q printed callers pos a).read v
      = (Control.ofBody q.name q.body).read .byName a v := by
    cases v <;> rfl
  rw [State.reading, Control.reading, same]
  cases (Control.ofBody q.name q.body).read .byName a v with
  | ok w => exact h w
  | error f => rfl

theorem jump_eq (q : Proc) (printed : Array Printed) (callers : List Waiting) (pos : Spot)
    (a : Local (Store Temp)) (l : Label) :
    (State.at q printed callers pos a).jump l =
      resume p q printed callers ((Control.ofBody q.name q.body).goto pos a l) := by
  simp only [State.jump, Control.goto, State.at, Control.ofBody]
  cases codeFrom? l q.body <;> rfl

theorem assign_byName (f : Frame) (phis : List Instr) :
    Keeping.byName.assign f.previous phis f.temps = (f.assignPhis phis).temps := by
  have fold : ∀ (l : List (Temp × Option Word)) (s : Store Temp),
      l.foldl (fun s e => Keeping.byName.choose s e.1 e.2) s
        = s.setAll (l.filterMap fun e => e.2.map fun w => (e.1, w)) := by
    intro l
    induction l with
    | nil => intro s; rfl
    | cons e l ih =>
      intro s
      obtain ⟨t, w?⟩ := e
      rw [List.foldl_cons, ih]
      cases w? <;> rfl
  rw [Keeping.assign, fold, Frame.assignPhis, List.filterMap_filterMap]
  refine congrArg (fun choose => f.temps.setAll (phis.filterMap choose)) (funext fun i => ?_)
  cases i <;> rfl

/-- Executing an instruction is a step of the running activation. -/
theorem exec_eq (q : Proc) (printed : Array Printed) (callers : List Waiting) (i : Instr)
    (rest : List Instr) (previous current : Origin) (a : Local (Store Temp)) :
    exec p (State.at q printed callers ⟨rest, previous, current⟩ a) i =
      resume p q printed callers
        ((Control.ofBody q.name q.body).step .byName ⟨i :: rest, previous, current⟩ a) := by
  cases i with
  | nop => rfl
  | label l => rfl
  | jump target => exact jump_eq ..
  | branch test arg target =>
    refine reading_eq fun w => ?_
    split
    · exact jump_eq ..
    · rfl
  | binary op dest lhs rhs =>
    refine reading_eq fun v => reading_eq fun w => ?_
    cases op.eval? v w with
    | some u => exact (resume_write ..).symm
    | none => rfl
  | unary op dest arg => exact reading_eq fun w => (resume_write ..).symm
  | const dest value => exact (resume_write ..).symm
  | copy dest src => exact reading_eq fun w => (resume_write ..).symm
  | param index arg => exact reading_eq fun w => rfl
  | call dest callee argc =>
    simp only [exec, Control.step, Control.ofBody, Control.perform, collect_eq]
    cases h : gather a.staged callee 1 argc with
    | error f => simp [State.at, h, resume, State.fail]
    | ok args => simp [State.at, h, resume]
  | ret arg => exact reading_eq fun w => rfl
  | print arg => exact reading_eq fun w => rfl
  | phi dest args =>
    have h := assign_byName ⟨q, rest, a.temps, a.staged, previous, current⟩
      (.phi dest args :: rest.takeWhile Instr.isPhi)
    simp only [exec, Control.step, Control.ofBody, State.at, resume, Frame.assignPhis]
    simp only [Frame.assignPhis] at h
    rw [h]

theorem settle_nil (q : Proc) (printed : Array Printed) (callers : List Waiting)
    (previous current : Origin) (a : Local (Store Temp)) (left : Nat) :
    run p limit left (State.at q printed callers ⟨[], previous, current⟩ a) =
      ((State.at q printed callers ⟨[], previous, current⟩ a).leave 0).run p limit left := by
  cases callers with
  | nil => rw [run.eq_def]; rfl
  | cons waiting callers =>
    rw [run.eq_def]
    simp only [State.settle, State.at, settleFrame, State.leave]
    cases h : State.write ⟨a.globals, printed, waiting.frame, callers⟩ waiting.dest 0 with
    | stopped e => rfl
    | running s =>
      have same : s.callers = callers := by
        cases hd : waiting.dest with
        | temp t =>
          rw [hd, State.write] at h
          split at h <;> cases h <;> rfl
        | global g =>
          rw [hd, State.write] at h
          split at h <;> cases h
          rfl
      simp only [Outcome.run]
      rw [run.eq_def]
      simp only [State.settle, same]

theorem settle_cons (q : Proc) (printed : Array Printed) (callers : List Waiting) (i : Instr)
    (rest : List Instr) (previous current : Origin) (a : Local (Store Temp)) :
    (State.at q printed callers ⟨i :: rest, previous, current⟩ a).settle =
      .ready i (.at q printed callers ⟨rest, previous, current⟩ a) := by
  cases callers <;> rfl

/-- A step of the machine is a step of the running activation. The end of a body is no step. -/
theorem run_going (q : Proc) (printed : Array Printed) (callers : List Waiting) (pos : Spot)
    (a : Local (Store Temp)) (left : Nat) :
    run p limit (if pos.code = [] then left else left + 1) (State.at q printed callers pos a) =
      (resume p q printed callers
        ((Control.ofBody q.name q.body).step .byName pos a)).run p limit left := by
  obtain ⟨code, previous, current⟩ := pos
  cases code with
  | nil =>
    rw [if_pos rfl, settle_nil]
    rfl
  | cons i rest =>
    rw [if_neg (by simp), run.eq_def]
    simp only [settle_cons, exec_eq]
    rfl

/-! ## From activations to the machine -/

/-- What the machine makes of the answer to a call. -/
def answered (p : Program) (q : Proc) (printed : Array Printed) (callers : List Waiting)
    (dest : Var) (pos : Spot) (a : Local (Store Temp)) : Result → Outcome
  | .ok (w, globals) => resume p q printed callers (Keeping.byName.write pos { a with globals } dest w)
  | .error f => .stopped ⟨printed, .error f⟩

/-- An activation that runs by itself runs in the machine, whatever the machine does afterwards. -/
def RunsAt (p : Program) (n : Nat) : Prop :=
  ∀ (q : Proc) (printed : Array Printed) (callers : List Waiting) (x : Stage Spot (Store Temp))
    (t : List Effect) (r : Result) (out : List Printed), callers.length + n = maxDepth →
    (Control.ofBody q.name q.body).Yields .byName x t r → Heard (p.Calls n) t out →
    ∃ k, ∀ limit left, (resume p q printed callers x).run p limit (left + k) =
      (resume p q (printed ++ out.toArray) callers (.ends r)).run p limit left

theorem Proc.runs_iff {q : Proc} {a : Local (Store Temp)} {t : List Effect} {r : Result} :
    q.Runs .byName a t r ↔
      (Control.ofBody q.name q.body).Yields .byName (.going (.first q.body) a) t r := Iff.rfl

theorem append_nil_toArray (printed : Array Printed) :
    printed ++ ([] : List Printed).toArray = printed := by
  simp

theorem append_cons_toArray (printed : Array Printed) (line : Printed) (rest : List Printed) :
    printed ++ (line :: rest).toArray = printed.push line ++ rest.toArray := by
  simp

theorem append_append_toArray (printed : Array Printed) (first rest : List Printed) :
    printed ++ (first ++ rest).toArray = printed ++ first.toArray ++ rest.toArray := by
  simp

theorem run_call_of_calls {n : Nat} (below : ∀ m < n, RunsAt p m) {q : Proc}
    {printed : Array Printed} {callers : List Waiting} {dest : Var} {callee : Global}
    {args : List Word} {pos : Spot} {a : Local (Store Temp)} {out : List Printed} {r : Result}
    (depth : callers.length + n = maxDepth) (h : p.Calls n callee args a.globals out r) :
    ∃ k, ∀ limit left, (call p (.at q printed callers pos a) dest callee args).run p limit (left + k) =
      (answered p q (printed ++ out.toArray) callers dest pos a r).run p limit left := by
  have length : (State.at q printed callers pos a).callers.length = callers.length := rfl
  cases n with
  | zero =>
    obtain ⟨rfl, rfl⟩ := h
    have deep : maxDepth < (State.at q printed callers pos a).callers.length + 1 := by omega
    refine ⟨0, fun limit left => ?_⟩
    unfold call
    rw [if_pos deep, append_nil_toArray]
    rfl
  | succ n =>
    have shallow : ¬ maxDepth < (State.at q printed callers pos a).callers.length + 1 := by omega
    rw [Program.Calls] at h
    unfold call
    rw [if_neg shallow]
    by_cases builtIn : callee.isBuiltIn
    · have builtIn' : callee = .printWord ∨ callee = .printTruth := builtIn
      rw [if_pos builtIn] at h
      rw [if_pos builtIn']
      refine ⟨0, fun limit left => ?_⟩
      match args, h with
      | [w], ⟨ho, hr⟩ =>
        subst ho hr
        rw [answered, resume_write, append_cons_toArray, append_nil_toArray]
        rfl
      | [], ⟨ho, hr⟩ =>
        subst ho hr
        rw [append_nil_toArray]
        rfl
      | _ :: _ :: _, ⟨ho, hr⟩ =>
        subst ho hr
        rw [append_nil_toArray]
        rfl
    · have builtIn' : ¬ (callee = .printWord ∨ callee = .printTruth) := builtIn
      rw [if_neg builtIn] at h
      rw [if_neg builtIn']
      cases hq : p.proc? callee with
      | none =>
        simp only [hq] at h ⊢
        obtain ⟨rfl, rfl⟩ := h
        refine ⟨0, fun limit left => ?_⟩
        rw [append_nil_toArray]
        rfl
      | some proc =>
        simp only [hq] at h ⊢
        by_cases arity : proc.params.length = args.length
        · rw [if_pos arity] at h ⊢
          obtain ⟨t, yields, heard⟩ := h
          obtain ⟨k, hk⟩ := below n (Nat.lt_succ_self n) proc printed
            (⟨(State.at q printed callers pos a).frame, dest⟩ :: callers) _ t r out
            (by rw [List.length_cons]; omega) yields heard
          refine ⟨k, fun limit left => (hk limit left).trans ?_⟩
          cases r with
          | error f => rfl
          | ok v =>
            rw [answered, resume_write]
            rfl
        · rw [if_neg arity] at h ⊢
          obtain ⟨rfl, rfl⟩ := h
          refine ⟨0, fun limit left => ?_⟩
          rw [append_nil_toArray]
          rfl

theorem run_of_yields (p : Program) (n : Nat) : RunsAt p n := by
  induction n using Nat.strongRecOn with
  | ind n below =>
    intro q printed callers x t r out depth h
    -- a step of the activation costs the machine one step, or none
    have step : ∀ {printed : Array Printed} {out : List Printed} {pos : Spot}
        {a : Local (Store Temp)} {r : Result},
        (∃ k, ∀ limit left, (resume p q printed callers ((Control.ofBody q.name q.body).step .byName pos a)).run
          p limit (left + k) = (resume p q (printed ++ out.toArray) callers (.ends r)).run p limit left) →
        ∃ k, ∀ limit left, run p limit (left + k) (State.at q printed callers pos a) =
          (resume p q (printed ++ out.toArray) callers (.ends r)).run p limit left := by
      rintro printed out pos a r ⟨k, hk⟩
      refine ⟨if pos.code = [] then k else k + 1, fun limit left => ?_⟩
      rw [← hk, ← run_going]
      split <;> rfl
    induction h generalizing printed out with
    | ends =>
      rintro rfl
      exact ⟨0, fun limit left => by simp⟩
    | going _ ih =>
      intro heard
      exact step (ih printed out heard)
    | prints _ ih =>
      rintro ⟨rest, rfl, heard⟩
      simp only [append_cons_toArray]
      exact step (ih _ rest heard)
    | writes _ ih =>
      intro heard
      exact step (ih printed out heard)
    | answered _ ih =>
      rintro ⟨first, rest, rfl, calls, heard⟩
      obtain ⟨k₁, hk₁⟩ := run_call_of_calls below depth calls
      obtain ⟨k₂, hk₂⟩ := ih (printed ++ first.toArray) rest heard
      refine ⟨k₂ + k₁, fun limit left => ?_⟩
      rw [append_append_toArray, ← Nat.add_assoc]
      exact (hk₁ limit _).trans (hk₂ limit left)
    | failed =>
      rintro ⟨first, rest, rfl, calls, rfl⟩
      obtain ⟨k, hk⟩ := run_call_of_calls below depth calls
      refine ⟨k, fun limit left => ?_⟩
      rw [List.append_nil]
      exact hk limit left

/-! ## From the machine to activations -/

/-- The stage of the running activation is taken apart: the activation runs by itself up to its
result, and with what is left the machine goes on from there to the given ending. -/
def TakenApart (p : Program) (limit left n : Nat) (q : Proc) (printed : Array Printed)
    (callers : List Waiting) (e : Ending) (x : Stage Spot (Store Temp)) : Prop :=
  ∃ t r out left', left' ≤ left ∧ (Control.ofBody q.name q.body).Yields .byName x t r ∧
    Heard (p.Calls n) t out ∧
    (resume p q (printed ++ out.toArray) callers (.ends r)).run p limit left' = e

/-- A run that is not cut short can be taken apart, if that many steps are left. -/
def Separable (p : Program) (limit left : Nat) : Prop :=
  ∀ n q printed callers e x, callers.length + n = maxDepth →
    e.result ≠ .error (.stepLimit limit) → (resume p q printed callers x).run p limit left = e →
    TakenApart p limit left n q printed callers e x

theorem TakenApart.ends {left n : Nat} {q : Proc} {printed : Array Printed}
    {callers : List Waiting} {e : Ending} {r : Result}
    (h : (resume p q printed callers (.ends r)).run p limit left = e) :
    TakenApart p limit left n q printed callers e (.ends r) :=
  ⟨[], r, [], left, Nat.le_refl _, .ends, rfl, by rwa [append_nil_toArray]⟩

theorem TakenApart.weaken {left left' n : Nat} {q : Proc} {printed : Array Printed}
    {callers : List Waiting} {e : Ending} {x : Stage Spot (Store Temp)} (le : left ≤ left')
    (h : TakenApart p limit left n q printed callers e x) :
    TakenApart p limit left' n q printed callers e x := by
  obtain ⟨t, r, out, left'', le', h⟩ := h
  exact ⟨t, r, out, left'', Nat.le_trans le' le, h⟩

/-- At a position, a run that is not cut short makes a step, or ends the activation. -/
theorem takenApart_step {left n : Nat} (smaller : ∀ m < left, Separable p limit m) {q : Proc}
    {printed : Array Printed} {callers : List Waiting} {e : Ending} {pos : Spot}
    {a : Local (Store Temp)} (depth : callers.length + n = maxDepth)
    (uncut : e.result ≠ .error (.stepLimit limit))
    (h : run p limit left (State.at q printed callers pos a) = e) :
    TakenApart p limit left n q printed callers e
      ((Control.ofBody q.name q.body).step .byName pos a) := by
  have going := @run_going p limit q printed callers pos a
  by_cases code : pos.code = []
  · have ended : (Control.ofBody q.name q.body).step .byName pos a = .ends (.ok (0, a.globals)) := by
      simp [Control.step, Control.ofBody, code]
    simp only [code, if_true] at going
    rw [going, ended] at h
    rw [ended]
    exact .ends h
  · simp only [code, if_false] at going
    cases left with
    | zero =>
      obtain ⟨i, rest, code⟩ := List.exists_cons_of_ne_nil code
      refine absurd ?_ uncut
      obtain ⟨_, previous, current⟩ := pos
      cases code
      rw [← h, run.eq_def]
      simp only [settle_cons]
    | succ left =>
      rw [going] at h
      exact (smaller left (Nat.lt_succ_self left) _ _ _ _ _ _ depth uncut h).weaken (Nat.le_succ left)

/-- A stage that asks for nothing is taken apart. -/
theorem takenApart_write {left n : Nat} (smaller : ∀ m < left, Separable p limit m) {q : Proc}
    {printed : Array Printed} {callers : List Waiting} {e : Ending} {pos : Spot}
    {a : Local (Store Temp)} {v : Var} {w : Word} (depth : callers.length + n = maxDepth)
    (uncut : e.result ≠ .error (.stepLimit limit))
    (h : (resume p q printed callers (Keeping.byName.write pos a v w)).run p limit left = e) :
    TakenApart p limit left n q printed callers e (Keeping.byName.write pos a v w) := by
  have going : ∀ {a : Local (Store Temp)}, run p limit left (State.at q printed callers pos a) = e →
      TakenApart p limit left n q printed callers e (.going pos a) := by
    intro a h
    obtain ⟨t, r, out, left', le, yields, rest⟩ := takenApart_step smaller depth uncut h
    exact ⟨t, r, out, left', le, .going yields, rest⟩
  cases v with
  | temp t =>
    unfold Keeping.write at h ⊢
    by_cases hs : t.isSink = true
    · simp only [hs, if_true] at h ⊢
      exact going h
    · simp only [hs, Bool.false_eq_true, if_false] at h ⊢
      exact going h
  | global g =>
    simp only [Keeping.write] at h ⊢
    cases hg : a.globals.get? g with
    | none =>
      simp only [hg] at h
      exact .ends h
    | some old =>
      simp only [hg] at h
      obtain ⟨t, r, out, left', le, yields, heard, rest⟩ := takenApart_step smaller depth uncut h
      exact ⟨.wrote g w :: t, r, out, left', le, .writes yields, heard, rest⟩

/-- A call that fails at once ends the activation. -/
theorem TakenApart.refused {left n : Nat} {q : Proc} {printed : Array Printed}
    {callers : List Waiting} {e : Ending} {pos : Spot} {a : Local (Store Temp)} {dest : Var}
    {callee : Global} {args : List Word} {f : Failure}
    (calls : p.Calls n callee args a.globals [] (.error f)) (h : ⟨printed, .error f⟩ = e) :
    TakenApart p limit left n q printed callers e (.asks dest callee args pos a) :=
  ⟨[.called callee args a.globals (.error f)], .error f, [], left, Nat.le_refl _, .failed,
    ⟨[], [], rfl, calls, rfl⟩, by rw [append_nil_toArray]; exact h⟩

/-- A call that is answered is followed by writing the answer. -/
theorem TakenApart.answered {left n : Nat} {q : Proc} {printed : Array Printed}
    {callers : List Waiting} {e : Ending} {pos : Spot} {a : Local (Store Temp)} {dest : Var}
    {callee : Global} {args : List Word} {out : List Printed} {w : Word} {globals : Store Global}
    (calls : p.Calls n callee args a.globals out (.ok (w, globals)))
    (h : TakenApart p limit left n q (printed ++ out.toArray) callers e
      (Keeping.byName.write pos { a with globals } dest w)) :
    TakenApart p limit left n q printed callers e (.asks dest callee args pos a) := by
  obtain ⟨t, r, more, left', le, yields, heard, rest⟩ := h
  refine ⟨.called callee args a.globals (.ok (w, globals)) :: t, r, out ++ more, left', le,
    .answered yields, ⟨out, more, rfl, calls, heard⟩, ?_⟩
  rw [append_append_toArray]
  exact rest

theorem takenApart_asks {left n : Nat} (smaller : ∀ m < left, Separable p limit m) {q : Proc}
    {printed : Array Printed} {callers : List Waiting} {e : Ending} {pos : Spot}
    {a : Local (Store Temp)} {dest : Var} {callee : Global} {args : List Word}
    (depth : callers.length + n = maxDepth) (uncut : e.result ≠ .error (.stepLimit limit))
    (h : (call p (.at q printed callers pos a) dest callee args).run p limit left = e) :
    TakenApart p limit left n q printed callers e (.asks dest callee args pos a) := by
  have length : (State.at q printed callers pos a).callers.length = callers.length := rfl
  unfold call at h
  cases n with
  | zero =>
    have deep : maxDepth < (State.at q printed callers pos a).callers.length + 1 := by omega
    rw [if_pos deep] at h
    exact .refused ⟨rfl, rfl⟩ h
  | succ n =>
    have shallow : ¬ maxDepth < (State.at q printed callers pos a).callers.length + 1 := by omega
    rw [if_neg shallow] at h
    by_cases builtIn : callee.isBuiltIn
    · have builtIn' : callee = .printWord ∨ callee = .printTruth := builtIn
      have calls : ∀ (out : List Printed) (r : Result), callee.BuiltInCall args a.globals out r →
          p.Calls (n + 1) callee args a.globals out r := fun out r hc => by
        rwa [Program.Calls, if_pos builtIn]
      rw [if_pos builtIn'] at h
      match args, h, calls with
      | [w], h, calls =>
        refine .answered (calls _ _ ⟨rfl, rfl⟩) (takenApart_write smaller depth uncut ?_)
        rw [resume_write, append_cons_toArray, append_nil_toArray]
        exact h
      | [], h, calls => exact .refused (calls _ _ ⟨rfl, rfl⟩) h
      | _ :: _ :: _, h, calls => exact .refused (calls _ _ ⟨rfl, rfl⟩) h
    · have builtIn' : ¬ (callee = .printWord ∨ callee = .printTruth) := builtIn
      rw [if_neg builtIn'] at h
      cases hq : p.proc? callee with
      | none =>
        simp only [hq] at h
        exact .refused (by simp [Program.Calls, builtIn, hq]) h
      | some proc =>
        simp only [hq] at h
        by_cases arity : proc.params.length = args.length
        · rw [if_pos arity] at h
          -- the callee is taken apart first, then what follows its return
          have h : run p limit left (State.at proc printed
              (⟨(State.at q printed callers pos a).frame, dest⟩ :: callers) (.first proc.body)
              (.enter .byName Store.empty proc.params args a.globals)) = e := h
          have depth' : (⟨(State.at q printed callers pos a).frame, dest⟩ :: callers).length + n
              = maxDepth := by
            rw [List.length_cons]
            omega
          obtain ⟨t, r, out, left', le, yields, heard, rest⟩ :=
            takenApart_step smaller depth' uncut h
          have calls : p.Calls (n + 1) callee args a.globals out r := by
            rw [Program.Calls, if_neg builtIn, hq]
            simp only
            rw [if_pos arity]
            exact ⟨t, .going yields, heard⟩
          cases r with
          | error f =>
            exact ⟨[.called callee args a.globals (.error f)], .error f, out, left', le, .failed,
              ⟨out, [], (List.append_nil _).symm, calls, rfl⟩, rest⟩
          | ok v =>
            refine .answered calls (TakenApart.weaken le ?_)
            refine takenApart_write (fun m hm => smaller m (Nat.lt_of_lt_of_le hm le)) depth uncut ?_
            rw [resume_write]
            exact rest
        · rw [if_neg arity] at h
          exact .refused (by simp [Program.Calls, builtIn, hq, arity]) h

theorem separable (p : Program) (limit left : Nat) : Separable p limit left := by
  induction left using Nat.strongRecOn with
  | ind left smaller =>
    intro n q printed callers e x depth uncut h
    cases x with
    | going pos a =>
      obtain ⟨t, r, out, left', le, yields, rest⟩ := takenApart_step smaller depth uncut h
      exact ⟨t, r, out, left', le, .going yields, rest⟩
    | prints line pos a =>
      obtain ⟨t, r, out, left', le, yields, heard, rest⟩ := takenApart_step smaller depth uncut h
      refine ⟨.printed line :: t, r, line :: out, left', le, .prints yields, ⟨out, rfl, heard⟩, ?_⟩
      rw [append_cons_toArray]
      exact rest
    | writes g w pos a =>
      obtain ⟨t, r, out, left', le, yields, heard, rest⟩ := takenApart_step smaller depth uncut h
      exact ⟨.wrote g w :: t, r, out, left', le, .writes yields, heard, rest⟩
    | asks dest callee args pos a => exact takenApart_asks smaller depth uncut h
    | ends r => exact .ends h

end Execution

/-! ## Runs of a program -/

namespace Program

open Execution

theorem run_main {p : Program} {q : Proc} (hq : p.proc? ⟨"main"⟩ = some q) (limit : Nat)
    (params : q.params.isEmpty = true) :
    p.run limit = (resume p q #[] [] (.going (.first q.body)
      (.enter .byName Store.empty q.params [] p.initial))).run p limit limit := by
  simp only [Program.run, hq, params, if_true]
  rfl

/-- The run of a program ends in this way under every limit that is large enough. -/
def EndsWith (p : Program) (e : Ending) : Prop := ∃ enough, ∀ limit, enough ≤ limit → p.run limit = e

theorem calls_main {p : Program} {q : Proc} (hq : p.proc? ⟨"main"⟩ = some q) {n : Nat}
    {out : List Printed} {r : Result} :
    p.Calls (n + 1) ⟨"main"⟩ [] p.initial out r ↔
      if q.params.length = ([] : List Word).length then
        ∃ t, q.Runs .byName (.enter .byName Store.empty q.params [] p.initial) t r ∧
          Heard (p.Calls n) t out
      else out = [] ∧ r = .error (.arityMismatch ⟨"main"⟩ q.params.length 0) := by
  have main : ¬ (⟨"main"⟩ : Global).isBuiltIn := by decide
  rw [Program.Calls, if_neg main, hq]
  rfl

theorem endsWith_of_finishes {p : Program} {e : Ending} (h : p.Finishes e) : p.EndsWith e := by
  cases hq : p.proc? ⟨"main"⟩ with
  | none =>
    simp only [Finishes, hq] at h
    exact ⟨0, fun limit _ => by simp only [h, Program.run, hq]⟩
  | some q =>
    simp only [Finishes, hq, calls_main hq] at h
    obtain ⟨out, r, calls, rfl⟩ := h
    by_cases params : q.params.isEmpty = true
    · have arity : q.params.length = ([] : List Word).length := by
        simp [List.isEmpty_iff.1 params]
      rw [if_pos arity] at calls
      obtain ⟨t, yields, heard⟩ := calls
      obtain ⟨k, hk⟩ := run_of_yields p maxDepth q #[] [] _ t r out (by simp) yields heard
      refine ⟨k, fun limit le => ?_⟩
      obtain ⟨left, rfl⟩ := Nat.exists_eq_add_of_le' le
      rw [run_main hq (left + k) params]
      refine (hk (left + k) left).trans ?_
      cases r with
      | error f => simp [resume, Outcome.run, Except.map]
      | ok v => simp [resume, Outcome.run, State.leave, State.at, Except.map]
    · have arity : ¬ q.params.length = ([] : List Word).length := by
        simpa [List.isEmpty_iff] using params
      rw [if_neg arity] at calls
      obtain ⟨rfl, rfl⟩ := calls
      exact ⟨0, fun limit _ => by simp [Program.run, hq, params, Except.map]⟩

theorem finishes_of_run {p : Program} {e : Ending} {limit : Nat} (h : p.run limit = e)
    (uncut : e.result ≠ .error (.stepLimit limit)) : p.Finishes e := by
  cases hq : p.proc? ⟨"main"⟩ with
  | none =>
    simp only [Finishes, hq]
    rw [← h]
    simp only [Program.run, hq]
  | some q =>
    simp only [Finishes, hq, calls_main hq]
    by_cases params : q.params.isEmpty = true
    · have arity : q.params.length = ([] : List Word).length := by
        simp [List.isEmpty_iff.1 params]
      rw [run_main hq limit params] at h
      obtain ⟨t, r, out, left', -, yields, heard, rest⟩ :=
        separable p limit limit maxDepth q #[] [] e _ (by simp) uncut h
      refine ⟨out, r, (if_pos arity).mpr ⟨t, yields, heard⟩, ?_⟩
      rw [← rest]
      cases r with
      | error f => simp [resume, Outcome.run, Except.map]
      | ok v => simp [resume, Outcome.run, State.leave, State.at, Except.map]
    · have arity : ¬ q.params.length = ([] : List Word).length := by
        simpa [List.isEmpty_iff] using params
      refine ⟨[], _, (if_neg arity).mpr ⟨rfl, rfl⟩, ?_⟩
      rw [← h]
      simp [Program.run, hq, params, Except.map]

/-- The runs of a program that no limit cuts short are its activations that answer each other. -/
theorem finishes_iff {p : Program} {e : Ending} : p.Finishes e ↔ p.EndsWith e := by
  refine ⟨endsWith_of_finishes, ?_⟩
  rintro ⟨enough, h⟩
  -- two limits do the same, and no failure names both
  by_cases cut : e.result = .error (.stepLimit enough)
  · refine finishes_of_run (h (enough + 1) (Nat.le_succ _)) ?_
    rw [cut]
    simp
  · exact finishes_of_run (h enough (Nat.le_refl _)) cut

/-- Behind a run that succeeds there is an activation of the main procedure. -/
theorem exists_runs_of_endsWith {p : Program} {q : Proc} (hq : p.proc? ⟨"main"⟩ = some q)
    {out : Array Printed} {w : Word} (h : p.EndsWith ⟨out, .ok w⟩) : ∃ t globals,
      q.Runs .byName (.enter .byName Store.empty q.params [] p.initial) t (.ok (w, globals)) ∧
      Heard (p.Calls maxDepth) t out.toList := by
  have finishes := finishes_iff.2 h
  simp only [Finishes, hq, calls_main hq, Ending.mk.injEq] at finishes
  obtain ⟨shown, r, calls, rfl, returned⟩ := finishes
  cases r with
  | error f => cases returned
  | ok v =>
    obtain ⟨u, globals⟩ := v
    cases returned
    split at calls
    · obtain ⟨t, runs, heard⟩ := calls
      exact ⟨t, globals, runs, heard⟩
    · cases calls.2

/-- A run that is not cut short ends in the same way under every larger limit. -/
theorem endsWith_of_run {p : Program} {e : Ending} {limit : Nat} (h : p.run limit = e)
    (uncut : e.result ≠ .error (.stepLimit limit)) : p.EndsWith e :=
  endsWith_of_finishes (finishes_of_run h uncut)

/-- What is printed and returned under some limit says how a run that succeeds ends. -/
theorem run_eq_of_printed {p : Program} {limit : Nat} {out : Array Printed} {w : Word}
    (printed : (p.run limit).printed = out) (result : (p.run limit).result.toOption = some w) :
    p.run limit = ⟨out, .ok w⟩ := by
  generalize p.run limit = e at printed result
  obtain ⟨shown, _ | v⟩ := e
  · cases result
  · cases printed
    cases result
    rfl

theorem endsWith_of_printed {p : Program} {limit : Nat} {out : Array Printed} {w : Word}
    (printed : (p.run limit).printed = out) (result : (p.run limit).result.toOption = some w) :
    p.EndsWith ⟨out, .ok w⟩ := endsWith_of_run (run_eq_of_printed printed result) (by simp)

end Program

end ThreeAddress
