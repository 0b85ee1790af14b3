import ThreeAddress.Execution.Basic
/-!
# The limit of steps

The limit of steps only cuts runs short. What was printed is never taken back, and nothing but the
limit makes a run fail for the limit. So a run under a larger limit goes on where a smaller one
would have stopped it, in whatever activation that is.

* `Outcome.Keeps`, `Outcome.Extends` : a step that prints nothing, and one that may print;
* `extends_exec` : what one step prints comes behind what was printed before;
* `printed_settle` : returning from activations prints nothing;
* `extends_run` : what a run prints comes behind what was printed before;
* `run_eq_or_cut` : runs with fewer and with more steps left do the same, or the first is cut short;
* `Program.run_of_le_limit` : what a smaller limit does to a run of a program.
-/

namespace ThreeAddress

namespace Execution

variable {p : Program} {s u : State}

/-! ## One step -/

/-- A failure for another reason than the limit of steps. -/
def Failure.Genuine (f : Failure) : Prop := ∀ limit, f ≠ .stepLimit limit

/-- A result that does not come of the limit of steps. -/
def Genuine (r : Except Failure Word) : Prop := ∀ f, r = .error f → f.Genuine

namespace Outcome

/-- What is printed when a step is made. -/
def printed : Outcome → Array Printed
  | running s => s.printed
  | stopped e => e.printed

/-- A step that prints nothing. It ends the run for no limit. -/
structure Keeps (before : Array Printed) (o : Outcome) : Prop where
  printed : o.printed = before
  genuine : ∀ e, o = .stopped e → Genuine e.result

/-- A step that prints something behind what was printed before. It ends the run for no limit. -/
structure Extends (before : Array Printed) (o : Outcome) : Prop where
  printed : before.toList <+: o.printed.toList
  genuine : ∀ e, o = .stopped e → Genuine e.result

theorem Keeps.extends {before : Array Printed} {o : Outcome} (h : o.Keeps before) :
    o.Extends before where
  printed := by simp [h.printed]
  genuine := h.genuine

end Outcome

theorem genuine_ok (w : Word) : Genuine (.ok w) := by
  intro f h
  cases h

theorem keeps_running : (Outcome.running s).Keeps s.printed where
  printed := rfl
  genuine e h := by cases h

theorem keeps_fail {f : Failure} (h : f.Genuine) : (s.fail f).Keeps s.printed where
  printed := rfl
  genuine := by
    intro e stopped g failed
    cases stopped
    cases failed
    exact h

theorem genuine_of_read {v : Var} {f : Failure} (h : s.read v = .error f) : f.Genuine := by
  intro limit
  cases v with
  | temp t =>
    simp only [State.read] at h
    split at h
    · cases h
    · split at h
      · cases h
      · cases h
        simp
  | global g =>
    simp only [State.read] at h
    split at h
    · cases h
    · cases h
      simp

theorem extends_reading {v : Var} {next : Word → Outcome} (h : ∀ w, (next w).Extends s.printed) :
    (s.reading v next).Extends s.printed := by
  unfold State.reading
  split
  · exact h _
  · next f failed => exact (keeps_fail (genuine_of_read failed)).extends

theorem keeps_write (s : State) (v : Var) (w : Word) : (s.write v w).Keeps s.printed := by
  cases v with
  | temp t =>
    simp only [State.write]
    split <;> exact ⟨rfl, fun e h => by cases h⟩
  | global g =>
    simp only [State.write]
    split
    · exact ⟨rfl, fun e h => by cases h⟩
    · exact keeps_fail fun limit => by simp

theorem keeps_jump (s : State) (l : Label) : (s.jump l).Keeps s.printed := by
  unfold State.jump
  split
  · exact ⟨rfl, fun e h => by cases h⟩
  · exact keeps_fail fun limit => by simp

theorem keeps_leave (s : State) (w : Word) : (s.leave w).Keeps s.printed := by
  unfold State.leave
  split
  · refine ⟨rfl, fun e h => ?_⟩
    cases h
    exact genuine_ok w
  · next waiting callers _ =>
    exact keeps_write { s with frame := waiting.frame, callers } waiting.dest w

theorem genuine_of_collect {callee : Global} {index n : Nat} {f : Failure}
    (h : s.collect callee index n = .error f) : f.Genuine := by
  intro limit
  induction n generalizing index with
  | zero => cases h
  | succ n ih =>
    rw [State.collect] at h
    split at h
    · cases h
      simp
    · cases rest : s.collect callee (index + 1) n with
      | ok ws =>
        rw [rest] at h
        cases h
      | error g =>
        rw [rest] at h
        cases h
        exact ih rest

/-- What a state prints comes behind what was printed. -/
theorem extends_print {line : Printed} {o : Outcome} (h : o.Keeps (s.print line).printed) :
    o.Extends s.printed where
  printed := by
    rw [h.printed]
    simp [State.print]
  genuine := h.genuine

theorem extends_call (p : Program) (s : State) (dest : Var) (callee : Global) (args : List Word) :
    (call p s dest callee args).Extends s.printed := by
  unfold call
  split
  · exact (keeps_fail fun limit => by simp).extends
  · split
    · split
      · exact extends_print (keeps_write _ dest 0)
      · exact (keeps_fail fun limit => by simp).extends
    · split
      · exact (keeps_fail fun limit => by simp).extends
      · split
        · exact Outcome.Keeps.extends ⟨rfl, fun e h => by cases h⟩
        · exact (keeps_fail fun limit => by simp).extends

/-- What one instruction prints comes behind what was printed before. -/
theorem extends_exec (p : Program) (s : State) (i : Instr) : (exec p s i).Extends s.printed := by
  cases i with
  | nop => exact keeps_running.extends
  | label l => exact Outcome.Keeps.extends ⟨rfl, fun e h => by cases h⟩
  | jump target => exact (keeps_jump s target).extends
  | branch test arg target =>
    apply extends_reading
    intro w
    split
    · exact (keeps_jump s target).extends
    · exact keeps_running.extends
  | binary op dest lhs rhs =>
    apply extends_reading
    intro a
    apply extends_reading
    intro b
    split
    · exact (keeps_write s dest _).extends
    · exact (keeps_fail fun limit => by simp).extends
  | unary op dest arg =>
    apply extends_reading
    intro a
    exact (keeps_write s dest _).extends
  | const dest value => exact (keeps_write s dest value).extends
  | copy dest src =>
    apply extends_reading
    intro w
    exact (keeps_write s dest w).extends
  | param index arg =>
    apply extends_reading
    intro w
    exact Outcome.Keeps.extends ⟨rfl, fun e h => by cases h⟩
  | call dest callee argc =>
    rw [exec]
    split
    · next f missing => exact (keeps_fail (genuine_of_collect missing)).extends
    · exact extends_call p { s with frame := { s.frame with staged := Store.empty } } dest callee _
  | ret arg =>
    apply extends_reading
    intro w
    exact (keeps_leave s w).extends
  | print arg =>
    apply extends_reading
    intro w
    exact extends_print keeps_running
  | phi dest args => exact Outcome.Keeps.extends ⟨rfl, fun e h => by cases h⟩

/-! ## A run -/

/-- Returning from activations whose end is reached prints nothing. -/
theorem printed_settle (s : State) :
    (∀ i u, s.settle = .ready i u → u.printed = s.printed) ∧
      ∀ e, s.settle = .stopped e → e.printed = s.printed ∧ Genuine e.result := by
  obtain ⟨globals, printed, frame, callers⟩ := s
  unfold State.settle
  induction callers generalizing globals printed frame with
  | nil =>
    simp only [settleFrame]
    split
    · refine ⟨fun i u h => ?_, fun e h => ?_⟩
      · cases h
        rfl
      · cases h
    · refine ⟨fun i u h => ?_, fun e h => ?_⟩
      · cases h
      · cases h
        exact ⟨rfl, genuine_ok 0⟩
  | cons waiting callers ih =>
    simp only [settleFrame]
    split
    · refine ⟨fun i u h => ?_, fun e h => ?_⟩
      · cases h
        rfl
      · cases h
    · -- the call returns zero, and its caller may be at its end as well
      have written := keeps_write ⟨globals, printed, waiting.frame, callers⟩ waiting.dest 0
      split
      · next v running =>
        rw [running] at written
        have same : v.printed = printed := written.printed
        rw [← same]
        exact ih v.globals v.printed v.frame
      · next e stopped =>
        rw [stopped] at written
        refine ⟨fun i u h => ?_, fun e' h => ?_⟩
        · cases h
        · cases h
          exact ⟨written.printed, written.genuine e rfl⟩

section Equations

variable {limit left : Nat} {i : Instr} {e : Ending}

theorem run_of_stopped (h : s.settle = .stopped e) : run p limit left s = e := by
  rw [run.eq_def]
  simp only [h]

theorem run_of_none_left (h : s.settle = .ready i u) :
    run p limit 0 s = ⟨u.printed, .error (.stepLimit limit)⟩ := by
  rw [run.eq_def]
  simp only [h]

theorem run_of_running {v : State} (h : s.settle = .ready i u) (made : exec p u i = .running v) :
    run p limit (left + 1) s = run p limit left v := by
  rw [run.eq_def]
  simp only [h, made]

theorem run_of_exec_stopped (h : s.settle = .ready i u) (made : exec p u i = .stopped e) :
    run p limit (left + 1) s = e := by
  rw [run.eq_def]
  simp only [h, made]

end Equations

/-- What a run prints comes behind what was printed before, and a limit that stops it is its own. -/
theorem extends_run (p : Program) (limit left : Nat) (s : State) :
    s.printed.toList <+: (run p limit left s).printed.toList ∧
      ∀ k, (run p limit left s).result = .error (.stepLimit k) → k = limit := by
  induction left generalizing s with
  | zero =>
    cases next : s.settle with
    | stopped e =>
      obtain ⟨printed, genuine⟩ := (printed_settle s).2 e next
      rw [run_of_stopped next, printed]
      exact ⟨List.prefix_rfl, fun k cut => absurd rfl (genuine _ cut k)⟩
    | ready i u =>
      rw [run_of_none_left next, (printed_settle s).1 i u next]
      refine ⟨List.prefix_rfl, fun k cut => ?_⟩
      cases cut
      rfl
  | succ left ih =>
    cases next : s.settle with
    | stopped e =>
      obtain ⟨printed, genuine⟩ := (printed_settle s).2 e next
      rw [run_of_stopped next, printed]
      exact ⟨List.prefix_rfl, fun k cut => absurd rfl (genuine _ cut k)⟩
    | ready i u =>
      have step := extends_exec p u i
      rw [(printed_settle s).1 i u next] at step
      cases made : exec p u i with
      | running v =>
        rw [run_of_running next made]
        rw [made] at step
        exact ⟨step.printed.trans (ih v).1, (ih v).2⟩
      | stopped e =>
        rw [run_of_exec_stopped next made]
        rw [made] at step
        exact ⟨step.printed, fun k cut => absurd rfl (step.genuine e rfl _ cut k)⟩

/-- Two runs from one state of which the second has more steps left do the same, or the first one is
cut short and the second one prints what the first one did and perhaps more. -/
theorem run_eq_or_cut (p : Program) (m n : Nat) {left left' : Nat} (le : left ≤ left') (s : State) :
    run p n left' s = run p m left s ∨
      ((run p m left s).result = .error (.stepLimit m) ∧
        (run p m left s).printed.toList <+: (run p n left' s).printed.toList) := by
  induction left generalizing left' s with
  | zero =>
    cases next : s.settle with
    | stopped e =>
      left
      rw [run_of_stopped next, run_of_stopped next]
    | ready i u =>
      right
      have later := (extends_run p n left' s).1
      rw [run_of_none_left next, (printed_settle s).1 i u next]
      exact ⟨rfl, later⟩
  | succ left ih =>
    cases next : s.settle with
    | stopped e =>
      left
      rw [run_of_stopped next, run_of_stopped next]
    | ready i u =>
      obtain ⟨more, rfl⟩ := Nat.exists_eq_add_of_le' (Nat.lt_of_lt_of_le (Nat.succ_pos left) le)
      cases made : exec p u i with
      | running v =>
        rw [run_of_running next made, run_of_running next made]
        exact ih (Nat.le_of_succ_le_succ le) v
      | stopped e =>
        left
        rw [run_of_exec_stopped next made, run_of_exec_stopped next made]

/-- More lines make a longer text. -/
theorem Ending.exists_output_append {e e' : Ending} (h : e.printed.toList <+: e'.printed.toList) :
    ∃ more, e'.output = e.output ++ more := by
  obtain ⟨lines, more⟩ := h
  refine ⟨String.join (lines.map Printed.text), ?_⟩
  rw [Ending.output, ← more, List.map_append, String.join_append]
  rfl

end Execution

/-! ## Runs of a program -/

namespace Program

open Execution

theorem run_eq_or_cut (p : Program) {m n : Nat} (le : m ≤ n) :
    p.run n = p.run m ∨ ((p.run m).result = .error (.stepLimit m) ∧
      (p.run m).printed.toList <+: (p.run n).printed.toList) := by
  unfold Program.run
  split
  · exact .inl rfl
  · split
    · exact Execution.run_eq_or_cut p m n le _
    · exact .inl rfl

/-- A limit that stops the run of a program is the limit of that run. -/
theorem eq_of_stepLimit {p : Program} {limit k : Nat}
    (cut : (p.run limit).result = .error (.stepLimit k)) : k = limit := by
  unfold Program.run at cut
  split at cut
  · cases cut
  · split at cut
    · exact (extends_run p limit limit _).2 k cut
    · cases cut

/-- The limit of steps only cuts runs short. A run that does not fail for its limit is the run under
every larger limit, with the same result or failure and the same output. One that fails for its
limit, which it names, has printed a beginning of what is printed under a larger limit. -/
theorem run_of_le_limit (p : Program) {m n : Nat} (le : m ≤ n) :
    ((∀ k, (p.run m).result ≠ .error (.stepLimit k)) → p.run n = p.run m) ∧
      ∀ k, (p.run m).result = .error (.stepLimit k) → k = m ∧
        (p.run m).printed.toList <+: (p.run n).printed.toList ∧
        ∃ more, (p.run n).output = (p.run m).output ++ more := by
  refine ⟨fun uncut => ?_, fun k cut => ?_⟩
  · rcases run_eq_or_cut p le with same | ⟨cut, -⟩
    · exact same
    · exact absurd cut (uncut m)
  · have shorter : (p.run m).printed.toList <+: (p.run n).printed.toList := by
      rcases run_eq_or_cut p le with same | ⟨-, printed⟩
      · simp [same]
      · exact printed
    exact ⟨eq_of_stepLimit cut, shorter, Ending.exists_output_append shorter⟩

/-- A program that prints a number in every call of a procedure that calls itself. -/
def bottomless : Program :=
  ⟨[], [⟨⟨"main"⟩, [], [
    .const (.temp ⟨"n", none⟩) 7,
    .print (.temp ⟨"n", none⟩),
    .call (.temp .sink) ⟨"main"⟩ 0]⟩]⟩

/-- A program that prints and then divides by zero. -/
def divides : Program :=
  ⟨[], [⟨⟨"main"⟩, [], [
    .const (.temp ⟨"n", none⟩) 0,
    .print (.temp ⟨"n", none⟩),
    .binary .div (.temp ⟨"n", none⟩) (.temp ⟨"n", none⟩) (.temp ⟨"n", none⟩)]⟩]⟩

/-- Calls that are cut short in the second activation and in the third, and a division by zero that
no limit hides. -/
theorem run_of_le_limit_bottomless :
    (5 ≤ 8 ∧ (bottomless.run 5).result = .error (.stepLimit 5) ∧
      (bottomless.run 5).printed.toList <+: (bottomless.run 8).printed.toList ∧
      (bottomless.run 5).printed = #[.word 7, .word 7] ∧
      (bottomless.run 8).printed = #[.word 7, .word 7, .word 7]) ∧
    (∀ k, (divides.run 3).result ≠ .error (.stepLimit k)) ∧ divides.run 20 = divides.run 3 := by
  have cut : (bottomless.run 5).result = .error (.stepLimit 5) := rfl
  have uncut : ∀ k, (divides.run 3).result ≠ .error (.stepLimit k) := by
    intro k
    rw [show (divides.run 3).result = .error (.divisionByZero ⟨"main"⟩) from rfl]
    simp
  exact ⟨⟨by decide, cut, ((run_of_le_limit bottomless (by decide)).2 5 cut).2.1, rfl, rfl⟩,
    uncut, (run_of_le_limit divides (by decide)).1 uncut⟩

end Program

end ThreeAddress
