import ThreeAddress.Proofs.Activation.Adequacy
import ThreeAddress.Proofs.Activation.Simulation
/-!
# Replacing procedures

If every procedure of a program is replaced by one whose activations do the same, the program does
the same.

* `Program.calls_kept`, `Program.finishes_kept` : calls and runs with results that the procedures keep;
* `Program.finishes_ok` : runs that succeed;
* `Program.calls_same`, `Program.finishes_same` : all calls and runs, where failures may be renamed;
* `Program.replace` : a program with another procedure in a place.
-/

namespace ThreeAddress

open Execution

/-! ## Calls whose results are kept -/

/-- Every answer that an activation is given is a success, or it is what the activation ends with. -/
theorem Control.Yields.answer_ok_or_eq {π σ : Type} {C : Control π} {K : Keeping σ} {x : Stage π σ}
    {t : List Effect} {r : Result} (h : C.Yields K x t r) {callee : Global} {args : List Word}
    {globals : Store Global} {answer : Result} (mem : .called callee args globals answer ∈ t) :
    (∃ u, answer = .ok u) ∨ answer = r := by
  induction h with
  | ends => cases mem
  | going _ ih => exact ih mem
  | prints _ ih =>
    rcases List.mem_cons.1 mem with e | mem
    · cases e
    · exact ih mem
  | writes _ ih =>
    rcases List.mem_cons.1 mem with e | mem
    · cases e
    · exact ih mem
  | answered _ ih =>
    rcases List.mem_cons.1 mem with e | mem
    · cases e
      exact .inl ⟨_, rfl⟩
    · exact ih mem
  | failed =>
    cases List.mem_singleton.1 mem
    exact .inr rfl

/-- Writes of global variables are not heard. -/
theorem Heard.fewer {calls : Global → List Word → Store Global → List Printed → Result → Prop}
    {hides : Prop} {t t' : List Effect} {out : List Printed} (h : Heard calls t out)
    (fewer : Fewer hides t t') : Heard calls t' out := by
  induction fewer generalizing out with
  | nil => exact h
  | keep e _ ih =>
    cases e with
    | printed p =>
      obtain ⟨rest, rfl, h⟩ := h
      exact ⟨rest, rfl, ih h⟩
    | wrote g w => exact ih h
    | called callee args globals answer =>
      obtain ⟨first, rest, rfl, hc, h⟩ := h
      exact ⟨first, rest, rfl, hc, ih h⟩
  | drop allowed g w _ ih => exact ih h

/-- Every activation of the first procedure with such a result is one of the second, but for writes
of global variables that change nothing. -/
def Proc.CarriedFor (P : Result → Prop) (q q' : Proc) : Prop :=
  ∀ args globals t r, q.params.length = args.length → P r →
    q.Runs .byName (.enter .byName Store.empty q.params args globals) t r →
    ∃ t', Fewer True t t' ∧
      q'.Runs .byName (.enter .byName Store.empty q'.params args globals) t' r

theorem Proc.CarriedFor.refl (P : Result → Prop) (q : Proc) : q.CarriedFor P q :=
  fun _ _ t _ _ _ runs => ⟨t, .refl _ _, runs⟩

/-- Every activation of the first procedure that succeeds is one of the second, but for writes of
global variables that change nothing. -/
def Proc.CarriedBy (q q' : Proc) : Prop :=
  ∀ args globals t v, q.params.length = args.length →
    q.Runs .byName (.enter .byName Store.empty q.params args globals) t (.ok v) →
    ∃ t', Fewer True t t' ∧
      q'.Runs .byName (.enter .byName Store.empty q'.params args globals) t' (.ok v)

theorem Proc.CarriedBy.carriedFor {q q' : Proc} (h : q.CarriedBy q') :
    q.CarriedFor (fun r => ∃ v, r = .ok v) q' := by
  rintro args globals t _ arity ⟨v, rfl⟩ runs
  exact h args globals t v arity runs

namespace Program

variable {p p' : Program}

/-- The procedures of the two programs have the same names and parameters and are related. -/
def Matches (R : Proc → Proc → Prop) (p p' : Program) : Prop :=
  ∀ name, match p.proc? name with
    | none => p'.proc? name = none
    | some q => ∃ q', p'.proc? name = some q' ∧ q'.params = q.params ∧ R q q'

theorem Matches.none {R : Proc → Proc → Prop} (h : p.Matches R p') {name : Global}
    (hq : p.proc? name = none) : p'.proc? name = none := by
  have := h name
  rwa [hq] at this

theorem Matches.some {R : Proc → Proc → Prop} (h : p.Matches R p') {name : Global} {q : Proc}
    (hq : p.proc? name = some q) : ∃ q', p'.proc? name = some q' ∧ q'.params = q.params ∧ R q q' := by
  have := h name
  rwa [hq] at this

theorem Matches.imp {R R' : Proc → Proc → Prop} (h : p.Matches R p')
    (imp : ∀ q q', R q q' → R' q q') : p.Matches R' p' := by
  intro name
  have here := h name
  split at here
  · exact here
  · obtain ⟨q', found, params, related⟩ := here
    exact ⟨q', found, params, imp _ q' related⟩

variable {P : Result → Prop}

/-- A call with such a result has it in the other program too, if every success is such a result. -/
theorem calls_kept (ok : ∀ v, P (.ok v)) (h : p.Matches (Proc.CarriedFor P) p') {n : Nat}
    {callee : Global} {args : List Word} {globals : Store Global} {out : List Printed} {r : Result}
    (result : P r) (calls : p.Calls n callee args globals out r) :
    p'.Calls n callee args globals out r := by
  induction n generalizing callee args globals out r with
  | zero => exact calls
  | succ n ih =>
    rw [Calls] at calls ⊢
    by_cases builtIn : callee.isBuiltIn
    · rwa [if_pos builtIn] at calls ⊢
    rw [if_neg builtIn] at calls ⊢
    cases hq : p.proc? callee with
    | none =>
      simp only [hq] at calls
      simpa only [h.none hq] using calls
    | some q =>
      obtain ⟨q', hq', params, carried⟩ := h.some hq
      simp only [hq] at calls
      simp only [hq', params]
      by_cases arity : q.params.length = args.length
      · rw [if_pos arity] at calls ⊢
        obtain ⟨t, runs, heard⟩ := calls
        obtain ⟨t', fewer, runs'⟩ := carried args globals t r arity result runs
        rw [params] at runs'
        refine ⟨t', runs', (heard.mono fun callee args globals answer mem out calls => ?_).fewer fewer⟩
        rcases runs.answer_ok_or_eq mem with ⟨u, rfl⟩ | rfl
        · exact ih (ok u) calls
        · exact ih result calls
      · rwa [if_neg arity] at calls ⊢

/-- A run with such a result has it in the other program too. -/
theorem finishes_kept (ok : ∀ v, P (.ok v)) (h : p.Matches (Proc.CarriedFor P) p')
    (globals : p'.globals = p.globals) {e : Ending}
    (result : ∀ r : Result, r.map Prod.fst = e.result → P r) (hp : p.Finishes e) :
    p'.Finishes e := by
  have initial : p'.initial = p.initial := by rw [Program.initial, globals, Program.initial]
  cases hq : p.proc? ⟨"main"⟩ with
  | none =>
    simp only [Finishes, hq] at hp
    simpa only [Finishes, h.none hq] using hp
  | some q =>
    obtain ⟨q', hq', -⟩ := h.some hq
    simp only [Finishes, hq] at hp
    obtain ⟨out, r, calls, rfl⟩ := hp
    simp only [Finishes, hq', initial]
    exact ⟨out, r, calls_kept ok h (result r rfl) calls, rfl⟩

/-- A run that succeeds in one program succeeds in the other, with the same result. -/
theorem finishes_ok (h : p.Matches Proc.CarriedBy p') (globals : p'.globals = p.globals)
    {printed : Array Printed} {w : Word} (hp : p.Finishes ⟨printed, .ok w⟩) :
    p'.Finishes ⟨printed, .ok w⟩ := by
  refine finishes_kept (fun v => ⟨v, rfl⟩) (h.imp fun _ _ carried => carried.carriedFor) globals
    (fun r e => ?_) hp
  cases r with
  | ok v => exact ⟨v, rfl⟩
  | error f => cases e

end Program

/-! ## All calls -/

section Renamed

variable {F : Failure → Failure → Prop}

/-- Every activation of the first procedure is one of the second, with failures renamed. -/
def Proc.RenamedTo (F : Failure → Failure → Prop) (q q' : Proc) : Prop :=
  ∀ args globals t t' r, q.params.length = args.length →
    q.Runs .byName (.enter .byName Store.empty q.params args globals) t r → SameEffects F t t' →
    ∃ r', SameResult F r r' ∧
      q'.Runs .byName (.enter .byName Store.empty q'.params args globals) t' r'

theorem Proc.RenamedTo.refl (hF : ∀ f, F f f) (q : Proc) : q.RenamedTo F q :=
  fun _ _ _ _ _ _ runs same => runs.same hF same

/-- The answers of calls are renamed along the effects. -/
theorem Heard.rename
    {calls calls' : Global → List Word → Store Global → List Printed → Result → Prop}
    (rename : ∀ callee args globals out r, calls callee args globals out r →
      ∃ r', SameResult F r r' ∧ calls' callee args globals out r')
    {t : List Effect} {out : List Printed} (h : Heard calls t out) :
    ∃ t', SameEffects F t t' ∧ Heard calls' t' out := by
  induction t generalizing out with
  | nil => exact ⟨[], .nil, h⟩
  | cons e t ih =>
    cases e with
    | printed line =>
      obtain ⟨rest, rfl, h⟩ := h
      obtain ⟨t', same, heard⟩ := ih h
      exact ⟨_, .printed line same, rest, rfl, heard⟩
    | wrote g w =>
      obtain ⟨t', same, heard⟩ := ih h
      exact ⟨_, .wrote g w same, heard⟩
    | called callee args globals answer =>
      obtain ⟨first, rest, rfl, hc, h⟩ := h
      obtain ⟨t', same, heard⟩ := ih h
      obtain ⟨r', hr, hc'⟩ := rename _ _ _ _ _ hc
      exact ⟨_, .called callee args globals hr same, first, rest, rfl, hc', heard⟩

namespace Program

variable {p p' : Program}

/-- A call prints the same in the other program and has the same answer, up to the renaming. -/
theorem calls_same (hF : ∀ f, F f f) (h : p.Matches (Proc.RenamedTo F) p') {n : Nat}
    {callee : Global} {args : List Word} {globals : Store Global} {out : List Printed} {r : Result}
    (calls : p.Calls n callee args globals out r) :
    ∃ r', SameResult F r r' ∧ p'.Calls n callee args globals out r' := by
  induction n generalizing callee args globals out r with
  | zero => exact ⟨r, .refl hF r, calls⟩
  | succ n ih =>
    rw [Calls] at calls
    simp only [Calls]
    by_cases builtIn : callee.isBuiltIn
    · rw [if_pos builtIn] at calls
      simp only [builtIn, if_true]
      exact ⟨r, .refl hF r, calls⟩
    rw [if_neg builtIn] at calls
    simp only [builtIn, if_false]
    cases hq : p.proc? callee with
    | none =>
      simp only [hq] at calls
      simp only [h.none hq]
      exact ⟨r, .refl hF r, calls⟩
    | some q =>
      obtain ⟨q', hq', params, renamed⟩ := h.some hq
      simp only [hq] at calls
      simp only [hq', params]
      by_cases arity : q.params.length = args.length
      · rw [if_pos arity] at calls
        simp only [arity, if_true]
        obtain ⟨t, runs, heard⟩ := calls
        have rename : ∀ callee args globals out r, p.Calls n callee args globals out r →
            ∃ r', SameResult F r r' ∧ p'.Calls n callee args globals out r' :=
          fun _ _ _ _ _ => ih
        obtain ⟨t', same, heard'⟩ := heard.rename rename
        obtain ⟨r', same', runs'⟩ := renamed args globals t t' r arity runs same
        rw [params] at runs'
        exact ⟨r', same', t', runs', heard'⟩
      · rw [if_neg arity] at calls
        simp only [arity, if_false]
        exact ⟨r, .refl hF r, calls⟩

/-- The result of a run, up to a renaming of failures. -/
inductive SameEnding (F : Failure → Failure → Prop) : Ending → Ending → Prop where
  | ok (printed : Array Printed) (w : Word) : SameEnding F ⟨printed, .ok w⟩ ⟨printed, .ok w⟩
  | error (printed : Array Printed) {f f' : Failure} (h : F f f') :
      SameEnding F ⟨printed, .error f⟩ ⟨printed, .error f'⟩

theorem SameEnding.symm (hF : ∀ {f f'}, F f f' → F f' f) {e e' : Ending} (h : SameEnding F e e') :
    SameEnding F e' e := by
  cases h with
  | ok printed w => exact .ok printed w
  | error printed h => exact .error printed (hF h)

theorem SameEnding.eq {e e' : Ending} (h : SameEnding Eq e e') : e = e' := by
  cases h with
  | ok printed w => rfl
  | error printed h => rw [h]

/-- A run of one program has a run of the other that ends in the same way, up to the renaming. -/
theorem finishes_same (hF : ∀ f, F f f) (h : p.Matches (Proc.RenamedTo F) p')
    (globals : p'.globals = p.globals) {e : Ending} (hp : p.Finishes e) :
    ∃ e', SameEnding F e e' ∧ p'.Finishes e' := by
  have initial : p'.initial = p.initial := by rw [Program.initial, globals, Program.initial]
  cases hq : p.proc? ⟨"main"⟩ with
  | none =>
    simp only [Finishes, hq] at hp
    subst hp
    exact ⟨_, .error _ (hF _), by simp only [Finishes, h.none hq]⟩
  | some q =>
    obtain ⟨q', hq', -⟩ := h.some hq
    simp only [Finishes, hq] at hp
    obtain ⟨out, r, calls, rfl⟩ := hp
    obtain ⟨r', same, calls'⟩ := calls_same hF h calls
    refine ⟨⟨out.toArray, r'.map Prod.fst⟩, ?_, ?_⟩
    · cases same with
      | ok v => exact .ok _ _
      | error hf => exact .error _ hf
    · simp only [Finishes, hq', initial]
      exact ⟨out, r', calls', rfl⟩

end Program

end Renamed

/-! ## One procedure in place of another -/

namespace Program

/-- The program with another procedure in a place. -/
def replace (p : Program) (k : Nat) (q : Proc) : Program := { p with procs := p.procs.set k q }

variable {p : Program} {k : Nat} {q q' : Proc}

theorem proc?_replace (hq : p.procs[k]? = some q) (name : q'.name = q.name) (n : Global) :
    (p.replace k q').proc? n = p.proc? n ∨
      (p.proc? n = some q ∧ (p.replace k q').proc? n = some q') := by
  simp only [proc?, replace]
  generalize p.procs = procs at hq
  induction procs generalizing k with
  | nil => cases hq
  | cons r rest ih =>
    cases k with
    | zero =>
      obtain rfl : r = q := Option.some.inj hq
      rw [List.set_cons_zero]
      by_cases same : r.name = n
      · exact .inr ⟨List.find?_cons_of_pos (by simpa using same),
          List.find?_cons_of_pos (by simpa [name] using same)⟩
      · left
        have same' : q'.name ≠ n := fun e => same (name.symm.trans e)
        rw [List.find?_cons_of_neg (by simpa using same'),
          List.find?_cons_of_neg (by simpa using same)]
    | succ k =>
      rw [List.set_cons_succ]
      by_cases same : r.name = n
      · left
        rw [List.find?_cons_of_pos (by simpa using same),
          List.find?_cons_of_pos (by simpa using same)]
      · rw [List.find?_cons_of_neg (by simpa using same),
          List.find?_cons_of_neg (by simpa using same)]
        exact ih hq

theorem getElem?_replace (hq : p.procs[k]? = some q) : (p.replace k q').procs[k]? = some q' := by
  obtain ⟨bound, -⟩ := List.getElem?_eq_some_iff.1 hq
  exact List.getElem?_set_self bound

theorem replace_replace (hq : p.procs[k]? = some q) : (p.replace k q').replace k q = p := by
  have same : p.procs.set k q = p.procs := by
    obtain ⟨bound, rfl⟩ := List.getElem?_eq_some_iff.1 hq
    exact List.set_getElem_self bound
  simp only [replace, List.set_set, same]

theorem replace_again {q₁ q₂ : Proc} : (p.replace k q₁).replace k q₂ = p.replace k q₂ := by
  simp only [replace, List.set_set]

/-- A program matches the program with a procedure that is related to the one it takes the place of. -/
theorem matches_replace {R : Proc → Proc → Prop} (refl : ∀ r, R r r) (hq : p.procs[k]? = some q)
    (name : q'.name = q.name) (params : q'.params = q.params) (related : R q q') :
    p.Matches R (p.replace k q') := by
  intro n
  rcases proc?_replace hq name n with same | ⟨old, new⟩
  · rw [same]
    cases p.proc? n with
    | none => rfl
    | some r => exact ⟨r, rfl, rfl, refl r⟩
  · rw [old]
    exact ⟨q', new, params, related⟩

end Program

end ThreeAddress
