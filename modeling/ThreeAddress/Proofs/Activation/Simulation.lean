import ThreeAddress.Proofs.Activation.Basic
/-!
# Simulation of activations

Two activations that run side by side have the same effects and the same result if their stages
stay alike: the same arguments are laid ready, the global variables are the same, and the
positions and the temporaries stay in a relation. Between two stages that are compared, the second
activation may take steps of its own.

* `Control.Quiet` : steps without effects;
* `Control.Yields.parts_or_eq` : runs part at nothing but the answers to calls;
* `Alike` : two stages whose positions and temporaries are in a relation;
* `Valued` : a result other than a failure for want of a value;
* `Control.Yields.carry_kept` : a run is carried over to the other side, perhaps without writes that
  change nothing, if the other side keeps the failure that it may end with;
* `Control.Yields.carry_ok` : so is a run that succeeds;
* `Control.Yields.carry` : every run is, where failures may be renamed.
-/

namespace ThreeAddress

open Execution

variable {π π' σ σ' : Type}

/-! ## Steps without effects -/

namespace Control

variable {C : Control π} {K : Keeping σ}

/-- The second stage is reached from the first one without any effect. -/
inductive Quiet (C : Control π) (K : Keeping σ) : Stage π σ → Stage π σ → Prop where
  | refl (x : Stage π σ) : Quiet C K x x
  | going {pos : π} {a : Local σ} {y : Stage π σ} (h : Quiet C K (C.step K pos a) y) :
      Quiet C K (.going pos a) y

theorem Quiet.step (pos : π) (a : Local σ) : C.Quiet K (.going pos a) (C.step K pos a) :=
  .going (.refl _)

theorem Quiet.trans {x y z : Stage π σ} (h₁ : C.Quiet K x y) (h₂ : C.Quiet K y z) :
    C.Quiet K x z := by
  induction h₁ with
  | refl => exact h₂
  | going _ ih => exact .going (ih h₂)

theorem yields_going {pos : π} {a : Local σ} {t : List Effect} {r : Result} :
    C.Yields K (.going pos a) t r ↔ C.Yields K (C.step K pos a) t r := by
  constructor
  · rintro (_ | h)
    exact h
  · exact .going

/-- Steps without effects change nothing about the effects to come. -/
theorem Quiet.yields {x y : Stage π σ} {t : List Effect} {r : Result} (h : C.Quiet K x y) :
    C.Yields K x t r ↔ C.Yields K y t r := by
  induction h with
  | refl => exact Iff.rfl
  | going _ ih => exact yields_going.trans ih

end Control

/-! ## Runs from one stage -/

/-- The effects are the same up to a call that is answered in two ways. -/
inductive Parts : List Effect → List Effect → Prop where
  | answer {callee : Global} {args : List Word} {globals : Store Global} {r r' : Result}
      (ne : r ≠ r') (t t' : List Effect) :
      Parts (.called callee args globals r :: t) (.called callee args globals r' :: t')
  | later (e : Effect) {t t' : List Effect} (h : Parts t t') : Parts (e :: t) (e :: t')

/-- Two runs from one stage are the same, unless they part at the answer to a call. -/
theorem Control.Yields.parts_or_eq {C : Control π} {K : Keeping σ} {x : Stage π σ}
    {t t' : List Effect} {r r' : Result} (h : C.Yields K x t r) (h' : C.Yields K x t' r') :
    Parts t t' ∨ t' = t ∧ r' = r := by
  have cons : ∀ (e : Effect) {t t' : List Effect} {r r' : Result}, Parts t t' ∨ t' = t ∧ r' = r →
      Parts (e :: t) (e :: t') ∨ e :: t' = e :: t ∧ r' = r :=
    fun e _ _ _ _ h => h.imp (.later e) fun ⟨same, result⟩ => ⟨congrArg (e :: ·) same, result⟩
  induction h generalizing t' r' with
  | ends =>
    cases h'
    exact .inr ⟨rfl, rfl⟩
  | going _ ih =>
    obtain _ | h' := h'
    exact ih h'
  | prints _ ih =>
    obtain _ | _ | h' := h'
    exact cons _ (ih h')
  | writes _ ih =>
    obtain _ | _ | _ | h' := h'
    exact cons _ (ih h')
  | @answered dest callee args pos a w globals _ _ _ ih =>
    cases h' with
    | @answered _ _ _ _ _ w' globals' _ _ h' =>
      by_cases same : (w, globals) = (w', globals')
      · cases same
        exact cons _ (ih h')
      · exact .inl (.answer (fun e => same (Except.ok.inj e)) _ _)
    | failed => exact .inl (.answer (by simp) _ _)
  | @failed _ _ _ _ _ f =>
    cases h' with
    | answered => exact .inl (.answer (by simp) _ _)
    | @failed _ _ _ _ _ f' =>
      by_cases same : f = f'
      · exact .inr ⟨by rw [same], by rw [same]⟩
      · exact .inl (.answer (fun e => same (Except.error.inj e)) _ _)

/-! ## Stages that are alike -/

/-- What the second side may do differently. -/
structure Leeway (π' σ' : Type) where
  /-- How it may answer a failure. -/
  failure : Failure → Stage π' σ' → Prop
  /-- May it leave out a write of a global variable that changes nothing? -/
  hides : Prop

/-- Nothing is asked of the second side once the first one has failed. -/
def Leeway.afterFailure (π' σ' : Type) : Leeway π' σ' := ⟨fun _ _ => True, False⟩

/-- The failure says that a temporary or a global variable has no value. -/
def Execution.Failure.NoValue : Failure → Prop
  | .uninitialized _ _ | .unknownGlobal _ => True
  | _ => False

/-- The result is not a failure for want of a value. -/
def Valued {α : Type} (r : Except Failure α) : Prop := ∀ f, r = .error f → ¬ f.NoValue

theorem Valued.ok {α : Type} (v : α) : Valued (.ok v : Except Failure α) :=
  fun _ e => nomatch e

/-- Nothing is asked after a failure for want of a value, every other failure is the same, and idle
writes may be left out if `hides` says so. -/
def Leeway.valued (π' σ' : Type) (hides : Prop) : Leeway π' σ' :=
  ⟨fun f y => f.NoValue ∨ y = .ends (.error f), hides⟩

theorem Leeway.valued_same {π' σ' : Type} {hides : Prop} (f : Failure) :
    (Leeway.valued π' σ' hides).failure f (.ends (.error f)) := .inr rfl

theorem Leeway.valued_noValue {π' σ' : Type} {hides : Prop} {f : Failure} (h : f.NoValue)
    (y : Stage π' σ') : (Leeway.valued π' σ' hides).failure f y := .inl h

/-- A failure that a run may end with and that is not for want of a value is answered by itself. -/
theorem Leeway.valued_exact {π' σ' : Type} {hides : Prop} {r : Result} (valued : Valued r)
    (f : Failure) (y : Stage π' σ') (e : r = .error f)
    (answer : (Leeway.valued π' σ' hides).failure f y) : y = .ends (.error f) :=
  answer.resolve_left (valued f e)

/-- Two stages do the same, with positions and temporaries in the relation `Q`, but for what `E`
allows. -/
inductive Alike (K : Keeping σ) (K' : Keeping σ') (Q : π → σ → π' → σ' → Prop)
    (E : Leeway π' σ') : Stage π σ → Stage π' σ' → Prop where
  | going {pos : π} {pos' : π'} {s : σ} {s' : σ'} {staged : Store Nat} {globals : Store Global}
      (h : Q pos s pos' s') :
      Alike K K' Q E (.going pos ⟨s, staged, globals⟩) (.going pos' ⟨s', staged, globals⟩)
  | prints {p : Printed} {pos : π} {pos' : π'} {s : σ} {s' : σ'} {staged : Store Nat}
      {globals : Store Global} (h : Q pos s pos' s') :
      Alike K K' Q E (.prints p pos ⟨s, staged, globals⟩) (.prints p pos' ⟨s', staged, globals⟩)
  | writes {g : Global} {w : Word} {pos : π} {pos' : π'} {s : σ} {s' : σ'} {staged : Store Nat}
      {globals : Store Global} (h : Q pos s pos' s') :
      Alike K K' Q E (.writes g w pos ⟨s, staged, globals⟩) (.writes g w pos' ⟨s', staged, globals⟩)
  | hidden {g : Global} {w : Word} {pos : π} {pos' : π'} {s : σ} {s' : σ'} {staged : Store Nat}
      {globals : Store Global} (allowed : E.hides) (h : Q pos s pos' s') :
      Alike K K' Q E (.writes g w pos ⟨s, staged, globals⟩) (.going pos' ⟨s', staged, globals⟩)
  | asks {dest dest' : Var} {callee : Global} {args : List Word} {pos : π} {pos' : π'} {s : σ}
      {s' : σ'} {staged : Store Nat} {globals : Store Global}
      (h : ∀ w G, Alike K K' Q E (K.write pos ⟨s, staged, G⟩ dest w)
        (K'.write pos' ⟨s', staged, G⟩ dest' w)) :
      Alike K K' Q E (.asks dest callee args pos ⟨s, staged, globals⟩)
        (.asks dest' callee args pos' ⟨s', staged, globals⟩)
  | ends {v : Word × Store Global} : Alike K K' Q E (.ends (.ok v)) (.ends (.ok v))
  | fails {f : Failure} {y : Stage π' σ'} (h : E.failure f y) : Alike K K' Q E (.ends (.error f)) y

/-- Every step on the first side is followed by the second side, perhaps in several steps. -/
def Follows (C : Control π) (K : Keeping σ) (C' : Control π') (K' : Keeping σ')
    (Q : π → σ → π' → σ' → Prop) (E : Leeway π' σ') : Prop :=
  ∀ pos s pos' s' staged globals, Q pos s pos' s' →
    ∃ y, C'.Quiet K' (.going pos' ⟨s', staged, globals⟩) y ∧
      Alike K K' Q E (C.step K pos ⟨s, staged, globals⟩) y

/-- The second effects are the first ones, some writes of global variables perhaps left out. -/
inductive Fewer (hides : Prop) : List Effect → List Effect → Prop where
  | nil : Fewer hides [] []
  | keep (e : Effect) {t t' : List Effect} (h : Fewer hides t t') : Fewer hides (e :: t) (e :: t')
  | drop (allowed : hides) (g : Global) (w : Word) {t t' : List Effect} (h : Fewer hides t t') :
      Fewer hides (.wrote g w :: t) t'

theorem Fewer.eq {hides : Prop} {t t' : List Effect} (h : Fewer hides t t') (none : ¬ hides) :
    t' = t := by
  induction h with
  | nil => rfl
  | keep e _ ih => rw [ih]
  | drop allowed => exact absurd allowed none

theorem Fewer.refl (hides : Prop) (t : List Effect) : Fewer hides t t := by
  induction t with
  | nil => exact .nil
  | cons e t ih => exact .keep e ih

theorem Fewer.trans {hides : Prop} {t₁ t₂ t₃ : List Effect} (h₁ : Fewer hides t₁ t₂)
    (h₂ : Fewer hides t₂ t₃) : Fewer hides t₁ t₃ := by
  induction h₁ generalizing t₃ with
  | nil => exact h₂
  | keep e _ ih =>
    cases h₂ with
    | keep _ h₂ => exact .keep e (ih h₂)
    | drop allowed g w h₂ => exact .drop allowed g w (ih h₂)
  | drop allowed g w _ ih => exact .drop allowed g w (ih h₂)

theorem Fewer.weaken {t t' : List Effect} {hides hides' : Prop} (h : Fewer hides t t')
    (le : hides → hides') : Fewer hides' t t' := by
  induction h with
  | nil => exact .nil
  | keep e _ ih => exact .keep e ih
  | drop allowed g w _ ih => exact .drop (le allowed) g w ih

section Carry

variable {C : Control π} {K : Keeping σ} {C' : Control π'} {K' : Keeping σ'}
  {Q : π → σ → π' → σ' → Prop} {E : Leeway π' σ'}

/-- A step on one side that one step on the other side follows. -/
theorem Follows.of_step
    (h : ∀ pos s pos' s' staged globals, Q pos s pos' s' →
      Alike K K' Q E (C.step K pos ⟨s, staged, globals⟩) (C'.step K' pos' ⟨s', staged, globals⟩)) :
    Follows C K C' K' Q E :=
  fun pos s pos' s' staged globals q => ⟨_, .step _ _, h pos s pos' s' staged globals q⟩

/-- What a stage behind a step of the second side has, the second side has at the position in front of
the step. -/
theorem Follows.exists_yields (follows : Follows C K C' K' Q E) {pos : π} {pos' : π'} {s : σ} {s' : σ'}
    {staged : Store Nat} {globals : Store Global} (q : Q pos s pos' s') {ι : Type} {P : ι → Prop}
    {t : ι → List Effect} {r : ι → Result}
    (behind : ∀ {y : Stage π' σ'}, Alike K K' Q E (C.step K pos ⟨s, staged, globals⟩) y →
      ∃ a, P a ∧ C'.Yields K' y (t a) (r a)) :
    ∃ a, P a ∧ C'.Yields K' (.going pos' ⟨s', staged, globals⟩) (t a) (r a) := by
  obtain ⟨y, quiet, alike⟩ := follows pos s pos' s' staged globals q
  obtain ⟨a, holds, yields⟩ := behind alike
  exact ⟨a, holds, quiet.yields.2 yields⟩

/-- A run is carried over to a stage that is alike, if the failure that it may end with is answered by
nothing but itself. -/
theorem Control.Yields.carry_kept (follows : Follows C K C' K' Q E) {x : Stage π σ}
    {t : List Effect} {r : Result} (h : C.Yields K x t r)
    (exact : ∀ f y, r = .error f → E.failure f y → y = .ends (.error f)) :
    ∀ {y : Stage π' σ'}, Alike K K' Q E x y →
      ∃ t', Fewer E.hides t t' ∧ C'.Yields K' y t' r := by
  induction h with
  | ends =>
    intro y alike
    cases alike with
    | ends => exact ⟨[], .nil, .ends⟩
    | fails answer =>
      rw [exact _ _ rfl answer]
      exact ⟨[], .nil, .ends⟩
  | going _ ih =>
    intro y alike
    cases alike with
    | going q => exact follows.exists_yields q (ih exact)
  | prints _ ih =>
    intro y alike
    cases alike with
    | prints q =>
      obtain ⟨t', fewer, yields⟩ := follows.exists_yields q (ih exact)
      exact ⟨_, .keep _ fewer, .prints (yields_going.1 yields)⟩
  | writes _ ih =>
    intro y alike
    cases alike with
    | writes q =>
      obtain ⟨t', fewer, yields⟩ := follows.exists_yields q (ih exact)
      exact ⟨_, .keep _ fewer, .writes (yields_going.1 yields)⟩
    | hidden allowed q =>
      obtain ⟨t', fewer, yields⟩ := follows.exists_yields q (ih exact)
      exact ⟨_, .drop allowed _ _ fewer, yields⟩
  | answered _ ih =>
    intro y alike
    cases alike with
    | asks q =>
      obtain ⟨t', fewer, yields⟩ := ih exact (q _ _)
      exact ⟨_, .keep _ fewer, .answered yields⟩
  | failed =>
    intro y alike
    cases alike with
    | asks q => exact ⟨_, .keep _ .nil, .failed⟩

/-- A run that succeeds is carried over with all its effects, if none may be left out. -/
theorem Control.Yields.carry_ok (follows : Follows C K C' K' Q E) (none : ¬ E.hides)
    {x : Stage π σ} {t : List Effect} {v : Word × Store Global} (h : C.Yields K x t (.ok v))
    {y : Stage π' σ'} (alike : Alike K K' Q E x y) : C'.Yields K' y t (.ok v) := by
  obtain ⟨t', fewer, yields⟩ := h.carry_kept follows (fun _ _ e => nomatch e) alike
  rwa [← fewer.eq none]

end Carry

/-! ## Failures that are renamed -/

/-- Two results are the same, up to a relation between failures. -/
inductive SameResult (F : Failure → Failure → Prop) : Result → Result → Prop where
  | ok (v : Word × Store Global) : SameResult F (.ok v) (.ok v)
  | error {f f' : Failure} (h : F f f') : SameResult F (.error f) (.error f')

/-- Two sequences of effects are the same, up to a relation between the failures of calls. -/
inductive SameEffects (F : Failure → Failure → Prop) : List Effect → List Effect → Prop where
  | nil : SameEffects F [] []
  | printed (p : Printed) {t t' : List Effect} (h : SameEffects F t t') :
      SameEffects F (.printed p :: t) (.printed p :: t')
  | wrote (g : Global) (w : Word) {t t' : List Effect} (h : SameEffects F t t') :
      SameEffects F (.wrote g w :: t) (.wrote g w :: t')
  | called (callee : Global) (args : List Word) (globals : Store Global) {r r' : Result}
      {t t' : List Effect} (hr : SameResult F r r') (h : SameEffects F t t') :
      SameEffects F (.called callee args globals r :: t) (.called callee args globals r' :: t')

theorem SameResult.refl {F : Failure → Failure → Prop} (hF : ∀ f, F f f) (r : Result) :
    SameResult F r r := by
  cases r with
  | ok v => exact .ok v
  | error f => exact .error (hF f)

theorem SameEffects.refl {F : Failure → Failure → Prop} (hF : ∀ f, F f f) (t : List Effect) :
    SameEffects F t t := by
  induction t with
  | nil => exact .nil
  | cons e t ih =>
    cases e with
    | printed p => exact .printed p ih
    | wrote g w => exact .wrote g w ih
    | called callee args globals answer => exact .called callee args globals (.refl hF answer) ih

theorem SameResult.eq {r r' : Result} (h : SameResult Eq r r') : r = r' := by
  cases h with
  | ok v => rfl
  | error e => rw [e]

/-- An activation has its effects also when the failures of calls are renamed. -/
theorem Control.Yields.same {C : Control π} {K : Keeping σ} {F : Failure → Failure → Prop}
    (hF : ∀ f, F f f) {x : Stage π σ} {t t' : List Effect} {r : Result} (h : C.Yields K x t r)
    (same : SameEffects F t t') : ∃ r', SameResult F r r' ∧ C.Yields K x t' r' := by
  induction h generalizing t' with
  | ends =>
    cases same
    exact ⟨_, .refl hF _, .ends⟩
  | going _ ih =>
    obtain ⟨r', result, yields⟩ := ih same
    exact ⟨r', result, .going yields⟩
  | prints _ ih =>
    obtain _ | ⟨_, same⟩ := same
    obtain ⟨r', result, yields⟩ := ih same
    exact ⟨r', result, .prints yields⟩
  | writes _ ih =>
    obtain _ | _ | ⟨_, _, same⟩ := same
    obtain ⟨r', result, yields⟩ := ih same
    exact ⟨r', result, .writes yields⟩
  | answered _ ih =>
    obtain _ | _ | _ | ⟨_, _, _, _ | _, same⟩ := same
    obtain ⟨r', result, yields⟩ := ih same
    exact ⟨r', result, .answered yields⟩
  | failed =>
    obtain _ | _ | _ | ⟨_, _, _, _ | hf, same⟩ := same
    cases same
    exact ⟨_, .error hf, .failed⟩

/-- A failure is answered by a failure that is the same up to the relation, and nothing is left
out. -/
def FailsAs (π σ : Type) (F : Failure → Failure → Prop) : Leeway π σ :=
  ⟨fun f y => ∃ f', F f f' ∧ y = .ends (.error f'), False⟩

/-- Stages that are alike are alike when the sides are exchanged. -/
theorem Alike.symm {K : Keeping σ} {K' : Keeping σ'} {Q : π → σ → π' → σ' → Prop}
    {F : Failure → Failure → Prop} {x : Stage π σ} {y : Stage π' σ'}
    (h : Alike K K' Q (FailsAs π' σ' F) x y) :
    Alike K' K (fun pos' s' pos s => Q pos s pos' s') (FailsAs π σ fun f' f => F f f') y x := by
  induction h with
  | going q => exact .going q
  | prints q => exact .prints q
  | writes q => exact .writes q
  | hidden allowed => exact allowed.elim
  | asks _ ih => exact .asks ih
  | ends => exact .ends
  | fails e =>
    obtain ⟨f', hf, rfl⟩ := e
    exact .fails ⟨_, hf, rfl⟩

/-- Every run is carried over to a stage that is alike, with the failures of calls and of the
activation itself renamed. -/
theorem Control.Yields.carry {C : Control π} {K : Keeping σ} {C' : Control π'} {K' : Keeping σ'}
    {Q : π → σ → π' → σ' → Prop} {F : Failure → Failure → Prop}
    (follows : Follows C K C' K' Q (FailsAs π' σ' F)) {x : Stage π σ} {t : List Effect} {r : Result}
    (h : C.Yields K x t r) :
    ∀ {y : Stage π' σ'} {t' : List Effect}, Alike K K' Q (FailsAs π' σ' F) x y → SameEffects F t t' →
      ∃ r', SameResult F r r' ∧ C'.Yields K' y t' r' := by
  induction h with
  | ends =>
    rintro y t' alike (_ | _)
    cases alike with
    | ends => exact ⟨_, .ok _, .ends⟩
    | fails e =>
      obtain ⟨f', hf, rfl⟩ := e
      exact ⟨_, .error hf, .ends⟩
  | going _ ih =>
    intro y t' alike same
    cases alike with
    | going q => exact follows.exists_yields q fun alike => ih alike same
  | prints _ ih =>
    rintro y t' alike (_ | ⟨_, same⟩)
    cases alike with
    | prints q =>
      obtain ⟨r', same', yields⟩ := follows.exists_yields q fun alike => ih alike same
      exact ⟨r', same', .prints (yields_going.1 yields)⟩
  | writes _ ih =>
    rintro y t' alike (_ | _ | ⟨_, _, same⟩)
    cases alike with
    | writes q =>
      obtain ⟨r', same', yields⟩ := follows.exists_yields q fun alike => ih alike same
      exact ⟨r', same', .writes (yields_going.1 yields)⟩
    | hidden allowed => exact allowed.elim
  | answered _ ih =>
    rintro y t' alike (_ | _ | _ | ⟨_, _, _, _ | _, same⟩)
    cases alike with
    | asks q =>
      obtain ⟨r', same', yields⟩ := ih (q _ _) same
      exact ⟨r', same', .answered yields⟩
  | failed =>
    rintro y t' alike (_ | _ | _ | ⟨_, _, _, hr, same⟩)
    cases alike with
    | asks q =>
      cases hr with
      | error hf =>
        cases same
        exact ⟨_, .error hf, .failed⟩

end ThreeAddress
