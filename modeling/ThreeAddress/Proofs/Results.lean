import Mathlib.Init
/-!
# Computations that can fail

A computation that consists of others succeeds if these do.

* `bind_eq_ok_iff` : one computation after another;
* `mapError_eq_ok_iff` : a computation with another error;
* `toOption_eq_some_iff` : a computation whose error does not matter;
* `forM_eq_ok` : a check of every member of a list;
* `Succeeds` : a computation that has a result, with what holds of it.
-/

namespace ThreeAddress

/-- A computation of two parts succeeds if both do. -/
theorem bind_eq_ok_iff {ε α β : Type} {x : Except ε α} {f : α → Except ε β} {b : β} :
    x >>= f = .ok b ↔ ∃ a, x = .ok a ∧ f a = .ok b := by
  cases x with
  | error e => simp [bind, Except.bind]
  | ok a => simp [bind, Except.bind]

/-- Another error does not make a computation succeed. -/
theorem mapError_eq_ok_iff {ε ε' α : Type} {x : Except ε α} {f : ε → ε'} {a : α} :
    x.mapError f = .ok a ↔ x = .ok a := by
  cases x with
  | error e => constructor <;> intro h <;> cases h
  | ok b => constructor <;> intro h <;> cases h <;> rfl

/-- What a computation gives besides errors is its result. -/
theorem toOption_eq_some_iff {ε α : Type} {x : Except ε α} {a : α} :
    x.toOption = some a ↔ x = .ok a := by
  cases x with
  | error e => simp [Except.toOption]
  | ok b => simp [Except.toOption]

/-- A check of several things passes if it passes for each. -/
theorem forM_eq_ok {ε α : Type} {f : α → Except ε Unit} {l : List α} :
    l.forM f = .ok () ↔ ∀ a ∈ l, f a = .ok () := by
  induction l with
  | nil => simp [pure, Except.pure]
  | cons a rest ih =>
    have step : (a :: rest).forM f = f a >>= fun _ => rest.forM f := rfl
    rw [step, List.forall_mem_cons, ← ih, bind_eq_ok_iff]
    constructor
    · rintro ⟨_, first, more⟩
      exact ⟨first, more⟩
    · rintro ⟨first, more⟩
      exact ⟨(), first, more⟩

/-- The computation has a result, and something holds of it. -/
def Succeeds {ε α : Type} (x : Except ε α) (Q : α → Prop) : Prop := ∃ a, x = .ok a ∧ Q a

namespace Succeeds

variable {ε α β : Type} {x : Except ε α} {P Q : α → Prop}

theorem ok {a : α} (h : Q a) : Succeeds (.ok a : Except ε α) Q := ⟨a, rfl, h⟩

theorem imp (h : Succeeds x P) (le : ∀ a, P a → Q a) : Succeeds x Q := by
  obtain ⟨a, done, holds⟩ := h
  exact ⟨a, done, le a holds⟩

/-- One computation after another, which relies on what holds of the first result. -/
theorem bind {f : α → Except ε β} {R : β → Prop} (h : Succeeds x P)
    (next : ∀ a, P a → Succeeds (f a) R) : Succeeds (x >>= f) R := by
  obtain ⟨a, rfl, holds⟩ := h
  exact next a holds

end Succeeds

end ThreeAddress
