import ThreeAddress.Optimizer
import ThreeAddress.Proofs.Optimizer.DeadCode
import ThreeAddress.Proofs.Optimizer.GlobalCopies
/-!
# Rounds of the optimizer

The optimizer has a result, and what every pass keeps holds of the result. Every pass leaves a
procedure that the next pass can take.

* `FlowGraph.exists_removeDeadCode`, `FlowGraph.exists_optimize` : what is kept by sweeps and by the
  propagation of copies;
* `FlowGraph.Ready.optimize` : what comes out of the optimizer does what went in.
-/

namespace ThreeAddress

namespace FlowGraph

variable {g last : FlowGraph} {o : OptimizerOptions} {singleAssignment : Bool}

/-! ## What is kept -/

section Kept

variable {P : FlowGraph → Prop} (nodup : ∀ g, P g → g.labels.Nodup)
  (sweep : ∀ g live, P g → g.liveness = .ok live → P (g.sweep live))

include nodup sweep

/-- Dead code can be removed, and what every sweep keeps holds of what is left. -/
theorem exists_removeDeadCode (h : P g) :
    ∃ last sweeps, g.removeDeadCode = .ok (last, sweeps) ∧ P last := by
  rw [FlowGraph.removeDeadCode]
  generalize g.code.length + 1 = left
  induction left generalizing g with
  | zero => exact ⟨g, [], rfl, h⟩
  | succ left ih =>
    obtain ⟨live, found⟩ := exists_liveness (nodup g h)
    have swept := sweep g live h found
    obtain ⟨last, more, done, kept⟩ := ih swept
    simp only [sweeps, found, bind, Except.bind, pure, Except.pure, done]
    split
    · exact ⟨_, _, rfl, swept⟩
    · exact ⟨_, _, rfl, kept⟩

variable (propagate : o.copyPropagation = true → ∀ g, P g → P (g.propagateCopies singleAssignment))

include propagate

theorem exists_optimizeRound (h : P g) :
    ∃ last round, g.optimizeRound o singleAssignment = .ok (last, round) ∧ P last := by
  have propagated : P (if o.copyPropagation then g.propagateCopies singleAssignment else g) := by
    split
    · next on => exact propagate on g h
    · exact h
  rw [FlowGraph.optimizeRound]
  split
  · exact exists_removeDeadCode nodup sweep propagated
  · exact ⟨_, _, rfl, propagated⟩

/-- The optimizer has a result, and what sweeps and the propagation of copies keep holds of it. -/
theorem exists_optimize (h : P g) :
    ∃ last rounds, g.optimize o singleAssignment = .ok (last, rounds) ∧ P last := by
  rw [FlowGraph.optimize]
  split
  case isFalse => exact ⟨g, [], rfl, h⟩
  generalize o.maxRounds = left
  induction left generalizing g with
  | zero => exact ⟨g, [], rfl, h⟩
  | succ left ih =>
    obtain ⟨next, round, made, first⟩ := exists_optimizeRound nodup sweep propagate h
    obtain ⟨last, more, done, kept⟩ := ih first
    simp only [optimizeRounds, made, bind, Except.bind, pure, Except.pure, done]
    split
    · exact ⟨_, _, rfl, first⟩
    · exact ⟨_, _, rfl, kept⟩

theorem of_optimize (h : P g) {rounds : List OptimizerRound}
    (done : g.optimize o singleAssignment = .ok (last, rounds)) : P last := by
  obtain ⟨last', rounds', same, kept⟩ := exists_optimize nodup sweep propagate h
  cases done.symm.trans same
  exact kept

end Kept

/-! ## What procedures do -/

theorem Ready.propagateCopies (h : g.Ready singleAssignment true) :
    (g.propagateCopies singleAssignment).Ready singleAssignment true ∧
      g.Improves (g.propagateCopies singleAssignment) := by
  cases singleAssignment with
  | true => exact h.propagateGlobally
  | false => exact h.propagateLocally

/-- What comes out of the optimizer does what went in. -/
theorem Ready.optimize (h : g.Ready singleAssignment o.copyPropagation) {rounds : List OptimizerRound}
    (done : g.optimize o singleAssignment = .ok (last, rounds)) :
    last.Ready singleAssignment o.copyPropagation ∧ g.Improves last := by
  refine of_optimize (P := fun g' => g'.Ready singleAssignment o.copyPropagation ∧ g.Improves g')
    (fun g' kept => kept.1.wellFormed.nodup) (fun g' live kept found => ?_) (fun on g' kept => ?_)
    ⟨h, .refl _⟩ done
  · have solved := solved_of_liveness kept.1.wellFormed.nodup found
    exact ⟨kept.1.sweep solved, kept.2.trans (kept.1.improves_sweep solved)⟩
  · rw [on] at kept ⊢
    obtain ⟨ready, improves⟩ := kept.1.propagateCopies
    exact ⟨ready, kept.2.trans improves⟩

end FlowGraph

end ThreeAddress
