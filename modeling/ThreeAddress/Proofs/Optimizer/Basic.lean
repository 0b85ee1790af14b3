import ThreeAddress.CopyPropagation
import ThreeAddress.Proofs.Liveness.Solution
/-!
# What the optimizer relies on and what it does

The optimizer takes procedures without phis, or in single-assignment form. There a copy is only
read where it was executed before.

* `FlowGraph.Definite` : every temporary is defined once;
* `FlowGraph.CopiesExecuted` : no copy is live on entry;
* `FlowGraph.Ready` : what the optimizer relies on;
* `FlowGraph.Improves` : what it does.
-/

namespace ThreeAddress

open Execution

namespace FlowGraph

/-- Every temporary is defined once, and parameters are not. -/
structure Definite (g : FlowGraph) : Prop where
  once : g.defs.Nodup
  apart : ∀ d ∈ g.defs, d ∉ g.params

/-- No path reads the destination of a copy before the copy is executed. -/
def CopiesExecuted (g : FlowGraph) : Prop :=
  ∀ i ∈ g.code, ∀ d s, i.tempCopy? = some (d, s) → ∀ l, g.entry? = some l →
    ¬ g.Live d (.enter .entry l)

/-- A procedure that the optimizer can take, in single-assignment form or without phis. Copies are
propagated in the whole procedure only if they were executed wherever they are read. -/
structure Ready (singleAssignment copyPropagation : Bool) (g : FlowGraph) : Prop where
  wellFormed : g.WellFormed
  phisFirst : g.PhisFirst
  phisNamed : g.PhisNamed
  definite : singleAssignment = true → g.Definite
  copied : singleAssignment = true → copyPropagation = true → g.CopiesExecuted
  phiFree : singleAssignment = false → g.PhiFree

theorem Ready.phiDefs_nodup {singleAssignment copyPropagation : Bool} {g : FlowGraph}
    (h : g.Ready singleAssignment copyPropagation) {b : Block} (hb : b ∈ g.blocks) : b.phiDefs.Nodup := by
  cases mode : singleAssignment with
  | true => exact Block.phiDefs_nodup (h.definite mode).once hb
  | false =>
    rw [Block.phiDefs, Block.phis_of_phiFree (h.phiFree mode b hb)]
    exact List.nodup_nil

/-- The second procedure does what the first one does when it succeeds, but for writes of global
variables that change nothing. -/
structure Improves (g g' : FlowGraph) : Prop where
  name : g'.name = g.name
  params : g'.params = g.params
  runs : ∀ {args globals t v},
    g.Runs .strict (.enter .strict (fun _ => none) g.params args globals) t (.ok v) →
    ∃ t', Fewer True t t' ∧
      g'.Runs .strict (.enter .strict (fun _ => none) g'.params args globals) t' (.ok v)

theorem Improves.refl (g : FlowGraph) : g.Improves g := ⟨rfl, rfl, fun h => ⟨_, .refl _ _, h⟩⟩

theorem Improves.trans {g₁ g₂ g₃ : FlowGraph} (h₁ : g₁.Improves g₂) (h₂ : g₂.Improves g₃) :
    g₁.Improves g₃ := by
  refine ⟨h₂.name.trans h₁.name, h₂.params.trans h₁.params, fun h => ?_⟩
  obtain ⟨t', fewer, runs⟩ := h₁.runs h
  obtain ⟨t'', fewer', runs'⟩ := h₂.runs runs
  exact ⟨t'', fewer.trans fewer', runs'⟩

end FlowGraph

end ThreeAddress
