import ThreeAddress.CopyPropagation
import ThreeAddress.DeadCode
/-!
# The optimizer

The optimizer propagates copies and then removes dead code, again and again until neither changes
anything or a limit of rounds is reached.

* `OptimizerOptions` : which of the two are done, and how often at most;
* `FlowGraph.optimize` : all rounds, with what each of them removed.
-/

namespace ThreeAddress

/-- What the optimizer is asked to do. -/
structure OptimizerOptions where
  copyPropagation : Bool
  deadCode : Bool
  /-- The greatest number of rounds. -/
  maxRounds : Nat
deriving DecidableEq, Inhabited

namespace OptimizerOptions

/-- The number of rounds when no other is asked for. -/
def defaultRounds : Nat := 10

/-- Do everything. -/
def all : OptimizerOptions := ⟨true, true, defaultRounds⟩

/-- Do nothing. -/
def none : OptimizerOptions := ⟨false, false, defaultRounds⟩

/-- Is anything to be done? -/
def any (o : OptimizerOptions) : Bool := o.copyPropagation || o.deadCode

end OptimizerOptions

/-- The sweeps of one round of the optimizer. -/
abbrev OptimizerRound := List Sweep

namespace FlowGraph

/-- One round. -/
def optimizeRound (o : OptimizerOptions) (singleAssignment : Bool) (g : FlowGraph) :
    Except Breach (FlowGraph × OptimizerRound) :=
  let g := if o.copyPropagation then g.propagateCopies singleAssignment else g
  if o.deadCode then g.removeDeadCode else .ok (g, [])

/-- Rounds until one changes nothing or none is left. -/
def optimizeRounds (o : OptimizerOptions) (singleAssignment : Bool) (g : FlowGraph) :
    (left : Nat) → Except Breach (FlowGraph × List OptimizerRound)
  | 0 => .ok (g, [])
  | left + 1 => do
    let (next, round) ← g.optimizeRound o singleAssignment
    if next = g then return (next, [round])
    else
      let (last, more) ← next.optimizeRounds o singleAssignment left
      return (last, round :: more)

/-- Optimize a procedure, which may be in single-assignment form. -/
def optimize (o : OptimizerOptions) (singleAssignment : Bool) (g : FlowGraph) :
    Except Breach (FlowGraph × List OptimizerRound) :=
  if o.any then g.optimizeRounds o singleAssignment o.maxRounds else .ok (g, [])

end FlowGraph

end ThreeAddress
