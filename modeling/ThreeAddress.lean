import ThreeAddress.CommandLine.Session
import ThreeAddress.Main
import ThreeAddress.Proofs.Activation.Adequacy
import ThreeAddress.Proofs.Activation.Keeping
import ThreeAddress.Proofs.Activation.Lockstep
import ThreeAddress.Proofs.Activation.Renaming
import ThreeAddress.Proofs.Activation.Replacement
import ThreeAddress.Proofs.Allocation.Behaviour
import ThreeAddress.Proofs.Compilation.Failures
import ThreeAddress.Proofs.Compilation.Symbols
import ThreeAddress.Proofs.Compilation.Text
import ThreeAddress.Proofs.Compilation.Total
import ThreeAddress.Proofs.Execution.Edges
import ThreeAddress.Proofs.Execution.Limit
import ThreeAddress.Proofs.Execution.PhiGroups
import ThreeAddress.Proofs.FlowGraph.BackEdges
import ThreeAddress.Proofs.FlowGraph.Closed
import ThreeAddress.Proofs.FlowGraph.Cutting
import ThreeAddress.Proofs.FlowGraph.Walks
import ThreeAddress.Proofs.Instr.Literals
import ThreeAddress.Proofs.Instr.Signatures
import ThreeAddress.Proofs.Interference.Assignment
import ThreeAddress.Proofs.Interference.Edits
import ThreeAddress.Proofs.Interference.Optimal
import ThreeAddress.Proofs.Liveness.Exact
import ThreeAddress.Proofs.Lowering.Activation
import ThreeAddress.Proofs.Lowering.Arithmetic
import ThreeAddress.Proofs.Lowering.Arrival
import ThreeAddress.Proofs.Lowering.Call
import ThreeAddress.Proofs.Lowering.CallSites
import ThreeAddress.Proofs.Lowering.Code
import ThreeAddress.Proofs.Lowering.Edges
import ThreeAddress.Proofs.Lowering.Entry
import ThreeAddress.Proofs.Lowering.Frame
import ThreeAddress.Proofs.Lowering.Instr
import ThreeAddress.Proofs.Lowering.Moves
import ThreeAddress.Proofs.Lowering.Operators
import ThreeAddress.Proofs.Lowering.Program
import ThreeAddress.Proofs.Lowering.Scratch
import ThreeAddress.Proofs.Lowering.Simultaneous
import ThreeAddress.Proofs.Lowering.Slots
import ThreeAddress.Proofs.Lowering.Targets
import ThreeAddress.Proofs.Lowering.Total
import ThreeAddress.Proofs.Lowering.Values
import ThreeAddress.Proofs.Optimizer.Behaviour
import ThreeAddress.Proofs.Optimizer.CopiesInStep
import ThreeAddress.Proofs.Optimizer.Settled
import ThreeAddress.Proofs.Optimizer.StrictCopies
import ThreeAddress.Proofs.SingleAssignment.Consistency
import ThreeAddress.Proofs.SingleAssignment.Dominance
import ThreeAddress.Proofs.SingleAssignment.Irredundant
import ThreeAddress.Proofs.SingleAssignment.Passes
import ThreeAddress.Proofs.SingleAssignment.Reduced
import ThreeAddress.Proofs.Source.Derivations
import ThreeAddress.Proofs.Source.Diagnostics
import ThreeAddress.Proofs.Source.Layout
import ThreeAddress.Proofs.Source.Parsing
import ThreeAddress.Proofs.Source.Slices
import ThreeAddress.Proofs.Target.Machine
