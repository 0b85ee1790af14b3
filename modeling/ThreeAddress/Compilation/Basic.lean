import ThreeAddress.Compilation.Event
import ThreeAddress.Compilation.Failure
import ThreeAddress.Interference.Build
import ThreeAddress.Lowering.Function
import ThreeAddress.SingleAssignment.Check
/-!
# Compilation

A procedure is cut into blocks, converted to single assignment, optimized, allocated and lowered.
Procedures are compiled one by one, and a program compiles if all of its procedures do.

* `CompileOptions` : what is done on the way;
* `Proc.compile` : one procedure;
* `Program.compile` : a program, or the failures of all procedures that have one;
* `CompiledProgram.tac`, `CompiledProgram.listing`, `CompiledProgram.allocationText` : the results.
-/

namespace ThreeAddress

/-- What a compilation is asked to do. -/
structure CompileOptions where
  /-- Convert to single assignment. -/
  singleAssignment : Bool
  /-- Remove redundant phis after the conversion. -/
  minimize : Bool
  optimizer : OptimizerOptions
  /-- The number of registers for temporaries. -/
  registers : Nat
  /-- Check the function that comes out. -/
  check : Bool
deriving DecidableEq

namespace CompileOptions

/-- Do everything, with all registers. -/
def standard : CompileOptions :=
  { singleAssignment := true
    minimize := true
    optimizer := .all
    registers := Target.Register.palette.length
    check := true }

end CompileOptions

instance : Inhabited CompileOptions := ⟨.standard⟩

/-! ## One procedure -/

/-- A procedure as the optimizer takes it. -/
structure Prepared where
  graph : FlowGraph
  /-- Is the procedure in single-assignment form? -/
  singleAssignment : Bool
  events : List Event

namespace FlowGraph

/-- Convert a procedure to single assignment and check the result. -/
def toSingleAssignment (g : FlowGraph) (names : FreshNames) (minimize : Bool) :
    Except Breach Prepared := do
  let c ← g.convert names
  let (graph, events) :=
    if minimize then
      let m := c.graph.minimize
      (m.graph, c.events ++ m.events)
    else (c.graph, c.events)
  graph.checkDefinitions
  graph.checkPhis
  return ⟨graph, true, events⟩

/-- Convert a procedure, if that is asked for. A procedure with phis is taken as it is; it counts as
being in single-assignment form if its definitions are. -/
def prepare (g : FlowGraph) (names : FreshNames) (o : CompileOptions) : Except Breach Prepared :=
  if g.hasPhis then .ok ⟨g, g.checkDefinitions.isOk, []⟩
  else if o.singleAssignment then g.toSingleAssignment names o.minimize
  else .ok ⟨g, false, []⟩

end FlowGraph

/-- A procedure that was compiled. -/
structure CompiledProc where
  /-- The procedure that the allocation is for. -/
  graph : FlowGraph
  assignment : Assignment
  function : Target.Function
  events : List Event

namespace CompiledProc

/-- The code that the allocation is for. -/
def tac (c : CompiledProc) : Proc := c.graph.toProc

end CompiledProc

namespace FlowGraph

/-- Allocate and lower a procedure. -/
def finish (g : FlowGraph) (o : CompileOptions) : Except Breach CompiledProc := do
  let live ← g.liveness
  let interference := g.interference live
  let allocation ← interference.allocate o.registers
  let function ← g.lower live allocation.assignment
  if o.check then function.check
  return ⟨g, allocation.assignment, function,
    live.events g.name ++ interference.events g.name ++ allocation.events o.registers ++
      function.events g.name⟩

/-- Compile a procedure that is cut into blocks. -/
def compile (g : FlowGraph) (names : FreshNames) (o : CompileOptions) :
    Except Breach CompiledProc := do
  let prepared ← g.prepare names o
  let (graph, rounds) ← prepared.graph.optimize o.optimizer prepared.singleAssignment
  let compiled ← graph.finish o
  return { compiled with
    events := g.events ++ prepared.events ++ o.optimizer.events g.name rounds ++ compiled.events }

end FlowGraph

namespace Proc

/-- Compile a procedure. -/
def compile (p : Proc) (o : CompileOptions) : Except ProcFailure CompiledProc :=
  match FlowGraph.ofProc p with
  | .error e => .error (.ofFault p (.label e))
  | .ok (g, names) => (g.compile names o).mapError fun b => .ofFault p (.breach b)

/-- The events of compiling a procedure. -/
def compileEvents : Except ProcFailure CompiledProc → List Event
  | .ok c => c.events
  | .error f => [.failed f.text]

end Proc

/-! ## A program -/

/-- A program all of whose procedures were compiled. -/
structure CompiledProgram where
  globals : List GlobalVar
  procs : List CompiledProc

namespace CompiledProgram

/-- The code that the allocations are for. -/
def tac (c : CompiledProgram) : Program := ⟨c.globals, c.procs.map CompiledProc.tac⟩

/-- The program of the target machine. -/
def assembly (c : CompiledProgram) : Target.Assembly :=
  ⟨c.globals.map fun g => ⟨g.name.name, g.value⟩, c.procs.map CompiledProc.function⟩

/-- The text for an assembler. -/
def listing (c : CompiledProgram) : String := c.assembly.listing

/-- The homes of all temporaries, procedure by procedure. -/
def allocationText (c : CompiledProgram) : String :=
  String.join (c.procs.map fun p =>
    p.graph.name.text ++ ": " ++ decimalText p.assignment.registers.size ++ " register(s), " ++
      decimalText p.assignment.spilled.length ++ " spill(s), " ++
      integerText p.function.frame.size.toInt ++ " byte frame\n" ++ p.assignment.text)

end CompiledProgram

/-- The results of a list, or its errors if there are any. -/
def collect {ε α : Type} : List (Except ε α) → Except (List ε) (List α)
  | [] => .ok []
  | r :: rest =>
    match r, collect rest with
    | .ok a, .ok more => .ok (a :: more)
    | .ok _, .error errors => .error errors
    | .error e, .ok _ => .error [e]
    | .error e, .error errors => .error (e :: errors)

namespace Program

/-- Compile every procedure by itself. -/
def compileProcs (p : Program) (o : CompileOptions) : List (Except ProcFailure CompiledProc) :=
  p.procs.map fun q => q.compile o

/-- Compile a program. -/
def compile (p : Program) (o : CompileOptions) : Except (List ProcFailure) CompiledProgram :=
  (collect (p.compileProcs o)).map fun procs => ⟨p.globals, procs⟩

/-- The events of compiling a program. -/
def compileEvents (p : Program) (o : CompileOptions) : List Event :=
  (p.compileProcs o).flatMap Proc.compileEvents

end Program

end ThreeAddress
