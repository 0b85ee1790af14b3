import ThreeAddress.Allocation
import ThreeAddress.FlowGraph.Walk
import ThreeAddress.Optimizer
import ThreeAddress.SingleAssignment.Convert
import ThreeAddress.SingleAssignment.Minimize
import ThreeAddress.Source.Token
import ThreeAddress.Target.Listing
/-!
# What a compilation reports about itself

Every stage of a compilation leaves events behind: warnings, and what it found and how long it took.

* `Event` : the events, with severity and wording;
* `FlowGraph.events`, `Conversion.events`, `Minimization.events`, `Sweep.events`,
  `Allocation.events`, ... : the events of the stages.
-/

namespace ThreeAddress

/-- How much an event matters. -/
inductive Severity where
  /-- Something is suspicious. -/
  | warning
  /-- What a stage did as a whole. -/
  | debug
  /-- A single step of a stage. -/
  | trace
deriving DecidableEq, Inhabited

namespace Severity

/-- The name of the severity. -/
def text : Severity → String
  | warning => "WARN"
  | debug => "DEBUG"
  | trace => "TRACE"

/-- The place in the order, the most important first. -/
def rank : Severity → Nat
  | warning => 0
  | debug => 1
  | trace => 2

end Severity

/-- Something that a compilation reports. -/
inductive Event where
  /-- The source was divided into tokens. -/
  | scanned (tokens : Nat)
  /-- The source was read as a program. -/
  | read (procs globals : Nat)
  /-- A procedure was cut into blocks. -/
  | cut (proc : Global) (blocks edges : Nat)
  /-- Control cannot get to a block. -/
  | unreachable (proc : Global) (block : Label)
  /-- The live sets were found. -/
  | foundLive (proc : Global) (rounds : Nat)
  /-- A procedure was converted to single assignment. -/
  | converted (proc : Global) (phis versions : Nat)
  /-- Redundant phis were removed in a round. -/
  | minimizedOnce (proc : Global) (round nullChoices collapsed : Nat)
  /-- A phi has no arguments. -/
  | emptyPhi (proc : Global) (dest : Temp) (block : Label)
  /-- All redundant phis were removed. -/
  | minimized (proc : Global) (rounds nullChoices collapsed : Nat)
  /-- The stage that removes redundant phis ended. -/
  | minimizationEnded (proc : Global) (rounds nullChoices collapsed : Nat)
  /-- A sweep removed dead code. -/
  | swept (proc : Global) (removed : Nat)
  /-- The optimizer ended. -/
  | optimized (proc : Global) (rounds : Nat)
  /-- The interference graph was built. -/
  | foundInterference (proc : Global) (nodes edges : Nat)
  /-- More registers are asked for than there are. -/
  | tooFewRegisters (asked available : Nat)
  /-- A node is next in the order of coloring. -/
  | ordered (temp : Temp)
  /-- A node was spilled. -/
  | spilled (temp : Temp) (neighbors colors registers : Nat)
  /-- Every temporary has its home. -/
  | allocated (temps colors spills : Nat)
  /-- A procedure became a function of the target machine. -/
  | lowered (proc : Global) (instrs : Nat) (frameBytes : Int32)
  /-- A procedure failed to compile. -/
  | failed (report : String)
deriving DecidableEq, Inhabited

namespace Event

/-- How much the event matters. -/
def severity : Event → Severity
  | unreachable _ _ | emptyPhi _ _ _ | tooFewRegisters _ _ => .warning
  | scanned _ | minimizedOnce _ _ _ _ | swept _ _ | ordered _ | spilled _ _ _ _ => .trace
  | _ => .debug

/-- The event in words. -/
def message : Event → String
  | scanned tokens => "lexed " ++ decimalText tokens ++ " tokens"
  | read procs globals =>
    "parsed " ++ decimalText procs ++ " procedure(s), " ++ decimalText globals ++ " global(s)"
  | cut proc blocks edges =>
    "built CFG for " ++ proc.text ++ ": " ++ decimalText blocks ++ " blocks, " ++
      decimalText edges ++ " edges"
  | unreachable proc block => proc.text ++ ": block " ++ block.text ++ " is unreachable"
  | foundLive proc rounds =>
    "liveness for " ++ proc.text ++ " converged after " ++ decimalText rounds ++ " round(s)"
  | converted proc phis versions =>
    "SSA for " ++ proc.text ++ ": " ++ decimalText phis ++ " phi(s) inserted, " ++
      decimalText versions ++ " version(s)"
  | minimizedOnce proc round nullChoices collapsed =>
    proc.text ++ ": minimization round " ++ decimalText round ++ " removed " ++
      decimalText nullChoices ++ " null choice(s), collapsed " ++ decimalText collapsed ++ " phi(s)"
  | emptyPhi proc dest block =>
    proc.text ++ ": phi for " ++ dest.text ++ " in " ++ block.text ++ " has no incoming edges"
  | minimized proc rounds nullChoices collapsed =>
    "minimized SSA for " ++ proc.text ++ ": " ++ decimalText nullChoices ++ " null choice(s), " ++
      decimalText collapsed ++ " collapsed, " ++ decimalText rounds ++ " round(s)"
  | minimizationEnded proc rounds nullChoices collapsed =>
    "minimized " ++ proc.text ++ " in " ++ decimalText rounds ++ " round(s): " ++
      decimalText nullChoices ++ " null choice(s), " ++ decimalText collapsed ++ " collapsed"
  | swept proc removed =>
    proc.text ++ ": removed " ++ decimalText removed ++ " dead instruction(s)"
  | optimized proc rounds =>
    "optimised " ++ proc.text ++ " in " ++ decimalText rounds ++ " iteration(s)"
  | foundInterference proc nodes edges =>
    "interference graph for " ++ proc.text ++ ": " ++ decimalText nodes ++ " node(s), " ++
      decimalText edges ++ " edge(s)"
  | tooFewRegisters asked available =>
    "register budget " ++ decimalText asked ++ " exceeds the " ++ decimalText available ++
      " allocatable registers"
  | ordered temp => "elimination order: " ++ temp.text
  | spilled temp neighbors colors registers =>
    decimalText colors ++ " colors needed with " ++ decimalText registers ++
      " registers, spilling " ++ temp.text ++ " (degree " ++ decimalText neighbors ++ ")"
  | allocated temps colors spills =>
    "allocated " ++ decimalText temps ++ " temporaries: " ++ decimalText colors ++ " color(s), " ++
      decimalText spills ++ " spill(s)"
  | lowered proc instrs frameBytes =>
    "lowered " ++ proc.text ++ ": " ++ decimalText instrs ++ " instruction(s), " ++
      integerText frameBytes.toInt ++ " byte frame"
  | failed report => report

/-- The event as a line of a log. -/
def line (e : Event) : String := e.severity.text ++ " " ++ e.message

/-- The events that matter at least as much as a severity. -/
def upTo (s : Severity) (events : List Event) : List Event :=
  events.filter fun e => e.severity.rank ≤ s.rank

end Event

/-! ## The events of the stages -/

/-- The events of reading a source text. -/
def Event.ofSource (text : String) : List Event :=
  (Token.scan text).tokens.toList.map fun tokens => .scanned tokens.length

namespace FlowGraph

/-- The events of cutting a procedure into blocks. -/
def events (g : FlowGraph) : List Event :=
  let reachable := g.reachable
  .cut g.name g.blocks.length g.edges.length ::
    (g.labels.filter fun l => !reachable.contains l).map (.unreachable g.name)

/-- The phis without arguments, with their blocks. -/
def emptyPhis (g : FlowGraph) : List (Temp × Label) :=
  g.blocks.flatMap fun b =>
    b.phis.filterMap fun i =>
      match i with
      | .phi dest args => if args.size = 0 then some (dest, b.label) else none
      | _ => none

end FlowGraph

namespace Liveness

/-- The events of finding live sets. -/
def events (live : Liveness) (proc : Global) : List Event := [.foundLive proc live.rounds]

end Liveness

namespace Conversion

/-- The events of a conversion to single assignment. -/
def events (c : Conversion) : List Event :=
  [.foundLive c.graph.name c.liveRounds, .converted c.graph.name c.phis c.names.versions]

end Conversion

namespace Minimization

/-- The events of the removal of redundant phis. -/
def events (m : Minimization) : List Event :=
  let proc := m.graph.name
  m.rounds.mapIdx (fun n r => .minimizedOnce proc (n + 1) r.nullChoices r.collapsed) ++
    m.graph.emptyPhis.map (fun (dest, block) => .emptyPhi proc dest block) ++
    [.minimized proc m.rounds.length m.nullChoices m.collapsed,
     .minimizationEnded proc m.rounds.length m.nullChoices m.collapsed]

end Minimization

namespace Sweep

/-- The events of a sweep; one that removes nothing is not counted. -/
def events (s : Sweep) (proc : Global) : List Event :=
  .foundLive proc s.liveRounds :: (if s.removed = 0 then [] else [.swept proc s.removed])

end Sweep

namespace OptimizerOptions

/-- The events of an optimization, if there was anything to do. -/
def events (o : OptimizerOptions) (proc : Global) (rounds : List OptimizerRound) : List Event :=
  if o.any then
    rounds.flatMap (fun sweeps => sweeps.flatMap fun s => s.events proc) ++
      [.optimized proc rounds.length]
  else []

end OptimizerOptions

namespace InterferenceGraph

/-- The events of building an interference graph. -/
def events (h : InterferenceGraph) (proc : Global) : List Event :=
  [.foundInterference proc h.size h.edgeCount]

end InterferenceGraph

namespace Attempt

/-- The events of one attempt to color. -/
def events (a : Attempt) (registers : Nat) : List Event :=
  a.order.map .ordered ++
    (a.spill.map fun (t, neighbors) => .spilled t neighbors a.colors registers).toList

end Attempt

namespace Allocation

/-- The events of an allocation for which so many registers were asked. -/
def events (a : Allocation) (registers : Nat) : List Event :=
  let available := Target.Register.palette.length
  (if available < registers then [.tooFewRegisters registers available] else []) ++
    a.attempts.flatMap (fun t => t.events (min registers available)) ++
    [.allocated a.assignment.locations.size a.assignment.colors.count a.assignment.spilled.length]

end Allocation

namespace Target.Function

/-- The events of lowering a procedure. -/
def events (f : Function) (proc : Global) : List Event :=
  [.lowered proc f.instrs.length f.frame.size]

end Target.Function

end ThreeAddress
