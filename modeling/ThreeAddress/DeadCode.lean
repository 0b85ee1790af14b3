import ThreeAddress.Liveness
/-!
# Dead code

An instruction without any effect but writing a temporary that is not live afterwards is dead, and
so is one that does nothing. Removing dead code can make more code dead, so sweeps are made until
one removes nothing.

* `Instr.isDead` : is an instruction dead, given what is live after it?
* `FlowGraph.sweep` : one removal of everything that is dead;
* `FlowGraph.removeDeadCode` : all sweeps.
-/

namespace ThreeAddress

namespace Instr

/-- Does the instruction do nothing whatever? -/
def isIdle : Instr → Bool
  | nop => true
  | copy dest src => dest == src
  | _ => false

/-- Is the instruction dead, given what is live after it? Divisions, calls, arguments, prints and
transfers never are, nor are writes to global variables. -/
def isDead (i : Instr) (after : SortedSet Temp) : Bool :=
  i.isIdle ||
    (i.isPure &&
      match i.def? with
      | some t => !after.contains t
      | none =>
        match i.dest? with
        | some (.global _) => false
        | _ => true)

end Instr

/-- What one sweep did. -/
structure Sweep where
  /-- The rounds that the live sets took. -/
  liveRounds : Nat
  /-- The number of instructions removed. -/
  removed : Nat
deriving DecidableEq

namespace FlowGraph

/-- Remove everything that is dead. -/
def sweep (live : Liveness) (g : FlowGraph) : FlowGraph :=
  g.mapBodies fun b =>
    ((b.body.zip (live.instrs b.label)).filter fun (i, point) => !i.isDead point.after).map Prod.fst

/-- Sweeps until one removes nothing. -/
def sweeps (g : FlowGraph) : (left : Nat) → Except Breach (FlowGraph × List Sweep)
  | 0 => .ok (g, [])
  | left + 1 => do
    let live ← g.liveness
    let next := g.sweep live
    let removed := g.code.length - next.code.length
    if removed = 0 then return (next, [⟨live.rounds, 0⟩])
    else
      let (last, more) ← next.sweeps left
      return (last, ⟨live.rounds, removed⟩ :: more)

/-- Remove dead code. Every sweep but the last removes an instruction, so one sweep more than there
are instructions is enough. -/
def removeDeadCode (g : FlowGraph) : Except Breach (FlowGraph × List Sweep) :=
  g.sweeps (g.code.length + 1)

end FlowGraph

end ThreeAddress
