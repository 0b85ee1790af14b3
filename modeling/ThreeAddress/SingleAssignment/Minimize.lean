import ThreeAddress.FlowGraph.Basic
/-!
# Removal of redundant phis

A phi all of whose arguments are its own destination chooses nothing and is dropped. A phi with
one source besides its own destination is a copy of that source, and the copy is undone by writing
the source wherever the destination is read. Rounds of both are made until one finds nothing.

* `FlowGraph.dropNullChoices`, `FlowGraph.collapse`, `FlowGraph.undoCopies` : the parts of a round;
* `FlowGraph.minimize` : all rounds.
-/

namespace ThreeAddress

namespace Instr

/-- Is this a phi that can only choose its own destination? -/
def isNullChoice : Instr → Bool
  | phi dest args => !args.values.isEmpty && args.values.all (· == dest)
  | _ => false

/-- The only source of a phi besides its own destination, with the destination. -/
def singleSource? : Instr → Option (Temp × Temp)
  | phi dest args =>
    match (SortedSet.ofList (args.values.filter (· != dest))).toList with
    | [src] => some (dest, src)
    | _ => none
  | _ => none

end Instr

namespace Block

/-- Turn the phis at the head that have a single source into copies behind the others. -/
def collapse (b : Block) : List Instr :=
  b.phis.filter (fun i => i.singleSource?.isNone) ++
    b.phis.filterMap (fun i => i.singleSource?.map fun (dest, src) => .copy (.temp dest) (.temp src)) ++
      b.code

end Block

/-- Take the first copy to a temporary out of some instructions, with the source if that is a
temporary. -/
def takeCopy (dest : Temp) : List Instr → Option (Option Temp × List Instr)
  | [] => none
  | i :: rest =>
    match i with
    | .copy d src =>
      if d = .temp dest then some (src.temp?, rest)
      else (takeCopy dest rest).map fun (src, rest) => (src, i :: rest)
    | _ => (takeCopy dest rest).map fun (src, rest) => (src, i :: rest)

namespace FlowGraph

/-- Drop the phis that choose nothing. -/
def dropNullChoices (g : FlowGraph) : FlowGraph :=
  g.mapBodies fun b => b.body.filter fun i => !i.isNullChoice

/-- Turn the phis that have a single source into copies. -/
def collapse (g : FlowGraph) : FlowGraph := g.mapBodies Block.collapse

/-- The destinations of the phis that have a single source, with their blocks. -/
def collapsible (g : FlowGraph) : List (Label × Temp) :=
  g.blocks.flatMap fun b =>
    b.phis.filterMap fun i => i.singleSource?.map fun (dest, _) => (b.label, dest)

/-- Read another temporary wherever one is read. -/
def substitute (g : FlowGraph) (src dest : Temp) : FlowGraph :=
  g.mapInstrs (Instr.mapReads fun t => if t = src then dest else t)

/-- Remove a copy to a temporary from a block and read its source instead. -/
def undoCopy (g : FlowGraph) (l : Label) (dest : Temp) : FlowGraph :=
  match (g.block? l).bind fun b => takeCopy dest b.body with
  | none => g
  | some (src?, body) =>
    let g := g.mapBodies fun b => if b.label = l then body else b.body
    match src? with
    | none => g
    | some src => if src = dest then g else g.substitute dest src

/-- Undo copies, one after the other. -/
def undoCopies (g : FlowGraph) (copies : List (Label × Temp)) : FlowGraph :=
  copies.foldl (fun g (l, dest) => g.undoCopy l dest) g

/-- The number of phis. -/
def phiCount (g : FlowGraph) : Nat := g.code.countP Instr.isPhi

end FlowGraph

/-- What one round removed. -/
structure MinimizeRound where
  nullChoices : Nat
  collapsed : Nat
deriving DecidableEq

/-- What minimization gives. -/
structure Minimization where
  graph : FlowGraph
  rounds : List MinimizeRound

namespace Minimization

/-- The number of phis that chose nothing. -/
def nullChoices (m : Minimization) : Nat := m.rounds.foldl (fun n r => n + r.nullChoices) 0

/-- The number of phis that had a single source. -/
def collapsed (m : Minimization) : Nat := m.rounds.foldl (fun n r => n + r.collapsed) 0

end Minimization

namespace FlowGraph

/-- One round. -/
def minimizeRound (g : FlowGraph) : FlowGraph × MinimizeRound :=
  let dropped := g.dropNullChoices
  let copies := dropped.collapsible
  (dropped.collapse.undoCopies copies, ⟨g.code.length - dropped.code.length, copies.length⟩)

/-- Rounds until one removes nothing. -/
def minimizeRounds (g : FlowGraph) : (left : Nat) → Minimization
  | 0 => ⟨g, []⟩
  | left + 1 =>
    let (next, round) := g.minimizeRound
    if round.nullChoices = 0 ∧ round.collapsed = 0 then ⟨next, [round]⟩
    else
      let m := next.minimizeRounds left
      { m with rounds := round :: m.rounds }

/-- Remove the redundant phis. Every round but the last removes one, so one round more than there
are phis is enough. -/
def minimize (g : FlowGraph) : Minimization := g.minimizeRounds (g.phiCount + 1)

end FlowGraph

end ThreeAddress
