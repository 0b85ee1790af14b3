import ThreeAddress.Breach
/-!
# Liveness

A temporary is live at a point of a procedure if some path from there reads it before defining it.
The phis at the head of a block define their destinations together, and each reads its argument at
the end of the block that control comes from.

The live sets are found by going through the blocks from last to first, round after round, until
a round changes nothing.

* `liveBefore` : the live set before an instruction, from the one after it;
* `Block.liveness` : the live sets within a block, from the one after it;
* `FlowGraph.liveness` : the live sets of a whole procedure.
-/

namespace ThreeAddress

/-- The live sets on both sides of an instruction. -/
structure InstrLive where
  before : SortedSet Temp
  after : SortedSet Temp
deriving DecidableEq, Inhabited

/-- The live sets on both sides of a block and of each of its instructions. -/
structure BlockLive where
  before : SortedSet Temp
  after : SortedSet Temp
  instrs : List InstrLive
deriving DecidableEq, Inhabited

namespace BlockLive

/-- Nothing is live, and nothing is known of the instructions. -/
def unknown : BlockLive := ⟨∅, ∅, []⟩

end BlockLive

/-- The live sets of a procedure. -/
structure Liveness where
  blocks : SortedMap Label BlockLive
  /-- What has to have a value when the procedure is entered. -/
  atEntry : SortedSet Temp
  /-- How many rounds it took to find the sets. -/
  rounds : Nat

/-! ## Within a block -/

/-- What is live before an instruction: what it reads, and what is live after it and not defined
by it. -/
def liveBefore (i : Instr) (after : SortedSet Temp) : SortedSet Temp :=
  i.uses.foldl SortedSet.insert (i.def?.toList.foldl SortedSet.erase after)

/-- What is live before and after each of some instructions, and before all of them. -/
def liveThrough (after : SortedSet Temp) : List Instr → List InstrLive × SortedSet Temp
  | [] => ([], after)
  | i :: rest =>
    let (points, after) := liveThrough after rest
    let before := liveBefore i after
    (⟨before, after⟩ :: points, before)

namespace Block

/-- The arguments that the phis at the head of a block read when control comes from another. -/
def phiArgsFrom (b : Block) (origin : Origin) : List Temp :=
  b.phis.filterMap fun i =>
    match i with
    | .phi _ args => args.get? origin
    | _ => none

/-- The live sets within a block. -/
def liveness (b : Block) (after : SortedSet Temp) : BlockLive :=
  let (points, behindPhis) := liveThrough after b.code
  let before := (b.phis.filterMap Instr.def?).foldl SortedSet.erase behindPhis
  ⟨before, after, b.phis.map (fun _ => ⟨before, behindPhis⟩) ++ points⟩

end Block

/-! ## Across blocks -/

/-- Live sets of blocks, as far as they are known. -/
abbrev LiveTable := SortedMap Label BlockLive

namespace LiveTable

/-- What is live before a block. -/
def before (table : LiveTable) (l : Label) : SortedSet Temp :=
  match table.get? l with
  | some live => live.before
  | none => ∅

end LiveTable

namespace FlowGraph

/-- What is live after a block, from what is live before its successors and read by their phis. -/
def liveAfter (g : FlowGraph) (table : LiveTable) (l : Label) (succs : List Label) :
    SortedSet Temp :=
  succs.foldl
    (fun live next =>
      let live := live.union (LiveTable.before table next)
      match g.block? next with
      | some b => (b.phiArgsFrom (.block l)).foldl SortedSet.insert live
      | none => live)
    ∅

/-- One round through all blocks, from the last to the first. -/
def liveRound (g : FlowGraph) (table : LiveTable) : LiveTable :=
  (withSuccs g.blocks).foldr
    (fun (b, succs) table => table.insert b.label (b.liveness (g.liveAfter table b.label succs)))
    table

/-- Rounds until one changes nothing, with the number of rounds. -/
def liveRounds (g : FlowGraph) : (left : Nat) → (rounds : Nat) → LiveTable → Option (LiveTable × Nat)
  | 0, _, _ => none
  | left + 1, rounds, table =>
    let next := g.liveRound table
    if next = table then some (next, rounds + 1) else g.liveRounds left (rounds + 1) next

/-- A number of rounds that is enough: each round but the first and the last adds a temporary to
the live set of a block. -/
def liveBound (g : FlowGraph) : Nat := g.blocks.length * (g.temps.size + 1) + 2

/-- What has to have a value when the procedure is entered: what is live before the first block and
what its phis read on entry. -/
def liveAtEntry (g : FlowGraph) (table : LiveTable) : SortedSet Temp :=
  match g.blocks with
  | [] => ∅
  | first :: _ =>
    (first.phiArgsFrom .entry).foldl SortedSet.insert (LiveTable.before table first.label)

/-- The live sets of a procedure. -/
def liveness (g : FlowGraph) : Except Breach Liveness :=
  match g.liveRounds g.liveBound 0 (.ofList (g.labels.map fun l => (l, .unknown))) with
  | some (table, rounds) => .ok ⟨table, g.liveAtEntry table, rounds⟩
  | none => .error (.unstableLiveness g.name g.liveBound)

end FlowGraph

namespace Liveness

/-- What is live before a block. -/
def before (live : Liveness) (l : Label) : SortedSet Temp := LiveTable.before live.blocks l

/-- The live sets around the instructions of a block. -/
def instrs (live : Liveness) (l : Label) : List InstrLive :=
  match live.blocks.get? l with
  | some b => b.instrs
  | none => []

end Liveness

end ThreeAddress
