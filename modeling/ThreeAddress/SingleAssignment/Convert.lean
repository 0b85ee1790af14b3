import ThreeAddress.FreshNames
import ThreeAddress.Liveness
/-!
# Conversion to single assignment

Every block gets a phi for every temporary that is live before it. Within a block, every
definition gets a fresh version, and every read of a temporary becomes a read of the version that
was last defined in the block. The argument of a phi for an edge is the last version in the block
that the edge comes from.

The phis are more than needed; `ThreeAddress.SingleAssignment.Minimize` removes the others.

* `renameBody` : fresh versions within a block;
* `FlowGraph.convert` : the conversion of a procedure.
-/

namespace ThreeAddress

/-- The versions that temporaries have at a place of a block. -/
abbrev Versions := SortedMap Temp Temp

/-- The version of a temporary, or the temporary itself if it has none yet. -/
def Versions.current (vs : Versions) (t : Temp) : Temp := (SortedMap.get? vs t).getD t

/-- Give every definition of some instructions a fresh version and rename the reads. -/
def renameBody (vs : Versions) (names : FreshNames) :
    List Instr → List Instr × Versions × FreshNames
  | [] => ([], vs, names)
  | i :: rest =>
    let i := i.mapUses vs.current
    match i.def? with
    | none =>
      let (body, vs, names) := renameBody vs names rest
      (i :: body, vs, names)
    | some t =>
      let (new, names) := names.version t
      let (body, vs, names) := renameBody (SortedMap.insert vs t new) names rest
      (i.setDef new :: body, vs, names)

/-- Give some temporaries fresh versions. -/
def renameAll (vs : Versions) (names : FreshNames) :
    List Temp → List Temp × Versions × FreshNames
  | [] => ([], vs, names)
  | t :: rest =>
    let (new, names) := names.version t
    let (news, vs, names) := renameAll (SortedMap.insert vs t new) names rest
    (new :: news, vs, names)

/-- A block whose definitions have fresh versions. -/
structure RenamedBlock where
  label : Label
  named : Bool
  /-- The temporaries that are live before the block, each with the version its phi defines. -/
  phis : List (Temp × Temp)
  /-- The renamed instructions. -/
  body : List Instr
  /-- The versions at the end of the block. -/
  last : Versions

/-- Rename blocks, one after the other. -/
def renameBlocks (live : Liveness) (names : FreshNames) :
    List Block → List RenamedBlock × FreshNames
  | [] => ([], names)
  | b :: rest =>
    let roots := (live.before b.label).toList
    let (dests, vs, names) := renameAll ∅ names roots
    let (body, last, names) := renameBody vs names b.body
    let (blocks, names) := renameBlocks live names rest
    (⟨b.label, b.named, roots.zip dests, body, last⟩ :: blocks, names)

/-- The version of a temporary at the end of a block. -/
def lastVersion? (blocks : List RenamedBlock) (l : Label) (t : Temp) : Option Temp :=
  (blocks.find? fun b => b.label == l).bind fun b => b.last.get? t

/-- What a conversion gives. -/
structure Conversion where
  graph : FlowGraph
  names : FreshNames
  /-- The number of phis. -/
  phis : Nat
  /-- The rounds that the live sets took. -/
  liveRounds : Nat

namespace FlowGraph

/-- The arguments of the phi of a temporary: its last version for each edge, and the parameter
itself for the entry. -/
def phiArgs (g : FlowGraph) (blocks : List RenamedBlock) (l : Label) (root : Temp) :
    SortedMap Origin Temp :=
  let onEdges := (g.preds l).filterMap fun p =>
    (lastVersion? blocks p root).map fun t => (Origin.block p, t)
  let onEntry := if g.entry? = some l ∧ root ∈ g.params then [(Origin.entry, root)] else []
  .ofList (onEdges ++ onEntry)

/-- Convert a procedure to single assignment. -/
def convert (g : FlowGraph) (names : FreshNames) : Except Breach Conversion := do
  let live ← g.liveness
  let (renamed, names) := renameBlocks live names g.blocks
  let blocks := renamed.map fun b =>
    (⟨b.label, b.named,
      b.phis.map (fun (root, dest) => .phi dest (g.phiArgs renamed b.label root)) ++ b.body⟩ : Block)
  return ⟨{ g with blocks }, names, (renamed.flatMap RenamedBlock.phis).length, live.rounds⟩

end FlowGraph

end ThreeAddress
