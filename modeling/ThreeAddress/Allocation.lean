import ThreeAddress.Breach
import ThreeAddress.Interference.Coloring
/-!
# Allocation

Every temporary gets a register or, when there are too few of them, a slot of the frame. The graph
is colored; as long as that takes more colors than there are registers, the node with most neighbors
is spilled to a slot of its own and the rest is colored anew.

* `Assignment` : where each temporary lives;
* `InterferenceGraph.allocate` : the assignment, with the attempts that led to it.
-/

namespace ThreeAddress

open Target

/-- Where each temporary lives. -/
structure Assignment where
  locations : SortedMap Temp Location
  /-- The colors of the temporaries that live in registers. -/
  colors : Coloring
  /-- The temporaries that live in the frame, by slot. -/
  spilled : List Temp
deriving DecidableEq

namespace Assignment

/-- Put the colored temporaries into registers and the spilled ones into slots. -/
def ofColoring (colors : Coloring) (spilled : List Temp) : Assignment :=
  { locations := spilled.zipIdx.foldl (fun m (t, n) => m.insert t (.slot n))
      (SortedMap.map (fun _ c => .register (.ofColor c)) colors)
    colors
    spilled }

/-- The registers in use. -/
def registers (a : Assignment) : SortedSet Register :=
  .ofList (a.locations.values.filterMap Location.register?)

/-- The registers in use that a procedure has to give back as they were. -/
def calleeSaved (a : Assignment) : List Register :=
  a.registers.toList.filter Register.isCalleeSaved

/-- The written form, a line for every temporary. -/
def text (a : Assignment) : String :=
  String.join (a.locations.toList.map fun (t, l) => "  " ++ t.text ++ " -> " ++ l.text ++ "\n")

end Assignment

/-- One attempt to color what is not spilled yet. -/
structure Attempt where
  /-- The order of the coloring. -/
  order : List Temp
  /-- The number of colors it took. -/
  colors : Nat
  /-- The node spilled because there were too many colors, with its number of neighbors. -/
  spill : Option (Temp × Nat)
deriving DecidableEq

/-- An assignment and the attempts that led to it. -/
structure Allocation where
  assignment : Assignment
  attempts : List Attempt

namespace InterferenceGraph

/-- Color the graph and spill nodes until there are enough registers. -/
def spillUntil (registers : Nat) : (left : Nat) → InterferenceGraph → (spilled : List Temp) →
    Except Breach Allocation
  | 0, _, _ => .error (.tooManyColors registers)
  | left + 1, g, spilled =>
    let order := g.cardinalityOrder
    let colors := g.color order
    if colors.count ≤ registers then
      .ok ⟨.ofColoring colors spilled, [⟨order, colors.count, none⟩]⟩
    else
      match g.busiest? with
      | none => .error (.tooManyColors registers)
      | some t => do
        let allocation ← spillUntil registers left (g.removeNode t) (spilled ++ [t])
        return { allocation with
          attempts := ⟨order, colors.count, some (t, g.degree t)⟩ :: allocation.attempts }

/-- Allocate registers of the palette, no more than so many. Every attempt but the last spills a
node, so one attempt more than there are nodes is enough. -/
def allocate (g : InterferenceGraph) (registers : Nat) : Except Breach Allocation :=
  g.spillUntil (min registers Register.palette.length) (g.size + 1) []

end InterferenceGraph

end ThreeAddress
