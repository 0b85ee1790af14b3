import ThreeAddress.FlowGraph.Basic
/-!
# Copy propagation

A read of a temporary that is a copy of another becomes a read of the other. The copies stay; once
nothing reads them they are dead code.

Within a block a copy holds until either side is defined again. In single-assignment form a copy
both of whose sides have at most one definition holds everywhere.

* `resolve` : follows copies to their source;
* `propagateBody` : propagation within a block;
* `FlowGraph.propagateLocally`, `FlowGraph.propagateGlobally` : propagation in a procedure.
-/

namespace ThreeAddress

/-- The source of each temporary that is a copy. -/
abbrev Copies := SortedMap Temp Temp

/-- Follow copies for a number of steps, as long as they lead to another temporary. -/
def Copies.follow (copies : Copies) : (steps : Nat) → Temp → Temp
  | 0, t => t
  | steps + 1, t =>
    match SortedMap.get? copies t with
    | some src => if src = t then t else Copies.follow copies steps src
    | none => t

/-- The source that a temporary is a copy of, in the end. Copies may form a cycle, so no more
steps are taken than there are copies, and one. -/
def Copies.resolve (copies : Copies) (t : Temp) : Temp :=
  copies.follow (SortedMap.size copies + 1) t

namespace Instr

/-- The two sides of a copy between different temporaries. -/
def tempCopy? : Instr → Option (Temp × Temp)
  | copy dest src =>
    match dest.named?, src.named? with
    | some d, some s => if d = s then none else some (d, s)
    | _, _ => none
  | _ => none

end Instr

/-- The copies that hold behind an instruction, from those that hold in front of it. -/
def Copies.after (copies : Copies) (i : Instr) : Copies :=
  let kept : Copies :=
    match i.def? with
    | some d => (SortedMap.erase copies d).filter fun _ src => src != d
    | none => copies
  match i.tempCopy? with
  | some (d, s) => SortedMap.insert kept d s
  | none => kept

/-- Propagate copies through the instructions of a block. -/
def propagateBody (copies : Copies) : List Instr → List Instr
  | [] => []
  | i :: rest =>
    let i := i.mapUses copies.resolve
    i :: propagateBody (copies.after i) rest

namespace FlowGraph

/-- Propagate copies within each block. -/
def propagateLocally (g : FlowGraph) : FlowGraph := g.mapBodies fun b => propagateBody ∅ b.body

/-- Does a temporary have at most one definition, that of a parameter included? -/
def definedOnce (g : FlowGraph) (t : Temp) : Bool := (g.params ++ g.defs).count t ≤ 1

/-- The copies that hold everywhere in a procedure in single-assignment form. -/
def copies (g : FlowGraph) : Copies :=
  .ofList ((g.code.filterMap Instr.tempCopy?).filter fun (d, s) => g.definedOnce d && g.definedOnce s)

/-- Propagate copies through the whole procedure, the arguments of phis included. -/
def propagateGlobally (g : FlowGraph) : FlowGraph :=
  let copies := g.copies
  g.mapInstrs (Instr.mapReads copies.resolve)

/-- Propagate copies, through the whole procedure if it is in single-assignment form. -/
def propagateCopies (singleAssignment : Bool) (g : FlowGraph) : FlowGraph :=
  if singleAssignment then g.propagateGlobally else g.propagateLocally

end FlowGraph

end ThreeAddress
