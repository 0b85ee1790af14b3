import ThreeAddress.FlowGraph.Basic
import ThreeAddress.Target.Legality
/-!
# Breaches of internal invariants

The compiler checks what its own stages are meant to guarantee. A `Breach` says which guarantee a
check found broken.
-/

namespace ThreeAddress

/-- A guarantee of the compiler that was found broken. -/
inductive Breach where
  /-- A temporary has a second definition. -/
  | repeatedDefinition (temp : Temp) (proc : Global)
  /-- The arguments of a phi do not match the edges into its block. -/
  | phiEdges (dest : Temp) (block : Label)
  /-- The live sets keep changing. -/
  | unstableLiveness (proc : Global) (rounds : Nat)
  /-- There are more colors than registers although everything is spilled. -/
  | tooManyColors (registers : Nat)
  /-- A temporary has no home. -/
  | homeless (temp : Temp) (proc : Global)
  /-- A register has no slot to be saved in. -/
  | noSaveSlot (register : Target.Register) (proc : Global)
  /-- An instruction of the target machine is illegal. -/
  | illegalInstr (function : String) (index : Nat) (instr : Target.Instr) (reason : Target.Illegality)
deriving DecidableEq

namespace Breach

/-- The breach in words. -/
def message : Breach → String
  | repeatedDefinition temp proc => temp.text ++ " is defined more than once in " ++ proc.text
  | phiEdges dest block =>
    "phi for " ++ dest.text ++ " in " ++ block.text ++ " does not match the predecessors of its block"
  | unstableLiveness proc rounds =>
    "liveness of " ++ proc.text ++ " did not converge after " ++ decimalText rounds ++ " rounds"
  | tooManyColors registers =>
    "spilling did not bring the coloring within " ++ decimalText registers ++ " register(s)"
  | homeless temp proc => temp.text ++ " has no location in " ++ proc.text
  | noSaveSlot register proc => "no save slot for " ++ register.text ++ " in " ++ proc.text
  | illegalInstr function index instr reason =>
    function ++ ": `" ++ instr.text ++ "` (#" ++ decimalText index ++ ") " ++ reason.message

/-- The stable short code of every breach. -/
def code (_ : Breach) : String := "E199"

/-- The report of the breach. -/
def text (b : Breach) : String := "internal invariant violated: " ++ b.message

end Breach

end ThreeAddress
