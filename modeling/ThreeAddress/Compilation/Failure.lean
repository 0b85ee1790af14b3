import ThreeAddress.Breach
import ThreeAddress.FlowGraph.Build
/-!
# Why a procedure fails to compile

* `Fault` : what is wrong;
* `ProcFailure` : what is wrong with which procedure, and with which of its instructions.
-/

namespace ThreeAddress

/-- What is wrong with a procedure. -/
inductive Fault where
  /-- It is not closed. -/
  | label (e : LabelError)
  /-- The compiler itself went wrong. -/
  | breach (b : Breach)
deriving DecidableEq

namespace Fault

/-- The stable short code. -/
def code : Fault → String
  | label e => e.code
  | breach b => b.code

/-- The fault in words. -/
def message : Fault → String
  | label e => e.message
  | breach b => b.text

end Fault

/-- Does the instruction name a label, as a target or as the origin of an argument? -/
def Instr.mentions (l : Label) (i : Instr) : Bool := (i.target?.toList ++ i.phiBlocks).contains l

/-- The instruction that a fault is about: the first that names an undefined label, the second that
defines a repeated one. -/
def Fault.instr? (body : List Instr) : Fault → Option Instr
  | .label (.undefined l) => body.find? (Instr.mentions l)
  | .label (.repeated l) => (body.filter (· == .label l))[1]?
  | .breach _ => none

/-- The failure of a procedure. -/
structure ProcFailure where
  proc : Global
  /-- The instruction that the fault is about, if there is one. -/
  instr : Option Instr
  fault : Fault
deriving DecidableEq

namespace ProcFailure

/-- The failure of a procedure with a fault. -/
def ofFault (p : Proc) (fault : Fault) : ProcFailure := ⟨p.name, fault.instr? p.body, fault⟩

/-- The report of the failure. -/
def text (f : ProcFailure) : String :=
  "[" ++ f.fault.code ++ "] in " ++ f.proc.text ++
    (match f.instr with
     | some i => " at `" ++ i.text ++ "`"
     | none => "") ++
    ": " ++ f.fault.message

end ProcFailure

end ThreeAddress
