import ThreeAddress.Target.Frame
import ThreeAddress.Target.Instr
/-!
# Assembly listings

* `Function`, `Assembly` : the functions of a program and its data;
* `Assembly.listing` : the text for an assembler.
-/

namespace ThreeAddress

namespace Target

/-- A function. -/
structure Function where
  name : String
  frame : Frame
  instrs : List Instr
deriving DecidableEq, Inhabited

/-- A symbol of the data section with its initial value. -/
structure Datum where
  name : String
  value : Word
deriving DecidableEq, Inhabited

/-- A whole program. -/
structure Assembly where
  data : List Datum
  functions : List Function
deriving DecidableEq, Inhabited

namespace Instr

/-- One line of a listing: labels stand at the margin, all else is indented. -/
def line (i : Instr) : String :=
  match i with
  | label _ => i.text ++ "\n"
  | _ => "\t" ++ i.text ++ "\n"

end Instr

/-- The lines that make a symbol visible and define it. -/
def symbolLines (name : String) : String := "\t.globl " ++ name ++ "\n" ++ name ++ ":\n"

namespace Datum

/-- The lines of a symbol of the data section. -/
def listing (d : Datum) : String := symbolLines d.name ++ "\t.quad " ++ wordText d.value ++ "\n"

end Datum

namespace Function

/-- The lines of a function. -/
def listing (f : Function) : String :=
  "\n" ++ symbolLines f.name ++ String.join (f.instrs.map Instr.line)

end Function

namespace Assembly

/-- The text for an assembler. The data section is left out if there is no data. -/
def listing (a : Assembly) : String :=
  let data :=
    if a.data.isEmpty then "" else "\n\t.data\n" ++ String.join (a.data.map Datum.listing)
  "\t.intel_syntax noprefix\n" ++ data ++ "\n\t.text\n" ++
    String.join (a.functions.map Function.listing)

end Assembly

end Target

end ThreeAddress
