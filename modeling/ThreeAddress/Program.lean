import ThreeAddress.Instr.Basic
/-!
# Programs

A `Program` declares global variables with their initial values and procedures with their
parameters and bodies.

* `Program.proc?`, `Program.global?` : look-up by name;
* `Program.text`, `Proc.text` : the written form, one declaration or instruction a line.
-/

namespace ThreeAddress

/-- The procedure that prints a word, which every program may call. -/
def Global.printWord : Global := ⟨"__bx_print_int"⟩

/-- The procedure that prints a truth value, which every program may call. -/
def Global.printTruth : Global := ⟨"__bx_print_bool"⟩

/-- A variable in memory with its initial value. -/
structure GlobalVar where
  name : Global
  value : Word
deriving DecidableEq, Inhabited

/-- A procedure. -/
structure Proc where
  name : Global
  params : List Temp
  body : List Instr
deriving DecidableEq, Inhabited

namespace Proc

/-- The labels that the body defines, in order. -/
def labels (p : Proc) : List Label :=
  p.body.filterMap fun i =>
    match i with
    | .label l => some l
    | _ => none

/-- One line of a body: labels stand at the margin, all else is indented. -/
def line (i : Instr) : String :=
  match i with
  | .label l => l.text ++ ":\n"
  | i => "  " ++ i.text ++ "\n"

/-- The written form. -/
def text (p : Proc) : String :=
  "proc " ++ p.name.text ++ "(" ++ ", ".intercalate (p.params.map Temp.text) ++ "):\n" ++
    String.join (p.body.map line)

end Proc

/-- A whole program. -/
structure Program where
  globals : List GlobalVar
  procs : List Proc
deriving DecidableEq, Inhabited

namespace Program

/-- The procedure with this name. -/
def proc? (p : Program) (name : Global) : Option Proc := p.procs.find? fun q => q.name == name

/-- The global variable with this name. -/
def global? (p : Program) (name : Global) : Option GlobalVar :=
  p.globals.find? fun g => g.name == name

/-- The written form: the variables, then the procedures. -/
def text (p : Program) : String :=
  String.join (p.globals.map fun g => "var " ++ g.name.text ++ " = " ++ wordText g.value ++ ";\n") ++
    String.join (p.procs.map Proc.text)

end Program

end ThreeAddress
