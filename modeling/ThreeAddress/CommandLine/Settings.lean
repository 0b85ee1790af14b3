import ThreeAddress.CommandLine.Path
import ThreeAddress.Compilation.Source
import ThreeAddress.Execution.Basic
/-!
# What the command is asked to do

* `Settings` : the wishes that the arguments of the command express;
* `Settings.output?` : the file that the result goes to;
* `Settings.produce` : the result for a source text.
-/

namespace ThreeAddress

namespace CommandLine

/-- What a compilation writes out. -/
inductive Emit where
  /-- The program as it was read. -/
  | tac
  /-- The code that registers are allocated for. -/
  | ssa
  /-- The homes of all temporaries. -/
  | alloc
  /-- The listing for an assembler. -/
  | asm
deriving DecidableEq, Inhabited

namespace Emit

/-- The name of the choice. -/
def name : Emit → String
  | tac => "tac"
  | ssa => "ssa"
  | alloc => "alloc"
  | asm => "asm"

/-- All choices. -/
def all : List Emit := [tac, ssa, alloc, asm]

/-- The choice with this name. -/
def ofName? (s : String) : Option Emit := all.find? fun e => e.name == s

end Emit

/-- The wishes that the arguments of the command express. -/
structure Settings where
  /-- The file of the source text. -/
  input : String
  /-- The file that was named for the result. -/
  target? : Option String
  emit : Emit
  /-- Run the program instead of compiling it. -/
  interpret : Bool
  options : CompileOptions
  /-- The least important events that are logged. -/
  level : Severity

namespace Settings

/-- The file that the result goes to; without one it is printed. A listing goes to a file beside the
source text, everything else is printed, and `-` asks for printing. -/
def output? (s : Settings) : Option String :=
  match s.target? with
  | some path => if path = "-" then none else some path
  | none => if s.emit = .asm && !s.interpret then some (Path.withExtension s.input "s") else none

end Settings

/-- Why the command has no result. -/
inductive Failure where
  /-- The text is not a program. -/
  | source (diagnostics : List Diagnostic)
  /-- Some procedures fail to compile. -/
  | procs (failures : List ProcFailure)
  /-- The program fails when it is run. -/
  | execution (failure : Execution.Failure)

namespace Failure

/-- The failure in words. -/
def message : Failure → String
  | source diagnostics => decimalText diagnostics.length ++ " syntax error(s)"
  | procs failures => decimalText failures.length ++ " procedure(s) failed to compile"
  | execution failure => "interpreter: " ++ failure.message

end Failure

namespace Settings

/-- The output of a run. -/
def interpreted (p : Program) : Except Failure String :=
  let ending := p.run Execution.defaultLimit
  match ending.result with
  | .ok _ => .ok ending.output
  | .error failure => .error (.execution failure)

/-- The chosen form of a compiled program. -/
def compiled (s : Settings) (p : Program) : Except Failure String :=
  match p.compile s.options with
  | .error failures => .error (.procs failures)
  | .ok c =>
    match s.emit with
    | .tac => .ok p.text
    | .ssa => .ok c.tac.text
    | .alloc => .ok c.allocationText
    | .asm => .ok c.listing

/-- The result for a program. -/
def produceFor (s : Settings) (p : Program) : Except Failure String :=
  if s.interpret then interpreted p
  else if s.emit = .tac then .ok p.text
  else s.compiled p

/-- The result for a source text. -/
def produce (s : Settings) (text : String) : Except Failure String := do
  let p ← (Program.parse text).mapError .source
  s.produceFor p

/-- The events that are worth logging for a source text. -/
def events (s : Settings) (text : String) : List Event :=
  let rest :=
    match Program.parse text with
    | .error _ => []
    | .ok p =>
      .read p.procs.length p.globals.length ::
        (if s.interpret || s.emit == .tac then [] else p.compileEvents s.options)
  Event.upTo s.level (Event.ofSource text ++ rest)

end Settings

end CommandLine

end ThreeAddress
