import ThreeAddress.CommandLine.Arguments
import ThreeAddress.Source.Report
/-!
# Sessions of the command

A session reads the arguments and the source text, produces the result and writes it. What it needs
of its surroundings is a `Host`, so that a session can be run anywhere, in pure code too.

* `Host` : files and the two streams of output;
* `session` : a whole session, with its exit code.
-/

namespace ThreeAddress

namespace CommandLine

/-- The surroundings of a session. -/
structure Host (m : Type → Type) where
  /-- Read a file, or say why that fails. -/
  read : (path : String) → m (Except String String)
  /-- Write a file, or say why that fails. -/
  write : (path text : String) → m (Except String Unit)
  /-- Print to the standard output. -/
  print : String → m Unit
  /-- Print to the standard error output. -/
  complain : String → m Unit
  /-- Take note of an event. -/
  note : Event → m Unit

/-! ## Texts -/

/-- The name and the version of the command. -/
def versionText : String := "tacc 0.1.0\n"

/-- How the command is used. -/
def usageText : String := "Usage: tacc <INPUT> [-o OUTPUT] [--emit tac|ssa|alloc|asm]"

/-- A line that says what went wrong. -/
def errorText (message : String) : String := "error: " ++ message ++ "\n"

/-- What is said when the source text cannot be read. -/
def unreadableText (path reason : String) : String :=
  errorText ("Error reading file '" ++ path ++ "': " ++ reason ++ "\n\n" ++ usageText)

/-- What is said when the result cannot be written. -/
def unwritableText (path reason : String) : String :=
  errorText ("cannot write " ++ path ++ ": " ++ reason)

/-- The report of a diagnostic, with its place in the file. -/
def diagnosticText (path source : String) (d : Diagnostic) : String :=
  let (line, column) := position d.span.start source.toList
  d.report source ++ "  --> " ++ path ++ ":" ++ decimalText line ++ ":" ++ decimalText column ++ "\n"

/-- What is said when there is no result. -/
def failureText (path source : String) : Failure → String
  | .source diagnostics =>
    String.join (diagnostics.map (diagnosticText path source)) ++
      errorText (decimalText diagnostics.length ++ " error(s) in " ++ path)
  | .procs failures =>
    String.join (failures.map fun f => errorText (path ++ ": " ++ f.text)) ++
      (Failure.procs failures).message ++ "\n"
  | failure => errorText failure.message

/-! ## Sessions -/

variable {m : Type → Type} [Monad m]

/-- Write the result where it belongs. -/
def deliver (host : Host m) (s : Settings) (text : String) : m UInt32 := do
  match s.output? with
  | none =>
    host.print text
    return 0
  | some path =>
    match ← host.write path text with
    | .ok () => return 0
    | .error reason =>
      host.complain (unwritableText path reason)
      return 1

/-- Produce the result for a source text. -/
def process (host : Host m) (s : Settings) (source : String) : m UInt32 := do
  (s.events source).forM host.note
  match s.produce source with
  | .ok text => deliver host s text
  | .error failure =>
    host.complain (failureText s.input source failure)
    return 1

/-- A session with the given arguments. -/
def session (host : Host m) (args : List String) : m UInt32 := do
  match Settings.ofArguments args with
  | .error .help =>
    host.print (usageText ++ "\n")
    return 0
  | .error .version =>
    host.print versionText
    return 0
  | .error (.usage e) =>
    host.complain (errorText (e.message ++ "\n\n" ++ usageText))
    return 2
  | .ok s =>
    match ← host.read s.input with
    | .ok source => process host s source
    | .error reason =>
      host.complain (unreadableText s.input reason)
      return 1

end CommandLine

end ThreeAddress
