import ThreeAddress.CommandLine.Session
/-!
# The command

Runs a session on the files and streams of the machine.
-/

namespace ThreeAddress

namespace CommandLine

/-- The reason that the machine gives for a failure. -/
def reason : IO.Error → String
  | .noFileOrDirectory _ code details | .permissionDenied _ code details
  | .inappropriateType _ code details | .resourceExhausted _ code details =>
    details ++ " (os error " ++ toString code ++ ")"
  | .otherError code details => details ++ " (os error " ++ toString code ++ ")"
  | e => toString e

/-- Run an action, and give the reason if it fails. -/
def attempt {α : Type} (action : IO α) : IO (Except String α) := do
  try
    return .ok (← action)
  catch e => return .error (reason e)

/-- The files and streams of the machine. -/
def machine : Host IO where
  read path := attempt (IO.FS.readFile path)
  write path text := attempt (IO.FS.writeFile path text)
  print := IO.print
  complain := IO.eprint
  note e := IO.eprintln e.line

end CommandLine

end ThreeAddress

/-- Run a session with the arguments of the command. -/
def main (args : List String) : IO UInt32 :=
  ThreeAddress.CommandLine.session ThreeAddress.CommandLine.machine args
