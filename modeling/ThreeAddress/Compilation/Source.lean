import ThreeAddress.Compilation.Basic
import ThreeAddress.Source.Diagnostic
/-!
# From source text to a listing

* `compileSource` : the listing of a source text;
* `CompileError` : why there is none.
-/

namespace ThreeAddress

/-- Why a source text has no listing. -/
inductive CompileError where
  /-- The text is not a program. -/
  | source (diagnostics : List Diagnostic)
  /-- Some procedures fail to compile. -/
  | procs (failures : List ProcFailure)

namespace CompileError

/-- The error in words. -/
def message : CompileError → String
  | source diagnostics => decimalText diagnostics.length ++ " error(s) in TAC source"
  | procs failures => decimalText failures.length ++ " procedure(s) failed to compile"

end CompileError

/-- Compile a source text to a listing. -/
def compileSource (o : CompileOptions) (text : String) : Except CompileError String := do
  let p ← (Program.parse text).mapError .source
  let c ← (p.compile o).mapError .procs
  return c.listing

end ThreeAddress
