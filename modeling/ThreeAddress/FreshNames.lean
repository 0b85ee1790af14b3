import ThreeAddress.Search
import ThreeAddress.Name
/-!
# Fresh names

A `FreshNames` belongs to one procedure and gives out labels and versions of temporaries that the
procedure does not use. Its counters only move forward. They are numbers without a bound; a text has
versions of 32 bits, and `Program.fits_of_compile` says which programs get no others.

* `FreshNames.avoiding`, `FreshNames.avoidingTemps` : the names to avoid;
* `FreshNames.label` : a label `.L_bb0`, `.L_bb1`, ... that is not used;
* `FreshNames.version` : the next version of a temporary, of all versions given out.
-/

namespace ThreeAddress

/-- The names that are in use, and where to look for the next ones. -/
structure FreshNames where
  nextBlock : Nat
  nextVersion : Nat
  labels : SortedSet Label
  temps : SortedSet Temp

namespace FreshNames

/-- Give out names other than these labels. -/
def avoiding (labels : List Label) : FreshNames := ⟨0, 1, .ofList labels, ∅⟩

/-- Avoid these temporaries too. -/
def avoidingTemps (names : FreshNames) (temps : List Temp) : FreshNames :=
  { names with temps := names.temps.union (.ofList temps) }

/-- The label of a block that has none of its own. -/
def blockLabel (n : Nat) : Label := ⟨"_bb" ++ decimalText n⟩

/-- A label that is not in use. -/
def label (names : FreshNames) : Label × FreshNames :=
  let n := firstFree (fun n => names.labels.contains (blockLabel n)) names.labels.size names.nextBlock
  (blockLabel n,
    { names with nextBlock := n + 1, labels := names.labels.insert (blockLabel n) })

/-- A version of a temporary that is not in use. -/
def version (names : FreshNames) (t : Temp) : Temp × FreshNames :=
  let n := firstFree (fun n => names.temps.contains (t.withVersion n)) names.temps.size
    names.nextVersion
  (t.withVersion n, { names with nextVersion := n + 1 })

/-- How many versions were counted so far. -/
def versions (names : FreshNames) : Nat := names.nextVersion - 1

end FreshNames

end ThreeAddress
