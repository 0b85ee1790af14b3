/-!
# The names of files in paths

A path is a text with `/` between its components. Separators and components `.` at its end do not
matter, and a path whose last component is `..`, or that has none, names no file.

* `Path.fileName?` : the directory and the name of the file that a path names;
* `Path.withExtension` : the path with another extension.
-/

namespace ThreeAddress

namespace Path

/-- Drop separators and components `.` from the end of a path, whose text is given in reverse. -/
def trimEnd : List Char → List Char
  | '/' :: rest => trimEnd rest
  | '.' :: '/' :: rest => trimEnd rest
  | rest => rest

/-- The text up to the name of the file, and the name. -/
def fileName? (path : List Char) : Option (List Char × List Char) :=
  let back := trimEnd path.reverse
  let name := (back.takeWhile (· != '/')).reverse
  if name = [] ∨ name = ['.'] ∨ name = ['.', '.'] then none
  else some ((back.dropWhile (· != '/')).reverse, name)

/-- The stem of a name and the extension behind its last point, if it has one. A point at the start
of a name does not begin an extension. -/
def splitExtension (name : List Char) : List Char × Option (List Char) :=
  let back := name.reverse
  match back.dropWhile (· != '.') with
  | _ :: c :: rest => ((c :: rest).reverse, some (back.takeWhile (· != '.')).reverse)
  | _ => (name, none)

/-- The extension of the file that a path names. -/
def extension? (path : List Char) : Option (List Char) :=
  (fileName? path).bind fun (_, name) => (splitExtension name).2

/-- The path with another extension. As many characters as the old extension has are cut off the
end of the text, and the new one is put behind the stem of the name that remains; what remains
stays as it is if it names no file. -/
def withExtension (path extension : String) : String :=
  let chars := path.toList
  let old := ((extension? chars).getD []).length
  let rest := chars.take (chars.length - old)
  match fileName? rest with
  | none => String.ofList rest
  | some (directory, name) =>
    String.ofList (directory ++ (splitExtension name).1) ++ "." ++ extension

end Path

end ThreeAddress
