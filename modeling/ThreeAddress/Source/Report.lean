import ThreeAddress.Source.Diagnostic
/-!
# Reports that show the source line

A report repeats the line of the text that a diagnostic concerns, underlines the stretch, and
hangs the label from the middle of the underline. Widths are counted in characters; a tab reaches
to the next multiple of four.

* `sourceLines` : the lines of a text;
* `Diagnostic.report` : the report of one diagnostic;
* `position` : line and column of a place, as compilers print them.
-/

namespace ThreeAddress

/-- The characters that end a line. -/
def isLineEnd (c : Char) : Bool :=
  c ∈ ['\n', '\r', '\x0b', '\x0c', '\x85', '\u2028', '\u2029']

/-- The lines of a text with the characters that end them; a carriage return and the line feed
behind it end a line together. -/
def sourceLines : List Char → List (List Char)
  | [] => [[]]
  | '\r' :: '\n' :: rest => ['\r', '\n'] :: sourceLines rest
  | c :: rest =>
    if isLineEnd c then [c] :: sourceLines rest
    else
      match sourceLines rest with
      | [] => [[c]]
      | line :: lines => (c :: line) :: lines

/-- A place within the lines of a text. -/
structure LinePlace where
  /-- The number of the line, from one. -/
  number : Nat
  /-- How many characters of the line stand before the place. -/
  column : Nat
  /-- The whole line. -/
  line : List Char

/-- How many characters of a line lie before a number of bytes. -/
def charsBefore (offset : Nat) : List Char → Nat
  | [] => 0
  | c :: rest => if offset = 0 then 0 else charsBefore (offset - c.utf8Size) rest + 1

/-- Find a byte offset in lines, of which the first has the given number. -/
def findPlace (number offset : Nat) : List (List Char) → LinePlace
  | [] => ⟨number, 0, []⟩
  | line :: lines =>
    if offset < byteSize line ∨ lines.isEmpty then ⟨number, charsBefore offset line, line⟩
    else findPlace (number + 1) (offset - byteSize line) lines

namespace Diagnostic

/-- The columns that a character takes on a line: a tab reaches to the next multiple of four. -/
def width (column : Nat) (c : Char) : Nat := if c = '\t' then 4 - column % 4 else 1

/-- The character as shown: blanks become spaces. -/
def shown (column : Nat) (c : Char) : List Char :=
  if isBlank c then List.replicate (width column c) ' ' else [c]

/-- Repeat the mark of each column of a line as often as the character there is wide; behind the end
of the line every column is one wide. -/
def underLine (line : List Char) (marks : List (Char × Char)) : List Char :=
  marks.zipIdx.flatMap fun (m, column) =>
    m.1 :: List.replicate (width column (line.getD column ' ') - 1) m.2

/-- Marks of one character each, repeated. -/
def marks (n : Nat) (c : Char) : List (Char × Char) := List.replicate n (c, c)

/-- The report of a diagnostic on a text. -/
def report (text : String) (d : Diagnostic) : String :=
  let place := findPlace 1 d.span.start (sourceLines text.toList)
  let number := decimalText place.number
  let pad := String.ofList (List.replicate (number.length + 2) ' ')
  let n := charsBefore (d.span.stop - d.span.start) (place.line.drop place.column)
  let m := n / 2
  let trimmed := (place.line.reverse.dropWhile isBlank).reverse
  let source := trimmed.zipIdx.flatMap fun (c, column) => shown column c
  let under := marks place.column ' ' ++ marks m '─' ++ [('┬', '─')] ++ marks (n - m - 1) '─' ++
    marks 2 ' '
  let hanging := marks (place.column + m) ' ' ++ [('╰', '─')] ++ marks (n - m + 1) '─'
  "[" ++ d.value.code ++ "] Error: " ++ d.value.message ++ "\n" ++
  pad ++ "╭─[ <unknown>:" ++ number ++ ":" ++ decimalText (place.column + 1) ++ " ]\n" ++
  pad ++ "│\n" ++
  " " ++ number ++ " │ " ++ String.ofList source ++ "\n" ++
  pad ++ "│ " ++ String.ofList (underLine trimmed under) ++ "\n" ++
  pad ++ "│ " ++ String.ofList (underLine trimmed hanging) ++ " " ++ d.value.label ++ "\n" ++
  (match d.value.help? with
   | some help => pad ++ "│ \n" ++ pad ++ "│ Help: " ++ help ++ "\n"
   | none => "") ++
  String.ofList (List.replicate (number.length + 2) '─') ++ "╯\n"

end Diagnostic

/-- Line and column, both from one, of a byte offset; only line feeds end a line here. -/
def position (offset : Nat) (cs : List Char) : Nat × Nat :=
  match cs with
  | [] => (1, 1)
  | c :: rest =>
    if offset = 0 then (1, 1)
    else
      let (line, column) := position (offset - c.utf8Size) rest
      if c = '\n' then (line + 1, column)
      else if line = 1 then (1, column + 1)
      else (line, column)

end ThreeAddress
