import ThreeAddress.Sorted.Set
/-!
# The names of three-address code

Temporaries are written `%root` or `%root.version`, globals `@name`, labels `.Lsuffix`.

* `Temp`, `Global`, `Label` : the names, each with its written form `text` and its order;
* `Temp.ofText?` : reads the part of a temporary after its sigil;
* `Var` : an operand that holds a value, a temporary or a global variable;
* `Origin` : where control comes from when it reaches the start of a block.
-/

namespace ThreeAddress

/-! ## Decimal digits -/

/-- The number that a list of decimal digits denotes. -/
def decimalValue (digits : List Char) : Nat := Nat.ofDigitChars 10 digits 0

/-- The decimal digits of a number, without leading zeros. -/
def decimalText (n : Nat) : String := String.ofList (Nat.toDigits 10 n)

theorem decimalValue_decimalText (n : Nat) : decimalValue (decimalText n).toList = n := by
  rw [decimalText, String.toList_ofList, decimalValue,
    Nat.ofDigitChars_toDigits (by decide) (by decide)]

/-! ## Temporaries -/

/-- A temporary: a root, and a version if it was renamed for single assignment. -/
structure Temp where
  root : String
  version : Option Nat
deriving DecidableEq, Inhabited

namespace Temp

/-- Temporaries are ordered by root, and of one root the bare one comes first. -/
instance : Ord Temp := ⟨compareLex (compareOn Temp.root) (compareOn Temp.version)⟩

instance : Std.TransOrd Temp :=
  inferInstanceAs (Std.TransCmp (compareLex (compareOn Temp.root) (compareOn Temp.version)))

instance : Std.LawfulEqOrd Temp where
  eq_of_compare {a b} h := by
    obtain ⟨r, v⟩ := a
    obtain ⟨s, w⟩ := b
    have h : (compare r s).then (compare v w) = .eq := h
    obtain ⟨hr, hv⟩ := Ordering.then_eq_eq.1 h
    rw [Std.LawfulEqOrd.eq_of_compare hr, Std.LawfulEqOrd.eq_of_compare hv]

/-- The temporary `%_`: writing it discards the value, reading it gives zero. -/
def sink : Temp := ⟨"_", none⟩

/-- Is this the temporary `%_`? -/
def isSink (t : Temp) : Bool := t == sink

/-- The same root with another version. -/
def withVersion (t : Temp) (version : Nat) : Temp := ⟨t.root, some version⟩

/-- The written form, sigil included. -/
def text (t : Temp) : String :=
  match t.version with
  | none => "%" ++ t.root
  | some v => "%" ++ t.root ++ "." ++ decimalText v

/-- The characters that may follow the first one of a name. -/
def isNameChar (c : Char) : Bool := c.isAlphanum || c == '_'

/-- A root is `_`, a decimal number without leading zeros, or a letter followed by letters,
digits and underscores. -/
def isRoot : List Char → Bool
  | [] => false
  | c :: rest =>
    if c.isAlpha then rest.all isNameChar
    else if c == '0' || c == '_' then rest.isEmpty
    else c.isDigit && rest.all Char.isDigit

/-- The largest version that a name may carry. -/
def maxVersion : Nat := 4294967295

/-- Read a temporary written without its sigil: a root and, unless it is the sink, perhaps a
point and the decimal digits of a version. -/
def ofText? (name : String) : Option Temp :=
  let root := name.toList.takeWhile (· != '.')
  if isRoot root then
    match name.toList.dropWhile (· != '.') with
    | [] => some ⟨String.ofList root, none⟩
    | _ :: digits =>
      if root != ['_'] && !digits.isEmpty && digits.all Char.isDigit
          && decimalValue digits ≤ maxVersion then
        some ⟨String.ofList root, some (decimalValue digits)⟩
      else none
  else none

end Temp

/-! ## Globals and labels -/

/-- A global symbol: a procedure or a variable in memory. -/
structure Global where
  /-- The name without its sigil. -/
  name : String
deriving DecidableEq, Inhabited

namespace Global

instance : Ord Global := ⟨compareOn Global.name⟩

instance : Std.TransOrd Global := inferInstanceAs (Std.TransCmp (compareOn Global.name))

instance : Std.LawfulEqOrd Global where
  eq_of_compare {a b} h := by
    cases a
    cases b
    exact congrArg Global.mk (Std.LawfulEqOrd.eq_of_compare h)

/-- The written form, sigil included. -/
def text (g : Global) : String := "@" ++ g.name

end Global

/-- A place in a procedure that control can jump to. -/
structure Label where
  /-- What follows the `.L` that every label begins with. -/
  suffix : String
deriving DecidableEq, Inhabited

namespace Label

instance : Ord Label := ⟨compareOn Label.suffix⟩

instance : Std.TransOrd Label := inferInstanceAs (Std.TransCmp (compareOn Label.suffix))

instance : Std.LawfulEqOrd Label where
  eq_of_compare {a b} h := by
    cases a
    cases b
    exact congrArg Label.mk (Std.LawfulEqOrd.eq_of_compare h)

/-- The written form. -/
def text (l : Label) : String := ".L" ++ l.suffix

/-- The label of a full text that begins with `.L`, or of a bare suffix. -/
def ofText (name : String) : Label :=
  match name.toList with
  | '.' :: 'L' :: suffix => ⟨String.ofList suffix⟩
  | _ => ⟨name⟩

end Label

/-! ## Values and origins -/

/-- An operand that holds a value. -/
inductive Var where
  /-- A temporary of the procedure. -/
  | temp (t : Temp)
  /-- A variable in memory. -/
  | global (g : Global)
deriving DecidableEq, Inhabited

namespace Var

/-- Temporaries come before globals. -/
instance : Ord Var where
  compare
    | temp t, temp u => compare t u
    | temp _, global _ => .lt
    | global _, temp _ => .gt
    | global g, global h => compare g h

/-- The operand `%_`. -/
def sink : Var := temp Temp.sink

/-- Is this the operand `%_`? -/
def isSink (v : Var) : Bool := v == sink

/-- The temporary, if the operand is one. -/
def temp? : Var → Option Temp
  | temp t => some t
  | global _ => none

/-- The temporary that writing or reading the operand really concerns: neither a global nor `%_`. -/
def named? : Var → Option Temp
  | temp t => if t.isSink then none else some t
  | global _ => none

/-- The written form. -/
def text : Var → String
  | temp t => t.text
  | global g => g.text

end Var

/-- Where control comes from when it reaches the start of a block. -/
inductive Origin where
  /-- From the caller, carrying the arguments of the procedure. -/
  | entry
  /-- From the block with this label. -/
  | block (l : Label)
deriving DecidableEq, Inhabited

namespace Origin

/-- The block that control comes from. -/
def label? : Origin → Option Label
  | entry => none
  | block l => some l

/-- The entry comes before all blocks. -/
instance : Ord Origin := ⟨compareOn Origin.label?⟩

instance : Std.TransOrd Origin := inferInstanceAs (Std.TransCmp (compareOn Origin.label?))

instance : Std.LawfulEqOrd Origin where
  eq_of_compare {a b} h := by
    have h := Std.LawfulEqOrd.eq_of_compare (α := Option Label) h
    cases a <;> cases b <;> simp_all [label?]

/-- The written form. -/
def text : Origin → String
  | entry => "entry"
  | block l => l.text

end Origin

end ThreeAddress
