/-!
# Places in a text

Places are byte offsets into the UTF-8 form of the source text. A `Cursor` is a place together
with the characters that follow it.

* `Span`, `Located` : a stretch of text, and a thing with the stretch it was read from;
* `Cursor.step`, `Cursor.takeWhile`, `Cursor.dropWhile` : movement through the text;
* `isBlank` : the characters that separate tokens.
-/

namespace ThreeAddress

/-- A stretch of text, from a byte offset up to another. -/
structure Span where
  start : Nat
  stop : Nat
deriving DecidableEq, Inhabited

/-- A value with the stretch of text that it was read from. -/
structure Located (α : Type) where
  value : α
  span : Span
deriving DecidableEq, Inhabited

/-- The number of bytes that characters take in UTF-8. -/
def byteSize : List Char → Nat
  | [] => 0
  | c :: rest => c.utf8Size + byteSize rest

/-- The characters with the property White_Space of the Unicode standard. -/
def isBlank (c : Char) : Bool :=
  let n := c.toNat
  (9 ≤ n && n ≤ 13) || n == 0x20 || n == 0x85 || n == 0xA0 || n == 0x1680
    || (0x2000 ≤ n && n ≤ 0x200A) || n == 0x2028 || n == 0x2029 || n == 0x202F || n == 0x205F
    || n == 0x3000

/-- A place in a text and what follows it. -/
structure Cursor where
  /-- The number of bytes before the place. -/
  offset : Nat
  /-- The characters from the place on. -/
  rest : List Char
deriving DecidableEq, Inhabited

namespace Cursor

/-- The beginning of a text. -/
def start (text : String) : Cursor := ⟨0, text.toList⟩

/-- The stretch of the next character, which is empty at the end of the text. -/
def span (c : Cursor) : Span := ⟨c.offset, c.offset + byteSize (c.rest.take 1)⟩

/-- The place behind the next character. -/
def step (c : Cursor) : Cursor := ⟨c.offset + byteSize (c.rest.take 1), c.rest.drop 1⟩

/-- The next characters that satisfy a test. -/
def takeWhile (p : Char → Bool) (c : Cursor) : List Char := c.rest.takeWhile p

/-- The place behind the next characters that satisfy a test. -/
def dropWhile (p : Char → Bool) (c : Cursor) : Cursor :=
  ⟨c.offset + byteSize (c.rest.takeWhile p), c.rest.dropWhile p⟩

theorem rest_dropWhile_length_le (p : Char → Bool) (c : Cursor) :
    (c.dropWhile p).rest.length ≤ c.rest.length := (List.dropWhile_sublist p).length_le

end Cursor

end ThreeAddress
