import ThreeAddress.Source.Cursor
/-!
# Tokens and how a text is split into them

Between tokens stand blanks and comments, which run from `//` to the end of the line. Where no
token can be read, `Token.scan` notes an error and goes on behind the next characters from which
one can. The error is placed at the farthest character that any attempt got stuck on.

* `Token`, `Token.text` : the tokens and their spelling;
* `Token.read` : one token at a place;
* `Token.attempt` : one token with the blanks and comments around it;
* `Token.scan` : all tokens of a text, with the errors.
-/

namespace ThreeAddress

/-- A token of three-address code. -/
inductive Token where
  /-- A temporary, `%name`. -/
  | temp (name : String)
  /-- A global, `@name`. -/
  | global (name : String)
  /-- A label, `.Lsuffix`. -/
  | label (suffix : String)
  /-- A decimal integer without leading zeros, perhaps negative. -/
  | number (text : String)
  /-- The name of an opcode or of the edge `entry`. -/
  | word (text : String)
  /-- The keyword that begins the declaration of a variable. -/
  | varKeyword
  /-- The keyword that begins a procedure. -/
  | procKeyword
  /-- A punctuation mark. -/
  | mark (c : Char)
deriving DecidableEq, Inhabited

namespace Token

/-- The spelling, sigils included. -/
def text : Token → String
  | temp name => "%" ++ name
  | global name => "@" ++ name
  | label suffix => ".L" ++ suffix
  | number text => text
  | word text => text
  | varKeyword => "var"
  | procKeyword => "proc"
  | mark c => String.ofList [c]

/-! ## Characters -/

/-- The characters of the name of a temporary and of the suffix of a label. -/
def isNameChar (c : Char) : Bool := c.isAlphanum || c == '_' || c == '.'

/-- The characters that begin a word or the name of a global. -/
def isWordStart (c : Char) : Bool := c.isAlpha || c == '_'

/-- The characters of a word and of the name of a global. -/
def isWordChar (c : Char) : Bool := c.isAlphanum || c == '_'

/-- The punctuation marks. -/
def isMark (c : Char) : Bool := c ∈ ['(', ')', ',', ';', ':', '=']

/-- A word, unless it is a keyword. -/
def ofWord (text : String) : Token :=
  if text = "var" then varKeyword else if text = "proc" then procKeyword else word text

/-! ## Where reading got stuck -/

/-- A character that could not be read, and how far reading had come when it was refused. -/
structure Stuck where
  reach : Nat
  span : Span
deriving DecidableEq

namespace Stuck

/-- Stuck in front of a character. -/
def before (c : Cursor) : Stuck := ⟨c.offset, c.span⟩

/-- Stuck behind a character that was read and then refused. -/
def behind (c : Cursor) : Stuck := ⟨c.span.stop, c.span⟩

end Stuck

/-- The farthest place so far, if any, at which reading got stuck. -/
def Record := Option Stuck

/-- The record before anything was read. -/
def Record.empty : Record := none

/-- Note that reading got stuck; of two places equally far the first is kept. -/
def Record.note (r : Record) (s : Stuck) : Record :=
  match r with
  | none => some s
  | some old => if old.reach < s.reach then some s else r

/-- The character at the farthest place, or the one at the given place if there is no record. -/
def Record.span (r : Record) (c : Cursor) : Span :=
  match r with
  | none => c.span
  | some s => s.span

/-! ## Blanks and comments -/

/-- The place behind the next blanks and comments. -/
def skipComments (c : Cursor) (r : Record) : Cursor × Record :=
  match h : c.dropWhile isBlank with
  | ⟨offset, '/' :: '/' :: more⟩ =>
    let eol := (Cursor.mk (offset + 2) more).dropWhile (· != '\n')
    have : eol.rest.length < c.rest.length := by
      have hc := Cursor.rest_dropWhile_length_le isBlank c
      have he := Cursor.rest_dropWhile_length_le (· != '\n') ⟨offset + 2, more⟩
      rw [h] at hc
      exact Nat.lt_of_le_of_lt he (Nat.lt_of_lt_of_le (Nat.lt_succ_of_lt (Nat.lt_succ_self _)) hc)
    skipComments eol (r.note (.before eol))
  | ⟨offset, '/' :: more⟩ => (⟨offset, '/' :: more⟩, r.note (.before ⟨offset + 1, more⟩))
  | here => (here, r.note (.before here))
termination_by c.rest.length

/-! ## One token -/

/-- What reading a token gives: the token and the place behind it, and the record. -/
abbrev Reading := Option (Token × Cursor) × Record

/-- Note another place at which reading got stuck, unless a token was found. -/
def Reading.orStuck (reading : Reading) (s : Stuck) : Reading :=
  match reading with
  | (none, r) => (none, r.note s)
  | found => found

theorem Reading.fst_orStuck (reading : Reading) (s : Stuck) :
    (reading.orStuck s).1 = reading.1 := by
  obtain ⟨_ | _, _⟩ := reading <;> rfl

/-- Read a decimal integer without leading zeros that continues the given text at a place. If the
text ends where the first digit should stand, that is the only place noted. -/
def readNumber (sign : String) (c : Cursor) (r : Record) : Reading :=
  match c.rest with
  | [] => (none, Record.empty.note (.before c))
  | d :: _ =>
    if d = '0' then (some (number (sign ++ "0"), c.step), r.note (.before c.step))
    else if d.isDigit then
      let behind := c.dropWhile Char.isDigit
      (some (number (sign ++ String.ofList (c.takeWhile Char.isDigit)), behind),
        r.note (.before behind))
    else (none, r.note (.before c))

/-- Read the rest of a name, which has to have a character. -/
def readName (make : String → Token) (c : Cursor) (r : Record) : Reading :=
  let behind := c.dropWhile isNameChar
  let r := r.note (.behind behind)
  match c.takeWhile isNameChar with
  | [] => (none, r)
  | name => (some (make (String.ofList name), behind), r)

/-- Read a word. -/
def readWord (make : String → Token) (c : Cursor) (r : Record) : Reading :=
  match c.rest with
  | [] => (none, r.note (.behind c))
  | d :: _ =>
    if isWordStart d then
      let behind := c.dropWhile isWordChar
      (some (make (String.ofList (c.takeWhile isWordChar)), behind), r.note (.behind behind))
    else (none, r.note (.behind c))

/-- Read the token that begins at a place. -/
def read (c : Cursor) (r : Record) : Reading :=
  match c.rest with
  | '%' :: _ => (readName temp c.step r).orStuck (.behind c)
  | '@' :: _ => (readWord global c.step r).orStuck (.behind c)
  | '.' :: 'L' :: _ => (readName label c.step.step r).orStuck (.behind c)
  | '.' :: _ => (none, (r.note (.before c.step)).note (.behind c))
  | '-' :: _ => (readNumber "-" c.step r).orStuck (.behind c)
  | d :: _ =>
    if d.isDigit then readNumber "" c r
    else if isMark d then (some (mark d, c.step), r.note (.behind c))
    else readWord ofWord c r
  | [] => (none, r.note (.before c))

/-- Read one token and the blanks and comments on both sides of it. -/
def attempt (c : Cursor) (r : Record) : Option (Located Token × Cursor) × Record :=
  let (first, r) := skipComments c r
  match read first r with
  | (none, r) => (none, r)
  | (some (token, behind), r) =>
    let (next, r) := skipComments behind r
    (some (⟨token, ⟨first.offset, behind.offset⟩⟩, next), r)

/-! ## Every attempt that succeeds moves on -/

theorem length_dropWhile_lt {p : Char → Bool} {c : Cursor} {d : Char} {more : List Char}
    (h : c.rest = d :: more) (hd : p d = true) : (c.dropWhile p).rest.length < c.rest.length := by
  simp only [Cursor.dropWhile, h, List.dropWhile_cons, hd, if_true, List.length_cons]
  exact Nat.lt_succ_of_le (List.dropWhile_sublist p).length_le

theorem skipComments_length_le (c : Cursor) (r : Record) :
    (skipComments c r).1.rest.length ≤ c.rest.length := by
  have hc := Cursor.rest_dropWhile_length_le isBlank c
  rw [skipComments]
  split
  · next offset more h =>
    have he : _ ≤ more.length := Cursor.rest_dropWhile_length_le (· != '\n') ⟨offset + 2, more⟩
    rw [h] at hc
    have shorter : _ < c.rest.length := Nat.lt_of_le_of_lt he (Nat.lt_of_succ_lt hc)
    exact Nat.le_trans (skipComments_length_le _ _) (Nat.le_of_lt shorter)
  · next h =>
    rw [h] at hc
    exact hc
  · exact hc
termination_by c.rest.length

theorem readName_length_le {make : String → Token} {c : Cursor} {r : Record} {t : Token} {d : Cursor}
    (h : (readName make c r).1 = some (t, d)) : d.rest.length ≤ c.rest.length := by
  rw [readName] at h
  split at h
  · simp at h
  · simp only [Option.some.injEq, Prod.mk.injEq] at h
    rw [← h.2]
    exact Cursor.rest_dropWhile_length_le _ c

theorem readWord_length_lt {make : String → Token} {c : Cursor} {r : Record} {t : Token} {d : Cursor}
    (h : (readWord make c r).1 = some (t, d)) : d.rest.length < c.rest.length := by
  rw [readWord] at h
  split at h
  · simp at h
  · next x _ hx =>
    split at h
    · next hs =>
      simp only [Option.some.injEq, Prod.mk.injEq] at h
      rw [← h.2]
      refine length_dropWhile_lt hx ?_
      simp only [isWordStart, isWordChar, Char.isAlphanum, Bool.or_eq_true] at hs ⊢
      rcases hs with hs | hs <;> simp [hs]
    · simp at h

theorem readNumber_length_lt {sign : String} {c : Cursor} {r : Record} {t : Token} {d : Cursor}
    (h : (readNumber sign c r).1 = some (t, d)) : d.rest.length < c.rest.length := by
  rw [readNumber] at h
  split at h
  · simp at h
  · next x _ hx =>
    split at h
    · simp only [Option.some.injEq, Prod.mk.injEq] at h
      rw [← h.2]
      simp [Cursor.step, hx]
    · split at h
      · next hd =>
        simp only [Option.some.injEq, Prod.mk.injEq] at h
        rw [← h.2]
        exact length_dropWhile_lt hx hd
      · simp at h

theorem step_length_lt {c : Cursor} {d : Char} {more : List Char} (h : c.rest = d :: more) :
    c.step.rest.length < c.rest.length := by
  simp [Cursor.step, h]

theorem read_length_lt {c : Cursor} {r : Record} {t : Token} {d : Cursor}
    (h : (read c r).1 = some (t, d)) : d.rest.length < c.rest.length := by
  rw [read] at h
  split at h
  · next hc =>
    rw [Reading.fst_orStuck] at h
    exact Nat.lt_of_le_of_lt (readName_length_le h) (step_length_lt hc)
  · next hc =>
    rw [Reading.fst_orStuck] at h
    exact Nat.lt_trans (readWord_length_lt h) (step_length_lt hc)
  · next hc =>
    rw [Reading.fst_orStuck] at h
    have := readName_length_le h
    simp only [Cursor.step, hc, List.drop_succ_cons, List.drop_zero, List.length_cons] at this ⊢
    omega
  · simp at h
  · next hc =>
    rw [Reading.fst_orStuck] at h
    exact Nat.lt_trans (readNumber_length_lt h) (step_length_lt hc)
  · next hc =>
    split at h
    · exact readNumber_length_lt h
    · split at h
      · simp only [Option.some.injEq, Prod.mk.injEq] at h
        rw [← h.2]
        exact step_length_lt hc
      · exact readWord_length_lt h
  · simp at h

theorem attempt_length_lt {c : Cursor} {r : Record} {t : Located Token} {d : Cursor}
    (h : (attempt c r).1 = some (t, d)) : d.rest.length < c.rest.length := by
  simp only [attempt] at h
  split at h
  · simp at h
  · next token behind r' hr =>
    simp only [Option.some.injEq, Prod.mk.injEq] at h
    rw [← h.2]
    have h₁ := skipComments_length_le c r
    have h₂ := read_length_lt (t := token) (d := behind) (congrArg Prod.fst hr)
    have h₃ := skipComments_length_le behind r'
    omega

/-! ## The whole text -/

/-- Skip characters until an attempt succeeds, each with a fresh record. -/
def retry (offset : Nat) : List Char → Option (Located Token × Cursor × Record)
  | [] => none
  | skipped :: rest =>
    let here : Cursor := ⟨offset + skipped.utf8Size, rest⟩
    match attempt here Record.empty with
    | (some (token, next), r) => some (token, next, r)
    | (none, _) => retry here.offset rest

theorem retry_length_lt {offset : Nat} {cs : List Char} {t : Located Token} {d : Cursor} {r : Record}
    (h : retry offset cs = some (t, d, r)) : d.rest.length < cs.length := by
  induction cs generalizing offset with
  | nil => simp [retry] at h
  | cons skipped rest ih =>
    simp only [retry] at h
    split at h
    · next token next r' ha =>
      simp only [Option.some.injEq, Prod.mk.injEq] at h
      have := attempt_length_lt (t := token) (d := next) (congrArg Prod.fst ha)
      rw [← h.2.1]
      simp only [List.length_cons] at this ⊢
      omega
    · have := ih h
      simp only [List.length_cons]
      omega

/-- What scanning a text gives. -/
structure Scan where
  /-- The tokens, unless reading was stuck up to the end of the text. -/
  tokens : Option (List (Located Token))
  /-- Where reading got stuck. -/
  errors : List Span
deriving DecidableEq

namespace Scan

/-- Put a token in front. -/
def cons (token : Located Token) (s : Scan) : Scan := ⟨s.tokens.map (token :: ·), s.errors⟩

/-- Put an error in front. -/
def addError (span : Span) (s : Scan) : Scan := ⟨s.tokens, span :: s.errors⟩

end Scan

/-- All tokens from a place on. -/
def scanFrom (c : Cursor) (r : Record) : Scan :=
  if c.rest.isEmpty then ⟨some [], []⟩
  else
    match ha : attempt c r with
    | (some (token, next), r) =>
      have := attempt_length_lt (congrArg Prod.fst ha)
      (scanFrom next r).cons token
    | (none, r) =>
      let stuck := r.span c
      match hr : retry c.offset c.rest with
      | none => ⟨none, [stuck]⟩
      | some (token, next, r) =>
        have := retry_length_lt hr
        ((scanFrom next r).cons token).addError stuck
termination_by c.rest.length

/-- All tokens of a text. -/
def scan (text : String) : Scan := scanFrom (Cursor.start text) Record.empty

end Token

end ThreeAddress
