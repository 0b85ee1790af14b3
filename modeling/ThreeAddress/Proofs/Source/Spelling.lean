import Mathlib.Data.List.TakeWhile
import ThreeAddress.Source.Token
/-!
# Texts that spell tokens

A text spells tokens if it consists of their spellings in order, perhaps with blanks between them,
and no character that could continue a token stands right behind it. Such a text is split into just
these tokens. The other way round, every token that a text is split into can stand in a text.

* `Token.isSpelled` : can the token be read at all?
* `Spells` : a text and the tokens it spells;
* `Token.scan_of_spells` : the text is split into them;
* `Token.isSpelled_of_scan` : a text is split into tokens that can be read.
-/

namespace ThreeAddress

namespace Token

/-! ## Spellings -/

/-- Is this a word, or the name of a global? -/
def isWordText : List Char → Bool
  | [] => false
  | c :: rest => isWordStart c && rest.all isWordChar

/-- Are these decimal digits without leading zeros? -/
def isDigits : List Char → Bool
  | [] => false
  | c :: rest => if c = '0' then rest.isEmpty else c.isDigit && rest.all Char.isDigit

/-- Is this a decimal integer without leading zeros? -/
def isNumberText : List Char → Bool
  | '-' :: digits => isDigits digits
  | digits => isDigits digits

/-- Can the spelling be read as the token? -/
def isSpelled : Token → Bool
  | temp name | label name => !name.toList.isEmpty && name.toList.all isNameChar
  | global name => isWordText name.toList
  | number text => isNumberText text.toList
  | word text => isWordText text.toList && text != "var" && text != "proc"
  | varKeyword | procKeyword => true
  | mark c => isMark c

/-- Does a token that is no mark end in front of these characters? -/
def endsBefore (rest : List Char) : Bool := rest.head?.all fun c => !isNameChar c

/-- Does the token end in front of these characters? -/
def closedBy (rest : List Char) : Token → Bool
  | mark _ => true
  | _ => endsBefore rest

/-! ## Characters -/

/-- A property of the characters of names, checked character by character. -/
theorem forall_isNameChar {P : Char → Prop} (h : ∀ n < 128, isNameChar (.ofNat n) = true → P (.ofNat n))
    {c : Char} (hc : isNameChar c = true) : P c := by
  have small : c.toNat < 128 := by
    simp only [isNameChar, Bool.or_eq_true, beq_iff_eq] at hc
    rcases hc with (word | rfl) | rfl
    · have cases_ : ((c.isUpper || c.isLower) || c.isDigit) = true := word
      simp only [Bool.or_eq_true] at cases_
      -- the last letter or digit is within the first characters
      have below {d : Char} (last : c.val ≤ d.val) (d_ : d.val ≤ 127) : c.toNat < 128 :=
        Nat.lt_succ_of_le (UInt32.le_iff_toNat_le.1 (UInt32.le_trans last d_))
      rcases cases_ with (upper | lower) | digit
      · exact below (of_decide_eq_true upper).2 (d := 'Z') (by decide)
      · exact below (of_decide_eq_true (Bool.and_eq_true_iff.1 lower).2) (d := 'z') (by decide)
      · exact below (of_decide_eq_true (Bool.and_eq_true_iff.1 digit).2) (d := '9') (by decide)
    · decide
    · decide
  have found := h c.toNat small
  rw [Char.ofNat_toNat] at found
  exact found hc

theorem isNameChar_of_isWordChar {c : Char} (h : isWordChar c = true) : isNameChar c = true := by
  rw [isWordChar, Bool.or_eq_true] at h
  rcases h with h | h <;> simp [isNameChar, h]

theorem isWordChar_of_isWordStart {c : Char} (h : isWordStart c = true) : isWordChar c = true := by
  rw [isWordStart, Bool.or_eq_true] at h
  rcases h with h | h <;> simp [isWordChar, Char.isAlphanum, h]

theorem isNameChar_of_isDigit {c : Char} (h : c.isDigit = true) : isNameChar c = true := by
  simp [isNameChar, Char.isAlphanum, h]

/-- No character of a name can be skipped. -/
theorem not_isBlank_of_isNameChar {c : Char} (h : isNameChar c = true) :
    isBlank c = false ∧ c ≠ '/' :=
  forall_isNameChar (P := fun c => isBlank c = false ∧ c ≠ '/') (by decide +kernel) h

/-- The characters that begin words begin nothing else. -/
theorem isWordStart_cases {c : Char} (h : isWordStart c = true) :
    (c.isDigit || isMark c) = false ∧ c ≠ '%' ∧ c ≠ '@' ∧ c ≠ '.' ∧ c ≠ '-' :=
  forall_isNameChar (P := fun c => isWordStart c = true → (c.isDigit || isMark c) = false ∧
    c ≠ '%' ∧ c ≠ '@' ∧ c ≠ '.' ∧ c ≠ '-') (by decide +kernel)
    (isNameChar_of_isWordChar (isWordChar_of_isWordStart h)) h

theorem ne_sigil_of_isDigit {c : Char} (h : c.isDigit = true) :
    c ≠ '%' ∧ c ≠ '@' ∧ c ≠ '.' ∧ c ≠ '-' := by
  refine ⟨?_, ?_, ?_, ?_⟩ <;> rintro rfl <;> cases h

/-- The marks, one by one. -/
theorem isMark_cases {P : Char → Prop} (h : P '(' ∧ P ')' ∧ P ',' ∧ P ';' ∧ P ':' ∧ P '=') {c : Char}
    (hc : isMark c = true) : P c := by
  have mem : c ∈ ['(', ')', ',', ';', ':', '='] := of_decide_eq_true hc
  simp only [List.mem_cons, List.not_mem_nil, or_false] at mem
  rcases mem with rfl | rfl | rfl | rfl | rfl | rfl
  · exact h.1
  · exact h.2.1
  · exact h.2.2.1
  · exact h.2.2.2.1
  · exact h.2.2.2.2.1
  · exact h.2.2.2.2.2

/-- What a word consists of. -/
theorem exists_isWordStart {text : List Char} (h : isWordText text = true) :
    ∃ c more, text = c :: more ∧ isWordStart c = true ∧ text.all isWordChar = true := by
  cases text with
  | nil => cases h
  | cons c more =>
    rw [isWordText, Bool.and_eq_true] at h
    exact ⟨c, more, rfl, h.1, by rw [List.all_cons, isWordChar_of_isWordStart h.1, h.2]; rfl⟩

/-- What a number without sign begins with. -/
theorem exists_isDigit {digits : List Char} (h : isDigits digits = true) :
    ∃ d more, digits = d :: more ∧ d.isDigit = true := by
  cases digits with
  | nil => cases h
  | cons d more =>
    refine ⟨d, more, rfl, ?_⟩
    rw [isDigits] at h
    split at h
    · next zero =>
      subst zero
      rfl
    · exact (Bool.and_eq_true_iff.1 h).1

/-! ## One token -/

/-- What a test accepts up to the end of a token is the token. -/
theorem span_of_endsBefore {p : Char → Bool} (name : ∀ c, p c = true → isNameChar c = true)
    {l rest : List Char} (all : l.all p = true) (ends : endsBefore rest = true) :
    (l ++ rest).takeWhile p = l ∧ (l ++ rest).dropWhile p = rest := by
  rw [List.all_eq_true] at all
  rw [List.takeWhile_append_of_pos all, List.dropWhile_append_of_pos all]
  cases rest with
  | nil => simp
  | cons c more =>
    have other : p c = false := by
      refine Bool.eq_false_iff.2 fun h => ?_
      simp [endsBefore, name c h] at ends
    simp [other]

section Read

variable {c : Cursor} {rest : List Char} (r : Record)

theorem readName_append (make : String → Token) {name : String} (nonempty : name.toList ≠ [])
    (all : name.toList.all isNameChar = true) (here : c.rest = name.toList ++ rest)
    (ends : endsBefore rest = true) :
    ∃ behind, (readName make c r).1 = some (make name, behind) ∧ behind.rest = rest := by
  obtain ⟨taken, dropped⟩ := span_of_endsBefore (fun _ h => h) all ends
  refine ⟨c.dropWhile isNameChar, ?_, by rw [Cursor.dropWhile, here, dropped]⟩
  have name_eq : c.takeWhile isNameChar = name.toList := by rw [Cursor.takeWhile, here, taken]
  cases shape : name.toList with
  | nil => exact absurd shape nonempty
  | cons d more =>
    rw [shape] at name_eq
    simp only [readName, name_eq]
    rw [← shape, String.ofList_toList]

theorem readWord_append (make : String → Token) {text : String} (word : isWordText text.toList = true)
    (here : c.rest = text.toList ++ rest) (ends : endsBefore rest = true) :
    ∃ behind, (readWord make c r).1 = some (make text, behind) ∧ behind.rest = rest := by
  obtain ⟨d, more, shape, start, all⟩ := exists_isWordStart word
  obtain ⟨taken, dropped⟩ := span_of_endsBefore (fun _ => isNameChar_of_isWordChar) all ends
  refine ⟨c.dropWhile isWordChar, ?_, by rw [Cursor.dropWhile, here, dropped]⟩
  have name : c.takeWhile isWordChar = text.toList := by rw [Cursor.takeWhile, here, taken]
  have first : c.rest = d :: (more ++ rest) := by rw [here, shape, List.cons_append]
  rw [readWord, first]
  simp only [start, if_true, name, String.ofList_toList]

theorem readNumber_append (sign : String) {digits : List Char} (number_ : isDigits digits = true)
    (here : c.rest = digits ++ rest) (ends : endsBefore rest = true) :
    ∃ behind, (readNumber sign c r).1 = some (number (sign ++ String.ofList digits), behind) ∧
      behind.rest = rest := by
  cases digits with
  | nil => cases number_
  | cons d more =>
    rw [isDigits] at number_
    rw [List.cons_append] at here
    rw [readNumber, here]
    by_cases zero : d = '0'
    · subst zero
      obtain rfl : more = [] := List.isEmpty_iff.1 number_
      exact ⟨c.step, rfl, by simp [Cursor.step, here]⟩
    · rw [if_neg zero] at number_
      have all : (d :: more).all Char.isDigit = true := by rwa [List.all_cons]
      obtain ⟨taken, dropped⟩ := span_of_endsBefore (fun _ => isNameChar_of_isDigit) all ends
      have digit : d.isDigit = true := (Bool.and_eq_true_iff.1 number_).1
      refine ⟨c.dropWhile Char.isDigit, ?_, ?_⟩
      · simp only [if_neg zero, digit, if_true, Cursor.takeWhile, here, ← List.cons_append, taken]
      · rw [Cursor.dropWhile, here, ← List.cons_append, dropped]

/-- Reading at a character that is no sigil. -/
theorem read_of_plain {d : Char} {more : List Char} (first : c.rest = d :: more)
    (plain : d ≠ '%' ∧ d ≠ '@' ∧ d ≠ '.' ∧ d ≠ '-') : read c r =
      if d.isDigit then readNumber "" c r
      else if isMark d then (some (mark d, c.step), r.note (.behind c))
      else readWord ofWord c r := by
  obtain ⟨temp, global, label, minus⟩ := plain
  rw [read.eq_def]
  simp only [first]
  split
  · next e => exact absurd (List.cons.inj e).1 temp
  · next e => exact absurd (List.cons.inj e).1 global
  · next e => exact absurd (List.cons.inj e).1 label
  · next e => exact absurd (List.cons.inj e).1 label
  · next e => exact absurd (List.cons.inj e).1 minus
  · next e =>
    obtain ⟨rfl, rfl⟩ := List.cons.inj e
    rfl
  · next e => cases e

/-- A word is read as the word, or as the keyword that it is. -/
theorem read_wordText {text : String} (word_ : isWordText text.toList = true)
    (here : c.rest = text.toList ++ rest) (ends : endsBefore rest = true) :
    ∃ behind, (read c r).1 = some (ofWord text, behind) ∧ behind.rest = rest := by
  obtain ⟨d, more, shape, start, -⟩ := exists_isWordStart word_
  obtain ⟨other, plain⟩ := isWordStart_cases start
  obtain ⟨noDigit, noMark⟩ := Bool.or_eq_false_iff.1 other
  have first : c.rest = d :: (more ++ rest) := by rw [here, shape, List.cons_append]
  obtain ⟨behind, found, left⟩ := readWord_append r ofWord word_ here ends
  refine ⟨behind, ?_, left⟩
  rw [read_of_plain r first plain, noDigit, noMark]
  exact found

/-- A number is read as the number, with its sign. -/
theorem read_numberText {text : String} (number_ : isNumberText text.toList = true)
    (here : c.rest = text.toList ++ rest) (ends : endsBefore rest = true) :
    ∃ behind, (read c r).1 = some (number text, behind) ∧ behind.rest = rest := by
  rw [isNumberText.eq_def] at number_
  split at number_
  · next digits shape =>
    have first : c.rest = '-' :: (digits ++ rest) := by rw [here, shape, List.cons_append]
    obtain ⟨behind, found, left⟩ := readNumber_append (c := c.step) r "-" number_
      (by simp [Cursor.step, first]) ends
    have same : "-" ++ String.ofList digits = text := by
      rw [← String.toList_inj, shape]
      simp
    rw [same] at found
    exact ⟨behind, by rw [read.eq_def]; simp only [first, Reading.fst_orStuck, found], left⟩
  · obtain ⟨behind, found, left⟩ := readNumber_append r "" number_ here ends
    obtain ⟨d, more, shape, digit⟩ := exists_isDigit number_
    have first : c.rest = d :: (more ++ rest) := by rw [here, shape, List.cons_append]
    refine ⟨behind, ?_, left⟩
    rw [read_of_plain r first (ne_sigil_of_isDigit digit), if_pos digit, found,
      String.ofList_toList, String.empty_append]

/-- The spelling of a token is read as the token. -/
theorem read_text {t : Token} (spelled : t.isSpelled = true) (here : c.rest = t.text.toList ++ rest)
    (closed : t.closedBy rest = true) :
    ∃ behind, (read c r).1 = some (t, behind) ∧ behind.rest = rest := by
  cases t with
  | temp name =>
    simp only [isSpelled, Bool.and_eq_true, Bool.not_eq_true', List.isEmpty_eq_false_iff] at spelled
    have first : c.rest = '%' :: (name.toList ++ rest) := by rw [here]; simp [text]
    obtain ⟨behind, found, left⟩ := readName_append (c := c.step) r temp spelled.1 spelled.2
      (by simp [Cursor.step, first]) closed
    exact ⟨behind, by rw [read.eq_def]; simp only [first, Reading.fst_orStuck, found], left⟩
  | global name =>
    have first : c.rest = '@' :: (name.toList ++ rest) := by rw [here]; simp [text]
    obtain ⟨behind, found, left⟩ := readWord_append (c := c.step) r global spelled
      (by simp [Cursor.step, first]) closed
    exact ⟨behind, by rw [read.eq_def]; simp only [first, Reading.fst_orStuck, found], left⟩
  | label suffix =>
    simp only [isSpelled, Bool.and_eq_true, Bool.not_eq_true', List.isEmpty_eq_false_iff] at spelled
    have first : c.rest = '.' :: 'L' :: (suffix.toList ++ rest) := by rw [here]; simp [text]
    obtain ⟨behind, found, left⟩ := readName_append (c := c.step.step) r label spelled.1
      spelled.2 (by simp [Cursor.step, first]) closed
    exact ⟨behind, by rw [read.eq_def]; simp only [first, Reading.fst_orStuck, found], left⟩
  | number text => exact read_numberText r spelled here closed
  | word text =>
    simp only [isSpelled, Bool.and_eq_true, bne_iff_ne] at spelled
    obtain ⟨behind, found, left⟩ := read_wordText r spelled.1.1 here closed
    refine ⟨behind, ?_, left⟩
    rw [found, ofWord, if_neg spelled.1.2, if_neg spelled.2]
  | varKeyword => exact @read_wordText c rest r "var" (by decide) here closed
  | procKeyword => exact @read_wordText c rest r "proc" (by decide) here closed
  | mark m =>
    have first : c.rest = m :: rest := by rw [here]; simp [text]
    refine ⟨c.step, ?_, by simp [Cursor.step, first]⟩
    obtain ⟨noDigit, plain⟩ := isMark_cases (P := fun m => m.isDigit = false ∧ m ≠ '%' ∧ m ≠ '@' ∧
      m ≠ '.' ∧ m ≠ '-') (by decide) spelled
    have mark_ : isMark m = true := spelled
    rw [read_of_plain r first plain, noDigit, mark_]
    rfl

end Read

/-! ## Blanks -/

/-- Where no comment begins, only blanks are skipped. -/
theorem skipComments_eq {c : Cursor} (plain : ∀ more, (c.dropWhile isBlank).rest ≠ '/' :: more)
    (r : Record) : (skipComments c r).1 = c.dropWhile isBlank := by
  rw [skipComments]
  split
  · next h => exact absurd (congrArg Cursor.rest h) (plain _)
  · next h => exact absurd (congrArg Cursor.rest h) (plain _)
  · rfl

/-- A token begins with a character that is not skipped. -/
theorem exists_first {t : Token} (h : t.isSpelled = true) :
    ∃ c more, t.text.toList = c :: more ∧ isBlank c = false ∧ c ≠ '/' := by
  have word : ∀ text : String, isWordText text.toList = true →
      ∃ c more, text.toList = c :: more ∧ isBlank c = false ∧ c ≠ '/' := by
    intro text h
    obtain ⟨c, more, shape, start, -⟩ := exists_isWordStart h
    exact ⟨c, more, shape, not_isBlank_of_isNameChar (isNameChar_of_isWordChar
      (isWordChar_of_isWordStart start))⟩
  cases t with
  | temp name => exact ⟨'%', name.toList, by simp [text], by decide⟩
  | global name => exact ⟨'@', name.toList, by simp [text], by decide⟩
  | label suffix => exact ⟨'.', 'L' :: suffix.toList, by simp [text], by decide⟩
  | number text =>
    rw [isSpelled, isNumberText.eq_def] at h
    split at h
    · next digits shape => exact ⟨'-', digits, shape, by decide⟩
    · obtain ⟨d, more, shape, digit⟩ := exists_isDigit h
      exact ⟨d, more, shape, not_isBlank_of_isNameChar (isNameChar_of_isDigit digit)⟩
  | word text =>
    simp only [isSpelled, Bool.and_eq_true] at h
    exact word text h.1.1
  | varKeyword => exact word "var" (by decide)
  | procKeyword => exact word "proc" (by decide)
  | mark m =>
    exact ⟨m, [], by simp [text], isMark_cases (P := fun m => isBlank m = false ∧ m ≠ '/')
      (by decide) h⟩

end Token

/-! ## Whole texts -/

/-- A text spells tokens if it consists of their spellings, perhaps with blanks between them. -/
inductive Spells : List Char → List Token → Prop where
  | nil : Spells [] []
  | blank {c : Char} {text : List Char} {ts : List Token} (blank : isBlank c = true)
      (h : Spells text ts) : Spells (c :: text) ts
  | token {t : Token} {rest : List Char} {ts : List Token} (spelled : t.isSpelled = true)
      (closed : t.closedBy rest = true) (h : Spells rest ts) :
      Spells (t.text.toList ++ rest) (t :: ts)

namespace Spells

variable {text : List Char} {t : Token} {ts : List Token}

/-- A text without tokens is blank. -/
theorem dropWhile_isBlank_nil (h : Spells text []) : text.dropWhile isBlank = [] := by
  generalize none_ : ([] : List Token) = ts at h
  induction h with
  | nil => rfl
  | blank blank _ ih => rw [List.dropWhile_cons_of_pos blank, ih none_]
  | token => cases none_

/-- The first token stands behind blanks. -/
theorem exists_rest (h : Spells text (t :: ts)) :
    ∃ rest, text.dropWhile isBlank = t.text.toList ++ rest ∧ t.isSpelled = true ∧
      t.closedBy rest = true ∧ Spells rest ts := by
  generalize all : t :: ts = us at h
  induction h with
  | nil => cases all
  | blank blank _ ih =>
    rw [List.dropWhile_cons_of_pos blank]
    exact ih all
  | @token u rest us spelled closed h _ =>
    obtain ⟨rfl, rfl⟩ := List.cons.inj all
    refine ⟨rest, ?_, spelled, closed, h⟩
    obtain ⟨c, more, shape, plain, -⟩ := Token.exists_first spelled
    rw [shape, List.cons_append, List.dropWhile_cons_of_neg (by simp [plain])]

/-- Nothing but blanks is skipped. -/
theorem skipComments (h : Spells text ts) {c : Cursor} (here : c.rest = text) (r : Token.Record) :
    (Token.skipComments c r).1.rest = text.dropWhile isBlank := by
  have skipped : (c.dropWhile isBlank).rest = text.dropWhile isBlank := by rw [Cursor.dropWhile, here]
  rw [Token.skipComments_eq (fun more => ?_), skipped]
  rw [skipped]
  cases ts with
  | nil =>
    rw [h.dropWhile_isBlank_nil]
    exact fun e => by cases e
  | cons t ts =>
    obtain ⟨rest, first, spelled, -, -⟩ := h.exists_rest
    obtain ⟨d, more', shape, -, other⟩ := Token.exists_first spelled
    rw [first, shape, List.cons_append]
    exact fun e => other (List.cons.inj e).1

/-- Blanks in front make no difference. -/
theorem dropWhile_isBlank (h : Spells text ts) : Spells (text.dropWhile isBlank) ts := by
  cases ts with
  | nil =>
    rw [h.dropWhile_isBlank_nil]
    exact .nil
  | cons t ts =>
    obtain ⟨rest, first, spelled, closed, more⟩ := h.exists_rest
    rw [first]
    exact .token spelled closed more

end Spells

namespace Token

variable {c : Cursor} {text : List Char} {t : Token} {ts : List Token}

/-- The first token is read, with the blanks on both sides of it. -/
theorem attempt_of_spells (h : Spells text (t :: ts)) (here : c.rest = text) (r : Record) :
    ∃ found next, (attempt c r).1 = some (found, next) ∧ found.value = t ∧ Spells next.rest ts ∧
      (ts = [] → next.rest = []) := by
  obtain ⟨rest, first, spelled, closed, more⟩ := h.exists_rest
  have start := h.skipComments here r
  rw [first] at start
  obtain ⟨behind, reads, left⟩ := read_text (skipComments c r).2 spelled start closed
  have next := more.skipComments left
  simp only [attempt]
  cases reading : read (skipComments c r).1 (skipComments c r).2 with | mk found r'
  rw [reading] at reads
  obtain rfl : found = some (t, behind) := reads
  refine ⟨_, _, rfl, rfl, ?_, fun none_ => ?_⟩
  · rw [next]
    exact more.dropWhile_isBlank
  · subst none_
    rw [next, more.dropWhile_isBlank_nil]

/-- All tokens are read. -/
theorem scanFrom_of_spells (h : Spells text ts) (here : c.rest = text) (all : ts = [] → text = [])
    (r : Record) :
    ∃ found, scanFrom c r = ⟨some found, []⟩ ∧ found.map Located.value = ts := by
  induction ts generalizing c text r with
  | nil =>
    refine ⟨[], ?_, rfl⟩
    rw [scanFrom, if_pos (by rw [here, all rfl]; rfl)]
  | cons t ts ih =>
    obtain ⟨found, next, attempted, rfl, more, last⟩ := attempt_of_spells h here r
    have nonempty : c.rest.isEmpty = false := by
      cases rest : c.rest with
      | cons d more => rfl
      | nil =>
        obtain ⟨_, shape, spelled, -⟩ := h.exists_rest
        obtain ⟨_, _, first, -⟩ := exists_first spelled
        rw [← here, rest, first] at shape
        cases shape
    rw [scanFrom, nonempty]
    simp only [Bool.false_eq_true, if_false]
    split
    · next token next' r' reading =>
      rw [reading] at attempted
      obtain ⟨rfl, rfl⟩ := Prod.mk.inj (Option.some.inj attempted)
      obtain ⟨others, scanned, values⟩ := ih more rfl last r'
      refine ⟨token :: others, ?_, by rw [List.map_cons, values]⟩
      rw [scanned]
      rfl
    · next reading =>
      rw [reading] at attempted
      cases attempted

/-- A text is split into the tokens that it spells. -/
theorem scan_of_spells {source : String} (h : Spells source.toList ts) (all : ts = [] → source = "") :
    ∃ found, scan source = ⟨some found, []⟩ ∧ found.map Located.value = ts :=
  scanFrom_of_spells h rfl (fun none_ => by rw [all none_]; rfl) _

/-! ## Scanned tokens -/

section Scanned

variable {make : String → Token} {r : Record} {d : Cursor}

theorem all_takeWhile (p : Char → Bool) (l : List Char) : (l.takeWhile p).all p = true :=
  List.all_eq_true.2 fun _ h => List.mem_takeWhile_imp h

theorem of_readName (h : (readName make c r).1 = some (t, d)) : ∃ name : String, t = make name ∧
    (!name.toList.isEmpty && name.toList.all isNameChar) = true := by
  simp only [readName] at h
  have all := all_takeWhile isNameChar c.rest
  rw [← Cursor.takeWhile] at all
  cases taken : c.takeWhile isNameChar with
  | nil =>
    rw [taken] at h
    cases h
  | cons e more =>
    rw [taken] at h all
    cases h
    exact ⟨_, rfl, by simpa using all⟩

theorem of_readWord (h : (readWord make c r).1 = some (t, d)) : ∃ text : String, t = make text ∧
    isWordText text.toList = true := by
  rw [readWord] at h
  split at h
  · cases h
  · next e more shape =>
    split at h
    · next start =>
      cases h
      refine ⟨_, rfl, ?_⟩
      rw [String.toList_ofList, Cursor.takeWhile, shape,
        List.takeWhile_cons_of_pos (isWordChar_of_isWordStart start), isWordText, start,
        all_takeWhile]
      rfl
    · cases h

theorem of_readNumber {sign : String} (h : (readNumber sign c r).1 = some (t, d)) :
    ∃ digits, t = number (sign ++ String.ofList digits) ∧ isDigits digits = true := by
  rw [readNumber] at h
  split at h
  · cases h
  · next e more shape =>
    split at h
    · cases h
      exact ⟨['0'], rfl, rfl⟩
    · next zero =>
      split at h
      · next digit =>
        cases h
        refine ⟨_, rfl, ?_⟩
        rw [Cursor.takeWhile, shape, List.takeWhile_cons_of_pos digit, isDigits, if_neg zero, digit,
          all_takeWhile]
        rfl
      · cases h

/-- Whatever is read can stand in a text. -/
theorem isSpelled_of_read (h : (read c r).1 = some (t, d)) : t.isSpelled = true := by
  rw [read.eq_def] at h
  split at h
  · rw [Reading.fst_orStuck] at h
    obtain ⟨name, rfl, spelled⟩ := of_readName h
    exact spelled
  · rw [Reading.fst_orStuck] at h
    obtain ⟨name, rfl, spelled⟩ := of_readWord h
    exact spelled
  · rw [Reading.fst_orStuck] at h
    obtain ⟨suffix, rfl, spelled⟩ := of_readName h
    exact spelled
  · cases h
  · rw [Reading.fst_orStuck] at h
    obtain ⟨digits, rfl, spelled⟩ := of_readNumber h
    simpa [isSpelled, isNumberText] using spelled
  · split at h
    · obtain ⟨digits, rfl, spelled⟩ := of_readNumber h
      obtain ⟨e, more, shape, digit⟩ := exists_isDigit spelled
      rw [isSpelled, String.empty_append, String.toList_ofList, isNumberText.eq_def]
      split
      · exact absurd (List.cons.inj shape).1.symm (ne_sigil_of_isDigit digit).2.2.2
      · exact spelled
    · split at h
      · next mark_ =>
        cases h
        exact mark_
      · obtain ⟨text, rfl, spelled⟩ := of_readWord h
        rw [ofWord]
        split
        · rfl
        · next noVar =>
          split
          · rfl
          · next noProc => simp [isSpelled, spelled, noVar, noProc]
  · cases h

theorem isSpelled_of_attempt {found : Located Token} {next : Cursor}
    (h : (attempt c r).1 = some (found, next)) : found.value.isSpelled = true := by
  simp only [attempt] at h
  split at h
  · cases h
  · next token behind r' reading =>
    cases h
    exact isSpelled_of_read (congrArg Prod.fst reading)

theorem isSpelled_of_retry {offset : Nat} {text : List Char} {found : Located Token} {next : Cursor}
    (h : retry offset text = some (found, next, r)) : found.value.isSpelled = true := by
  induction text generalizing offset with
  | nil => cases h
  | cons e text ih =>
    simp only [retry] at h
    split at h
    · next tried =>
      cases h
      exact isSpelled_of_attempt (congrArg Prod.fst tried)
    · exact ih h

theorem isSpelled_of_scanFrom {found : List (Located Token)} (h : (scanFrom c r).tokens = some found) :
    ∀ t ∈ found, t.value.isSpelled = true := by
  have front : ∀ {token : Located Token} {s : Scan}, token.value.isSpelled = true →
      (∀ {found}, s.tokens = some found → ∀ t ∈ found, t.value.isSpelled = true) →
      ∀ {found}, (s.cons token).tokens = some found → ∀ t ∈ found, t.value.isSpelled = true := by
    intro token s spelled others found h t ht
    obtain ⟨rest, scanned, rfl⟩ := Option.map_eq_some_iff.1 h
    rcases List.mem_cons.1 ht with rfl | ht
    · exact spelled
    · exact others scanned t ht
  fun_induction scanFrom c r generalizing found with
  | case1 c r done =>
    cases h
    simp
  | case2 c r more token next r' tried _ ih =>
    exact front (isSpelled_of_attempt (congrArg Prod.fst tried)) ih h
  | case3 => cases h
  | case4 =>
    rename_i retried _ ih
    exact front (isSpelled_of_retry retried) ih h

/-- A text is split into tokens that can stand in it. -/
theorem isSpelled_of_scan {source : String} {found : List (Located Token)}
    (h : (scan source).tokens = some found) : ∀ t ∈ found, t.value.isSpelled = true :=
  isSpelled_of_scanFrom h

end Scanned

end Token

end ThreeAddress
