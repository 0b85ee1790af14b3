import ThreeAddress.Proofs.Instr.Literals
import ThreeAddress.Proofs.Source.Spelling
/-!
# Written names and numbers

A name or a number is written as one token, and read back from it.

* `Temp.isProper`, `Temp.fits` : the temporaries that can be written;
* `Temp.ofText?_name`, `Temp.of_ofText?` : they are the ones that are read, each from its name;
* `Literal.parse_wordText` : a word is read from its text.
-/

namespace ThreeAddress

/-! ## Numbers -/

theorem all_isDigit_toDigits (n : Nat) : (Nat.toDigits 10 n).all Char.isDigit = true :=
  List.all_eq_true.2 fun _ h => Nat.isDigit_of_mem_toDigits (by decide) (by decide) h

/-- A number other than zero is written without leading zeros. -/
theorem head?_toDigits {n : Nat} (h : n ≠ 0) : (Nat.toDigits 10 n).head? ≠ some '0' := by
  induction n using Nat.strongRecOn with
  | ind n ih =>
    by_cases small : n < 10
    · have digit : ∀ n < 10, n ≠ 0 → n.digitChar ≠ '0' := by decide
      rw [Nat.toDigits_of_lt_base small]
      exact fun e => digit n small h (Option.some.inj e)
    · have before := ih (n / 10) (by omega) (by omega)
      rw [Nat.toDigits_of_base_le (by decide) (by omega)]
      cases shape : Nat.toDigits 10 (n / 10) with
      | nil => exact absurd shape Nat.toDigits_ne_nil
      | cons d more => rwa [shape] at before

theorem isDigits_toDigits (n : Nat) : Token.isDigits (Nat.toDigits 10 n) = true := by
  by_cases zero : n = 0
  · subst zero
    rfl
  · have all := all_isDigit_toDigits n
    have head := head?_toDigits zero
    cases shape : Nat.toDigits 10 n with
    | nil => exact absurd shape Nat.toDigits_ne_nil
    | cons d more =>
      rw [shape] at all head
      rw [Token.isDigits, if_neg fun first => head (by rw [first]; rfl), ← List.all_cons]
      exact all

/-- A number has no sign. -/
theorem exists_digits (n : Nat) : ∃ d more, (decimalText n).toList = d :: more ∧ d ≠ '-' ∧
    (d :: more).all Char.isDigit = true ∧ Token.isDigits (d :: more) = true := by
  rw [decimalText, String.toList_ofList]
  obtain ⟨d, more, shape, digit⟩ := Token.exists_isDigit (isDigits_toDigits n)
  rw [shape]
  exact ⟨d, more, rfl, (Token.ne_sigil_of_isDigit digit).2.2.2, shape ▸ all_isDigit_toDigits n,
    shape ▸ isDigits_toDigits n⟩

theorem isNumberText_decimalText (n : Nat) : Token.isNumberText (decimalText n).toList = true := by
  obtain ⟨d, more, shape, plain, -, digits⟩ := exists_digits n
  rw [shape, Token.isNumberText.eq_def]
  split
  · next e => exact absurd (List.cons.inj e).1 plain
  · exact digits

theorem isNumberText_wordText (w : Word) : Token.isNumberText (wordText w).toList = true := by
  rw [wordText, integerText]
  split
  · simpa [decimalText, Token.isNumberText] using isDigits_toDigits w.toInt.natAbs
  · exact isNumberText_decimalText _

namespace Literal

theorem integer?_decimalText (n : Nat) : integer? (decimalText n) = some (n : Int) := by
  obtain ⟨d, more, shape, plain, all, -⟩ := exists_digits n
  have value := decimalValue_decimalText n
  rw [shape] at value
  rw [integer?, shape]
  split
  · next e => exact absurd (List.cons.inj e).1 plain
  · rw [all, value]
    rfl

theorem integer?_integerText (i : Int) : integer? (integerText i) = some i := by
  rw [integerText]
  split
  · next negative =>
    obtain ⟨d, more, shape, -, all, -⟩ := exists_digits i.natAbs
    have value := decimalValue_decimalText i.natAbs
    rw [shape] at value
    have text : ("-" ++ decimalText i.natAbs).toList = '-' :: d :: more := by
      rw [String.toList_append, shape]
      rfl
    rw [integer?, text]
    simp only [all, value]
    exact congrArg some (by omega)
  · rw [integer?_decimalText]
    exact congrArg some (by omega)

theorem denotes_decimalText (n : Nat) : Denotes (decimalText n) n :=
  integer?_eq_some_iff.1 (integer?_decimalText n)

theorem denotes_wordText (w : Word) : Denotes (wordText w) w.toInt :=
  integer?_eq_some_iff.1 (integer?_integerText w.toInt)

/-- A word is read from its text. -/
theorem parse_wordText (w : Word) : parse (wordText w) = .ok w :=
  parse_eq_ok_iff.2 (denotes_wordText w)

end Literal

/-! ## Temporaries -/

namespace Temp

/-- The name without the sigil. -/
def name (t : Temp) : String :=
  match t.version with
  | none => t.root
  | some v => t.root ++ "." ++ decimalText v

theorem text_eq (t : Temp) : t.text = (Token.temp t.name).text := by
  obtain ⟨root, _ | v⟩ := t
  · rfl
  · simp [text, name, Token.text, String.append_assoc]

/-- Is this a temporary that can have versions? -/
def isNamed (t : Temp) : Bool := isRoot t.root.toList && t.root != "_"

theorem ne_sink_of_isNamed {t : Temp} (named : t.isNamed = true) : t ≠ .sink := by
  rintro rfl
  simp [isNamed, sink] at named

theorem not_isSink_of_isNamed {t : Temp} (named : t.isNamed = true) : t.isSink = false :=
  beq_eq_false_iff_ne.2 (ne_sink_of_isNamed named)

/-- Is this a temporary that can be written, if its version is not too great? -/
def isProper (t : Temp) : Bool := t.isSink || t.isNamed

/-- Is the version not too great? -/
def fits (t : Temp) : Bool := t.version.all (· ≤ maxVersion)

theorem isRoot_cases {l : List Char} (h : isRoot l = true) :
    l ≠ [] ∧ l.all Token.isWordChar = true := by
  cases l with
  | nil => cases h
  | cons c rest =>
    refine ⟨List.cons_ne_nil _ _, ?_⟩
    rw [isRoot] at h
    rw [List.all_cons, Bool.and_eq_true]
    split at h
    · next letter => exact ⟨by simp [Token.isWordChar, Char.isAlphanum, letter], h⟩
    · split at h
      · next alone =>
        rw [Bool.or_eq_true, beq_iff_eq, beq_iff_eq] at alone
        obtain rfl := List.isEmpty_iff.1 h
        exact ⟨by rcases alone with rfl | rfl <;> rfl, rfl⟩
      · obtain ⟨digit, digits⟩ := Bool.and_eq_true_iff.1 h
        have word : ∀ c : Char, c.isDigit = true → Token.isWordChar c = true := fun c h => by
          simp [Token.isWordChar, Char.isAlphanum, h]
        exact ⟨word c digit, List.all_eq_true.2 fun d hd => word d (List.all_eq_true.1 digits d hd)⟩

/-- The root of a temporary ends where its version begins. -/
theorem span_root {l : List Char} (h : isRoot l = true) (rest : List Char)
    (ends : rest.head?.all (· == '.') = true) :
    (l ++ rest).takeWhile (· != '.') = l ∧ (l ++ rest).dropWhile (· != '.') = rest := by
  have plain : ∀ c ∈ l, (c != '.') = true := fun c hc => by
    have word := List.all_eq_true.1 (isRoot_cases h).2 c hc
    rw [bne_iff_ne]
    rintro rfl
    cases word
  rw [List.takeWhile_append_of_pos plain, List.dropWhile_append_of_pos plain]
  cases rest with
  | nil => simp
  | cons c rest =>
    obtain rfl : c = '.' := by simpa using ends
    simp

theorem isRoot_of_isProper {t : Temp} (h : t.isProper = true) : isRoot t.root.toList = true := by
  rw [isProper, Bool.or_eq_true] at h
  rcases h with sink | named
  · rw [show t = Temp.sink from eq_of_beq sink]
    decide
  · exact (Bool.and_eq_true_iff.1 named).1

/-- A temporary is read from its name. -/
theorem ofText?_name {t : Temp} (proper : t.isProper = true) (fits : t.fits = true) :
    ofText? t.name = some t := by
  have root := isRoot_of_isProper proper
  obtain ⟨text, _ | v⟩ := t
  · obtain ⟨taken, dropped⟩ := span_root root [] rfl
    rw [List.append_nil] at taken dropped
    simp only [ofText?, name, taken, dropped, root, if_true, String.ofList_toList]
  · have digits := exists_digits v
    obtain ⟨d, more, shape, -, all, -⟩ := digits
    have value := decimalValue_decimalText v
    rw [shape] at value
    obtain ⟨taken, dropped⟩ := span_root root ('.' :: d :: more) rfl
    have chars : (text ++ "." ++ decimalText v).toList = text.toList ++ '.' :: d :: more := by
      simp [shape]
    have other : text ≠ "_" := by
      rintro rfl
      simp [isProper, isSink, isNamed, sink] at proper
    have small : v ≤ maxVersion := by simpa [Temp.fits] using fits
    have other' : (text.toList != ['_']) = true := by
      rw [bne_iff_ne]
      exact fun e => other (String.toList_inj.1 (e.trans rfl))
    simp only [ofText?, name, chars, taken, dropped, root, if_true, value, other', all, small]
    simp

/-- Whatever is read is a temporary that can be written. -/
theorem of_ofText? {text : String} {t : Temp} (h : ofText? text = some t) :
    t.isProper = true ∧ t.fits = true := by
  simp only [ofText?] at h
  split at h
  · next root =>
    split at h
    · cases h
      refine ⟨?_, rfl⟩
      rw [isProper, isNamed, String.toList_ofList, root, Bool.true_and, Bool.or_eq_true]
      by_cases sink_ : String.ofList (text.toList.takeWhile (· != '.')) = "_"
      · rw [sink_]
        exact .inl rfl
      · exact .inr (bne_iff_ne.2 sink_)
    · split at h
      · next dropped ok =>
        simp only [Bool.and_eq_true, bne_iff_ne, decide_eq_true_eq] at ok
        cases h
        refine ⟨?_, by simpa [Temp.fits] using ok.2⟩
        rw [isProper, isNamed, String.toList_ofList, root, Bool.true_and, Bool.or_eq_true]
        refine .inr (bne_iff_ne.2 fun same => ok.1.1.1 ?_)
        simpa using congrArg String.toList same
      · cases h
  · cases h

/-- The name of a temporary can stand in a text. -/
theorem isSpelled_name {t : Temp} (proper : t.isProper = true) : (Token.temp t.name).isSpelled = true := by
  obtain ⟨nonempty, all⟩ := isRoot_cases (isRoot_of_isProper proper)
  have word : ∀ c ∈ t.root.toList, Token.isNameChar c = true := fun c hc =>
    Token.isNameChar_of_isWordChar (List.all_eq_true.1 all c hc)
  rw [Token.isSpelled, Bool.and_eq_true, Bool.not_eq_true', List.isEmpty_eq_false_iff,
    List.all_eq_true]
  obtain ⟨root, _ | v⟩ := t
  · exact ⟨nonempty, word⟩
  · have chars : (Temp.name ⟨root, some v⟩).toList = root.toList ++ '.' :: Nat.toDigits 10 v := by
      simp [name, decimalText]
    rw [chars]
    refine ⟨by simp, fun c hc => ?_⟩
    rcases List.mem_append.1 hc with hc | hc
    · exact word c hc
    · rcases List.mem_cons.1 hc with rfl | hc
      · rfl
      · exact Token.isNameChar_of_isDigit (List.all_eq_true.1 (all_isDigit_toDigits v) c hc)

end Temp

end ThreeAddress
