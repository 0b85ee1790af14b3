import Mathlib.Tactic.Common
import ThreeAddress.Instr.Operand
/-!
# Literals

A literal is an integer in decimal digits, and it has a word for its value if the integer lies between
the least word and the greatest.

* `Literal.Denotes` : the integer that a text denotes;
* `Literal.parse_eq_ok_iff`, `Literal.exists_parse` : the literals that have a value;
* `Literal.of_parse_eq_literalOutOfRange` : the literals that are out of range.
-/

namespace ThreeAddress

namespace Literal

/-- The text is this integer: decimal digits, perhaps behind a minus sign. There may be any number of
digits, and leading zeros make no difference. -/
def Denotes (text : String) (n : Int) : Prop :=
  ∃ digits : List Char, digits ≠ [] ∧ (∀ d ∈ digits, d.isDigit = true) ∧
    (text.toList = digits ∧ n = decimalValue digits ∨
      text.toList = '-' :: digits ∧ n = -decimalValue digits)

variable {text : String} {n : Int} {w : Word}

/-- What is tested of the digits of a literal. -/
theorem digits_iff {digits : List Char} :
    (!digits.isEmpty && digits.all Char.isDigit) = true ↔
      digits ≠ [] ∧ ∀ d ∈ digits, d.isDigit = true := by
  rw [Bool.and_eq_true, Bool.not_eq_true', List.isEmpty_eq_false_iff, List.all_eq_true]

theorem integer?_eq_some_iff : integer? text = some n ↔ Denotes text n := by
  rw [integer?, Denotes]
  split
  · next digits shape =>
    rw [Option.ite_none_right_eq_some, digits_iff, Option.some.injEq]
    constructor
    · rintro ⟨⟨nonempty, all⟩, rfl⟩
      exact ⟨digits, nonempty, all, .inr ⟨shape, rfl⟩⟩
    · rintro ⟨digits', nonempty, all, ⟨same, -⟩ | ⟨same, rfl⟩⟩
      · -- a minus sign is no digit
        rw [shape] at same
        cases all '-' (same ▸ List.mem_cons_self)
      · rw [shape, List.cons.injEq] at same
        obtain ⟨-, rfl⟩ := same
        exact ⟨⟨nonempty, all⟩, rfl⟩
  · next plain =>
    rw [Option.ite_none_right_eq_some, digits_iff, Option.some.injEq]
    constructor
    · rintro ⟨⟨nonempty, all⟩, rfl⟩
      exact ⟨text.toList, nonempty, all, .inl ⟨rfl, rfl⟩⟩
    · rintro ⟨digits, nonempty, all, ⟨rfl, rfl⟩ | ⟨same, -⟩⟩
      · exact ⟨⟨nonempty, all⟩, rfl⟩
      · exact absurd same (plain digits)

/-- Every word lies between the bounds, and is the word of itself alone. -/
theorem word?_eq_some_iff : word? n = some w ↔ n = w.toInt := by
  rw [word?, Option.ite_none_right_eq_some, Option.some.injEq]
  constructor
  · rintro ⟨⟨lower, upper⟩, rfl⟩
    exact (Int64.toInt_ofInt_of_le lower (Int.lt_add_one_of_le upper)).symm
  · rintro rfl
    exact ⟨⟨w.le_toInt, Int.le_of_lt_add_one w.toInt_lt⟩, Int64.ofInt_toInt w⟩

theorem parse_eq_ok_iff : parse text = .ok w ↔ Denotes text w.toInt := by
  rw [parse, ← integer?_eq_some_iff]
  cases integer? text with
  | none => simp
  | some i =>
    simp only [Option.some.injEq, ← word?_eq_some_iff]
    cases word? i <;> simp

/-- An integer between the bounds is a word. -/
theorem exists_parse (denotes : Denotes text n) (lower : least ≤ n) (upper : n ≤ greatest) :
    ∃ w, parse text = .ok w ∧ w.toInt = n := by
  have same : (Int64.ofInt n).toInt = n :=
    Int64.toInt_ofInt_of_le lower (Int.lt_add_one_of_le upper)
  exact ⟨Int64.ofInt n, parse_eq_ok_iff.2 (same.symm ▸ denotes), same⟩

/-- A literal is out of range if it is an integer and no word has its value. -/
theorem of_parse_eq_literalOutOfRange {literal : String}
    (h : parse text = .error (.literalOutOfRange literal)) :
    literal = text ∧ ∃ n, Denotes text n ∧ (n < least ∨ greatest < n) := by
  rw [parse] at h
  split at h
  · cases h
  · next i integer =>
    split at h
    · next outside =>
      cases h
      refine ⟨rfl, i, integer?_eq_some_iff.1 integer, ?_⟩
      rw [word?] at outside
      split at outside
      · cases outside
      · omega
    · cases h

end Literal

end ThreeAddress
