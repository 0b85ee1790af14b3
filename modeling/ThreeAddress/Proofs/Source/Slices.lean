import ThreeAddress.Proofs.Source.Layout
import ThreeAddress.Proofs.Source.Parsing
/-!
# The text of a phrase

Tokens that follow each other in a text stand in one piece of it. The piece begins with the first of
them, ends with the last, and has nothing but gaps between them.

* `Span.Covers` : the piece of a text that consists of given tokens;
* `Laid.exists_piece` : the piece is found wherever the tokens stand;
* `Grammar.covers_extent` : the extent of a phrase covers its tokens.
-/

namespace ThreeAddress

open Grammar (extent extent_append)

namespace Laid

variable {skipping : Prop} {offset : Nat} {text : List Char} {t : Located Token}
  {front ts back : List (Located Token)}

/-- What stands in front of some of the tokens can be cut off. -/
theorem exists_behind (h : Laid skipping offset text (front ++ ts)) :
    ∃ before rest, text = before ++ rest ∧ Laid skipping (offset + byteSize before) rest ts := by
  induction front generalizing offset text with
  | nil => exact ⟨[], text, rfl, h⟩
  | cons t front ih =>
    cases h with
    | @token _ gap rest _ _ _ _ start stop more =>
      obtain ⟨before, rest, rfl, laid⟩ := ih more
      refine ⟨gap ++ (t.value.text.toList ++ before), rest, by simp, ?_⟩
      rw [stop, start] at laid
      simpa only [byteSize_append, Nat.add_assoc] using laid

/-- The gap in front of the first token can be cut off. -/
theorem exists_first (h : Laid skipping offset text (t :: ts)) :
    ∃ gap rest, text = gap ++ rest ∧ t.span.start = offset + byteSize gap ∧
      Laid skipping t.span.start rest (t :: ts) := by
  cases h with
  | @token _ gap rest _ _ _ nonempty start stop more =>
    exact ⟨gap, _, rfl, start, .token .nil nonempty rfl stop more⟩

/-- What stands behind the last of some tokens can be cut off. -/
theorem exists_upto (h : Laid skipping offset text (t :: ts ++ back)) :
    ∃ piece rest, text = piece ++ rest ∧ (extent (t :: ts)).stop = offset + byteSize piece ∧
      Laid skipping offset piece (t :: ts) := by
  induction ts generalizing offset text t with
  | nil =>
    cases h with
    | @token _ gap rest _ _ gap_ nonempty start stop more =>
      refine ⟨gap ++ (t.value.text.toList ++ []), rest, by simp, ?_,
        .token gap_ nonempty start stop (.done .nil)⟩
      show t.span.stop = _
      rw [stop, start, List.append_nil, byteSize_append, Nat.add_assoc]
  | cons u ts ih =>
    cases h with
    | @token _ gap rest _ _ gap_ nonempty start stop more =>
      obtain ⟨piece, rest, rfl, stop', laid⟩ := ih more
      refine ⟨gap ++ (t.value.text.toList ++ piece), rest, by simp, ?_,
        .token gap_ nonempty start stop laid⟩
      have whole : extent (t :: u :: ts) = ⟨(extent [t]).start, (extent (u :: ts)).stop⟩ :=
        extent_append (List.cons_ne_nil t []) (List.cons_ne_nil u ts)
      rw [whole, stop', stop, start]
      simp only [byteSize_append, Nat.add_assoc]

/-- Tokens that follow each other stand in one piece of the text. -/
theorem exists_piece (h : Laid skipping offset text (front ++ t :: ts ++ back)) :
    ∃ before piece after, text = before ++ piece ++ after ∧
      (extent (t :: ts)).start = offset + byteSize before ∧
      (extent (t :: ts)).stop = (extent (t :: ts)).start + byteSize piece ∧
      Laid skipping (extent (t :: ts)).start piece (t :: ts) := by
  rw [List.append_assoc] at h
  obtain ⟨before, rest, rfl, laid⟩ := h.exists_behind
  obtain ⟨gap, rest, rfl, start, laid⟩ := laid.exists_first
  obtain ⟨piece, after, rfl, stop, laid⟩ := laid.exists_upto
  refine ⟨before ++ gap, piece, after, by simp, ?_, stop, laid⟩
  rw [byteSize_append, ← Nat.add_assoc]
  exact start

end Laid

/-- At the span stand these tokens, from the beginning of the first to the end of the last, with blanks
and comments between them. -/
def Span.Covers (source : String) (s : Span) (ts : List (Located Token)) : Prop :=
  s = extent ts ∧ ∃ piece, s.Holds source piece ∧ Laid False s.start piece.toList ts

namespace Grammar

variable {source : String} {all ts : Tokens}

theorem covers_extent (laid : Laid False 0 source.toList all) (part : ts <:+: all)
    (nonempty : ts ≠ []) : (extent ts).Covers source ts := by
  obtain ⟨front, back, rfl⟩ := part
  cases ts with
  | nil => exact absurd rfl nonempty
  | cons t ts =>
    obtain ⟨before, piece, after, split, start, stop, laid⟩ := laid.exists_piece
    rw [Nat.zero_add] at start
    refine ⟨rfl, .ofList piece, Span.holds_of_split split start stop, ?_⟩
    rwa [String.toList_ofList]

/-- The tokens of a member stand within those of the list. -/
theorem tokens_within {α : Type} [Phrase α] {a : α} {l : List α} (mem : a ∈ l) :
    tokens a <:+: tokens l := by
  obtain ⟨front, back, rfl⟩ := List.append_of_mem mem
  exact ⟨tokens front, tokens back, by simp⟩

end Grammar

end ThreeAddress
