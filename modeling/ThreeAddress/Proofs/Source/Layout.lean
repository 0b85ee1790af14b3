import Mathlib.Tactic.Common
import ThreeAddress.Proofs.Source.Spelling
/-!
# Where tokens stand in a text

Scanning loses nothing: a text is its tokens in order, each at its place, with gaps in front of them,
between them and behind them. If scanning notes no error then the gaps are blanks and comments.

* `Gap` : what can stand between tokens;
* `Laid` : a text as its tokens at their places, with the gaps;
* `Token.laid_of_scanFrom` : a text that is scanned is laid out as its tokens;
* `Span.Holds` : the piece of a text that stands at a span;
* `Token.scan_covers` : where the tokens of a text stand, and what stands outside of them.
-/

namespace ThreeAddress

/-! ## Sizes of texts -/

theorem byteSize_append (l m : List Char) : byteSize (l ++ m) = byteSize l + byteSize m := by
  induction l with
  | nil => simp [byteSize]
  | cons c l ih => simp only [List.cons_append, byteSize, ih, Nat.add_assoc]

/-- Characters have the size of the text that they make. -/
theorem byteSize_eq (l : List Char) : byteSize l = (String.ofList l).utf8ByteSize := by
  induction l with
  | nil => rfl
  | cons c l ih => simp [byteSize, ih, String.ofList_cons]

theorem byteSize_pos {l : List Char} (h : l ≠ []) : 0 < byteSize l := by
  cases l with
  | nil => exact absurd rfl h
  | cons c l => exact Nat.lt_of_lt_of_le c.utf8Size_pos (Nat.le_add_right _ _)

/-! ## Gaps -/

/-- What can stand between tokens: blanks, and comments up to the end of the line. The last line of a
text may end without a newline. Where scanning had to skip, anything can stand. -/
inductive Gap (skipping atEnd : Prop) : List Char → Prop where
  | nil : Gap skipping atEnd []
  | blank {c : Char} {gap : List Char} : isBlank c = true → Gap skipping atEnd gap →
      Gap skipping atEnd (c :: gap)
  | comment {line gap : List Char} : '\n' ∉ line → Gap skipping atEnd ('\n' :: gap) →
      Gap skipping atEnd ('/' :: '/' :: (line ++ '\n' :: gap))
  | lastComment {line : List Char} : '\n' ∉ line → atEnd → Gap skipping atEnd ('/' :: '/' :: line)
  | skipped {c : Char} {gap : List Char} : skipping → Gap skipping atEnd gap →
      Gap skipping atEnd (c :: gap)

namespace Gap

variable {skipping skipping' atEnd atEnd' : Prop} {gap more : List Char}

theorem mono (h : Gap skipping atEnd gap) (le : skipping → skipping') (end_ : atEnd → atEnd') :
    Gap skipping' atEnd' gap := by
  induction h with
  | nil => exact .nil
  | blank blank _ ih => exact .blank blank ih
  | comment line _ ih => exact .comment line ih
  | lastComment line last => exact .lastComment line (end_ last)
  | skipped skips _ ih => exact .skipped (le skips) ih

/-- A gap goes on with another one, unless it ends within a line. -/
theorem append (h : Gap skipping False gap) (rest : Gap skipping atEnd more) :
    Gap skipping atEnd (gap ++ more) := by
  induction h with
  | nil => exact rest
  | blank blank _ ih => exact .blank blank ih
  | comment line _ ih =>
    rw [List.cons_append, List.cons_append, List.append_assoc]
    exact .comment line ih
  | lastComment _ last => exact last.elim
  | skipped skips _ ih => exact .skipped skips ih

theorem of_blanks (h : ∀ c ∈ gap, isBlank c = true) : Gap skipping atEnd gap := by
  induction gap with
  | nil => exact .nil
  | cons c gap ih =>
    rw [List.forall_mem_cons] at h
    exact .blank h.1 (ih h.2)

end Gap

/-! ## Movement through a text -/

/-- Between the two places stands this piece of the text. -/
structure Cursor.Passes (c : Cursor) (piece : List Char) (d : Cursor) : Prop where
  rest : c.rest = piece ++ d.rest
  offset : d.offset = c.offset + byteSize piece

namespace Cursor.Passes

variable {c d e : Cursor} {piece more : List Char}

theorem refl (c : Cursor) : c.Passes [] c := ⟨rfl, rfl⟩

theorem trans (h : c.Passes piece d) (h' : d.Passes more e) : c.Passes (piece ++ more) e where
  rest := by rw [h.rest, h'.rest, List.append_assoc]
  offset := by rw [h'.offset, h.offset, byteSize_append, Nat.add_assoc]

theorem step {x : Char} {rest : List Char} (h : c.rest = x :: rest) : c.Passes [x] c.step where
  rest := by rw [h, Cursor.step, h]; rfl
  offset := by rw [Cursor.step, h]; rfl

theorem dropWhile (p : Char → Bool) (c : Cursor) : c.Passes (c.takeWhile p) (c.dropWhile p) where
  rest := List.takeWhile_append_dropWhile.symm
  offset := rfl

end Cursor.Passes

namespace Token

variable {c d : Cursor} {r : Record} {t : Token} {skipping : Prop}

/-- What stops a scan does not satisfy its test. -/
theorem not_of_mem_head? {p : Char → Bool} {x : Char}
    (h : x ∈ (c.dropWhile p).rest.head?) : p x = false := by
  have stops := List.head?_dropWhile_not p c.rest
  rw [Option.mem_def, Cursor.dropWhile] at h
  simpa only [h] using stops

/-- A comment is a gap together with what follows its line. -/
theorem gap_comment (line gap : List Char) {next : List Char} (line_ : '\n' ∉ line)
    (eol : ∀ x ∈ (gap ++ next).head?, x = '\n') (plain : ∀ x ∈ next.head?, isBlank x = false)
    (h : Gap skipping (next = []) gap) :
    Gap skipping (next = []) ('/' :: '/' :: (line ++ gap)) := by
  cases gap with
  | nil =>
    cases next with
    | nil =>
      rw [List.append_nil]
      exact .lastComment line_ rfl
    | cons x next =>
      -- a newline would have been skipped
      obtain rfl := eol x rfl
      cases plain '\n' rfl
  | cons x gap =>
    obtain rfl := eol x rfl
    exact .comment line_ h

/-- Only a gap is skipped, and no blank follows it. -/
theorem passes_skipComments (c : Cursor) (r : Record) :
    ∃ gap, c.Passes gap (skipComments c r).1 ∧ Gap skipping ((skipComments c r).1.rest = []) gap ∧
      ∀ x ∈ (skipComments c r).1.rest.head?, isBlank x = false := by
  have blanks (c : Cursor) : Gap skipping False (c.takeWhile isBlank) :=
    .of_blanks fun _ => List.mem_takeWhile_imp
  fun_induction skipComments c r with
  | case1 c r offset more h eol shorter ih =>
    have passes := Cursor.Passes.dropWhile isBlank c
    rw [h] at passes
    have slashes : (Cursor.mk offset ('/' :: '/' :: more)).Passes ['/', '/'] ⟨offset + 2, more⟩ :=
      ⟨rfl, rfl⟩
    have line : (Cursor.mk (offset + 2) more).Passes _ eol := .dropWhile _ _
    obtain ⟨gap, passes', gap_, plain⟩ := ih
    refine ⟨_, passes.trans (slashes.trans (line.trans passes')), ?_, plain⟩
    have oneLine : '\n' ∉ (Cursor.mk (offset + 2) more).takeWhile (· != '\n') := by
      intro newline
      simpa using List.mem_takeWhile_imp newline
    refine (blanks c).append (gap_comment _ gap oneLine ?_ plain gap_)
    intro x first
    rw [← passes'.rest] at first
    simpa using not_of_mem_head? first
  | case2 c r offset more other h =>
    refine ⟨_, h ▸ .dropWhile isBlank c, (blanks c).mono id False.elim, ?_⟩
    rw [← h]
    exact fun x => not_of_mem_head?
  | case3 c r =>
    exact ⟨_, .dropWhile isBlank c, (blanks c).mono id False.elim, fun x => not_of_mem_head?⟩

/-! ## One token -/

section Reading

variable {b : Cursor} {make : String → Token} (sigil : String)

theorem passes_readName (texts : ∀ name, (make name).text = sigil ++ name)
    (front : b.Passes sigil.toList c) (h : (readName make c r).1 = some (t, d)) :
    b.Passes t.text.toList d := by
  simp only [readName] at h
  split at h
  · cases h
  · next name _ =>
    cases h
    rw [texts, String.toList_append, String.toList_ofList]
    exact front.trans (.dropWhile isNameChar c)

theorem passes_readWord (texts : ∀ name, (make name).text = sigil ++ name)
    (front : b.Passes sigil.toList c) (h : (readWord make c r).1 = some (t, d)) :
    b.Passes t.text.toList d := by
  rw [readWord] at h
  split at h
  · cases h
  · split at h
    · cases h
      rw [texts, String.toList_append, String.toList_ofList]
      exact front.trans (.dropWhile isWordChar c)
    · cases h

theorem passes_readNumber (front : b.Passes sigil.toList c)
    (h : (readNumber sigil c r).1 = some (t, d)) : b.Passes t.text.toList d := by
  rw [readNumber] at h
  split at h
  · cases h
  · next e more shape =>
    split at h
    · next zero =>
      cases h
      rw [text, String.toList_append]
      exact front.trans (.step (zero ▸ shape))
    · split at h
      · cases h
        rw [text, String.toList_append, String.toList_ofList]
        exact front.trans (.dropWhile Char.isDigit c)
      · cases h

end Reading

theorem text_ofWord (word : String) : (ofWord word).text = "" ++ word := by
  rw [ofWord, String.empty_append]
  split
  · next same => exact same.symm
  · split
    · next same => exact same.symm
    · rfl

/-- What is read as a token is its spelling. -/
theorem passes_read (h : (read c r).1 = some (t, d)) : c.Passes t.text.toList d := by
  rw [read.eq_def] at h
  split at h
  · next shape =>
    rw [Reading.fst_orStuck] at h
    exact passes_readName "%" (fun _ => rfl) (.step shape) h
  · next shape =>
    rw [Reading.fst_orStuck] at h
    exact passes_readWord "@" (fun _ => rfl) (.step shape) h
  · next shape =>
    rw [Reading.fst_orStuck] at h
    have next := congrArg (List.drop 1) shape
    exact passes_readName ".L" (fun _ => rfl) (.trans (.step shape) (.step next)) h
  · cases h
  · next shape =>
    rw [Reading.fst_orStuck] at h
    exact passes_readNumber "-" (.step shape) h
  · next shape =>
    split at h
    · exact passes_readNumber "" (.refl c) h
    · split at h
      · cases h
        rw [text, String.toList_ofList]
        exact .step shape
      · exact passes_readWord "" text_ofWord (.refl c) h
  · cases h

end Token

/-! ## A whole text -/

/-- From the offset on, the text is these tokens, each at its place, with gaps around them. -/
inductive Laid (skipping : Prop) : Nat → List Char → List (Located Token) → Prop where
  | done {offset : Nat} {gap : List Char} : Gap skipping True gap → Laid skipping offset gap []
  | token {offset : Nat} {gap rest : List Char} {t : Located Token} {ts : List (Located Token)} :
      Gap skipping False gap → t.value.text.toList ≠ [] → t.span.start = offset + byteSize gap →
      t.span.stop = t.span.start + byteSize t.value.text.toList → Laid skipping t.span.stop rest ts →
      Laid skipping offset (gap ++ (t.value.text.toList ++ rest)) (t :: ts)

namespace Laid

variable {skipping skipping' : Prop} {offset : Nat} {text gap : List Char} {ts : List (Located Token)}

theorem mono (h : Laid skipping offset text ts) (le : skipping → skipping') :
    Laid skipping' offset text ts := by
  induction h with
  | done gap => exact .done (gap.mono le id)
  | token gap nonempty start stop _ ih => exact .token (gap.mono le id) nonempty start stop ih

/-- A gap in front makes no difference. -/
theorem prepend (h : Laid skipping (offset + byteSize gap) text ts)
    (gap_ : Gap skipping (text = []) gap) : Laid skipping offset (gap ++ text) ts := by
  cases h with
  | done last =>
    cases text with
    | nil =>
      rw [List.append_nil]
      exact .done (gap_.mono id fun _ => trivial)
    | cons c text => exact .done (.append (gap_.mono id nofun) last)
  | token gap' nonempty start stop more =>
    rw [← List.append_assoc]
    refine .token (.append (gap_.mono id ?_) gap') nonempty ?_ stop more
    · simp [nonempty]
    · rw [start, byteSize_append, Nat.add_assoc]

end Laid

namespace Token

variable {c next : Cursor} {r : Record} {t : Located Token} {ts : List (Located Token)}
  {skipping : Prop}

/-- One token is read at its place, with the gaps on both sides of it. -/
theorem laid_of_attempt (h : (attempt c r).1 = some (t, next))
    (more : Laid skipping next.offset next.rest ts) : Laid skipping c.offset c.rest (t :: ts) := by
  simp only [attempt] at h
  split at h
  · cases h
  · next token behind r' reading =>
    cases h
    have read_ : (read (skipComments c r).1 (skipComments c r).2).1 = some (token, behind) :=
      congrArg Prod.fst reading
    obtain ⟨front, passes, front_, -⟩ := @passes_skipComments skipping c r
    obtain ⟨back, passes', back_, -⟩ := @passes_skipComments skipping behind r'
    have spelling := passes_read read_
    have nonempty : token.text.toList ≠ [] := by
      obtain ⟨x, others, first, -⟩ := exists_first (isSpelled_of_read read_)
      simp [first]
    rw [passes'.offset] at more
    have rest := more.prepend back_
    rw [← passes'.rest] at rest
    have closed : Gap skipping False front := by
      refine front_.mono id fun end_ => nonempty ?_
      rw [spelling.rest] at end_
      exact (List.append_eq_nil_iff.1 end_).1
    rw [passes.rest, spelling.rest]
    exact @Laid.token skipping c.offset front behind.rest ⟨token, ⟨_, behind.offset⟩⟩ ts closed
      nonempty passes.offset spelling.offset rest

/-- Whatever is skipped before a token is read leaves no trace. -/
theorem laid_of_retry {offset : Nat} {text : List Char} (h : retry offset text = some (t, next, r))
    (more : Laid True next.offset next.rest ts) : Laid True offset text (t :: ts) := by
  induction text generalizing offset with
  | nil => cases h
  | cons e text ih =>
    have laid : Laid True (offset + e.utf8Size) text (t :: ts) := by
      simp only [retry] at h
      split at h
      · next tried =>
        cases h
        exact laid_of_attempt (congrArg Prod.fst tried) more
      · exact ih h
    have size : byteSize [e] = e.utf8Size := Nat.add_zero _
    rw [← size] at laid
    show Laid True offset ([e] ++ text) (t :: ts)
    exact laid.prepend (.skipped trivial .nil)

/-- A text that is scanned is laid out as its tokens, and where no error is noted nothing is
skipped. -/
theorem laid_of_scanFrom (h : (scanFrom c r).tokens = some ts) :
    Laid ((scanFrom c r).errors ≠ []) c.offset c.rest ts := by
  fun_induction scanFrom c r generalizing ts with
  | case1 c r done =>
    cases h
    rw [List.isEmpty_iff.1 done]
    exact .done .nil
  | case2 c r more token next r' tried _ ih =>
    obtain ⟨rest, scanned, rfl⟩ := Option.map_eq_some_iff.1 h
    exact laid_of_attempt (congrArg Prod.fst tried) (ih scanned)
  | case3 => cases h
  | case4 =>
    rename_i retried _ ih
    obtain ⟨rest, scanned, rfl⟩ := Option.map_eq_some_iff.1 h
    have laid := laid_of_retry retried ((ih scanned).mono fun _ => trivial)
    exact laid.mono fun _ => List.cons_ne_nil _ _

end Token

/-! ## Spans -/

/-- This piece of the text stands at the span, which begins and ends between characters. -/
def Span.Holds (text : String) (s : Span) (piece : String) : Prop :=
  ∃ front back, text = front ++ piece ++ back ∧ s.start = front.utf8ByteSize ∧
    s.stop = front.utf8ByteSize + piece.utf8ByteSize

theorem Span.holds_of_split {text : String} {s : Span} {front piece back : List Char}
    (split : text.toList = front ++ piece ++ back) (start : s.start = byteSize front)
    (stop : s.stop = s.start + byteSize piece) : s.Holds text (String.ofList piece) := by
  refine ⟨.ofList front, .ofList back, ?_, ?_, ?_⟩
  · rw [← String.ofList_append, ← String.ofList_append, ← split, String.ofList_toList]
  · rw [start, byteSize_eq]
  · rw [stop, start, byteSize_eq, byteSize_eq]

namespace Laid

variable {skipping : Prop} {offset : Nat} {text : List Char} {ts : List (Located Token)}
  {t : Located Token}

/-- Every token stands at its span. -/
theorem exists_split (h : Laid skipping offset text ts) (mem : t ∈ ts) :
    ∃ front back, text = front ++ t.value.text.toList ++ back ∧
      t.span.start = offset + byteSize front ∧
      t.span.stop = t.span.start + byteSize t.value.text.toList ∧ t.value.text.toList ≠ [] := by
  induction h with
  | done => cases mem
  | @token offset gap rest u ts gap_ nonempty start stop _ ih =>
    rcases List.mem_cons.1 mem with rfl | mem
    · exact ⟨gap, rest, by rw [List.append_assoc], start, stop, nonempty⟩
    · obtain ⟨front, back, rfl, start', more⟩ := ih mem
      refine ⟨gap ++ (u.value.text.toList ++ front), back, by simp only [List.append_assoc], ?_, more⟩
      simp only [byteSize_append, start', stop, start, Nat.add_assoc]

/-- One token stands behind another. -/
theorem pairwise (h : Laid skipping offset text ts) :
    ts.Pairwise fun t u => t.span.stop ≤ u.span.start := by
  induction h with
  | done => exact .nil
  | token _ _ _ _ more ih =>
    refine .cons (fun u mem => ?_) ih
    obtain ⟨front, back, -, start, -⟩ := more.exists_split mem
    exact Nat.le.intro start.symm

end Laid

/-- Scanning loses nothing. Each token stands at its span, which is not empty and begins and ends
between characters of the text, and the spans come one behind the other. If no error is noted then
outside of the spans there are only blanks and comments that run to the end of a line. -/
theorem Token.scan_covers {source : String} {tokens : List (Located Token)}
    (h : (scan source).tokens = some tokens) :
    (∀ t ∈ tokens, t.span.start < t.span.stop ∧ t.span.Holds source t.value.text) ∧
      tokens.Pairwise (fun t u => t.span.stop ≤ u.span.start) ∧
      ((scan source).errors = [] → Laid False 0 source.toList tokens) := by
  have laid : Laid ((scan source).errors ≠ []) 0 source.toList tokens := laid_of_scanFrom h
  refine ⟨fun t mem => ?_, laid.pairwise, fun clean => laid.mono fun errors => errors clean⟩
  obtain ⟨front, back, split, start, stop, nonempty⟩ := laid.exists_split mem
  rw [Nat.zero_add] at start
  constructor
  · rw [stop]
    exact Nat.lt_add_of_pos_right (byteSize_pos nonempty)
  · have holds := Span.holds_of_split split start stop
    rwa [String.ofList_toList] at holds

/-- Blanks, comments and characters of several bytes are passed over. -/
theorem Token.scan_covers_comments :
    Laid False 0 "// né\n ret ;//".toList [⟨.word "ret", ⟨8, 11⟩⟩, ⟨.mark ';', ⟨12, 13⟩⟩] := by
  have scanned : scan "// né\n ret ;//" =
    ⟨some [⟨.word "ret", ⟨8, 11⟩⟩, ⟨.mark ';', ⟨12, 13⟩⟩], []⟩ := by
    decide +kernel
  obtain ⟨-, -, laid⟩ := scan_covers (congrArg Scan.tokens scanned)
  exact laid (congrArg Scan.errors scanned)

end ThreeAddress
