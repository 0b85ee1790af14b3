import Mathlib.Data.List.Forall2
import ThreeAddress.Proofs.Source.Instrs
/-!
# Written programs

A program is written as tokens, declaration by declaration, and read back from its text.

* `Program.isProper`, `Program.fits` : the programs that can be written;
* `Program.spells` : the text of a program spells its tokens;
* `Grammar.declarations_tokens` : the declarations are read from the tokens;
* `Program.parse_text` : the program is read from its text.
-/

namespace ThreeAddress

/-! ## Programs that can be written -/

namespace Proc

/-- Can the procedure be written, if no version is too great? -/
def isProper (q : Proc) : Bool :=
  q.name.isWritten && q.params.all Temp.isProper && q.body.all Instr.isProper

/-- Is no version of the procedure too great? -/
def fits (q : Proc) : Bool := q.params.all Temp.fits && q.body.all Instr.fits

end Proc

/-- What a program declares: a variable or a procedure. -/
abbrev Declared := GlobalVar ⊕ Proc

namespace Declared

/-- The name declared. -/
def name : Declared → Global
  | .inl g => g.name
  | .inr q => q.name

/-- Can the declaration be written? -/
def isWritten : Declared → Bool
  | .inl g => g.name.isWritten
  | .inr q => q.isProper && q.fits

/-- The tokens that the declaration is written as. -/
def tokens : Declared → List Token
  | .inl g => [.varKeyword, .global g.name.name, .mark '=', .number (wordText g.value), .mark ';']
  | .inr q =>
    .procKeyword :: .global q.name.name :: .mark '(' ::
      Token.separated (q.params.map fun p => [.temp p.name]) ++
        .mark ')' :: .mark ':' :: (q.body.map Instr.item).flatMap Item.tokens

/-- The text of the declaration. -/
def text : Declared → String
  | .inl g => "var " ++ g.name.text ++ " = " ++ wordText g.value ++ ";\n"
  | .inr q => q.text

end Declared

namespace Program

/-- What a program declares, in the order of the text. -/
def declared (p : Program) : List Declared := p.globals.map .inl ++ p.procs.map .inr

/-- Can the program be written, if no version is too great? -/
def isProper (p : Program) : Bool :=
  p.globals.all (fun g => g.name.isWritten) && p.procs.all Proc.isProper &&
    decide (p.declared.map Declared.name).Nodup

/-- Is no version of the program too great? -/
def fits (p : Program) : Bool := p.procs.all Proc.fits

theorem isProper_of_mem {p : Program} {q : Proc} (proper : p.isProper = true) (hq : q ∈ p.procs) :
    q.isProper = true := by
  rw [isProper, Bool.and_eq_true, Bool.and_eq_true] at proper
  exact List.all_eq_true.1 proper.1.2 q hq

end Program

/-! ## Spelling -/

namespace Spells

variable {rest : List Char} {ts : List Token}

/-- A line spells the item of its instruction. -/
theorem line {i : Instr} (written : i.item.isWritten = true) (h : Spells rest ts) :
    Spells ((Proc.line i).toList ++ rest) (i.item.tokens ++ ts) := by
  have whole := h.newline.item written
  rw [i.text_item] at whole
  cases i with
  | label l => simpa [Proc.line, Instr.text] using whole
  | _ => simpa [Proc.line] using whole.space.space

theorem lines {body : List Instr} (written : ∀ i ∈ body, i.item.isWritten = true)
    (h : Spells rest ts) : Spells ((String.join (body.map Proc.line)).toList ++ rest)
      ((body.map Instr.item).flatMap Item.tokens ++ ts) := by
  induction body with
  | nil => exact h
  | cons i body ih =>
    have more := ih fun j hj => written j (List.mem_cons_of_mem _ hj)
    have whole := more.line (written i List.mem_cons_self)
    simpa using whole

/-- The text of a declaration spells its tokens. -/
theorem declared {d : Declared} (written : d.isWritten = true) (h : Spells rest ts) :
    Spells (d.text.toList ++ rest) (d.tokens ++ ts) := by
  cases d with
  | inl g =>
    have value := (h.newline.mark (c := ';') (by rfl)).operand
      (o := .literal (wordText g.value)) (isNumberText_wordText _) (by rfl)
    have name := (value.space.mark (c := '=') (by rfl)).space.operand (o := .global g.name) written
      (by rfl)
    have whole := Spells.token (t := .varKeyword) (by rfl) (by rfl) name.space
    simpa [Declared.text, Declared.tokens, Token.text, Operand.token] using whole
  | inr q =>
    simp only [Declared.isWritten, Proc.isProper, Proc.fits, Bool.and_eq_true, List.all_eq_true]
      at written
    obtain ⟨⟨⟨name, params⟩, body⟩, ⟨params', body'⟩⟩ := written
    have lines := h.lines fun i hi => Instr.isWritten_item (body i hi) (body' i hi)
    have each : ∀ t ∈ q.params, ∀ {rest ts}, Token.endsBefore rest = true → Spells rest ts →
        Spells (t.text.toList ++ rest) ([.temp t.name] ++ ts) := fun t ht _ _ ends h =>
      h.operand (o := .temp t) (Bool.and_eq_true_iff.2 ⟨params t ht, params' t ht⟩) ends
    have head := (lines.newline.mark (c := ':') (by rfl)).mark (c := ')') (by rfl)
    have list := (head.intercalate each (by rfl)).mark (c := '(') (by rfl)
    have whole := (list.operand (o := .global q.name) name (by rfl)).space
    have keyword := Spells.token (t := .procKeyword) (by rfl) (by rfl) whole
    simpa [Declared.text, Declared.tokens, Proc.text, Token.text, Operand.token] using keyword

theorem declareds {ds : List Declared} (written : ∀ d ∈ ds, d.isWritten = true) :
    Spells (String.join (ds.map Declared.text)).toList (ds.flatMap Declared.tokens) := by
  induction ds with
  | nil => exact .nil
  | cons d ds ih =>
    have more := ih fun e he => written e (List.mem_cons_of_mem _ he)
    simpa using more.declared (written d List.mem_cons_self)

end Spells

namespace Grammar

variable {ts : Tokens} {more : List Token}

/-- Parameters are read up to the closing parenthesis. -/
theorem params_tokens {ps : List Temp} (written : ∀ p ∈ ps, p.isProper = true ∧ p.fits = true)
    (h : values ts = Token.separated (ps.map fun p => [.temp p.name]) ++ .mark ')' :: more) :
    ∃ left, params ts = .ok (ps, left) ∧ values left = more := by
  induction ps generalizing ts with
  | nil =>
    obtain ⟨_, left, rfl, h₁⟩ := values_eq_cons.1 h
    exact ⟨left, by simp [params], h₁⟩
  | cons p ps ih =>
    obtain ⟨proper, fits⟩ := written p List.mem_cons_self
    have reads : temp? (.temp p.name) = some p := Temp.ofText?_name proper fits
    cases ps with
    | nil =>
      obtain ⟨_, _, rfl, h₁⟩ := values_eq_cons.1 h
      obtain ⟨_, left, rfl, h₂⟩ := values_eq_cons.1 h₁
      exact ⟨left, by simp [params, reads], h₂⟩
    | cons p' ps =>
      rw [List.map_cons, List.map_cons, separated_cons_cons, List.append_assoc,
        List.cons_append] at h
      obtain ⟨_, _, rfl, h₁⟩ := values_eq_cons.1 h
      obtain ⟨_, _, rfl, h₂⟩ := values_eq_cons.1 h₁
      obtain ⟨left, others, left_values⟩ :=
        ih (fun q hq => written q (List.mem_cons_of_mem _ hq)) h₂
      refine ⟨left, ?_, left_values⟩
      rw [params]
      simp [reads, others, bind, Except.bind, pure, Except.pure]

/-- What is read is sound, and declares what was written. -/
structure Declares (d : Located Declaration) (s : Declared) : Prop where
  name : d.value.name = s.name
  sound : Declaration.problems d = []
  var : d.value.var? = s.getLeft?
  proc : d.value.proc? = s.getRight?

/-- Items that make instructions have no problems, and are the instructions. -/
theorem build_items {is : List (Located Item)} {body : List Instr}
    (proper : ∀ i ∈ body, i.isProper = true) (h : is.map Located.value = body.map Instr.item) :
    is.filterMap (fun i => i.value.build.toOption) = body ∧
      is.filterMap (fun i => i.value.problem?.map fun p => (⟨p, i.span⟩ : Diagnostic)) = [] := by
  induction body generalizing is with
  | nil =>
    obtain rfl := List.map_eq_nil_iff.1 h
    exact ⟨rfl, rfl⟩
  | cons i body ih =>
    obtain ⟨found, rest, rfl, value, h⟩ := List.map_eq_cons_iff.1 h
    have builds := Instr.build_item (proper i List.mem_cons_self)
    obtain ⟨made, sound⟩ := ih (fun j hj => proper j (List.mem_cons_of_mem _ hj)) h
    constructor
    · rw [List.filterMap_cons_some (by rw [value, builds]; rfl), made]
    · rw [List.filterMap_cons_none (by rw [Item.problem?, value, builds]; rfl), sound]

/-- A declaration is read from its tokens. -/
theorem declaration_tokens {s : Declared} (written : s.isWritten = true)
    (h : values ts = s.tokens ++ more)
    (ends : ∀ t ∈ more.head?, t = .varKeyword ∨ t = .procKeyword) :
    ∃ d left, declaration ts = .ok (d, left) ∧ Declares d s ∧ values left = more := by
  cases s with
  | inl g =>
    obtain ⟨span, _, rfl, h₁⟩ := values_eq_cons.1 h
    obtain ⟨_, _, rfl, h₂⟩ := values_eq_cons.1 h₁
    obtain ⟨_, _, equals, h₃⟩ := mark_tokens h₂
    obtain ⟨_, _, rfl, h₄⟩ := values_eq_cons.1 h₃
    obtain ⟨last, left, semicolon, h₅⟩ := mark_tokens h₄
    refine ⟨⟨.var g.name (wordText g.value), ⟨span.start, last.stop⟩⟩, left, ?_, ?_, h₅⟩
    · simp [declaration, globalName, equals, number, semicolon, bind, Except.bind, pure, Except.pure]
    · refine ⟨rfl, ?_, ?_, rfl⟩ <;>
        simp [Declaration.problems, Declaration.var?, Literal.parse_wordText, Except.toOption]
  | inr q =>
    simp only [Declared.isWritten, Proc.isProper, Proc.fits, Bool.and_eq_true, List.all_eq_true]
      at written
    obtain ⟨⟨⟨-, params⟩, body⟩, ⟨params', body'⟩⟩ := written
    have h : values ts = .procKeyword :: .global q.name.name :: .mark '(' ::
        (Token.separated (q.params.map fun p => [.temp p.name]) ++ .mark ')' :: .mark ':' ::
          ((q.body.map Instr.item).flatMap Item.tokens ++ more)) := by
      rw [h, Declared.tokens]
      simp
    obtain ⟨span, _, rfl, h₁⟩ := values_eq_cons.1 h
    obtain ⟨_, _, rfl, h₂⟩ := values_eq_cons.1 h₁
    obtain ⟨_, _, opens, h₃⟩ := mark_tokens h₂
    obtain ⟨_, reads, h₄⟩ := params_tokens (fun t ht => ⟨params t ht, params' t ht⟩) h₃
    obtain ⟨colon, _, colon_, h₅⟩ := mark_tokens h₄
    obtain ⟨found, left, reads', values_, h₆⟩ := items_tokens (fun i hi => by
      obtain ⟨j, hj, rfl⟩ := List.mem_map.1 hi
      exact Instr.isWritten_item (body j hj) (body' j hj)) h₅ ends
    obtain ⟨made, sound⟩ := build_items body values_
    refine ⟨⟨.proc q.name q.params found,
      ⟨span.start, ((found.getLast?.map Located.span).getD colon).stop⟩⟩, left, ?_, ?_, h₆⟩
    · simp [declaration, globalName, opens, reads, colon_, reads', bind, Except.bind, pure,
        Except.pure]
    · refine ⟨rfl, sound, rfl, ?_⟩
      rw [Declaration.proc?, made]
      rfl

/-- Declarations are read from their tokens. -/
theorem declarations_tokens {ss : List Declared} (written : ∀ s ∈ ss, s.isWritten = true)
    (h : values ts = ss.flatMap Declared.tokens) :
    ∃ ds, declarations ts = .ok ds ∧ List.Forall₂ Declares ds ss := by
  induction ss generalizing ts with
  | nil =>
    obtain rfl : ts = [] := List.map_eq_nil_iff.1 h
    exact ⟨[], by rw [declarations]; rfl, .nil⟩
  | cons s ss ih =>
    have next : ∀ t ∈ (ss.flatMap Declared.tokens).head?, t = .varKeyword ∨ t = .procKeyword := by
      intro t ht
      rcases ss with _ | ⟨_ | _, ss⟩
      · cases ht
      · cases ht
        exact .inl rfl
      · cases ht
        exact .inr rfl
    obtain ⟨d, left, reads, declares, h⟩ :=
      declaration_tokens (written s List.mem_cons_self) h next
    obtain ⟨ds, reads', declare⟩ := ih (fun r hr => written r (List.mem_cons_of_mem _ hr)) h
    refine ⟨d :: ds, ?_, .cons declares declare⟩
    have nonempty : ts.isEmpty = false := by
      cases ts with
      | nil => cases reads
      | cons t rest => rfl
    rw [declarations, nonempty]
    simp only [Bool.false_eq_true, if_false]
    split
    · next found =>
      rw [reads] at found
      cases found
      rw [reads']
      rfl
    · next found =>
      rw [reads] at found
      cases found

end Grammar

/-! ## Checking -/

/-- Sound declarations of different names have no problems. -/
theorem diagnose_eq_nil {ds : List (Located Declaration)} {ss : List Declared}
    (declare : List.Forall₂ Grammar.Declares ds ss) {names : List Global}
    (once : (ss.map Declared.name).Nodup) (fresh : ∀ n ∈ ss.map Declared.name, n ∉ names) :
    diagnose names ds = [] := by
  induction declare generalizing names with
  | nil => rfl
  | @cons d s ds ss declares _ ih =>
    rw [List.map_cons] at once fresh
    obtain ⟨other, once⟩ := List.nodup_cons.1 once
    rw [diagnose, declares.name, declares.sound, if_neg (fresh _ List.mem_cons_self), ih once]
    · rfl
    · intro n hn mem
      rcases List.mem_cons.1 mem with rfl | mem
      · exact other hn
      · exact fresh n (List.mem_cons_of_mem _ hn) mem

theorem filterMap_declare {α : Type} {f : Located Declaration → Option α} {f' : Declared → Option α}
    (same : ∀ d s, Grammar.Declares d s → f d = f' s) {ds : List (Located Declaration)}
    {ss : List Declared} (declare : List.Forall₂ Grammar.Declares ds ss) :
    ds.filterMap f = ss.filterMap f' := by
  induction declare with
  | nil => rfl
  | cons declares _ ih => rw [List.filterMap_cons, List.filterMap_cons, same _ _ declares, ih]

namespace Program

theorem text_declared (p : Program) : p.text = String.join (p.declared.map Declared.text) := by
  rw [declared, List.map_append, List.map_map, List.map_map, ← String.toList_inj]
  simp [text, Declared.text, Function.comp_def]

theorem filterMap_declared (p : Program) :
    p.declared.filterMap Sum.getLeft? = p.globals ∧ p.declared.filterMap Sum.getRight? = p.procs := by
  rw [declared, List.filterMap_append, List.filterMap_append]
  simp [Function.comp_def]

/-- A program is read from its text. -/
theorem parse_text {p : Program} (proper : p.isProper = true) (small : p.fits = true) :
    parse p.text = .ok p := by
  simp only [isProper, fits, Bool.and_eq_true, List.all_eq_true, decide_eq_true_eq] at proper small
  obtain ⟨⟨globals, procs⟩, once⟩ := proper
  have written : ∀ d ∈ p.declared, d.isWritten = true := by
    intro d hd
    rcases List.mem_append.1 hd with hd | hd
    · obtain ⟨g, hg, rfl⟩ := List.mem_map.1 hd
      exact globals g hg
    · obtain ⟨q, hq, rfl⟩ := List.mem_map.1 hd
      exact Bool.and_eq_true_iff.2 ⟨procs q hq, small q hq⟩
  have spells := Spells.declareds written
  rw [← p.text_declared] at spells
  obtain ⟨ts, scanned, values⟩ := Token.scan_of_spells spells fun none_ => by
    rw [p.text_declared]
    cases all : p.declared with
    | nil => rfl
    | cons d ds =>
      rw [all] at none_
      cases d <;> cases none_
  obtain ⟨ds, reads, declare⟩ := Grammar.declarations_tokens written values
  have sound := diagnose_eq_nil declare once fun _ _ => List.not_mem_nil
  have globals_ := filterMap_declare (fun _ _ h => h.var) declare
  have procs_ := filterMap_declare (fun _ _ h => h.proc) declare
  obtain ⟨left, right⟩ := p.filterMap_declared
  rw [parse, ofScan, scanned]
  simp only [reads, List.map_nil, List.isEmpty_nil, if_true, ofDeclarations, sound]
  rw [globals_, procs_, left, right]

end Program

end ThreeAddress
