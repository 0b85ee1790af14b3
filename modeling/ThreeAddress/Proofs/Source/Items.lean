import ThreeAddress.Proofs.Source.Names
import ThreeAddress.Source.Grammar
/-!
# Written items

An item is written as tokens, with a comma between the operands. The text spells these tokens, and
the grammar reads the item from them.

* `Item.tokens`, `Item.text` : the written form;
* `Item.isWritten` : are all names and numbers of an item such as can be written?
* `Item.spells` : the text of an item spells its tokens;
* `Grammar.items_tokens` : items are read from their tokens.
-/

namespace ThreeAddress

/-! ## Tokens of items -/

/-- Can the name be written? -/
def Global.isWritten (g : Global) : Bool := Token.isWordText g.name.toList

/-- Can the label be written? -/
def Label.isWritten (l : Label) : Bool := (Token.label l.suffix).isSpelled

namespace Operand

/-- The token that an operand is written as. -/
def token : Operand → Token
  | temp t => .temp t.name
  | global g => .global g.name
  | label l => .label l.suffix
  | literal text => .number text

/-- Can the operand be written? -/
def isWritten : Operand → Bool
  | temp t => t.isProper && t.fits
  | global g => g.isWritten
  | label l => l.isWritten
  | literal text => Token.isNumberText text.toList

@[simp] theorem text_temp (t : Temp) : (temp t).text = t.text := rfl

@[simp] theorem text_global (g : Global) : (global g).text = g.text := rfl

@[simp] theorem text_label (l : Label) : (label l).text = l.text := rfl

@[simp] theorem text_literal (s : String) : (literal s).text = s := rfl

@[simp] theorem isWritten_temp (t : Temp) : (temp t).isWritten = (t.isProper && t.fits) := rfl

@[simp] theorem isWritten_global (g : Global) : (global g).isWritten = g.isWritten := rfl

@[simp] theorem isWritten_label (l : Label) : (label l).isWritten = l.isWritten := rfl

@[simp] theorem isWritten_literal (s : String) :
    (literal s).isWritten = Token.isNumberText s.toList := rfl

variable {o : Operand}

theorem text_eq (o : Operand) : o.text = o.token.text := by
  cases o with
  | temp t => exact t.text_eq
  | _ => rfl

theorem isSpelled_token (h : o.isWritten = true) : o.token.isSpelled = true := by
  cases o with
  | temp t => exact Temp.isSpelled_name (Bool.and_eq_true_iff.1 h).1
  | _ => exact h

/-- An operand is read from its token. -/
theorem operand?_token (h : o.isWritten = true) : Grammar.operand? o.token = some o := by
  cases o with
  | temp t =>
    obtain ⟨proper, fits⟩ := Bool.and_eq_true_iff.1 h
    rw [token, Grammar.operand?, Temp.ofText?_name proper fits]
    rfl
  | _ => rfl

end Operand

namespace Origin

/-- The token that an edge is written as. -/
def token : Origin → Token
  | entry => .word "entry"
  | block l => .label l.suffix

/-- Can the edge be written? -/
def isWritten : Origin → Bool
  | entry => true
  | block l => l.isWritten

theorem text_eq (e : Origin) : e.text = e.token.text := by cases e <;> rfl

theorem isSpelled_token {e : Origin} (h : e.isWritten = true) : e.token.isSpelled = true := by
  cases e with
  | entry => decide
  | block l => exact h

theorem edge?_token (e : Origin) : Grammar.edge? e.token = some e := by cases e <;> rfl

end Origin

/-- Put a comma between the tokens of several things. -/
def Token.separated (l : List (List Token)) : List Token := [Token.mark ','].intercalate l

namespace Arguments

/-- The tokens that the arguments of an instruction are written as. -/
def tokens : Arguments → List Token
  | plain operands => Token.separated (operands.map fun o => [o.token])
  | pairs es =>
    .mark '(' :: Token.separated (es.map fun e => [e.1.token, .mark ':', e.2.token]) ++ [.mark ')']

/-- The text of the arguments, with the blank in front of it. -/
def text : Arguments → String
  | plain [] => ""
  | plain operands => " " ++ ", ".intercalate (operands.map Operand.text)
  | pairs es => " (" ++ ", ".intercalate (es.map fun e => e.1.text ++ ": " ++ e.2.text) ++ ")"

/-- Can the arguments be written? -/
def isWritten : Arguments → Bool
  | plain operands => operands.all Operand.isWritten
  | pairs es => es.all fun e => e.1.isWritten && e.2.isWritten

end Arguments

namespace Item

/-- The tokens that an item is written as. -/
def tokens : Item → List Token
  | label l => [.label l.suffix, .mark ':']
  | instr none opcode args => .word opcode :: args.tokens ++ [.mark ';']
  | instr (some dest) opcode args =>
    dest.token :: .mark '=' :: .word opcode :: args.tokens ++ [.mark ';']

/-- The text of an item. -/
def text : Item → String
  | label l => l.text ++ ":"
  | instr none opcode args => opcode ++ args.text ++ ";"
  | instr (some dest) opcode args => dest.text ++ " = " ++ opcode ++ args.text ++ ";"

/-- Can the item be written? -/
def isWritten : Item → Bool
  | label l => l.isWritten
  | instr dest opcode args =>
    dest.all (fun d => d.isWritten && (Grammar.destination? d.token).isSome) &&
      (Token.word opcode).isSpelled && args.isWritten

end Item

/-! ## Spelling -/

namespace Spells

variable {rest : List Char} {ts : List Token}

theorem space (h : Spells rest ts) : Spells (' ' :: rest) ts := .blank rfl h

theorem newline (h : Spells rest ts) : Spells ('\n' :: rest) ts := .blank rfl h

theorem mark {c : Char} (mark : Token.isMark c = true) (h : Spells rest ts) :
    Spells (c :: rest) (.mark c :: ts) := by
  have spelled := Spells.token (t := .mark c) mark rfl h
  rwa [Token.text, String.toList_ofList] at spelled

theorem operand {o : Operand} (written : o.isWritten = true) (ends : Token.endsBefore rest = true)
    (h : Spells rest ts) : Spells (o.text.toList ++ rest) (o.token :: ts) := by
  rw [o.text_eq]
  refine .token (Operand.isSpelled_token written) ?_ h
  cases o <;> exact ends

theorem origin {e : Origin} (written : e.isWritten = true) (ends : Token.endsBefore rest = true)
    (h : Spells rest ts) : Spells (e.text.toList ++ rest) (e.token :: ts) := by
  rw [e.text_eq]
  refine .token (Origin.isSpelled_token written) ?_ h
  cases e <;> exact ends

/-- A text that spells things, with commas between them. -/
theorem intercalate {α : Type} {text : α → String} {tokens : α → List Token} {xs : List α}
    (each : ∀ x ∈ xs, ∀ {rest ts}, Token.endsBefore rest = true → Spells rest ts →
      Spells ((text x).toList ++ rest) (tokens x ++ ts))
    (ends : Token.endsBefore rest = true) (h : Spells rest ts) :
    Spells ((", ".intercalate (xs.map text)).toList ++ rest) (Token.separated (xs.map tokens) ++ ts) := by
  induction xs with
  | nil => exact h
  | cons x xs ih =>
    have ih := ih fun y hy => each y (List.mem_cons_of_mem _ hy)
    cases xs with
    | nil =>
      simpa [Token.separated] using each x List.mem_cons_self ends h
    | cons y xs =>
      have comma := each x List.mem_cons_self (by rfl) (.mark (c := ',') (by rfl) ih.space)
      simp only [List.map_cons, String.intercalate_cons_cons, Token.separated,
        List.intercalate_cons_cons, String.toList_append, List.append_assoc] at comma ⊢
      exact comma

/-- The text of arguments spells their tokens. -/
theorem arguments {args : Arguments} (written : args.isWritten = true)
    (ends : Token.endsBefore rest = true) (h : Spells rest ts) :
    Spells (args.text.toList ++ rest) (args.tokens ++ ts) := by
  cases args with
  | plain operands =>
    have each : ∀ o ∈ operands, ∀ {rest ts}, Token.endsBefore rest = true → Spells rest ts →
        Spells (o.text.toList ++ rest) ([o.token] ++ ts) := fun o ho _ _ ends h =>
      h.operand (List.all_eq_true.1 written o ho) ends
    have list := h.intercalate each ends
    cases operands with
    | nil => exact h
    | cons o operands =>
      rw [Arguments.text.eq_def]
      simpa [Arguments.tokens] using list.space
  | pairs es =>
    have each : ∀ e ∈ es, ∀ {rest ts}, Token.endsBefore rest = true → Spells rest ts →
        Spells ((e.1.text ++ ": " ++ e.2.text).toList ++ rest)
          ([e.1.token, .mark ':', e.2.token] ++ ts) := fun e he _ _ ends h => by
      obtain ⟨edge, arg⟩ := Bool.and_eq_true_iff.1 (List.all_eq_true.1 written e he)
      have pair := ((h.operand arg ends).space.mark (c := ':') (by rfl)).origin edge (by rfl)
      simpa using pair
    have list := (h.mark (c := ')') (by rfl)).intercalate each (by rfl)
    simpa [Arguments.text, Arguments.tokens] using (list.mark (c := '(') (by rfl)).space

/-- The text of an item spells its tokens. -/
theorem item {i : Item} (written : i.isWritten = true) (h : Spells rest ts) :
    Spells (i.text.toList ++ rest) (i.tokens ++ ts) := by
  cases i with
  | label l =>
    have label := (h.mark (c := ':') (by rfl)).operand (o := .label l) written (by rfl)
    simpa [Item.text, Item.tokens, Operand.text, Operand.token] using label
  | instr dest opcode args =>
    simp only [Item.isWritten, Bool.and_eq_true] at written
    obtain ⟨⟨dest_, word⟩, args_⟩ := written
    have arguments := (h.mark (c := ';') (by rfl)).arguments args_ (by rfl)
    have closed : Token.endsBefore (args.text.toList ++ ';' :: rest) = true := by
      rcases args with (_ | _) | _ <;> simp [Arguments.text, Token.endsBefore] <;> rfl
    have instr := Spells.token word closed arguments
    cases dest with
    | none => simpa [Item.text, Item.tokens, Token.text] using instr
    | some dest =>
      have dest_ := (Bool.and_eq_true_iff.1 dest_).1
      have whole := (instr.space.mark (c := '=') (by rfl)).space.operand dest_ (by rfl)
      simpa [Item.text, Item.tokens, Token.text] using whole

end Spells

/-! ## Reading -/

namespace Grammar

variable {ts : Tokens} {more : List Token}

/-- The tokens without their places. -/
def values (ts : Tokens) : List Token := ts.map Located.value

theorem values_eq_cons {t : Token} : values ts = t :: more ↔
    ∃ span rest, ts = ⟨t, span⟩ :: rest ∧ values rest = more := by
  cases ts with
  | nil => simp [values]
  | cons u rest =>
    obtain ⟨value, span⟩ := u
    simp only [values, List.map_cons, List.cons.injEq, Located.mk.injEq]
    exact ⟨fun ⟨same, left⟩ => ⟨span, rest, ⟨⟨same, rfl⟩, rfl⟩, left⟩,
      fun ⟨_, _, ⟨⟨same, _⟩, rest_⟩, left⟩ => ⟨same, rest_ ▸ left⟩⟩

theorem mark_tokens {c : Char} (h : values ts = .mark c :: more) :
    ∃ span left, mark c ts = .ok (span, left) ∧ values left = more := by
  obtain ⟨span, rest, rfl, left⟩ := values_eq_cons.1 h
  exact ⟨span, rest, by simp [mark], left⟩

theorem token_ne_mark (o : Operand) (c : Char) : o.token ≠ .mark c := by cases o <;> exact nofun

/-- The operands behind an operand are read up to a token that is no comma. -/
theorem moreOperands_tokens {os : List Operand} (written : ∀ o ∈ os, o.isWritten = true)
    (h : values ts = (os.flatMap fun o => [.mark ',', o.token]) ++ more)
    (ends : more.head? ≠ some (.mark ',')) :
    ∃ left, moreOperands ts = .ok (os, left) ∧ values left = more := by
  induction os generalizing ts with
  | nil =>
    refine ⟨ts, ?_, h⟩
    cases ts with
    | nil => rfl
    | cons t rest =>
      have other : t.value ≠ .mark ',' := fun comma => ends (by
        rw [List.flatMap_nil, List.nil_append] at h
        rw [← h, values, List.map_cons, comma]
        rfl)
      rw [moreOperands.eq_def]
      exact if_neg other
  | cons o os ih =>
    rw [List.flatMap_cons, List.append_assoc] at h
    obtain ⟨_, _, rfl, h₁⟩ := values_eq_cons.1 h
    obtain ⟨_, rest, rfl, h₂⟩ := values_eq_cons.1 h₁
    obtain ⟨left, reads, left_values⟩ := ih (fun u hu => written u (List.mem_cons_of_mem _ hu)) h₂
    refine ⟨left, ?_, left_values⟩
    simp only [moreOperands, if_true, Operand.operand?_token (written o List.mem_cons_self), reads]
    rfl

theorem separated_cons_cons {x y : List Token} {xs : List (List Token)} :
    Token.separated (x :: y :: xs) = x ++ .mark ',' :: Token.separated (y :: xs) := by
  rw [Token.separated, List.intercalate_cons_cons, List.append_assoc]
  rfl

/-- Commas between tokens stand in front of all but the first. -/
theorem separated_cons {α : Type} {token : α → Token} {x : α} {xs : List α} :
    Token.separated ((x :: xs).map fun x => [token x]) =
      token x :: xs.flatMap fun x => [.mark ',', token x] := by
  induction xs generalizing x with
  | nil => rfl
  | cons y xs ih =>
    rw [List.map_cons, List.map_cons, separated_cons_cons, ← List.map_cons (f := fun x => [token x]),
      ih]
    rfl

/-- Pairs are read up to the closing parenthesis. -/
theorem pairs_tokens {es : List (Origin × Operand)} (written : ∀ e ∈ es, e.2.isWritten = true)
    (h : values ts = Token.separated (es.map fun e => [e.1.token, .mark ':', e.2.token]) ++
      .mark ')' :: more) :
    ∃ left, pairs ts = .ok (es, left) ∧ values left = more := by
  induction es generalizing ts with
  | nil =>
    obtain ⟨_, left, rfl, h₁⟩ := values_eq_cons.1 h
    exact ⟨left, by simp [pairs], h₁⟩
  | cons e es ih =>
    obtain ⟨edge, arg⟩ := e
    have argument := Operand.operand?_token (written _ List.mem_cons_self)
    have other : edge.token ≠ .mark ')' := by cases edge <;> exact nofun
    cases es with
    | nil =>
      obtain ⟨_, _, rfl, h₁⟩ := values_eq_cons.1 h
      obtain ⟨_, _, rfl, h₂⟩ := values_eq_cons.1 h₁
      obtain ⟨_, _, rfl, h₃⟩ := values_eq_cons.1 h₂
      obtain ⟨_, left, rfl, h₄⟩ := values_eq_cons.1 h₃
      refine ⟨left, ?_, h₄⟩
      simp [pairs, other, Origin.edge?_token, argument]
    | cons e' es =>
      rw [List.map_cons, List.map_cons, separated_cons_cons, List.append_assoc,
        List.cons_append] at h
      obtain ⟨_, _, rfl, h₁⟩ := values_eq_cons.1 h
      obtain ⟨_, _, rfl, h₂⟩ := values_eq_cons.1 h₁
      obtain ⟨_, _, rfl, h₃⟩ := values_eq_cons.1 h₂
      obtain ⟨_, _, rfl, h₄⟩ := values_eq_cons.1 h₃
      obtain ⟨left, reads, left_values⟩ := ih (fun u hu => written u (List.mem_cons_of_mem _ hu)) h₄
      refine ⟨left, ?_, left_values⟩
      rw [pairs]
      simp [other, Origin.edge?_token, argument, reads, bind, Except.bind, pure, Except.pure]

/-- The arguments of an instruction are read up to the semicolon. -/
theorem arguments_tokens {args : Arguments} (written : args.isWritten = true)
    (h : values ts = args.tokens ++ .mark ';' :: more) :
    ∃ left, arguments ts = .ok (args, left) ∧ values left = .mark ';' :: more := by
  cases args with
  | plain operands =>
    have written := List.all_eq_true.1 written
    cases operands with
    | nil =>
      obtain ⟨_, _, rfl, -⟩ := values_eq_cons.1 h
      exact ⟨_, by simp [arguments, operand?], h⟩
    | cons o operands =>
      rw [Arguments.tokens, separated_cons, List.cons_append] at h
      obtain ⟨_, _, rfl, h₁⟩ := values_eq_cons.1 h
      obtain ⟨left, reads, left_values⟩ := moreOperands_tokens
        (fun u hu => written u (List.mem_cons_of_mem _ hu)) h₁ (by simp)
      refine ⟨left, ?_, left_values⟩
      simp only [arguments, if_neg (token_ne_mark o '('),
        Operand.operand?_token (written o List.mem_cons_self), reads]
      rfl
  | pairs es =>
    have written := List.all_eq_true.1 written
    rw [Arguments.tokens, List.cons_append, List.cons_append, List.append_assoc] at h
    obtain ⟨_, _, rfl, h₁⟩ := values_eq_cons.1 h
    obtain ⟨left, reads, left_values⟩ := pairs_tokens
      (fun e he => (Bool.and_eq_true_iff.1 (written e he)).2) h₁
    refine ⟨left, ?_, left_values⟩
    simp only [arguments, if_true, reads]
    rfl

/-- An instruction is read from its opcode on. -/
theorem instruction_tokens {dest : Option Operand} {opcode : String} {args : Arguments}
    (written : args.isWritten = true)
    (h : values ts = .word opcode :: args.tokens ++ .mark ';' :: more) (start : Nat) :
    ∃ i left, instruction start dest ts = .ok (i, left) ∧ i.value = .instr dest opcode args ∧
      values left = more := by
  obtain ⟨_, _, rfl, h₁⟩ := values_eq_cons.1 h
  obtain ⟨_, reads, h₂⟩ := arguments_tokens written h₁
  obtain ⟨stop, left, reads', h₃⟩ := mark_tokens h₂
  refine ⟨⟨.instr dest opcode args, ⟨start, stop.stop⟩⟩, left, ?_, rfl, h₃⟩
  simp only [instruction, reads, reads', bind, Except.bind, pure, Except.pure]

/-- The token of a destination is no label. -/
theorem destination?_token {o : Operand} (written : o.isWritten = true)
    (dest : (destination? o.token).isSome = true) :
    destination? o.token = some o ∧ ∀ suffix, o.token ≠ .label suffix := by
  cases o with
  | temp t => exact ⟨Operand.operand?_token written, fun _ => nofun⟩
  | global g => exact ⟨rfl, fun _ => nofun⟩
  | _ => cases dest

/-- An item is read from its tokens. -/
theorem item_tokens {i : Item} (written : i.isWritten = true) (h : values ts = i.tokens ++ more) :
    ∃ found left, item ts = .ok (found, left) ∧ found.value = i ∧ values left = more := by
  cases i with
  | label l =>
    obtain ⟨span, _, rfl, h₁⟩ := values_eq_cons.1 h
    obtain ⟨colon, left, reads, h₂⟩ := mark_tokens h₁
    refine ⟨⟨.label l, ⟨span.start, colon.stop⟩⟩, left, ?_, rfl, h₂⟩
    simp only [item, reads, bind, Except.bind, pure, Except.pure]
  | instr dest opcode args =>
    simp only [Item.isWritten, Bool.and_eq_true] at written
    obtain ⟨⟨dest_, -⟩, args_⟩ := written
    cases dest with
    | none =>
      have h : values ts = .word opcode :: args.tokens ++ .mark ';' :: more := by
        rw [h]
        simp [Item.tokens]
      obtain ⟨span, rest, rfl, -⟩ := values_eq_cons.1 h
      obtain ⟨found, left, reads, value, h⟩ := @instruction_tokens _ _ none _ _ args_ h span.start
      exact ⟨found, left, by simpa [item, destination?] using reads, value, h⟩
    | some dest =>
      obtain ⟨dest_, kind⟩ := Bool.and_eq_true_iff.1 dest_
      obtain ⟨reads_dest, noLabel⟩ := destination?_token dest_ kind
      obtain ⟨span, _, rfl, h₁⟩ := values_eq_cons.1 h
      obtain ⟨_, rest, reads, h₂⟩ := mark_tokens h₁
      have h₃ : values rest = .word opcode :: args.tokens ++ .mark ';' :: more := by
        rw [h₂]
        simp
      obtain ⟨found, left, reads', value, h₄⟩ :=
        @instruction_tokens _ _ (some dest) _ _ args_ h₃ span.start
      refine ⟨found, left, ?_, value, h₄⟩
      rw [item.eq_def]
      split
      · next e => cases e
      · next e => exact absurd (congrArg Located.value (List.cons.inj e).1) (noLabel _)
      · next e =>
        obtain ⟨rfl, rfl⟩ := List.cons.inj e
        simp only [reads_dest, reads, reads', bind, Except.bind]

/-- No item begins with a keyword. -/
theorem item_of_keyword {t : Located Token} {rest : Tokens}
    (keyword : t.value = .varKeyword ∨ t.value = .procKeyword) :
    item (t :: rest) = .error (t :: rest) := by
  obtain ⟨value, span⟩ := t
  rcases keyword with rfl | rfl <;> rfl

/-- Items are read up to the next declaration. -/
theorem items_tokens {is : List Item} (written : ∀ i ∈ is, i.isWritten = true)
    (h : values ts = is.flatMap Item.tokens ++ more)
    (ends : ∀ t ∈ more.head?, t = .varKeyword ∨ t = .procKeyword) :
    ∃ found left, items ts = .ok (found, left) ∧ found.map Located.value = is ∧ values left = more := by
  induction is generalizing ts with
  | nil =>
    refine ⟨[], ts, ?_, rfl, h⟩
    have refused : item ts = .error ts := by
      cases ts with
      | nil => rfl
      | cons t rest =>
        refine item_of_keyword (ends t.value ?_)
        rw [← show values (t :: rest) = more from h]
        rfl
    rw [items]
    split
    · next reads => rw [refused] at reads; cases reads
    · next reads =>
      rw [refused] at reads
      cases reads
      rw [if_pos rfl]
  | cons i is ih =>
    rw [List.flatMap_cons, List.append_assoc] at h
    obtain ⟨found, rest, reads, value, h⟩ := item_tokens (written i List.mem_cons_self) h
    obtain ⟨others, left, reads', values_, h⟩ := ih (fun j hj => written j (List.mem_cons_of_mem _ hj)) h
    refine ⟨found :: others, left, ?_, by rw [List.map_cons, value, values_], h⟩
    rw [items]
    split
    · next reads'' =>
      rw [reads] at reads''
      cases reads''
      rw [reads']
      rfl
    · next reads'' =>
      rw [reads] at reads''
      cases reads''

end Grammar

end ThreeAddress
