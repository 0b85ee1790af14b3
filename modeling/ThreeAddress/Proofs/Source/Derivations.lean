import ThreeAddress.Proofs.Source.Names
import ThreeAddress.Source.Grammar
/-!
# The grammar and its derivations

The grammar is a list of types. A type is a sort of phrase and its members are the derivations of
that sort: products stand for sequences, sums for alternatives, options for what may be left out and
lists for repetition. A text has at most one derivation.

* `Leaf`, `Phrase.tokens` : one token, and the tokens of a phrase;
* `Line`, `Decl`, `Text` : the grammar;
* `Text.declarations` : the declarations that a text derives, with their spans;
* `Definite` : the phrases of a sort that can be told apart, and told from what follows;
* `Text.eq_of_tokens` : the derivation is unique.
-/

namespace ThreeAddress

namespace Grammar

/-! ## Phrases -/

/-- Things that stand for a sequence of tokens. -/
class Phrase (α : Type) where
  /-- The tokens in order. -/
  tokens : α → Tokens

export Phrase (tokens)

/-- One token, with what it stands for. -/
structure Leaf {α : Type} (reads : Token → Option α) where
  token : Located Token
  value : α
  reads_eq : reads token.value = some value

section

variable {α β : Type}

instance {reads : Token → Option α} : Phrase (Leaf reads) := ⟨fun l => [l.token]⟩

instance [Phrase α] [Phrase β] : Phrase (α × β) := ⟨fun p => tokens p.1 ++ tokens p.2⟩

instance [Phrase α] [Phrase β] : Phrase (α ⊕ β) := ⟨Sum.elim tokens tokens⟩

instance [Phrase α] : Phrase (Option α) := ⟨fun o => o.elim [] tokens⟩

instance [Phrase α] : Phrase (List α) := ⟨fun l => l.flatMap tokens⟩

@[simp] theorem tokens_leaf {reads : Token → Option α} (l : Leaf reads) : tokens l = [l.token] := rfl

variable [Phrase α] [Phrase β] {a : α} {b : β} {l m : List α}

@[simp] theorem tokens_pair : tokens (a, b) = tokens a ++ tokens b := rfl

@[simp] theorem tokens_inl : tokens (.inl a : α ⊕ β) = tokens a := rfl

@[simp] theorem tokens_inr : tokens (.inr b : α ⊕ β) = tokens b := rfl

@[simp] theorem tokens_none : tokens (none : Option α) = [] := rfl

@[simp] theorem tokens_some : tokens (some a) = tokens a := rfl

@[simp] theorem tokens_nil : tokens ([] : List α) = [] := rfl

@[simp] theorem tokens_cons : tokens (a :: l) = tokens a ++ tokens l := rfl

@[simp] theorem tokens_append : tokens (l ++ m) = tokens l ++ tokens m := List.flatMap_append

end

/-! ## The grammar -/

/-- This token and no other. -/
def exactly? (t u : Token) : Option Unit := if u = t then some () else none

/-- The token as the name of a global. -/
def global? : Token → Option Global
  | .global name => some ⟨name⟩
  | _ => none

/-- The token as a label. -/
def label? : Token → Option Label
  | .label suffix => some ⟨suffix⟩
  | _ => none

/-- The token as the text of a number. -/
def number? : Token → Option String
  | .number text => some text
  | _ => none

/-- The token as the name of an opcode. -/
def word? : Token → Option String
  | .word text => some text
  | _ => none

/-- A punctuation mark. -/
abbrev Mark (c : Char) := Leaf (exactly? (.mark c))

/-- One thing or more, with commas between them. -/
abbrev Listed (α : Type) := α × List (Mark ',' × α)

/-- Things with commas between them and perhaps a comma at the end, up to a closing parenthesis. -/
abbrev Enclosed (α : Type) := Option (Listed α × Option (Mark ',')) × Mark ')'

/-- `edge : operand` -/
abbrev Pair := Leaf edge? × Mark ':' × Leaf operand?

/-- `( pairs )` or operands -/
abbrev Args := (Mark '(' × Enclosed Pair) ⊕ Option (Listed (Leaf operand?))

/-- `label :` -/
abbrev LabelLine := Leaf label? × Mark ':'

/-- `[destination =] opcode arguments ;` -/
abbrev InstrLine := Option (Leaf destination? × Mark '=') × Leaf word? × Args × Mark ';'

/-- An item of a procedure. -/
abbrev Line := LabelLine ⊕ InstrLine

/-- `var @name = number ;` -/
abbrev VarDecl :=
  Leaf (exactly? .varKeyword) × Leaf global? × Mark '=' × Leaf number? × Mark ';'

/-- `proc @name ( temporaries ) : items` -/
abbrev ProcDecl :=
  Leaf (exactly? .procKeyword) × Leaf global? × Mark '(' × Enclosed (Leaf temp?) × Mark ':' ×
    List Line

/-- A declaration. -/
abbrev Decl := VarDecl ⊕ ProcDecl

/-- A whole text. -/
abbrev Text := List Decl

/-! ## What is derived -/

section

variable {α β : Type}

/-- From the beginning of the first token to the end of the last. -/
def extent (ts : Tokens) : Span where
  start := (ts.head?.map fun t => t.span.start).getD 0
  stop := (ts.getLast?.map fun t => t.span.stop).getD 0

/-- The value of a phrase with the stretch that the phrase covers. -/
def located [Phrase α] (value : α → β) (a : α) : Located β := ⟨value a, extent (tokens a)⟩

/-- The values of things with commas between them. -/
def Listed.values (value : α → β) : Listed α → List β
  | (first, more) => value first :: more.map fun m => value m.2

/-- The values of things up to a closing parenthesis. -/
def Enclosed.values (value : α → β) : Enclosed α → List β
  | (none, _) => []
  | (some (all, _), _) => Listed.values value all

end

/-- The edge and the operand. -/
def Pair.value : Pair → Origin × Operand
  | (edge, _, arg) => (edge.value, arg.value)

/-- The arguments. -/
def Args.arguments : Args → Arguments
  | .inl (_, pairs) => .pairs (Enclosed.values Pair.value pairs)
  | .inr none => .plain []
  | .inr (some operands) => .plain (Listed.values Leaf.value operands)

/-- The item. -/
def Line.item : Line → Item
  | .inl (label, _) => .label label.value
  | .inr (dest, opcode, args, _) => .instr (dest.map fun d => d.1.value) opcode.value args.arguments

/-- The declaration. Each item has its span. -/
def Decl.declaration : Decl → Declaration
  | .inl (_, name, _, value, _) => .var name.value value.value
  | .inr (_, name, _, params, _, lines) =>
    .proc name.value (Enclosed.values Leaf.value params) (lines.map (located Line.item))

/-- The declarations, each with its span. -/
def Text.declarations (text : Text) : List (Located Declaration) :=
  text.map (located Decl.declaration)

/-! ## First tokens -/

/-- The tokens begin with one of this kind. -/
def Begins (P : Token → Prop) (ts : Tokens) : Prop := ∃ t rest, ts = t :: rest ∧ P t.value

section

variable {α : Type} {reads : Token → Option α} {P Q : Token → Prop} {ts us : Tokens}

theorem Begins.ne (h : Begins P ts) (h' : Begins Q us) (other : ∀ t, P t → ¬ Q t) : ts ≠ us := by
  rintro rfl
  obtain ⟨t, rest, rfl, hP⟩ := h
  obtain ⟨u, rest', same, hQ⟩ := h'
  obtain ⟨rfl, -⟩ := List.cons.inj same
  exact other _ hP hQ

theorem Begins.append (h : Begins P ts) (us : Tokens) : Begins P (ts ++ us) := by
  obtain ⟨t, rest, rfl, hP⟩ := h
  exact ⟨t, rest ++ us, rfl, hP⟩

theorem Begins.imp (h : Begins P ts) (le : ∀ t, P t → Q t) : Begins Q ts := by
  obtain ⟨t, rest, rfl, hP⟩ := h
  exact ⟨t, rest, rfl, le _ hP⟩

theorem begins_leaf (l : Leaf reads) (rest : Tokens) :
    Begins (fun t => (reads t).isSome = true) (l.token :: rest) :=
  ⟨l.token, rest, rfl, by simp [l.reads_eq]⟩

@[simp] theorem isSome_exactly? {t u : Token} : (exactly? t u).isSome = true ↔ u = t := by
  rw [exactly?]
  split <;> simp [*]

theorem Leaf.eq_of_exactly {t : Token} (l : Leaf (exactly? t)) : l.token.value = t :=
  isSome_exactly?.1 (by rw [l.reads_eq]; rfl)

theorem begins_exactly {t : Token} (l : Leaf (exactly? t)) (rest : Tokens) :
    Begins (· = t) (l.token :: rest) := ⟨l.token, rest, rfl, l.eq_of_exactly⟩

end

/-! ## Phrases that can be told apart -/

/-- If what follows is as expected, then it is clear where a phrase of this sort ends, and which one
it is. -/
structure Definite (α : Type) [Phrase α] (follows : Tokens → Prop) : Prop where
  split {a b : α} {rest rest' : Tokens} : follows rest → follows rest' →
    tokens a ++ rest = tokens b ++ rest' → a = b ∧ rest = rest'

/-- Anything may follow. -/
def Anything : Tokens → Prop := fun _ => True

namespace Definite

variable {α β : Type} [Phrase α] [Phrase β] {p q : Tokens → Prop}

theorem imp (h : Definite α p) (le : ∀ rest, q rest → p rest) : Definite α q :=
  ⟨fun follows follows' same => h.split (le _ follows) (le _ follows') same⟩

theorem leaf {γ : Type} {reads : Token → Option γ} : Definite (Leaf reads) Anything := by
  refine ⟨?_⟩
  rintro ⟨t, v, ht⟩ ⟨u, w, hu⟩ rest rest' - - same
  obtain ⟨rfl, rfl⟩ := List.cons.inj same
  obtain rfl := Option.some.inj (ht.symm.trans hu)
  exact ⟨rfl, rfl⟩

theorem pair (first : Definite α p) (second : Definite β q)
    (between : ∀ b : β, ∀ rest, q rest → p (tokens b ++ rest)) : Definite (α × β) q := by
  refine ⟨?_⟩
  rintro ⟨a, b⟩ ⟨a', b'⟩ rest rest' follows follows' same
  simp only [tokens_pair, List.append_assoc] at same
  obtain ⟨rfl, behind⟩ := first.split (between b rest follows) (between b' rest' follows') same
  obtain ⟨rfl, rest_⟩ := second.split follows follows' behind
  exact ⟨rfl, rest_⟩

theorem sum (left : Definite α p) (right : Definite β p)
    (apart : ∀ (a : α) (b : β) (rest rest' : Tokens), p rest → p rest' →
      tokens a ++ rest ≠ tokens b ++ rest') : Definite (α ⊕ β) p := by
  refine ⟨?_⟩
  rintro (a | a) (b | b) rest rest' follows follows' same
  · obtain ⟨rfl, rest_⟩ := left.split follows follows' same
    exact ⟨rfl, rest_⟩
  · exact absurd same (apart a b rest rest' follows follows')
  · exact absurd same.symm (apart b a rest' rest follows' follows)
  · obtain ⟨rfl, rest_⟩ := right.split follows follows' same
    exact ⟨rfl, rest_⟩

theorem option (some_ : Definite α p)
    (apart : ∀ (a : α) (rest rest' : Tokens), p rest → p rest' → tokens a ++ rest ≠ rest') :
    Definite (Option α) p := by
  refine ⟨?_⟩
  rintro (_ | a) (_ | b) rest rest' follows follows' same
  · exact ⟨rfl, same⟩
  · exact absurd same.symm (apart b rest' rest follows' follows)
  · exact absurd same (apart a rest rest' follows follows')
  · obtain ⟨rfl, rest_⟩ := some_.split follows follows' same
    exact ⟨rfl, rest_⟩

/-- A member of a list is followed by another one, or by what follows the list. -/
theorem list (member : Definite α p) (last : ∀ rest, q rest → p rest)
    (more : ∀ (a : α) (rest : Tokens), p rest → p (tokens a ++ rest))
    (apart : ∀ (a : α) (rest rest' : Tokens), p rest → q rest' → tokens a ++ rest ≠ rest') :
    Definite (List α) q := by
  have follow (l : List α) {rest : Tokens} (follows : q rest) : p (tokens l ++ rest) := by
    induction l with
    | nil => exact last rest follows
    | cons a l ih =>
      rw [tokens_cons, List.append_assoc]
      exact more a _ ih
  refine ⟨fun {l} => ?_⟩
  induction l with
  | nil =>
    rintro (_ | ⟨b, m⟩) rest rest' follows follows' same
    · exact ⟨rfl, same⟩
    · rw [tokens_cons, List.append_assoc] at same
      exact absurd same.symm (apart b _ _ (follow m follows') follows)
  | cons a l ih =>
    rintro (_ | ⟨b, m⟩) rest rest' follows follows' same
    · rw [tokens_cons, List.append_assoc] at same
      exact absurd same (apart a _ _ (follow l follows) follows')
    · simp only [tokens_cons, List.append_assoc] at same
      obtain ⟨rfl, behind⟩ := member.split (follow l follows) (follow m follows') same
      obtain ⟨rfl, rest_⟩ := ih follows follows' behind
      exact ⟨rfl, rest_⟩

/-- One token more at the front. -/
theorem behind {γ : Type} {reads : Token → Option γ} (h : Definite β q) :
    Definite (Leaf reads × β) q := pair leaf h fun _ _ _ => trivial

end Definite

/-! ## The grammar is unambiguous -/

section

variable {α : Type} [Phrase α]

/-- The list goes on no further: a closing parenthesis follows, perhaps behind a comma. -/
def Closes (rest : Tokens) : Prop :=
  Begins (· = .mark ')') rest ∨ ∃ comma left, rest = comma :: left ∧ Begins (· = .mark ')') left

/-- A list between commas ends where no other member follows a comma. -/
theorem definite_listed {follows : Tokens → Prop} (member : Definite α Anything)
    (apart : ∀ (comma : Mark ',') (a : α) (rest rest' : Tokens), follows rest' →
      comma.token :: (tokens a ++ rest) ≠ rest') : Definite (Listed α) follows :=
  .pair member (.list (.behind member) (fun _ _ => trivial) (fun _ _ _ => trivial)
    fun ⟨comma, a⟩ rest rest' _ => apart comma a rest rest') fun _ _ _ => trivial

theorem definite_enclosed (member : Definite α Anything)
    (opens : ∀ a : α, Begins (· ≠ .mark ')') (tokens a)) : Definite (Enclosed α) Anything := by
  have listed : Definite (Listed α) Closes := by
    refine definite_listed member fun comma a rest rest' follows => ?_
    rcases follows with closes | ⟨other, left, rfl, closes⟩
    · exact (begins_exactly comma _).ne closes (by rintro _ rfl; decide)
    · intro same
      exact ((opens a).append rest).ne closes (fun _ => id) (List.cons.inj same).2
  have trailing : Definite (Option (Mark ',')) (Begins (· = .mark ')')) := by
    refine .option (Definite.leaf.imp fun _ _ => trivial) fun comma rest rest' _ closes => ?_
    exact (begins_exactly comma rest).ne closes (by rintro _ rfl; decide)
  have all : Definite (Listed α × Option (Mark ',')) (Begins (· = .mark ')')) := by
    refine listed.pair trailing fun comma rest closes => ?_
    cases comma with
    | none => exact .inl closes
    | some comma => exact .inr ⟨comma.token, rest, rfl, closes⟩
  refine .pair (.option all ?_) .leaf fun close rest _ => begins_exactly close rest
  rintro ⟨⟨a, more⟩, comma⟩ rest rest' - closes
  simp only [tokens_pair, List.append_assoc]
  exact ((opens a).append _).ne closes fun _ => id

end

theorem definite_pair : Definite Pair Anything := .behind (.behind .leaf)

theorem definite_args : Definite Args (Begins (· = .mark ';')) := by
  have operands : Definite (Listed (Leaf operand?)) (Begins (· = .mark ';')) :=
    definite_listed .leaf fun comma a rest rest' ends =>
      (begins_exactly comma _).ne ends (by rintro _ rfl; decide)
  have pairs : Definite (Mark '(' × Enclosed Pair) (Begins (· = .mark ';')) := by
    refine (Definite.behind (definite_enclosed definite_pair ?_)).imp fun _ _ => trivial
    rintro ⟨edge, colon, arg⟩
    exact (begins_leaf edge _).imp (by rintro _ h rfl; cases h)
  refine pairs.sum (.option operands ?_) ?_
  · rintro ⟨operand, more⟩ rest rest' - ends
    exact (begins_leaf operand _).ne ends (by rintro _ h rfl; cases h)
  · rintro ⟨opening, closed⟩ (_ | ⟨operand, more⟩) rest rest' - ends
    · exact (begins_exactly opening _).ne ends (by rintro _ rfl; decide)
    · exact (begins_exactly opening _).ne (begins_leaf operand _) (by rintro _ rfl; decide)

/-- Items begin with labels, destinations and opcodes. -/
theorem begins_instrLine (i : InstrLine) :
    Begins (fun t => (destination? t).isSome = true ∨ (word? t).isSome = true) (tokens i) := by
  rcases i with ⟨_ | ⟨dest, equals⟩, word, args, semicolon⟩
  · exact (begins_leaf word _).imp fun _ => .inr
  · exact (begins_leaf dest _).imp fun _ => .inl

theorem definite_line : Definite Line Anything := by
  have dest : Definite (Option (Leaf destination? × Mark '='))
      (Begins fun t => (word? t).isSome = true) := by
    refine .option ((Definite.behind .leaf).imp fun _ _ => trivial) ?_
    rintro ⟨dest, equals⟩ rest rest' - word
    exact (begins_leaf dest _).ne word (by rintro (_ | _ | _ | _) <;> simp [destination?, word?])
  have body : Definite (Leaf word? × Args × Mark ';') Anything :=
    .behind (definite_args.pair .leaf fun semicolon rest _ => begins_exactly semicolon rest)
  have instr : Definite InstrLine Anything :=
    dest.pair body fun ⟨word, _⟩ _ _ => begins_leaf word _
  refine .sum (.behind .leaf) instr fun label i rest rest' _ _ => ?_
  exact (begins_leaf label.1 _).ne ((begins_instrLine i).append rest')
    (by rintro (_ | _ | _ | _) <;> simp [label?, destination?, word?])

/-- What follows a procedure: another declaration, or nothing. -/
def Ends (rest : Tokens) : Prop :=
  rest = [] ∨ Begins (fun t => t = .varKeyword ∨ t = .procKeyword) rest

theorem begins_line (l : Line) :
    Begins (fun t => t ≠ .varKeyword ∧ t ≠ .procKeyword) (tokens l) := by
  rcases l with ⟨label, colon⟩ | i
  · exact (begins_leaf label _).imp (by rintro (_ | _ | _ | _) <;> simp [label?])
  · exact (begins_instrLine i).imp (by rintro (_ | _ | _ | _) <;> simp [destination?, word?])

theorem begins_decl (d : Decl) :
    Begins (fun t => t = .varKeyword ∨ t = .procKeyword) (tokens d) := by
  rcases d with ⟨keyword, _⟩ | ⟨keyword, _⟩
  · exact (begins_exactly keyword _).imp fun _ => .inl
  · exact (begins_exactly keyword _).imp fun _ => .inr

theorem definite_decl : Definite Decl Ends := by
  have lines : Definite (List Line) Ends := by
    refine definite_line.list (fun _ _ => trivial) (fun _ _ _ => trivial) ?_
    rintro l rest rest' - (rfl | ends)
    · obtain ⟨t, more, first, -⟩ := begins_line l
      simp [first]
    · exact ((begins_line l).append rest).ne ends (by rintro _ ⟨noVar, noProc⟩; simp [noVar, noProc])
  have var : Definite VarDecl Ends :=
    (Definite.behind (.behind (.behind (.behind .leaf)))).imp fun _ _ => trivial
  have temps : Definite (Enclosed (Leaf temp?)) Anything :=
    definite_enclosed .leaf fun t => (begins_leaf t _).imp (by rintro _ h rfl; cases h)
  have proc : Definite ProcDecl Ends :=
    .behind (.behind (.behind (temps.pair (.behind lines) fun _ _ _ => trivial)))
  refine var.sum proc ?_
  rintro ⟨keyword, _⟩ ⟨keyword', _⟩ rest rest' - -
  exact (begins_exactly keyword _).ne (begins_exactly keyword' _) (by rintro _ rfl; decide)

/-- A text has at most one derivation. -/
theorem Text.eq_of_tokens {text text' : Text} (h : tokens text = tokens text') : text = text' := by
  have definite : Definite Text (· = []) := by
    refine definite_decl.list (fun _ => .inl) (fun d rest _ => .inr ((begins_decl d).append rest)) ?_
    rintro d rest _ - rfl
    obtain ⟨t, more, first, -⟩ := begins_decl d
    simp [first]
  exact (definite.split rfl rfl (congrArg (· ++ []) h)).1

end Grammar

end ThreeAddress
