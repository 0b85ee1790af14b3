import ThreeAddress.Proofs.Instr.Signatures
import ThreeAddress.Proofs.Source.Reading
import ThreeAddress.Proofs.Source.Slices
/-!
# What is reported of a text

A text that the grammar derives can still be wrong in three sorts of places: the name of a declaration
can be a repetition, the initial value of a variable can be too large, and an instruction can be
rejected. Each place that is wrong is reported once, in the order of the text, and nothing else is.

* `Site`, `Text.sites` : the places of a text that are checked, in order;
* `Site.Fault` : what can be wrong there, with its code;
* `Site.report` : what is reported of a place;
* `Program.parse_reports` : when a text is a program, and what is reported otherwise.
-/

namespace ThreeAddress

/-! ## Literals -/

/-- The digits of a number are digits, and there are some. -/
theorem Token.of_isDigits {digits : List Char} (h : isDigits digits = true) :
    digits ≠ [] ∧ ∀ d ∈ digits, d.isDigit = true := by
  obtain ⟨d, more, rfl, digit⟩ := exists_isDigit h
  refine ⟨List.cons_ne_nil d more, ?_⟩
  rw [isDigits] at h
  split at h
  · rw [List.isEmpty_iff.1 h]
    exact List.forall_mem_singleton.2 digit
  · rw [Bool.and_eq_true, List.all_eq_true] at h
    exact List.forall_mem_cons.2 h

namespace Literal

/-- Every token that is a number denotes an integer. -/
theorem exists_denotes {text : String} (h : (Token.number text).isSpelled = true) :
    ∃ n, Denotes text n := by
  rw [Token.isSpelled, Token.isNumberText.eq_def] at h
  split at h
  · next digits shape =>
    obtain ⟨nonempty, all⟩ := Token.of_isDigits h
    exact ⟨_, digits, nonempty, all, .inr ⟨shape, rfl⟩⟩
  · obtain ⟨nonempty, all⟩ := Token.of_isDigits h
    exact ⟨_, text.toList, nonempty, all, .inl ⟨rfl, rfl⟩⟩

variable {text : String} {n : Int}

/-- An integer has a word for its value if it lies between the bounds. -/
theorem exists_parse_iff : (∃ w, parse text = .ok w) ↔
    ∃ n, Denotes text n ∧ least ≤ n ∧ n ≤ greatest := by
  constructor
  · rintro ⟨w, parsed⟩
    exact ⟨_, parse_eq_ok_iff.1 parsed, w.le_toInt, Int.le_of_lt_add_one w.toInt_lt⟩
  · rintro ⟨n, denotes, lower, upper⟩
    obtain ⟨w, parsed, -⟩ := exists_parse denotes lower upper
    exact ⟨w, parsed⟩

/-- Otherwise it is out of range. -/
theorem parse_of_outside (denotes : Denotes text n) (outside : n < least ∨ greatest < n) :
    parse text = .error (.literalOutOfRange text) := by
  have none_ : word? n = none := if_neg (by omega)
  rw [parse, integer?_eq_some_iff.2 denotes]
  simp only [none_]

end Literal

/-! ## Items -/

/-- Do the checked constructors accept the item? -/
def Item.Accepted : Item → Prop
  | .label _ => True
  | .instr dest opcode (.plain operands) => ∃ i, Instr.build opcode dest operands = .ok i
  | .instr dest opcode (.pairs pairs) =>
    opcode = "phi" ∧ ∃ d, dest = some d ∧ ∃ i, Instr.buildPhi d pairs = .ok i

theorem Item.exists_build_iff {item : Item} : (∃ i, item.build = .ok i) ↔ item.Accepted := by
  cases item with
  | label l => exact ⟨fun _ => trivial, fun _ => ⟨_, rfl⟩⟩
  | instr dest opcode args =>
    cases args with
    | plain operands =>
      rw [Accepted]
      simp only [build, mapError_eq_ok_iff]
    | pairs pairs =>
      rw [Accepted]
      by_cases phi : opcode = "phi"
      · cases dest <;> simp [build, phi, mapError_eq_ok_iff]
      · simp [build, phi]

theorem Item.problem?_eq_none_iff {item : Item} : item.problem? = none ↔ item.Accepted := by
  rw [← exists_build_iff, problem?]
  cases item.build <;> simp

namespace Grammar

/-! ## Places -/

/-- The initial value as it is written. -/
def VarDecl.literal : VarDecl → String
  | (_, _, _, value, _) => value.value

/-- A place of a text that the grammar leaves to be checked. -/
inductive Site where
  /-- The name of a declaration, behind the declarations of other names. -/
  | name (earlier : List Global) (d : Decl)
  /-- The initial value of a variable. -/
  | value (v : VarDecl)
  /-- An item. -/
  | line (l : Line)

namespace Site

/-- The phrase that the place belongs to: the declaration or the item. -/
def phrase : Site → Tokens
  | name _ d => tokens d
  | value v => tokens v
  | line l => tokens l

/-- Something is wrong at the place, and this is its code. -/
inductive Fault : Site → String → Problem → Prop where
  | repeatedName {earlier : List Global} {d : Decl} : d.declaration.name ∈ earlier →
      Fault (.name earlier d) "E002" (.repeatedName d.declaration.name)
  | outOfRangeValue {v : VarDecl} {n : Int} : Literal.Denotes v.literal n →
      (n < -9223372036854775808 ∨ 9223372036854775807 < n) →
      Fault (.value v) "E102" (.rejected (.literalOutOfRange v.literal))
  | pairsAfter {l : Line} {dest : Option Operand} {opcode : String}
      {pairs : List (Origin × Operand)} :
      l.item = .instr dest opcode (.pairs pairs) → opcode ≠ "phi" →
      Fault (.line l) "E002" (.pairsAfter opcode)
  | phiWithoutDestination {l : Line} {pairs : List (Origin × Operand)} :
      l.item = .instr none "phi" (.pairs pairs) → Fault (.line l) "E002" .phiWithoutDestination
  | malformedPhi {l : Line} {dest : Operand} {pairs : List (Origin × Operand)} {opcode : String}
      {reason : Mismatch} : l.item = .instr (some dest) "phi" (.pairs pairs) →
      Instr.buildPhi dest pairs = .error (.malformed opcode reason) →
      Fault (.line l) "E101" (.rejected (.malformed opcode reason))
  | malformed {l : Line} {dest : Option Operand} {name opcode : String} {operands : List Operand}
      {reason : Mismatch} : l.item = .instr dest name (.plain operands) →
      Instr.build name dest operands = .error (.malformed opcode reason) →
      Fault (.line l) "E101" (.rejected (.malformed opcode reason))
  | outOfRange {l : Line} {dest : Option Operand} {name literal : String} {operands : List Operand} :
      l.item = .instr dest name (.plain operands) →
      Instr.build name dest operands = .error (.literalOutOfRange literal) →
      Fault (.line l) "E102" (.rejected (.literalOutOfRange literal))

/-- What is reported of the place. -/
def report : Site → Option Diagnostic
  | name earlier d =>
    if d.declaration.name ∈ earlier then
      some ⟨.repeatedName d.declaration.name, extent (tokens d)⟩
    else none
  | value v =>
    match Literal.parse v.literal with
    | .ok _ => none
    | .error error => some ⟨.rejected error, extent (tokens v)⟩
  | line l => l.item.problem?.map fun problem => ⟨problem, extent (tokens l)⟩

end Site

/-- The places inside a declaration. -/
def Decl.inside : Decl → List Site
  | .inl v => [.value v]
  | .inr (_, _, _, _, _, lines) => lines.map .line

/-- The places of a text behind declarations of these names. -/
def Text.sites (earlier : List Global) : Text → List Site
  | [] => []
  | d :: text =>
    .name earlier d :: Decl.inside d ++ Text.sites (d.declaration.name :: earlier) text

/-! ## Reports -/

/-- What is wrong inside of a declaration is reported place by place. -/
theorem problems_eq (d : Decl) :
    Declaration.problems (located Decl.declaration d) = (Decl.inside d).filterMap Site.report := by
  rcases d with v | ⟨keyword, name, opening, params, colon, lines⟩
  · rw [Decl.inside, List.filterMap_cons, List.filterMap_nil, Site.report]
    show (match Literal.parse v.literal with | .ok _ => [] | .error error => [_]) = _
    cases Literal.parse v.literal <;> rfl
  · show ((lines.map (located Line.item)).filterMap _) = (lines.map Site.line).filterMap Site.report
    rw [List.filterMap_map, List.filterMap_map]
    rfl

theorem diagnose_eq (earlier : List Global) (text : Text) :
    diagnose earlier text.declarations = (Text.sites earlier text).filterMap Site.report := by
  induction text generalizing earlier with
  | nil => rfl
  | cons d text ih =>
    have name : (if d.declaration.name ∈ earlier then
        [⟨.repeatedName d.declaration.name, extent (tokens d)⟩] else []) =
        [Site.name earlier d].filterMap Site.report := by
      rw [List.filterMap_cons, List.filterMap_nil, Site.report]
      split <;> rfl
    have parts : Text.sites earlier (d :: text) = [.name earlier d] ++ Decl.inside d ++
        Text.sites (d.declaration.name :: earlier) text := rfl
    rw [parts, List.filterMap_append, List.filterMap_append, ← name, ← problems_eq, ← ih]
    rfl

variable {s : Site}

/-- What is rejected has one of the reasons. -/
theorem fault_of_build {l : Line} {p : Problem} (h : l.item.build = .error p) :
    Site.Fault (.line l) p.code p := by
  cases item : l.item with
  | label name =>
    rw [item] at h
    cases h
  | instr dest opcode args =>
    rw [item] at h
    cases args with
    | plain operands =>
      rw [Item.build] at h
      cases built : Instr.build opcode dest operands with
      | ok i =>
        rw [built] at h
        cases h
      | error e =>
        rw [built] at h
        cases h
        cases e with
        | malformed name reason => exact .malformed item built
        | literalOutOfRange literal => exact .outOfRange item built
    | pairs pairs =>
      by_cases phi : opcode = "phi"
      · subst phi
        cases dest with
        | none =>
          cases h
          exact .phiWithoutDestination item
        | some dest =>
          rw [Item.build, if_pos rfl] at h
          cases built : Instr.buildPhi dest pairs with
          | ok i =>
            rw [built] at h
            cases h
          | error e =>
            rw [built] at h
            cases h
            cases e with
            | malformed name reason => exact .malformedPhi item built
            | literalOutOfRange literal => exact (Instr.blames_buildPhi literal built).elim
      · have made : Item.build (.instr dest opcode (.pairs pairs)) = .error (.pairsAfter opcode) := by
          cases dest <;> exact if_neg phi
        cases made.symm.trans h
        exact .pairsAfter item phi

/-- The initial value of a variable is an integer. -/
theorem exists_denotes_literal {v : VarDecl}
    (spelled : ∀ t ∈ tokens v, t.value.isSpelled = true) : ∃ n, Literal.Denotes v.literal n := by
  obtain ⟨keyword, name, equals, ⟨⟨t, span⟩, text, is⟩, semicolon⟩ := v
  have number := spelled ⟨t, span⟩ (by simp)
  cases t <;> cases is
  exact Literal.exists_denotes number

/-- What is reported is wrong. -/
theorem fault_of_report {d : Diagnostic} (h : s.report = some d)
    (spelled : ∀ t ∈ s.phrase, t.value.isSpelled = true) :
    s.Fault d.value.code d.value ∧ d.span = extent s.phrase := by
  cases s with
  | name earlier decl =>
    rw [Site.report] at h
    split at h
    · next repeated =>
      cases h
      exact ⟨.repeatedName repeated, rfl⟩
    · cases h
  | value v =>
    obtain ⟨n, denotes⟩ := exists_denotes_literal spelled
    by_cases outside : n < Literal.least ∨ Literal.greatest < n
    · rw [Site.report, Literal.parse_of_outside denotes outside] at h
      cases h
      exact ⟨.outOfRangeValue denotes outside, rfl⟩
    · obtain ⟨w, parsed, -⟩ := Literal.exists_parse denotes (by omega) (by omega)
      rw [Site.report, parsed] at h
      cases h
  | line l =>
    obtain ⟨p, problem, rfl⟩ := Option.map_eq_some_iff.1 h
    rw [Item.problem?] at problem
    split at problem
    · cases problem
    · next built =>
      cases problem
      exact ⟨fault_of_build built, rfl⟩

/-- What is not reported is right. -/
theorem not_fault_of_report (h : s.report = none) (code : String) (problem : Problem) :
    ¬ s.Fault code problem := by
  intro fault
  have accepted {l : Line} (h : Site.report (.line l) = none) : l.item.Accepted :=
    Item.problem?_eq_none_iff.1 (Option.map_eq_none_iff.1 h)
  cases fault with
  | repeatedName repeated =>
    rw [Site.report, if_pos repeated] at h
    cases h
  | outOfRangeValue denotes outside =>
    rw [Site.report, Literal.parse_of_outside denotes outside] at h
    cases h
  | pairsAfter item other =>
    have phi := accepted h
    rw [item] at phi
    exact other phi.1
  | phiWithoutDestination item =>
    have phi := accepted h
    rw [item] at phi
    obtain ⟨-, _, ⟨⟩, -⟩ := phi
  | malformedPhi item built =>
    have phi := accepted h
    rw [item] at phi
    obtain ⟨-, _, ⟨⟩, i, built'⟩ := phi
    cases built.symm.trans built'
  | malformed item built | outOfRange item built =>
    have made := accepted h
    rw [item] at made
    obtain ⟨i, built'⟩ := made
    cases built.symm.trans built'

/-! ## Where the places stand -/

theorem tokens_decl_ne_nil (d : Decl) : tokens d ≠ [] := by
  obtain ⟨t, left, shape, -⟩ := begins_decl d
  simp [shape]

/-- The items of a procedure stand within it. -/
theorem lines_within (keyword : Leaf (exactly? .procKeyword)) (name : Leaf global?)
    (opening : Mark '(') (params : Enclosed (Leaf temp?)) (colon : Mark ':') (lines : List Line) :
    tokens lines <:+: tokens (.inr (keyword, name, opening, params, colon, lines) : Decl) :=
  ⟨keyword.token :: name.token :: opening.token :: (tokens params ++ [colon.token]), [], by simp⟩

/-- A place inside a declaration belongs to a phrase that stands within it. -/
theorem phrase_of_mem_inside {d : Decl} (mem : s ∈ Decl.inside d) :
    s.phrase <:+: tokens d ∧ s.phrase ≠ [] := by
  rcases d with v | ⟨keyword, name, opening, params, colon, lines⟩
  · cases List.mem_singleton.1 mem
    exact ⟨List.infix_rfl, List.cons_ne_nil _ _⟩
  · obtain ⟨l, line, rfl⟩ := List.mem_map.1 mem
    exact ⟨(tokens_within line).trans (lines_within keyword name opening params colon lines),
      tokens_line_ne_nil l⟩

/-- Every place belongs to a phrase that stands in the text. -/
theorem phrase_of_mem_sites {earlier : List Global} {text : Text} (mem : s ∈ Text.sites earlier text) :
    s.phrase <:+: tokens text ∧ s.phrase ≠ [] := by
  induction text generalizing earlier with
  | nil => cases mem
  | cons d text ih =>
    have first : tokens d <:+: tokens (d :: text) := tokens_within List.mem_cons_self
    have more : tokens text <:+: tokens (d :: text) := (List.suffix_append _ _).isInfix
    rw [Text.sites, List.cons_append, List.mem_cons, List.mem_append] at mem
    rcases mem with rfl | inside | rest
    · exact ⟨first, tokens_decl_ne_nil d⟩
    · obtain ⟨within, nonempty⟩ := phrase_of_mem_inside inside
      exact ⟨within.trans first, nonempty⟩
    · obtain ⟨within, nonempty⟩ := ih rest
      exact ⟨within.trans more, nonempty⟩

/-- No token begins before one in front of it. -/
def Ascends (ts : Tokens) : Prop := ts.Pairwise fun t u => t.span.start ≤ u.span.start

/-- One phrase begins no later than another if no token of it begins later than one of the other. -/
theorem start_le_start {ts us : Tokens} (left : ts ≠ []) (right : us ≠ [])
    (le : ∀ t ∈ ts, ∀ u ∈ us, t.span.start ≤ u.span.start) :
    (extent ts).start ≤ (extent us).start := by
  obtain ⟨t, ts, rfl⟩ := List.exists_cons_of_ne_nil left
  obtain ⟨u, us, rfl⟩ := List.exists_cons_of_ne_nil right
  exact le t List.mem_cons_self u List.mem_cons_self

/-- A phrase begins no later than the phrases within it. -/
theorem start_le_of_within {ts us : Tokens} (ascends : Ascends ts) (within : us <:+: ts)
    (nonempty : us ≠ []) : (extent ts).start ≤ (extent us).start := by
  obtain ⟨u, us, rfl⟩ := List.exists_cons_of_ne_nil nonempty
  have mem : u ∈ ts := within.subset List.mem_cons_self
  cases ts with
  | nil => cases mem
  | cons t ts =>
    rcases List.mem_cons.1 mem with rfl | mem
    · exact Nat.le_refl _
    · exact (List.pairwise_cons.1 ascends).1 u mem

/-- Items begin one behind the other. -/
theorem lines_in_order {lines : List Line} (ascends : Ascends (tokens lines)) :
    lines.Pairwise fun l m => (extent (tokens l)).start ≤ (extent (tokens m)).start := by
  induction lines with
  | nil => exact .nil
  | cons l lines ih =>
    obtain ⟨-, rest, before⟩ := List.pairwise_append.1 ascends
    refine .cons (fun m mem => ?_) (ih rest)
    refine start_le_start (tokens_line_ne_nil l) (tokens_line_ne_nil m) fun t ht u hu => ?_
    exact before t ht u ((tokens_within mem).subset hu)

theorem inside_in_order {d : Decl} (ascends : Ascends (tokens d)) :
    (Decl.inside d).Pairwise fun s u => (extent s.phrase).start ≤ (extent u.phrase).start := by
  rcases d with v | ⟨keyword, name, opening, params, colon, lines⟩
  · exact List.pairwise_singleton _ _
  · rw [Decl.inside, List.pairwise_map]
    refine lines_in_order (ascends.sublist ?_)
    exact (lines_within keyword name opening params colon lines).sublist

/-- The places come in the order of the text. -/
theorem sites_in_order {earlier : List Global} {text : Text} (ascends : Ascends (tokens text)) :
    (Text.sites earlier text).Pairwise fun s u =>
      (extent s.phrase).start ≤ (extent u.phrase).start := by
  induction text generalizing earlier with
  | nil => exact .nil
  | cons d text ih =>
    obtain ⟨first, rest, before⟩ := List.pairwise_append.1 ascends
    have later {s u : Site} (within : s.phrase <:+: tokens d ∧ s.phrase ≠ [])
        (mem : u ∈ Text.sites (d.declaration.name :: earlier) text) :
        (extent s.phrase).start ≤ (extent u.phrase).start := by
      obtain ⟨within', nonempty'⟩ := phrase_of_mem_sites mem
      exact start_le_start within.2 nonempty' fun t ht u hu =>
        before t (within.1.subset ht) u (within'.subset hu)
    have whole : (Site.name earlier d).phrase <:+: tokens d ∧ (Site.name earlier d).phrase ≠ [] :=
      ⟨List.infix_rfl, tokens_decl_ne_nil d⟩
    refine .cons (fun u mem => ?_) (List.pairwise_append.2
      ⟨inside_in_order first, ih rest, fun s inside u => later (phrase_of_mem_inside inside)⟩)
    rcases List.mem_append.1 mem with inside | mem
    · obtain ⟨within, nonempty⟩ := phrase_of_mem_inside inside
      exact start_le_of_within first within nonempty
    · exact later whole mem

end Grammar

/-! ## Whole texts -/

/-- Tokens are laid out in their order. -/
theorem Laid.ascends {skipping : Prop} {offset : Nat} {text : List Char} {ts : Grammar.Tokens}
    (h : Laid skipping offset text ts) : Grammar.Ascends ts := by
  refine h.pairwise.imp_of_mem fun ht _ le => ?_
  obtain ⟨front, back, -, -, stop, -⟩ := h.exists_split ht
  omega

/-- Nothing is found if no name is repeated and nothing is found inside of declarations. -/
theorem diagnose_eq_nil_iff {names : List Global} {ds : List (Located Declaration)} :
    diagnose names ds = [] ↔ ((ds.map fun d => d.value.name).Nodup ∧
      ∀ d ∈ ds, d.value.name ∉ names) ∧ ∀ d ∈ ds, Declaration.problems d = [] := by
  constructor
  · intro h
    refine ⟨nodup_of_diagnose h, ?_⟩
    induction ds generalizing names with
    | nil => simp
    | cons d ds ih =>
      rw [diagnose, List.append_eq_nil_iff, List.append_eq_nil_iff] at h
      exact List.forall_mem_cons.2 ⟨h.1.2, ih h.2⟩
  · rintro ⟨⟨once, fresh⟩, inside⟩
    induction ds generalizing names with
    | nil => rfl
    | cons d ds ih =>
      rw [List.map_cons, List.nodup_cons] at once
      rw [List.forall_mem_cons] at fresh inside
      obtain ⟨other, once⟩ := once
      have fresh' : ∀ e ∈ ds, e.value.name ∉ d.value.name :: names := by
        intro e mem
        rw [List.mem_cons, not_or]
        exact ⟨fun same => other (List.mem_map.2 ⟨e, mem, same⟩), fresh.2 e mem⟩
      rw [diagnose, if_neg fresh.1, inside.1, ih inside.2 once fresh']
      rfl

/-- Is the initial value within range, or is every item accepted? -/
def Declaration.Accepted : Declaration → Prop
  | var _ value =>
    ∃ n, Literal.Denotes value n ∧ -9223372036854775808 ≤ n ∧ n ≤ 9223372036854775807
  | proc _ _ items => ∀ i ∈ items, i.value.Accepted

/-- Then nothing is found inside of the declaration. -/
theorem Declaration.problems_eq_nil_iff {d : Located Declaration} :
    problems d = [] ↔ d.value.Accepted := by
  obtain ⟨d, span⟩ := d
  cases d with
  | var name value =>
    have inRange := @Literal.exists_parse_iff value
    rw [Accepted]
    refine Iff.trans ?_ inRange
    rw [problems]
    dsimp only
    cases Literal.parse value <;> simp
  | proc name params items =>
    rw [Accepted, problems, List.filterMap_eq_nil_iff]
    refine forall₂_congr fun i mem => ?_
    rw [Option.map_eq_none_iff, Item.problem?_eq_none_iff]

namespace Program

theorem parse_eq_ofDeclarations {source : String} {tokens : Grammar.Tokens}
    {ds : List (Located Declaration)} (scanned : Token.scan source = ⟨some tokens, []⟩)
    (read : Grammar.declarations tokens = .ok ds) : parse source = ofDeclarations ds := by
  rw [parse, ofScan, scanned]
  simp only [read, List.map_nil, List.isEmpty_nil, if_true]

/-- A text that is split and grouped without errors is a program just if every name is new, every
initial value is in range and every instruction is accepted. Otherwise each place that is wrong is
reported once, in the order of the text, with the code of what is wrong there and at the text of the
declaration or the instruction; and no other place is. -/
theorem parse_reports {source : String} {tokens : Grammar.Tokens} {ds : List (Located Declaration)}
    (scanned : Token.scan source = ⟨some tokens, []⟩)
    (read : Grammar.declarations tokens = .ok ds) :
    ((∃ p, parse source = .ok p) ↔
      (ds.map fun d => d.value.name).Nodup ∧ ∀ d ∈ ds, d.value.Accepted) ∧
    ∃ text : Grammar.Text, Grammar.tokens text = tokens ∧ text.declarations = ds ∧
      ((text.sites []).Pairwise fun s u =>
        (Grammar.extent s.phrase).start ≤ (Grammar.extent u.phrase).start) ∧
      ∃ report : Grammar.Site → Option Diagnostic,
        (∀ s ∈ text.sites [],
          (report s = none → ∀ code problem, ¬ s.Fault code problem) ∧
          ∀ d, report s = some d →
            s.Fault d.value.code d.value ∧ d.span.Covers source s.phrase) ∧
        ((¬ ∃ p, parse source = .ok p) →
          parse source = .error ((text.sites []).filterMap report)) := by
  obtain ⟨text, rfl, rfl⟩ := Grammar.exists_text_of_declarations read
  have checked := parse_eq_ofDeclarations scanned read
  have spelled : ∀ t ∈ Grammar.tokens text, t.value.isSpelled = true :=
    Token.isSpelled_of_scan (congrArg Token.Scan.tokens scanned)
  have laid : Laid False 0 source.toList (Grammar.tokens text) := by
    have laid := Token.laid_of_scanFrom (congrArg Token.Scan.tokens scanned)
    exact laid.mono fun errors => errors (congrArg Token.Scan.errors scanned)
  have found : (∃ p, parse source = .ok p) ↔ diagnose [] text.declarations = [] := by
    rw [checked, ofDeclarations]
    split
    · next none_ => simp [none_]
    · next some_ => simpa using some_
  constructor
  · rw [found, diagnose_eq_nil_iff]
    simp [Declaration.problems_eq_nil_iff]
  · refine ⟨text, rfl, rfl, Grammar.sites_in_order laid.ascends, Grammar.Site.report,
      fun s mem => ⟨Grammar.not_fault_of_report, ?_⟩, ?_⟩
    · intro d reported
      obtain ⟨within, nonempty⟩ := Grammar.phrase_of_mem_sites mem
      obtain ⟨fault, span⟩ := Grammar.fault_of_report reported fun t ht => spelled t (within.subset ht)
      rw [span]
      exact ⟨fault, Grammar.covers_extent laid within nonempty⟩
    · intro rejected
      rw [checked, ofDeclarations, ← Grammar.diagnose_eq]
      split
      · next none_ => exact absurd (found.2 none_) rejected
      · rfl

/-- Two variables of one name are no program. -/
theorem parse_reports_repeated : ¬ ∃ p, parse "var @x=1; var @x=2;" = .ok p := by
  have scanned : Token.scan "var @x=1; var @x=2;" = ⟨some [⟨.varKeyword, ⟨0, 3⟩⟩,
      ⟨.global "x", ⟨4, 6⟩⟩, ⟨.mark '=', ⟨6, 7⟩⟩, ⟨.number "1", ⟨7, 8⟩⟩, ⟨.mark ';', ⟨8, 9⟩⟩,
      ⟨.varKeyword, ⟨10, 13⟩⟩, ⟨.global "x", ⟨14, 16⟩⟩, ⟨.mark '=', ⟨16, 17⟩⟩,
      ⟨.number "2", ⟨17, 18⟩⟩, ⟨.mark ';', ⟨18, 19⟩⟩], []⟩ := by
    decide +kernel
  have read : Grammar.declarations [⟨.varKeyword, ⟨0, 3⟩⟩,
      ⟨.global "x", ⟨4, 6⟩⟩, ⟨.mark '=', ⟨6, 7⟩⟩, ⟨.number "1", ⟨7, 8⟩⟩, ⟨.mark ';', ⟨8, 9⟩⟩,
      ⟨.varKeyword, ⟨10, 13⟩⟩, ⟨.global "x", ⟨14, 16⟩⟩, ⟨.mark '=', ⟨16, 17⟩⟩,
      ⟨.number "2", ⟨17, 18⟩⟩, ⟨.mark ';', ⟨18, 19⟩⟩] =
      .ok [⟨.var ⟨"x"⟩ "1", ⟨0, 9⟩⟩, ⟨.var ⟨"x"⟩ "2", ⟨10, 19⟩⟩] := by
    decide +kernel
  intro parses
  have once := ((parse_reports scanned read).1.1 parses).1
  exact (List.nodup_cons.1 once).1 List.mem_cons_self

end Program

end ThreeAddress
