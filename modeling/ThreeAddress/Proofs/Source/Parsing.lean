import Mathlib.Data.List.Basic
import ThreeAddress.Proofs.Results
import ThreeAddress.Proofs.Source.Derivations
import ThreeAddress.Proofs.Source.Items
/-!
# Reading declarations

The functions that read tokens are matched with the grammar, sort by sort: what is read is a phrase of
the sort, and every phrase of the sort is read as what it derives.

* `Reads` : a function reads the phrases of a sort;
* `reads_item`, `reads_declaration` : items and declarations are read;
* `declarations_iff_derives` : a text is read just if the grammar derives it, and gives what it
  derives.
-/

namespace ThreeAddress

namespace Grammar

/-- The function reads the phrases of a sort, as what they derive, and nothing else. What comes behind
a phrase has to be as expected for it to be found. -/
structure Reads {α β : Type} [Phrase α] (read : Tokens → Except Tokens (β × Tokens)) (value : α → β)
    (follows : Tokens → Prop) : Prop where
  sound {ts left : Tokens} {b : β} : read ts = .ok (b, left) → ∃ a, value a = b ∧ tokens a ++ left = ts
  complete (a : α) (rest : Tokens) : follows rest → read (tokens a ++ rest) = .ok (value a, rest)

/-! ## Single tokens -/

/-- A token that does not read as this sort is not of this sort. -/
theorem Leaf.ne {α : Type} {reads : Token → Option α} {t : Token} (l : Leaf reads)
    (other : reads t = none) : l.token.value ≠ t := by
  rintro rfl
  cases l.reads_eq.symm.trans other

theorem reads_mark {c : Char} :
    Reads (mark c) (fun m : Mark c => m.token.span) Anything where
  sound {ts left span} h := by
    cases ts with
    | nil => cases h
    | cons t rest =>
      rw [mark] at h
      split at h
      · next same =>
        cases h
        exact ⟨⟨t, (), by rw [exactly?, if_pos same]⟩, rfl, rfl⟩
      · cases h
  complete m rest _ := if_pos m.eq_of_exactly

theorem reads_globalName : Reads globalName (fun l : Leaf global? => l.value) Anything where
  sound {ts left name} h := by
    rw [globalName.eq_def] at h
    split at h
    · cases h
      exact ⟨⟨_, _, rfl⟩, rfl, rfl⟩
    · cases h
  complete l rest _ := by
    obtain ⟨⟨t, span⟩, name, is⟩ := l
    cases t <;> cases is
    rfl

theorem reads_number : Reads number (fun l : Leaf number? => l.value) Anything where
  sound {ts left text} h := by
    rw [number.eq_def] at h
    split at h
    · cases h
      exact ⟨⟨_, _, rfl⟩, rfl, rfl⟩
    · cases h
  complete l rest _ := by
    obtain ⟨⟨t, span⟩, text, is⟩ := l
    cases t <;> cases is
    rfl

/-! ## Lists -/

section

variable {α β : Type}

/-- One thing more at the front of a list. -/
def Enclosed.cons (a : α) (comma : Mark ',') : Enclosed α → Enclosed α
  | (none, close) => (some ((a, []), some comma), close)
  | (some ((b, more), trailing), close) => (some ((a, (comma, b) :: more), trailing), close)

/-- A list ends at once, behind its last member, or behind a comma as another list does. -/
theorem Enclosed.induction {P : Enclosed α → Prop} (empty : ∀ close, P (none, close))
    (last : ∀ a close, P (some ((a, []), none), close))
    (cons : ∀ a comma e, P e → P (Enclosed.cons a comma e)) : ∀ e, P e := by
  rintro ⟨_ | ⟨⟨a, more⟩, trailing⟩, close⟩
  · exact empty close
  · induction more generalizing a with
    | nil =>
      cases trailing with
      | none => exact last a close
      | some comma => exact cons a comma (none, close) (empty close)
    | cons m more ih => exact cons a m.1 _ (ih m.2)

theorem Enclosed.values_empty (value : α → β) (close : Mark ')') :
    Enclosed.values value (none, close) = [] := rfl

theorem Enclosed.values_last (value : α → β) (a : α) (close : Mark ')') :
    Enclosed.values value (some ((a, []), none), close) = [value a] := rfl

theorem Enclosed.values_cons (value : α → β) (a : α) (comma : Mark ',') (e : Enclosed α) :
    Enclosed.values value (Enclosed.cons a comma e) = value a :: Enclosed.values value e := by
  obtain ⟨_ | ⟨⟨b, more⟩, trailing⟩, close⟩ := e <;> rfl

theorem Enclosed.tokens_cons [Phrase α] (a : α) (comma : Mark ',') (e : Enclosed α) :
    tokens (Enclosed.cons a comma e) = tokens a ++ comma.token :: tokens e := by
  obtain ⟨_ | ⟨⟨b, more⟩, trailing⟩, close⟩ := e
  · simp [Enclosed.cons]
  · simp [Enclosed.cons]

end

theorem reads_params :
    Reads params (Enclosed.values fun l : Leaf temp? => l.value) Anything where
  sound {ts left ps} h := by
    fun_induction params ts generalizing ps left with
    | case2 t rest closing =>
      cases h
      exact ⟨(none, ⟨t, (), if_pos closing⟩), rfl, rfl⟩
    | case5 t ht p read u more comma ih =>
      obtain ⟨qs, _, others, h⟩ := bind_eq_ok.1 h
      cases h
      obtain ⟨e, rfl, rfl⟩ := ih others
      refine ⟨Enclosed.cons ⟨t, p, read⟩ ⟨u, (), if_pos comma⟩ e, Enclosed.values_cons .., ?_⟩
      rw [Enclosed.tokens_cons]
      rfl
    | case6 t ht p read u more hu closing =>
      cases h
      exact ⟨(some ((⟨t, p, read⟩, []), none), ⟨u, (), if_pos closing⟩), rfl, rfl⟩
    | _ => cases h
  complete e rest _ := by
    induction e using Enclosed.induction with
    | empty close => simp [params, close.eq_of_exactly, Enclosed.values_empty]
    | last a close =>
      have other : a.token.value ≠ .mark ')' := a.ne rfl
      simp [params, other, a.reads_eq, close.eq_of_exactly, Enclosed.values_last]
    | cons a comma e ih =>
      have other : a.token.value ≠ .mark ')' := a.ne rfl
      rw [Enclosed.tokens_cons, Enclosed.values_cons]
      simp [params, other, a.reads_eq, comma.eq_of_exactly, ih]

theorem reads_pairs : Reads pairs (Enclosed.values Pair.value) Anything where
  sound {ts left es} h := by
    fun_induction pairs ts generalizing es left with
    | case2 t rest closing =>
      cases h
      exact ⟨(none, ⟨t, (), if_pos closing⟩), rfl, rfl⟩
    | case11 t ht edge edge_ colon u v more hc arg arg_ comma ih =>
      obtain ⟨others, _, reads, h⟩ := bind_eq_ok.1 h
      cases h
      obtain ⟨e, rfl, rfl⟩ := ih reads
      refine ⟨Enclosed.cons (⟨t, edge, edge_⟩, ⟨colon, (), if_pos hc⟩, ⟨u, arg, arg_⟩)
        ⟨v, (), if_pos comma⟩ e, Enclosed.values_cons .., ?_⟩
      rw [Enclosed.tokens_cons]
      rfl
    | case12 t ht edge edge_ colon u v more hc arg arg_ hv closing =>
      cases h
      exact ⟨(some (((⟨t, edge, edge_⟩, ⟨colon, (), if_pos hc⟩, ⟨u, arg, arg_⟩), []), none),
        ⟨v, (), if_pos closing⟩), rfl, rfl⟩
    | _ => cases h
  complete e rest _ := by
    induction e using Enclosed.induction with
    | empty close => simp [pairs, close.eq_of_exactly, Enclosed.values_empty]
    | last a close =>
      obtain ⟨edge, colon, arg⟩ := a
      have other : edge.token.value ≠ .mark ')' := edge.ne rfl
      simp [pairs, other, edge.reads_eq, colon.eq_of_exactly, arg.reads_eq, close.eq_of_exactly,
        Enclosed.values_last, Pair.value]
    | cons a comma e ih =>
      obtain ⟨edge, colon, arg⟩ := a
      have other : edge.token.value ≠ .mark ')' := edge.ne rfl
      rw [Enclosed.tokens_cons, Enclosed.values_cons]
      simp [pairs, other, edge.reads_eq, colon.eq_of_exactly, arg.reads_eq, comma.eq_of_exactly, ih,
        Pair.value]

/-- Operands go on behind a comma. -/
theorem reads_moreOperands :
    Reads moreOperands (fun more : List (Mark ',' × Leaf operand?) => more.map fun m => m.2.value)
      (fun rest => ¬ Begins (· = .mark ',') rest) where
  sound {ts left os} h := by
    fun_induction moreOperands ts generalizing os left with
    | case4 comma hc t more o operand ih =>
      obtain ⟨others, _, reads, h⟩ := bind_eq_ok.1 h
      cases h
      obtain ⟨l, rfl, rfl⟩ := ih reads
      exact ⟨(⟨comma, (), if_pos hc⟩, ⟨t, o, operand⟩) :: l, rfl, rfl⟩
    | case1 | case5 =>
      cases h
      exact ⟨[], rfl, rfl⟩
    | _ => cases h
  complete l rest ends := by
    induction l with
    | nil =>
      cases rest with
      | nil => simp [moreOperands]
      | cons t rest =>
        have other : t.value ≠ .mark ',' := fun comma => ends ⟨t, rest, rfl, comma⟩
        rw [tokens_nil, List.nil_append, moreOperands.eq_def]
        exact if_neg other
    | cons m l ih =>
      obtain ⟨comma, operand⟩ := m
      simp [moreOperands, comma.eq_of_exactly, operand.reads_eq, ih]

/-! ## Items -/

theorem reads_arguments : Reads arguments Args.arguments (Begins (· = .mark ';')) where
  sound {ts left args} h := by
    cases ts with
    | nil =>
      cases h
      exact ⟨.inr none, rfl, rfl⟩
    | cons t rest =>
      rw [arguments] at h
      split at h
      · next opening =>
        obtain ⟨es, _, reads, h⟩ := bind_eq_ok.1 h
        cases h
        obtain ⟨e, rfl, rfl⟩ := reads_pairs.sound reads
        exact ⟨.inl (⟨t, (), if_pos opening⟩, e), rfl, rfl⟩
      · split at h
        · cases h
          exact ⟨.inr none, rfl, rfl⟩
        · next o operand =>
          obtain ⟨os, _, reads, h⟩ := bind_eq_ok.1 h
          cases h
          obtain ⟨more, rfl, rfl⟩ := reads_moreOperands.sound reads
          exact ⟨.inr (some (⟨t, o, operand⟩, more)), rfl, rfl⟩
  complete args rest ends := by
    have noComma : ¬ Begins (· = .mark ',') rest := fun comma =>
      comma.ne ends (by rintro _ rfl; decide) rfl
    rcases args with ⟨opening, e⟩ | _ | ⟨operand, more⟩
    · simp [arguments, opening.eq_of_exactly, reads_pairs.complete e rest trivial,
        Args.arguments]
    · obtain ⟨semicolon, left, rfl, is⟩ := ends
      simp [arguments, is, operand?, Args.arguments]
    · have other : operand.token.value ≠ .mark '(' := operand.ne rfl
      simp [arguments, other, operand.reads_eq, reads_moreOperands.complete more rest noComma,
        Args.arguments, Listed.values]

/-- An instruction from its opcode on. -/
theorem reads_instruction (start : Nat) (dest : Option Operand) :
    Reads (instruction start dest)
      (fun i : Leaf word? × Args × Mark ';' =>
        ⟨.instr dest i.1.value i.2.1.arguments, ⟨start, i.2.2.token.span.stop⟩⟩) Anything where
  sound {ts left i} h := by
    rw [instruction.eq_def] at h
    split at h
    · next opcode span rest =>
      obtain ⟨args, behind, reads, h⟩ := bind_eq_ok.1 h
      obtain ⟨stop, _, reads', h⟩ := bind_eq_ok.1 h
      cases h
      obtain ⟨args, rfl, rfl⟩ := reads_arguments.sound reads
      obtain ⟨semicolon, rfl, rfl⟩ := reads_mark.sound reads'
      refine ⟨(⟨⟨.word opcode, span⟩, opcode, rfl⟩, args, semicolon), rfl, ?_⟩
      simp
    · cases h
  complete i rest _ := by
    obtain ⟨⟨⟨word, span⟩, opcode, is⟩, args, semicolon⟩ := i
    cases word <;> cases is
    have reads := reads_arguments.complete args _ (begins_exactly semicolon rest)
    have reads' := reads_mark.complete semicolon rest trivial
    simp only [tokens_leaf, List.singleton_append] at reads'
    simp [instruction, reads, reads', bind_eq_ok]

/-! ## Extents -/

/-- The extent of a phrase is from the beginning of its first part to the end of its last. -/
theorem extent_append {ts us : Tokens} (left : ts ≠ []) (right : us ≠ []) :
    extent (ts ++ us) = ⟨(extent ts).start, (extent us).stop⟩ := by
  cases ts with
  | nil => exact absurd rfl left
  | cons t ts =>
    rw [extent, List.getLast?_append_of_ne_nil _ right]
    rfl

theorem extent_eq (t u : Located Token) (ts : Tokens) :
    extent (t :: (ts ++ [u])) = ⟨t.span.start, u.span.stop⟩ :=
  extent_append (List.cons_ne_nil t ts) (List.cons_ne_nil u [])

theorem located_plain (opcode : Leaf word?) (args : Args) (semicolon : Mark ';') :
    located Line.item (.inr (none, opcode, args, semicolon)) =
      ⟨.instr none opcode.value args.arguments,
        ⟨opcode.token.span.start, semicolon.token.span.stop⟩⟩ :=
  congrArg (Located.mk _) (extent_eq opcode.token semicolon.token (tokens args))

theorem located_assigned (dest : Leaf destination?) (equals : Mark '=') (opcode : Leaf word?)
    (args : Args) (semicolon : Mark ';') :
    located Line.item (.inr (some (dest, equals), opcode, args, semicolon)) =
      ⟨.instr (some dest.value) opcode.value args.arguments,
        ⟨dest.token.span.start, semicolon.token.span.stop⟩⟩ :=
  congrArg (Located.mk _)
    (extent_eq dest.token semicolon.token (equals.token :: opcode.token :: tokens args))

theorem reads_item : Reads item (located Line.item) Anything where
  sound {ts left i} h := by
    rw [item.eq_def] at h
    split at h
    · cases h
    · next suffix span rest =>
      obtain ⟨stop, _, reads, made⟩ := bind_eq_ok.1 h
      cases made
      obtain ⟨colon, rfl, rfl⟩ := reads_mark.sound reads
      exact ⟨.inl (⟨⟨.label suffix, span⟩, ⟨suffix⟩, rfl⟩, colon), rfl, rfl⟩
    · next t rest noLabel =>
      split at h
      · next dest read =>
        obtain ⟨_, behind, reads, made⟩ := bind_eq_ok.1 h
        obtain ⟨equals, rfl, rfl⟩ := reads_mark.sound reads
        obtain ⟨⟨opcode, args, semicolon⟩, rfl, rfl⟩ := (reads_instruction _ _).sound made
        exact ⟨.inr (some (⟨t, dest, read⟩, equals), opcode, args, semicolon),
          located_assigned .., by simp⟩
      · obtain ⟨⟨opcode, args, semicolon⟩, rfl, same⟩ := (reads_instruction _ _).sound h
        obtain ⟨rfl, -⟩ := List.cons.inj same
        exact ⟨.inr (none, opcode, args, semicolon), located_plain .., same⟩
  complete l rest _ := by
    rcases l with ⟨⟨⟨label, span⟩, suffix, is⟩, colon⟩ | ⟨_ | ⟨dest, equals⟩, opcode, args, semicolon⟩
    · cases label <;> cases is
      have reads := reads_mark.complete colon rest trivial
      exact bind_eq_ok.2 ⟨_, _, reads, rfl⟩
    · have reads := (reads_instruction opcode.token.span.start none).complete
        (opcode, args, semicolon) rest trivial
      obtain ⟨⟨word, span⟩, opcode, is⟩ := opcode
      cases word <;> cases is
      rw [located_plain]
      exact reads
    · have reads := reads_mark.complete equals (tokens (opcode, args, semicolon) ++ rest) trivial
      have reads' := (reads_instruction dest.token.span.start (some dest.value)).complete
        (opcode, args, semicolon) rest trivial
      have noLabel : ∀ suffix, dest.token.value ≠ .label suffix := fun _ => dest.ne rfl
      rw [located_assigned]
      show item (dest.token :: (tokens equals ++ (tokens (opcode, args, semicolon) ++ rest))) = _
      rw [item.eq_def]
      split
      · next e => cases e
      · next e => exact absurd (congrArg Located.value (List.cons.inj e).1) (noLabel _)
      · next e =>
        obtain ⟨rfl, rfl⟩ := List.cons.inj e
        rw [dest.reads_eq]
        exact bind_eq_ok.2 ⟨_, _, reads, reads'⟩

/-- No item begins where a procedure ends. -/
theorem item_of_ends {rest : Tokens} (ends : Ends rest) : item rest = .error rest := by
  rcases ends with rfl | ⟨t, more, rfl, keyword⟩
  · rfl
  · exact item_of_keyword keyword

theorem reads_items : Reads items (fun ls : List Line => ls.map (located Line.item)) Ends where
  sound {ts left is} h := by
    fun_induction items ts generalizing is left with
    | case1 ts i rest reads shorter ih =>
      obtain ⟨others, _, reads', made⟩ := bind_eq_ok.1 h
      cases made
      obtain ⟨l, rfl, rfl⟩ := reads_item.sound reads
      obtain ⟨ls, rfl, rfl⟩ := ih reads'
      exact ⟨l :: ls, rfl, by simp⟩
    | case2 =>
      cases h
      exact ⟨[], rfl, rfl⟩
    | case3 => cases h
  complete ls rest ends := by
    induction ls with
    | nil =>
      rw [tokens_nil, List.nil_append, items]
      split
      · next reads => cases reads.symm.trans (item_of_ends ends)
      · next reads =>
        cases reads.symm.trans (item_of_ends ends)
        exact if_pos rfl
    | cons l ls ih =>
      rw [tokens_cons, List.append_assoc, items]
      have reads := reads_item.complete l (tokens ls ++ rest) trivial
      split
      · next reads' =>
        cases reads.symm.trans reads'
        exact bind_eq_ok.2 ⟨_, _, ih, rfl⟩
      · next reads' => cases reads.symm.trans reads'

/-! ## Declarations -/

theorem located_var (keyword : Leaf (exactly? .varKeyword)) (name : Leaf global?) (equals : Mark '=')
    (value : Leaf number?) (semicolon : Mark ';') :
    located Decl.declaration (.inl (keyword, name, equals, value, semicolon)) =
      ⟨.var name.value value.value, ⟨keyword.token.span.start, semicolon.token.span.stop⟩⟩ := rfl

theorem tokens_line_ne_nil (l : Line) : tokens l ≠ [] := by
  obtain ⟨t, more, first, -⟩ := begins_line l
  simp [first]

/-- A procedure ends with its last item, or with its colon. -/
theorem located_proc (keyword : Leaf (exactly? .procKeyword)) (name : Leaf global?)
    (opening : Mark '(') (params : Enclosed (Leaf temp?)) (colon : Mark ':') (lines : List Line) :
    located Decl.declaration (.inr (keyword, name, opening, params, colon, lines)) =
      ⟨.proc name.value (Enclosed.values Leaf.value params) (lines.map (located Line.item)),
        ⟨keyword.token.span.start,
          (((lines.map (located Line.item)).getLast?.map Located.span).getD colon.token.span).stop⟩⟩ := by
  refine congrArg (Located.mk _) ?_
  have whole : tokens (.inr (keyword, name, opening, params, colon, lines) : Decl) =
      (keyword.token :: (name.token :: opening.token :: tokens params ++ [colon.token])) ++
        tokens lines := by
    simp
  rw [whole]
  rcases List.eq_nil_or_concat lines with rfl | ⟨init, l, rfl⟩
  · rw [tokens_nil, List.append_nil, extent_eq]
    rfl
  · have last : tokens (init ++ [l]) = tokens init ++ tokens l := by simp
    rw [List.concat_eq_append, last, ← List.append_assoc,
      extent_append (by simp) (tokens_line_ne_nil l), List.map_append, List.map_singleton,
      List.getLast?_concat]
    rfl

theorem reads_declaration : Reads declaration (located Decl.declaration) Ends where
  sound {ts left d} h := by
    rw [declaration.eq_def] at h
    split at h
    · next span rest =>
      simp only [bind_eq_ok, pure_eq_ok, Prod.mk.injEq] at h
      obtain ⟨name, _, h₁, _, _, h₂, value, _, h₃, _, _, h₄, rfl, rfl⟩ := h
      obtain ⟨name, rfl, rfl⟩ := reads_globalName.sound h₁
      obtain ⟨equals, rfl, rfl⟩ := reads_mark.sound h₂
      obtain ⟨value, rfl, rfl⟩ := reads_number.sound h₃
      obtain ⟨semicolon, rfl, rfl⟩ := reads_mark.sound h₄
      exact ⟨.inl (⟨⟨.varKeyword, span⟩, (), rfl⟩, name, equals, value, semicolon),
        located_var .., by simp⟩
    · next span rest =>
      simp only [bind_eq_ok, pure_eq_ok, Prod.mk.injEq] at h
      obtain ⟨name, _, h₁, _, _, h₂, params, _, h₃, _, _, h₄, items, _, h₅, rfl, rfl⟩ := h
      obtain ⟨name, rfl, rfl⟩ := reads_globalName.sound h₁
      obtain ⟨opening, rfl, rfl⟩ := reads_mark.sound h₂
      obtain ⟨params, rfl, rfl⟩ := reads_params.sound h₃
      obtain ⟨colon, rfl, rfl⟩ := reads_mark.sound h₄
      obtain ⟨lines, rfl, rfl⟩ := reads_items.sound h₅
      exact ⟨.inr (⟨⟨.procKeyword, span⟩, (), rfl⟩, name, opening, params, colon, lines),
        located_proc .., by simp⟩
    · cases h
  complete d rest ends := by
    rcases d with ⟨keyword, name, equals, value, semicolon⟩ |
      ⟨keyword, name, opening, params, colon, lines⟩
    · obtain ⟨⟨keyword, span⟩, _, is⟩ := keyword
      obtain rfl := isSome_exactly?.1 (Option.isSome_of_eq_some is)
      rw [located_var]
      exact bind_eq_ok.2 ⟨_, _, reads_globalName.complete name _ trivial,
        bind_eq_ok.2 ⟨_, _, reads_mark.complete equals _ trivial,
          bind_eq_ok.2 ⟨_, _, reads_number.complete value _ trivial,
            bind_eq_ok.2 ⟨_, _, reads_mark.complete semicolon _ trivial, rfl⟩⟩⟩⟩
    · obtain ⟨⟨keyword, span⟩, _, is⟩ := keyword
      obtain rfl := isSome_exactly?.1 (Option.isSome_of_eq_some is)
      rw [located_proc]
      simp only [tokens_inr, tokens_pair, List.append_assoc]
      exact bind_eq_ok.2 ⟨_, _, reads_globalName.complete name _ trivial,
        bind_eq_ok.2 ⟨_, _, reads_mark.complete opening _ trivial,
          bind_eq_ok.2 ⟨_, _, reads_params.complete params _ trivial,
            bind_eq_ok.2 ⟨_, _, reads_mark.complete colon _ trivial,
              bind_eq_ok.2 ⟨_, _, reads_items.complete lines _ ends, rfl⟩⟩⟩⟩⟩

/-! ## Whole texts -/

/-- What is read is what some derivation derives. -/
theorem exists_text_of_declarations {ts : Tokens} {ds : List (Located Declaration)}
    (h : declarations ts = .ok ds) : ∃ text : Text, tokens text = ts ∧ text.declarations = ds := by
  fun_induction declarations ts generalizing ds with
  | case1 ts done =>
    cases h
    exact ⟨[], (List.isEmpty_iff.1 done).symm, rfl⟩
  | case2 ts more d rest reads shorter ih =>
    obtain ⟨others, reads', made⟩ := bind_eq_ok_iff.1 h
    cases made
    obtain ⟨d, rfl, rfl⟩ := reads_declaration.sound reads
    obtain ⟨text, rfl, rfl⟩ := ih reads'
    exact ⟨d :: text, rfl, rfl⟩
  | case3 => cases h

theorem ends_text (text : Text) : Ends (tokens text) := by
  cases text with
  | nil => exact .inl rfl
  | cons d text => exact .inr ((begins_decl d).append (tokens text))

/-- A derivation is read. -/
theorem declarations_tokens_text (text : Text) :
    declarations (tokens text) = .ok text.declarations := by
  induction text with
  | nil =>
    rw [tokens_nil, declarations]
    rfl
  | cons d text ih =>
    have reads := reads_declaration.complete d (tokens text) (ends_text text)
    have more : (tokens d ++ tokens text).isEmpty = false := by
      obtain ⟨t, more, first, -⟩ := begins_decl d
      simp [first]
    rw [tokens_cons, declarations, if_neg (by simp [more])]
    split
    · next reads' =>
      cases reads.symm.trans reads'
      exact bind_eq_ok_iff.2 ⟨_, ih, rfl⟩
    · next reads' => cases reads.symm.trans reads'

/-- A text is read just if the grammar derives it. What it gives is what the derivation derives, and
there is no other derivation. -/
theorem declarations_iff_derives (ts : Tokens) :
    ((∃ ds, declarations ts = .ok ds) ↔ ∃ text : Text, tokens text = ts) ∧
    ∀ text : Text, tokens text = ts → declarations ts = .ok text.declarations ∧
      ∀ text' : Text, tokens text' = ts → text' = text := by
  refine ⟨⟨?_, ?_⟩, ?_⟩
  · rintro ⟨ds, h⟩
    obtain ⟨text, derives, -⟩ := exists_text_of_declarations h
    exact ⟨text, derives⟩
  · rintro ⟨text, rfl⟩
    exact ⟨_, declarations_tokens_text text⟩
  · rintro text rfl
    exact ⟨declarations_tokens_text text, fun text' same => Text.eq_of_tokens same⟩

/-- A comma may end the parameters of a procedure, but not the operands of an instruction. -/
theorem declarations_iff_derives_commas :
    (∃ text : Text, tokens text =
      [.procKeyword, .global "f", .mark '(', .temp "x", .mark ',', .mark ')', .mark ':',
        .word "print", .temp "x", .mark ';'].map (Located.mk · default)) ∧
    ¬ ∃ text : Text, tokens text =
      [.procKeyword, .global "f", .mark '(', .mark ')', .mark ':',
        .word "print", .temp "x", .mark ',', .mark ';'].map (Located.mk · default) := by
  have reads {ts : Tokens} :
      (declarations ts).toOption.isSome = true ↔ ∃ text : Text, tokens text = ts := by
    rw [← (declarations_iff_derives ts).1, Option.isSome_iff_exists]
    exact exists_congr fun _ => toOption_eq_some_iff
  exact ⟨reads.1 (by decide +kernel), fun derives => absurd (reads.2 derives) (by decide +kernel)⟩

end Grammar

end ThreeAddress
