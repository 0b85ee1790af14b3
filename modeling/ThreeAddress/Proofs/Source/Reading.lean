import ThreeAddress.Proofs.Results
import ThreeAddress.Proofs.Source.Programs
/-!
# Programs that are read

Whatever is read from a text can be written. Tokens have spellings, items consist of what their
tokens stand for, and the checked constructors make instructions of nothing else.

* `Grammar.isWritten_of_declarations` : declarations that are read can be written;
* `Item.of_build` : and so can the instructions that their items make;
* `Program.of_parse` : and so can the program of a text.
-/

namespace ThreeAddress

/-! ## Declarations -/

/-- Can the declaration be written? -/
def Declaration.isWritten : Declaration → Bool
  | var name _ => name.isWritten
  | proc name params items =>
    name.isWritten && params.all (fun p => p.isProper && p.fits) &&
      items.all fun i => i.value.isWritten

namespace Grammar

/-- Do all tokens have spellings? -/
def Spelled (ts : Tokens) : Prop := ∀ t ∈ ts, t.value.isSpelled = true

variable {ts left : Tokens} {t : Token}

theorem Spelled.tail {t : Located Token} (h : Spelled (t :: ts)) : Spelled ts :=
  fun u hu => h u (List.mem_cons_of_mem _ hu)

theorem Spelled.head {t : Located Token} (h : Spelled (t :: ts)) : t.value.isSpelled = true :=
  h t List.mem_cons_self

theorem of_temp? {p : Temp} (h : temp? t = some p) : p.isProper = true ∧ p.fits = true := by
  cases t with
  | temp name => exact Temp.of_ofText? h
  | _ => cases h

theorem of_operand? (spelled : t.isSpelled = true) {o : Operand} (h : operand? t = some o) :
    o.isWritten = true := by
  cases t with
  | temp name =>
    obtain ⟨p, read, rfl⟩ := Option.map_eq_some_iff.1 h
    exact Bool.and_eq_true_iff.2 (Temp.of_ofText? read)
  | global name | label suffix | number text =>
    cases h
    exact spelled
  | _ => cases h

theorem of_destination? (spelled : t.isSpelled = true) {o : Operand} (h : destination? t = some o) :
    (o.isWritten && (destination? o.token).isSome) = true := by
  cases t with
  | temp name =>
    obtain ⟨p, read, rfl⟩ := Option.map_eq_some_iff.1 h
    obtain ⟨proper, fits⟩ := Temp.of_ofText? read
    simp [Operand.token, destination?, Temp.ofText?_name proper fits, proper, fits]
  | global name =>
    cases h
    exact Bool.and_eq_true_iff.2 ⟨spelled, rfl⟩
  | _ => cases h

theorem of_edge? (spelled : t.isSpelled = true) {e : Origin} (h : edge? t = some e) :
    e.isWritten = true := by
  cases t with
  | label suffix =>
    cases h
    exact spelled
  | word text =>
    rw [edge?] at h
    split at h
    · cases h
      rfl
    · cases h
  | _ => cases h

theorem of_mark {c : Char} {span : Span} (spelled : Spelled ts) (h : mark c ts = .ok (span, left)) :
    Spelled left := by
  cases ts with
  | nil => cases h
  | cons t rest =>
    rw [mark] at h
    split at h
    · cases h
      exact spelled.tail
    · cases h

theorem of_params {ps : List Temp} (spelled : Spelled ts) (h : params ts = .ok (ps, left)) :
    (∀ p ∈ ps, p.isProper = true ∧ p.fits = true) ∧ Spelled left := by
  fun_induction params ts generalizing ps left with
  | case2 t rest closing =>
    cases h
    exact ⟨by simp, spelled.tail⟩
  | case5 t ht p read u more comma ih =>
    obtain ⟨qs, _, others, h⟩ := bind_eq_ok.1 h
    cases h
    obtain ⟨all, rest⟩ := ih spelled.tail.tail others
    exact ⟨List.forall_mem_cons.2 ⟨of_temp? read, all⟩, rest⟩
  | case6 t ht p read u more hu closing =>
    cases h
    exact ⟨List.forall_mem_cons.2 ⟨of_temp? read, by simp⟩, spelled.tail.tail⟩
  | _ => cases h

theorem of_pairs {es : List (Origin × Operand)} (spelled : Spelled ts)
    (h : pairs ts = .ok (es, left)) :
    (∀ e ∈ es, (e.1.isWritten && e.2.isWritten) = true) ∧ Spelled left := by
  fun_induction pairs ts generalizing es left with
  | case2 t rest closing =>
    cases h
    exact ⟨by simp, spelled.tail⟩
  | case11 t ht edge edge_ colon u v more hc arg arg_ comma ih =>
    obtain ⟨es, _, others, h⟩ := bind_eq_ok.1 h
    cases h
    obtain ⟨all, rest⟩ := ih spelled.tail.tail.tail.tail others
    have pair := Bool.and_eq_true_iff.2 ⟨of_edge? spelled.head edge_, of_operand? spelled.tail.tail.head arg_⟩
    exact ⟨List.forall_mem_cons.2 ⟨pair, all⟩, rest⟩
  | case12 t ht edge edge_ colon u v more hc arg arg_ hv closing =>
    cases h
    have pair := Bool.and_eq_true_iff.2 ⟨of_edge? spelled.head edge_, of_operand? spelled.tail.tail.head arg_⟩
    exact ⟨List.forall_mem_cons.2 ⟨pair, by simp⟩, spelled.tail.tail.tail.tail⟩
  | _ => cases h

theorem of_moreOperands {os : List Operand} (spelled : Spelled ts)
    (h : moreOperands ts = .ok (os, left)) :
    (∀ o ∈ os, o.isWritten = true) ∧ Spelled left := by
  fun_induction moreOperands ts generalizing os left with
  | case4 comma hc t more o operand ih =>
    obtain ⟨os, _, others, h⟩ := bind_eq_ok.1 h
    cases h
    obtain ⟨all, rest⟩ := ih spelled.tail.tail others
    exact ⟨List.forall_mem_cons.2 ⟨of_operand? spelled.tail.head operand, all⟩, rest⟩
  | case1 | case5 =>
    cases h
    exact ⟨by simp, spelled⟩
  | _ => cases h

theorem of_arguments {args : Arguments} (spelled : Spelled ts) (h : arguments ts = .ok (args, left)) :
    args.isWritten = true ∧ Spelled left := by
  cases ts with
  | nil =>
    cases h
    exact ⟨rfl, spelled⟩
  | cons t rest =>
    rw [arguments] at h
    split at h
    · obtain ⟨es, _, reads, h⟩ := bind_eq_ok.1 h
      cases h
      obtain ⟨all, rest⟩ := of_pairs spelled.tail reads
      exact ⟨List.all_eq_true.2 all, rest⟩
    · split at h
      · cases h
        exact ⟨rfl, spelled⟩
      · next o operand =>
        obtain ⟨os, _, reads, h⟩ := bind_eq_ok.1 h
        cases h
        obtain ⟨all, rest⟩ := of_moreOperands spelled.tail reads
        exact ⟨List.all_eq_true.2 (List.forall_mem_cons.2 ⟨of_operand? spelled.head operand, all⟩),
          rest⟩

theorem of_instruction {start : Nat} {dest : Option Operand} {i : Located Item} (spelled : Spelled ts)
    (dest_ : dest.all (fun d => d.isWritten && (destination? d.token).isSome) = true)
    (h : instruction start dest ts = .ok (i, left)) : i.value.isWritten = true ∧ Spelled left := by
  rw [instruction.eq_def] at h
  split at h
  · obtain ⟨args, rest, reads, h⟩ := bind_eq_ok.1 h
    obtain ⟨stop, rest', semicolon, h⟩ := bind_eq_ok.1 h
    cases h
    obtain ⟨args_, behind⟩ := of_arguments spelled.tail reads
    refine ⟨?_, of_mark behind semicolon⟩
    rw [Item.isWritten, dest_, args_, Bool.true_and, Bool.and_true]
    exact spelled.head
  · cases h

theorem of_item {i : Located Item} (spelled : Spelled ts) (h : item ts = .ok (i, left)) :
    i.value.isWritten = true ∧ Spelled left := by
  rw [item.eq_def] at h
  split at h
  · cases h
  · obtain ⟨colon, rest, reads, h⟩ := bind_eq_ok.1 h
    cases h
    exact ⟨spelled.head, of_mark spelled.tail reads⟩
  · split at h
    · next dest dest_ =>
      obtain ⟨equals, rest, reads, h⟩ := bind_eq_ok.1 h
      exact @of_instruction _ _ _ (some dest) _ (of_mark spelled.tail reads)
        (of_destination? spelled.head dest_) h
    · exact of_instruction spelled rfl h

theorem of_items {ts left : Tokens} {is : List (Located Item)} (spelled : Spelled ts) (h : items ts = .ok (is, left)) :
    (∀ i ∈ is, i.value.isWritten = true) ∧ Spelled left := by
  rw [items] at h
  split at h
  · next i rest reads =>
    obtain ⟨is, _, others, h⟩ := bind_eq_ok.1 h
    cases h
    have shorter := item_length reads
    obtain ⟨first, behind⟩ := of_item spelled reads
    obtain ⟨all, rest⟩ := of_items behind others
    exact ⟨List.forall_mem_cons.2 ⟨first, all⟩, rest⟩
  · split at h
    · cases h
      exact ⟨by simp, spelled⟩
    · cases h
termination_by ts.length

theorem of_globalName {g : Global} (spelled : Spelled ts) (h : globalName ts = .ok (g, left)) :
    g.isWritten = true ∧ Spelled left := by
  rw [globalName.eq_def] at h
  split at h
  · cases h
    exact ⟨spelled.head, spelled.tail⟩
  · cases h

theorem of_number {s : String} (spelled : Spelled ts) (h : number ts = .ok (s, left)) :
    Spelled left := by
  rw [number.eq_def] at h
  split at h
  · cases h
    exact spelled.tail
  · cases h

theorem of_declaration {d : Located Declaration} (spelled : Spelled ts)
    (h : declaration ts = .ok (d, left)) : d.value.isWritten = true ∧ Spelled left := by
  rw [declaration.eq_def] at h
  split at h
  · simp only [bind_eq_ok, pure_eq_ok, Prod.mk.injEq] at h
    obtain ⟨name, _, h₁, _, _, h₂, _, _, h₃, _, _, h₄, rfl, rfl⟩ := h
    obtain ⟨name_, rest⟩ := of_globalName spelled.tail h₁
    exact ⟨name_, of_mark (of_number (of_mark rest h₂) h₃) h₄⟩
  · simp only [bind_eq_ok, pure_eq_ok, Prod.mk.injEq] at h
    obtain ⟨name, _, h₁, _, _, h₂, _, _, h₃, _, _, h₄, _, _, h₅, rfl, rfl⟩ := h
    obtain ⟨name_, rest⟩ := of_globalName spelled.tail h₁
    obtain ⟨params_, rest⟩ := of_params (of_mark rest h₂) h₃
    obtain ⟨items_, rest⟩ := of_items (of_mark rest h₄) h₅
    refine ⟨?_, rest⟩
    simp only [Declaration.isWritten, Bool.and_eq_true, List.all_eq_true]
    exact ⟨⟨name_, params_⟩, items_⟩
  · cases h

/-- Declarations that are read can be written. -/
theorem isWritten_of_declarations {ts : Tokens} {ds : List (Located Declaration)} (spelled : Spelled ts)
    (h : declarations ts = .ok ds) : ∀ d ∈ ds, d.value.isWritten = true := by
  rw [declarations] at h
  split at h
  · cases h
    simp
  · split at h
    · next d rest reads =>
      cases others : declarations rest with
      | error refused => simp [others, bind, Except.bind] at h
      | ok more =>
        simp only [others, bind, Except.bind, pure, Except.pure, Except.ok.injEq] at h
        subst h
        have shorter := declaration_length reads
        obtain ⟨first, behind⟩ := of_declaration spelled reads
        exact List.forall_mem_cons.2 ⟨first, isWritten_of_declarations behind others⟩
    · cases h
termination_by ts.length

end Grammar

/-! ## Instructions -/

namespace Instr

/-- Is the operand missing, or can it be written? -/
def Given (o : Option Operand) : Prop := ∀ found ∈ o, found.isWritten = true

theorem given_none : Given none := fun _ found => by cases found

variable {dest first second : Option Operand} {v : Var}

/-- The variable of an operand that can be written can be written. -/
theorem of_given_operand (given : Given (some v.operand)) :
    v.isProper = true ∧ v.named?.all Temp.fits = true := by
  have written := given v.operand rfl
  cases v with
  | global g => exact ⟨written, rfl⟩
  | temp t =>
    obtain ⟨proper, fits⟩ := Bool.and_eq_true_iff.1 written
    refine ⟨proper, ?_⟩
    rw [Var.named?]
    split
    · rfl
    · exact fits

theorem of_given_temp {t : Temp} (given : (Operand.temp t).isWritten = true) (other : t ≠ Temp.sink) :
    t.isNamed = true ∧ t.fits = true := by
  obtain ⟨proper, fits⟩ := Bool.and_eq_true_iff.1 given
  have named := (Bool.or_eq_true_iff.1 proper).resolve_left fun sink => other (eq_of_beq sink)
  exact ⟨named, fits⟩

/-- The versions of an instruction are those of its variables, unless it is a phi. -/
theorem fits_of_vars {i : Instr} (plain : i.isPhi = false)
    (small : ∀ v ∈ i.dest?.toList ++ i.operands, v.named?.all Temp.fits = true) : i.fits = true := by
  have named : ∀ v ∈ i.dest?.toList ++ i.operands, ∀ t, v.named? = some t → t.fits = true := by
    intro v hv t ht
    simpa [ht] using small v hv
  refine List.all_eq_true.2 fun t ht => ?_
  rcases List.mem_append.1 ht with ht | arg
  · rcases List.mem_append.1 ht with dest | use
    · have dest : i.def? = some t := Option.mem_toList.1 dest
      have bound : i.dest?.bind Var.named? = some t := by
        cases i with
        | phi => cases plain
        | _ => exact dest
      obtain ⟨v, hv, ht⟩ := Option.bind_eq_some_iff.1 bound
      exact named v (List.mem_append_left _ (Option.mem_toList.2 hv)) t ht
    · obtain ⟨v, hv, ht⟩ := List.mem_filterMap.1 use
      exact named v (List.mem_append_right _ hv) t ht
  · cases i with
    | phi => cases plain
    | _ => cases arg

/-- Instructions are made of operands that can be written. -/
theorem of_buildOpcode {op : Opcode} {i : Instr} (dest_ : Given dest) (first_ : Given first)
    (second_ : Given second) (h : buildOpcode op dest first second = .ok i) :
    i.isProper = true ∧ i.fits = true := by
  cases made_of_buildOpcode h with
  | nop => exact ⟨rfl, rfl⟩
  | jump l | label l => exact ⟨first_ _ rfl, rfl⟩
  | branch test arg target =>
    obtain ⟨proper, fits⟩ := of_given_operand first_
    refine ⟨Bool.and_eq_true_iff.2 ⟨proper, second_ _ rfl⟩, fits_of_vars rfl ?_⟩
    simpa [dest?, operands] using fits
  | binary op dest lhs rhs =>
    obtain ⟨properDest, fitsDest⟩ := of_given_operand dest_
    obtain ⟨properLeft, fitsLeft⟩ := of_given_operand first_
    obtain ⟨properRight, fitsRight⟩ := of_given_operand second_
    refine ⟨by simp [isProper, properDest, properLeft, properRight], fits_of_vars rfl ?_⟩
    simp [dest?, operands, fitsDest, fitsLeft, fitsRight]
  | unary _ dest arg | copy dest arg =>
    obtain ⟨properDest, fitsDest⟩ := of_given_operand dest_
    obtain ⟨properArg, fitsArg⟩ := of_given_operand first_
    refine ⟨by simp [isProper, properDest, properArg], fits_of_vars rfl ?_⟩
    simp [dest?, operands, fitsDest, fitsArg]
  | const dest denotes =>
    obtain ⟨proper, fits⟩ := of_given_operand dest_
    exact ⟨proper, fits_of_vars rfl (by simpa [dest?, operands] using fits)⟩
  | param arg denotes lower upper =>
    obtain ⟨proper, fits⟩ := of_given_operand second_
    refine ⟨?_, fits_of_vars rfl (by simpa [dest?, operands] using fits)⟩
    rw [isProper, proper, Bool.and_true, decide_eq_true_eq]
    exact ⟨lower, upper⟩
  | call dest callee denotes upper =>
    obtain ⟨proper, fits⟩ := of_given_operand dest_
    have written : callee.isWritten = true := first_ _ rfl
    refine ⟨?_, fits_of_vars rfl (by simpa [dest?, operands] using fits)⟩
    simp [isProper, proper, written, upper]
  | callToSink callee denotes upper =>
    have written : callee.isWritten = true := first_ _ rfl
    have sink : Var.sink.isProper = true := rfl
    exact ⟨by simp [isProper, sink, written, upper], rfl⟩
  | ret arg | print arg =>
    obtain ⟨proper, fits⟩ := of_given_operand first_
    exact ⟨proper, fits_of_vars rfl (by simpa [dest?, operands] using fits)⟩
  | retSink => exact ⟨rfl, rfl⟩

/-- Phis are made of edges and temporaries that can be written. -/
theorem of_gatherPhiArgs {es : List (Origin × Operand)} {gathered args : SortedMap Origin Temp}
    (given : ∀ e ∈ es, (e.1.isWritten && e.2.isWritten) = true)
    (before : ∀ e ∈ gathered.toList, e.1.isWritten = true ∧ e.2.isNamed = true ∧ e.2.fits = true)
    (h : gatherPhiArgs es gathered = .ok args) :
    ∀ e ∈ args.toList, e.1.isWritten = true ∧ e.2.isNamed = true ∧ e.2.fits = true := by
  induction es generalizing gathered with
  | nil =>
    cases h
    exact before
  | cons e es ih =>
    obtain ⟨edge, arg⟩ := e
    obtain ⟨first, others⟩ := List.forall_mem_cons.1 given
    obtain ⟨edge_, arg_⟩ := Bool.and_eq_true_iff.1 first
    obtain ⟨t, rfl, other, -, more⟩ := gatherPhiArgs_cons.1 h
    refine ih others (fun e he => ?_) more
    have value := SortedMap.get?_eq_some.2 he
    rw [SortedMap.get?_insert] at value
    split at value
    · next same =>
      cases value
      rw [same]
      exact ⟨edge_, of_given_temp arg_ other⟩
    · exact before e (SortedMap.get?_eq_some.1 value)

theorem of_buildPhi {dest : Operand} {es : List (Origin × Operand)} {i : Instr}
    (dest_ : dest.isWritten = true) (given : ∀ e ∈ es, (e.1.isWritten && e.2.isWritten) = true)
    (h : buildPhi dest es = .ok i) : i.isProper = true ∧ i.fits = true := by
  obtain ⟨t, args, rfl, other, gathered, rfl⟩ := buildPhi_eq_ok.1 h
  obtain ⟨named, small⟩ := of_given_temp dest_ other
  have all := of_gatherPhiArgs given (fun e he => by cases he) gathered
  refine ⟨?_, ?_⟩
  · rw [isProper, named, Bool.true_and]
    exact List.all_eq_true.2 fun e he => Bool.and_eq_true_iff.2 ⟨(all e he).1, (all e he).2.1⟩
  · refine List.all_eq_true.2 fun u hu => ?_
    rcases List.mem_cons.1 hu with rfl | hu
    · exact small
    · obtain ⟨e, he, rfl⟩ := List.mem_map.1 hu
      exact (all e he).2.2

end Instr

/-- The instruction of an item that can be written can be written. -/
theorem Item.of_build {item : Item} {i : Instr} (written : item.isWritten = true)
    (h : item.build = .ok i) : i.isProper = true ∧ i.fits = true := by
  cases item with
  | label l =>
    cases h
    exact ⟨written, rfl⟩
  | instr dest opcode args =>
    simp only [isWritten, Bool.and_eq_true] at written
    obtain ⟨⟨dest_, -⟩, args_⟩ := written
    have result : Instr.Given dest := fun d hd => by
      rw [Option.mem_def.1 hd] at dest_
      exact (Bool.and_eq_true_iff.1 dest_).1
    cases args with
    | plain operands =>
      have given : ∀ o ∈ operands, Instr.Given (some o) := fun o ho found hf => by
        cases hf
        exact List.all_eq_true.1 args_ o ho
      rw [build, mapError_eq_ok_iff, Instr.build] at h
      split at h
      · cases h
      · split at h
        · exact Instr.of_buildOpcode result Instr.given_none Instr.given_none h
        · exact Instr.of_buildOpcode result (given _ (by simp)) Instr.given_none h
        · exact Instr.of_buildOpcode result (given _ (by simp)) (given _ (by simp)) h
        · cases h
    | pairs es =>
      simp only [build] at h
      split at h
      · split at h
        · cases h
        · next dest =>
          exact Instr.of_buildPhi (result dest rfl) (List.all_eq_true.1 args_) (mapError_eq_ok_iff.1 h)
      · cases h

/-! ## Programs -/

/-- Declarations without problems have different names. -/
theorem nodup_of_diagnose {names : List Global} {ds : List (Located Declaration)}
    (h : diagnose names ds = []) :
    (ds.map fun d => d.value.name).Nodup ∧ ∀ d ∈ ds, d.value.name ∉ names := by
  induction ds generalizing names with
  | nil => exact ⟨List.nodup_nil, by simp⟩
  | cons d ds ih =>
    rw [diagnose, List.append_eq_nil_iff, List.append_eq_nil_iff] at h
    obtain ⟨⟨first, -⟩, others⟩ := h
    obtain ⟨once, fresh⟩ := ih others
    have new : d.value.name ∉ names := fun mem => by
      rw [if_pos mem] at first
      cases first
    refine ⟨List.nodup_cons.2 ⟨fun mem => ?_, once⟩, List.forall_mem_cons.2 ⟨new, fun e he => ?_⟩⟩
    · obtain ⟨e, he, same⟩ := List.mem_map.1 mem
      exact fresh e he (same ▸ List.mem_cons_self)
    · exact fun mem => fresh e he (List.mem_cons_of_mem _ mem)

namespace Program

/-- The program of declarations, if nothing is wrong with them. -/
def made (ds : List (Located Declaration)) : Program :=
  ⟨ds.filterMap fun d => d.value.var?, ds.filterMap fun d => d.value.proc?⟩

/-- A program declares names of its declarations, each as often. -/
theorem names_made {ds : List (Located Declaration)} (once : (ds.map fun d => d.value.name).Nodup) :
    ((made ds).declared.map Declared.name).Nodup ∧
      ∀ n ∈ (made ds).declared.map Declared.name, n ∈ ds.map fun d => d.value.name := by
  induction ds with
  | nil => exact ⟨List.nodup_nil, fun n hn => hn⟩
  | cons d ds ih =>
    obtain ⟨new, once⟩ := List.nodup_cons.1 once
    obtain ⟨nodup, mem⟩ := ih once
    have absent : d.value.name ∉ (made ds).declared.map Declared.name := fun found => new (mem _ found)
    have shape : (made (d :: ds)).declared.map Declared.name = (made ds).declared.map Declared.name ∨
        ((made (d :: ds)).declared.map Declared.name).Perm
          (d.value.name :: (made ds).declared.map Declared.name) := by
      cases declared_ : d.value with
      | var name value =>
        cases literal : (Literal.parse value).toOption with
        | none => exact .inl (by simp [made, declared_, Declaration.var?, Declaration.proc?, literal])
        | some w =>
          refine .inr (List.Perm.of_eq ?_)
          simp [made, declared, declared_, Declaration.var?, Declaration.proc?, Declaration.name,
            literal, Declared.name]
      | proc name params items =>
        refine .inr ?_
        simp only [made, declared, List.filterMap_cons, declared_, Declaration.var?,
          Declaration.proc?, List.map_append, List.map_cons]
        exact List.perm_middle
    rcases shape with same | perm
    · rw [same]
      exact ⟨nodup, fun n hn => List.mem_cons_of_mem _ (mem n hn)⟩
    · refine ⟨perm.nodup_iff.2 (List.nodup_cons.2 ⟨absent, nodup⟩), fun n hn => ?_⟩
      rcases List.mem_cons.1 (perm.mem_iff.1 hn) with rfl | hn
      · exact List.mem_cons_self
      · exact List.mem_cons_of_mem _ (mem n hn)

/-- The procedure of a declaration that can be written can be written. -/
theorem isProper_proc {name : Global} {params : List Temp} {items : List (Located Item)}
    (written : (Declaration.proc name params items).isWritten = true) :
    (⟨name, params, items.filterMap fun i => i.value.build.toOption⟩ : Proc).isProper = true ∧
      (⟨name, params, items.filterMap fun i => i.value.build.toOption⟩ : Proc).fits = true := by
  simp only [Declaration.isWritten, Bool.and_eq_true, List.all_eq_true] at written
  obtain ⟨⟨name_, params_⟩, items_⟩ := written
  have body : ∀ i ∈ items.filterMap fun i => i.value.build.toOption,
      i.isProper = true ∧ i.fits = true := by
    intro i hi
    obtain ⟨item, mem, builds⟩ := List.mem_filterMap.1 hi
    cases build : item.value.build with
    | error e => simp [build, Except.toOption] at builds
    | ok j =>
      obtain rfl : j = i := by simpa [build, Except.toOption] using builds
      exact Item.of_build (items_ item mem) build
  simp only [Proc.isProper, Proc.fits, Bool.and_eq_true, List.all_eq_true]
  exact ⟨⟨⟨name_, fun p hp => (params_ p hp).1⟩, fun i hi => (body i hi).1⟩,
    fun p hp => (params_ p hp).2, fun i hi => (body i hi).2⟩

/-- Declarations that can be written, with different names, make a program that can be written. -/
theorem isProper_made {ds : List (Located Declaration)} (written : ∀ d ∈ ds, d.value.isWritten = true)
    (once : (ds.map fun d => d.value.name).Nodup) :
    (made ds).isProper = true ∧ (made ds).fits = true := by
  have globals : ∀ g ∈ (made ds).globals, g.name.isWritten = true := by
    intro g hg
    obtain ⟨d, hd, found⟩ := List.mem_filterMap.1 hg
    have written := written d hd
    cases declared : d.value with
    | var name value =>
      rw [declared] at written found
      obtain ⟨w, -, rfl⟩ := Option.map_eq_some_iff.1 found
      exact written
    | proc name params items =>
      rw [declared] at found
      cases found
  have procs : ∀ q ∈ (made ds).procs, q.isProper = true ∧ q.fits = true := by
    intro q hq
    obtain ⟨d, hd, found⟩ := List.mem_filterMap.1 hq
    have written := written d hd
    cases declared : d.value with
    | var name value =>
      rw [declared] at found
      cases found
    | proc name params items =>
      rw [declared] at written found
      cases found
      exact isProper_proc written
  simp only [isProper, fits, Bool.and_eq_true, List.all_eq_true, decide_eq_true_eq]
  exact ⟨⟨⟨globals, fun q hq => (procs q hq).1⟩, (names_made once).1⟩, fun q hq => (procs q hq).2⟩

/-- A program that is read is made of declarations that can be written, with different names. -/
theorem exists_declarations_of_parse {source : String} {p : Program} (h : parse source = .ok p) :
    ∃ ds : List (Located Declaration), (∀ d ∈ ds, d.value.isWritten = true) ∧
      (ds.map fun d => d.value.name).Nodup ∧ p = made ds := by
  simp only [parse, ofScan] at h
  split at h
  · cases h
  · next ts scanned =>
    split at h
    · cases h
    · next ds reads =>
      have written := Grammar.isWritten_of_declarations (Token.isSpelled_of_scan scanned) reads
      split at h
      · rw [ofDeclarations] at h
        split at h
        · next sound =>
          cases h
          exact ⟨ds, written, (nodup_of_diagnose sound).1, rfl⟩
        · cases h
      · cases h

/-- Whatever is read can be written. -/
theorem of_parse {source : String} {p : Program} (h : parse source = .ok p) :
    p.isProper = true ∧ p.fits = true := by
  obtain ⟨ds, written, once, rfl⟩ := exists_declarations_of_parse h
  exact isProper_made written once

end Program

end ThreeAddress
