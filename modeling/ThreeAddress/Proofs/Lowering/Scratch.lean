import ThreeAddress.Lowering.Function
import ThreeAddress.Proofs.Lists
import ThreeAddress.Proofs.Lowering.Stance
import ThreeAddress.Proofs.Target.Legal
/-!
# What the check accepts

The check of a function keeps a set of scratch registers from one instruction to the next. What it
accepts can be said without that set, of each instruction and the ones in front of it: a scratch
register that is read was written before, and neither a label nor a call stands in between.

Control need not come from the instructions in front of it, but where it does not, it comes to a
label, and behind a label nothing written earlier is relied on. So what holds of the instructions in
front of a place holds of those that were executed on the way to it.

* `Supplied` : a register holds something that was meant for the code that reads it;
* `mem_writtenAfter_iff` : these are the registers in the set;
* `Instr.Allowed` : what the check demands of an instruction;
* `Route`, `Path.route` : the ways through the code of a function, those of the machine among them;
* `Function.check_iff_allowed` : the functions that are accepted, and what is true on all their
  routes.
-/

namespace ThreeAddress

namespace Target

variable {before front back code : List Instr} {i w : Instr} {r : Register} {f : Function}

/-! ## Supplied registers -/

/-- Behind this code, a register was written with neither a label nor a call since then. Besides,
the last argument registers are supplied by the caller, and `rax` by a function that was called, as
long as no other label or call has come in between. What else a call writes is not supplied. -/
inductive Supplied (before : List Instr) (r : Register) : Prop
  | written {front back : List Instr} {w : Instr} (split : before = front ++ w :: back)
    (writes : r ∈ w.writes) (since : ∀ i ∈ w :: back, i.keeps = true)
  | result {front back : List Instr} {callee : String}
    (split : before = front ++ .call callee :: back) (since : ∀ i ∈ back, i.keeps = true)
    (rax : r = .rax)
  | argument (since : ∀ i ∈ before, i.keeps = true) (which : r = .rcx ∨ r = .rdx)

theorem supplied_nil : Supplied [] r ↔ r = .rcx ∨ r = .rdx := by
  refine ⟨fun h => ?_, .argument (List.forall_mem_nil _)⟩
  cases h with
  | written split => simp at split
  | result split => simp at split
  | argument _ which => exact which

theorem not_supplied_label {name : String} : ¬ Supplied (before ++ [.label name]) r := by
  have never : (Instr.label name).keeps ≠ true := Bool.false_ne_true
  intro h
  cases h with
  | written split _ since =>
    rcases split_of_concat split with ⟨-, rfl, -⟩ | ⟨back, rfl, -⟩
    · exact never (since _ List.mem_cons_self)
    · exact never (since _ (by simp))
  | result split since =>
    rcases split_of_concat split with ⟨-, other, -⟩ | ⟨back, rfl, -⟩
    · cases other
    · exact never (since _ (by simp))
  | argument since => exact never (since _ (by simp))

theorem supplied_call {callee : String} : Supplied (before ++ [.call callee]) r ↔ r = .rax := by
  have never : (Instr.call callee).keeps ≠ true := Bool.false_ne_true
  refine ⟨fun h => ?_, .result rfl (List.forall_mem_nil _)⟩
  cases h with
  | written split _ since =>
    rcases split_of_concat split with ⟨-, rfl, -⟩ | ⟨back, rfl, -⟩
    · exact absurd (since _ List.mem_cons_self) never
    · exact absurd (since _ (by simp)) never
  | result _ _ rax => exact rax
  | argument since => exact absurd (since _ (by simp)) never

theorem supplied_of_keeps (keeps : i.keeps = true) :
    Supplied (before ++ [i]) r ↔ Supplied before r ∨ r ∈ i.writes := by
  have more : ∀ {back : List Instr}, (∀ j ∈ back, j.keeps = true) →
      ∀ j ∈ back ++ [i], j.keeps = true := fun since =>
    List.forall_mem_append.2 ⟨since, List.forall_mem_singleton.2 keeps⟩
  constructor
  · intro h
    cases h with
    | written split writes since =>
      rcases split_of_concat split with ⟨-, rfl, -⟩ | ⟨back, rfl, rfl⟩
      · exact .inr writes
      · exact .inl (.written rfl writes (List.forall_mem_append.1 since).1)
    | result split since rax =>
      rcases split_of_concat split with ⟨-, rfl, -⟩ | ⟨back, rfl, rfl⟩
      · cases keeps
      · exact .inl (.result rfl (List.forall_mem_append.1 since).1 rax)
    | argument since which => exact .inl (.argument (List.forall_mem_append.1 since).1 which)
  · rintro (h | writes)
    · cases h with
      | @written front back w split writes since =>
        subst split
        exact .written (List.append_assoc front (w :: back) [i]) writes (more since)
      | @result front back callee split since rax =>
        subst split
        exact .result (List.append_assoc front (.call callee :: back) [i]) (more since) rax
      | argument since which => exact .argument (more since) which
    · exact .written rfl writes (List.forall_mem_singleton.2 keeps)

/-- The scratch registers in the set that the check keeps are those that are supplied. -/
theorem mem_writtenAfter_iff (scratch : r.isScratch = true) :
    r ∈ before.foldl Instr.writtenAfter writtenOnEntry ↔ Supplied before r := by
  induction before using List.reverseRecOn with
  | nil =>
    rw [supplied_nil, List.foldl_nil, writtenOnEntry, SortedSet.mem_ofList]
    revert scratch
    cases r <;> decide
  | append_singleton before i ih =>
    rw [List.foldl_concat]
    cases keeps : i.keeps with
    | true =>
      rw [Instr.writtenAfter_of_keeps keeps, SortedSet.mem_union, SortedSet.mem_filter, ih,
        supplied_of_keeps keeps]
      simp only [scratch, and_true]
    | false =>
      cases i with
      | label name => exact iff_of_false (SortedSet.not_mem_empty r) not_supplied_label
      | call callee =>
        rw [supplied_call]
        simp [Instr.writtenAfter, SortedSet.mem_insert, Register.result, SortedSet.not_mem_empty]
      | _ => cases keeps

/-! ## What is demanded of an instruction -/

/-- What the check demands of an instruction, given those in front of it. -/
structure Instr.Allowed (before : List Instr) (i : Instr) : Prop where
  memory : i.operands.countP Operand.isMemory ≤ 1
  /-- Only a copy to a register takes an immediate of more than 32 bits. -/
  wide : ∀ w, .immediate w ∈ i.operands → Operand.fits w = false →
    ∃ r, i = .mov (.register r) (.immediate w)
  division : ∀ src, i = .idiv src → before.getLast? = some .cqo ∧
    (∀ w, src ≠ .immediate w) ∧ src ≠ .register .rax ∧ src ≠ .register .rdx
  count : ∀ op dst r, i = .shift op dst r → r = .rcx
  scratch : ∀ r ∈ i.reads, r.isScratch = true → Supplied before r

namespace Instr

theorem takesWide_iff :
    i.takesWide = true ↔ ∃ r w, i = .mov (.register r) (.immediate w) := by
  refine ⟨fun h => ?_, fun ⟨r, w, e⟩ => e ▸ rfl⟩
  cases i with
  | mov dst src =>
    cases dst <;> cases src <;> first | exact ⟨_, _, rfl⟩ | cases h
  | _ => cases h

theorem badOperands?_eq_none_iff : i.badOperands? = none ↔
    i.operands.countP Operand.isMemory ≤ 1 ∧
      ∀ w, .immediate w ∈ i.operands → Operand.fits w = false →
        ∃ r, i = .mov (.register r) (.immediate w) := by
  rw [badOperands?]
  by_cases many : 1 < i.operands.countP Operand.isMemory
  · rw [if_pos many]
    exact iff_of_false (by simp) fun h => absurd h.1 (Nat.not_le.2 many)
  · rw [if_neg many, and_iff_right (Nat.not_lt.1 many)]
    by_cases takes : i.takesWide = true
    · obtain ⟨r, v, rfl⟩ := takesWide_iff.1 takes
      rw [if_pos takes]
      refine iff_of_true rfl fun w hw _ => ⟨r, ?_⟩
      have same : w = v := by simpa [operands] using hw
      rw [same]
    · rw [if_neg takes, Option.map_eq_none_iff, List.findSome?_eq_none_iff]
      constructor
      · intro none w hw wide
        have narrow := none _ hw
        simp [Operand.wide?, wide] at narrow
      · intro only o ho
        cases o with
        | immediate w =>
          cases fits : Operand.fits w with
          | true => simp [Operand.wide?, fits]
          | false =>
            obtain ⟨r, copy⟩ := only w ho fits
            exact absurd (takesWide_iff.2 ⟨r, w, copy⟩) takes
        | _ => rfl

theorem badForm?_eq_none_iff {extended : Bool} : i.badForm? extended = none ↔
    (∀ src, i = .idiv src → extended = true ∧
      (∀ w, src ≠ .immediate w) ∧ src ≠ .register .rax ∧ src ≠ .register .rdx) ∧
    ∀ op dst r, i = .shift op dst r → r = .rcx := by
  cases i with
  | idiv src =>
    rw [and_iff_left (fun _ _ _ h => by cases h)]
    cases extended with
    | false => exact iff_of_false nofun fun h => Bool.false_ne_true (h src rfl).1
    | true =>
      have divides (apart : src ≠ .register .rax ∧ src ≠ .register .rdx)
          (other : ∀ w, src ≠ .immediate w) : ∀ src', idiv src = idiv src' → true = true ∧
            (∀ w, src' ≠ .immediate w) ∧ src' ≠ .register .rax ∧ src' ≠ .register .rdx := by
        rintro _ ⟨⟩
        exact ⟨rfl, other, apart⟩
      cases src with
      | register r =>
        cases r with
        | rax => exact iff_of_false nofun fun h => (h _ rfl).2.2.1 rfl
        | rdx => exact iff_of_false nofun fun h => (h _ rfl).2.2.2 rfl
        | _ => exact iff_of_true rfl (divides ⟨nofun, nofun⟩ nofun)
      | memory => exact iff_of_true rfl (divides ⟨nofun, nofun⟩ nofun)
      | immediate w => exact iff_of_false nofun fun h => (h _ rfl).2.1 w rfl
  | shift op dst count =>
    by_cases rcx : count = .rcx
    · refine iff_of_true (if_pos rcx) ⟨?_, ?_⟩
      · rintro _ ⟨⟩
      · rintro _ _ _ ⟨⟩
        exact rcx
    · refine iff_of_false (fun h => ?_) fun h => rcx (h.2 op dst count rfl)
      cases (if_neg rcx).symm.trans h
  | _ =>
    refine iff_of_true rfl ⟨?_, ?_⟩
    · rintro _ ⟨⟩
    · rintro _ _ _ ⟨⟩

theorem badRead?_eq_none_iff {written : SortedSet Register} : i.badRead? written = none ↔
    ∀ r ∈ i.reads, r.isScratch = true → r ∈ written := by
  refine ⟨fun h r hr scratch => ?_, fun h => badRead?_eq_none fun r hr =>
    h r (SortedSet.mem_ofList.2 hr)⟩
  rw [badRead?, Option.map_eq_none_iff, List.find?_eq_none] at h
  have found := h r (SortedSet.mem_iff.1 hr)
  rw [scratch, Bool.true_and, Bool.not_eq_true, Bool.not_eq_false'] at found
  exact SortedSet.contains_eq_true.1 found

/-- The check finds nothing wrong with an instruction just when it is allowed. -/
theorem illegality?_eq_none_iff :
    i.illegality? (before.getLast? == some .cqo)
      (before.foldl Instr.writtenAfter writtenOnEntry) = none ↔ i.Allowed before := by
  rw [illegality?, Option.or_eq_none_iff, Option.or_eq_none_iff, badOperands?_eq_none_iff,
    badForm?_eq_none_iff, badRead?_eq_none_iff]
  simp only [beq_iff_eq]
  constructor
  · rintro ⟨⟨⟨memory, wide⟩, division, count⟩, scratch⟩
    exact ⟨memory, wide, division, count, fun r hr h => (mem_writtenAfter_iff h).1 (scratch r hr h)⟩
  · rintro ⟨memory, wide, division, count, scratch⟩
    exact ⟨⟨⟨memory, wide⟩, division, count⟩,
      fun r hr h => (mem_writtenAfter_iff h).2 (scratch r hr h)⟩

end Instr

/-- Code is legal if each instruction is, given the ones in front of it. -/
theorem legalFrom_iff {extended : Bool} {written : SortedSet Register} :
    LegalFrom extended written code ↔ ∀ (k : Nat) (i : Instr), code[k]? = some i →
      i.illegality? (((code.take k).getLast?.map (· == .cqo)).getD extended)
        ((code.take k).foldl Instr.writtenAfter written) = none := by
  induction code generalizing extended written with
  | nil => exact iff_of_true trivial fun k i h => by simp at h
  | cons j code ih =>
    have last : ∀ l : List Instr, ((j :: l).getLast?.map (· == .cqo)).getD extended =
        (l.getLast?.map (· == .cqo)).getD (j == .cqo) := fun l => by
      rw [List.getLast?_cons]
      cases l.getLast? <;> rfl
    rw [LegalFrom, ih]
    constructor
    · rintro ⟨first, rest⟩ (_ | k) i at_k
      · cases at_k
        exact first
      · rw [List.take_succ_cons, last]
        exact rest k i at_k
    · intro h
      refine ⟨h 0 j rfl, fun k i at_k => ?_⟩
      have next := h (k + 1) i at_k
      rwa [List.take_succ_cons, last] at next

/-- A function is accepted just when every instruction is allowed at its place. -/
theorem Function.check_eq_ok_iff : f.check = .ok () ↔
    ∀ (k : Nat) (i : Instr), f.instrs[k]? = some i → i.Allowed (f.instrs.take k) := by
  have accepted : f.check = .ok () ↔ firstIllegal? f.instrs = none := by
    rw [check]
    cases firstIllegal? f.instrs <;> simp
  have follows : ∀ l : List Instr,
      (l.getLast?.map (· == .cqo)).getD false = (l.getLast? == some .cqo) := fun l => by
    cases l.getLast? <;> rfl
  rw [accepted, firstIllegal?, illegalFrom?_eq_none, legalFrom_iff]
  simp only [follows, Instr.illegality?_eq_none_iff]

/-! ## Routes -/

/-- A way through a function, with the instructions that were executed on it, to the code that is
next. Calls come back, and a jump goes to any label of that name. -/
inductive Route (f : Function) : List Instr → List Instr → Prop
  | start : Route f [] f.instrs
  | next {done rest : List Instr} {i : Instr} (before : Route f done (i :: rest))
    (stays : ∀ target, i ≠ .jmp target) (inside : i ≠ .ret) : Route f (done ++ [i]) rest
  | jumps {done rest front code : List Instr} {i : Instr} {target : String}
    (before : Route f done (i :: rest)) (jump : i = .jmp target ∨ ∃ c, i = .jcc c target)
    (there : f.instrs = front ++ .label target :: code) :
    Route f (done ++ [i]) (.label target :: code)

/-- A route goes through code that neither jumps nor returns. -/
theorem Route.through {done : List Instr} (before : Route f done (front ++ code))
    (straight : ∀ i ∈ front, (∀ target, i ≠ .jmp target) ∧ i ≠ .ret) :
    Route f (done ++ front) code := by
  induction front generalizing done with
  | nil => rwa [List.append_nil]
  | cons i front ih =>
    obtain ⟨⟨stays, inside⟩, more⟩ := List.forall_mem_cons.1 straight
    have behind := ih (.next before stays inside) more
    rwa [List.append_assoc] at behind

/-- What is supplied by the instructions in front of a place is supplied on the way to it, unless
there is a label at that place. -/
theorem Route.supplied {done : List Instr} (route : Route f done code) :
    ∃ front, f.instrs = front ++ code ∧
      ((∃ name rest, code = .label name :: rest) ∨ ∀ r, Supplied front r → Supplied done r) := by
  induction route with
  | start => exact ⟨[], rfl, .inr fun r h => h⟩
  | @next done rest i before stays inside ih =>
    obtain ⟨front, split, h⟩ := ih
    refine ⟨front ++ [i], by rw [split, List.append_assoc]; rfl, .inr fun r supplied => ?_⟩
    cases keeps : i.keeps with
    | true =>
      rcases h with ⟨name, rest, same⟩ | h
      · cases same
        cases keeps
      · exact (supplied_of_keeps keeps).2 (((supplied_of_keeps keeps).1 supplied).imp_left (h r))
    | false =>
      cases i with
      | label name => exact absurd supplied not_supplied_label
      | call callee => exact supplied_call.2 (supplied_call.1 supplied)
      | _ => cases keeps
  | jumps before jump there => exact ⟨_, there, .inl ⟨_, _, rfl⟩⟩

/-- On its routes, an accepted function reads only scratch registers that are supplied. -/
theorem Function.supplied_of_check {done rest : List Instr} (accepted : f.check = .ok ())
    (route : Route f done (i :: rest)) (hr : r ∈ i.reads) (scratch : r.isScratch = true) :
    Supplied done r := by
  obtain ⟨front, split, h⟩ := route.supplied
  have here : f.instrs[front.length]? = some i := by simp [split]
  have allowed := check_eq_ok_iff.1 accepted _ i here
  rw [split, List.take_left] at allowed
  rcases h with ⟨name, rest, same⟩ | h
  · -- a label reads nothing
    cases same
    exact absurd (SortedSet.mem_ofList.1 hr) List.not_mem_nil
  · exact h r (allowed.scratch r hr scratch)

/-- What the machine does, as long as it stays in the function, is a route. -/
theorem Path.route {m₀ m : Machine} {done : List (Instr × Machine)} (path : Path f m₀ done code m) :
    Route f (done.map Prod.fst) code := by
  have jump : ∀ {done rest code : List Instr} {i : Instr} {target : String},
      Route f done (i :: rest) → (i = .jmp target ∨ ∃ c, i = .jcc c target) →
      f.codeFrom? target = some code → Route f (done ++ [i]) code := by
    intro done rest code i target before goes found
    obtain ⟨front, rest, there, rfl⟩ := split_of_codeFrom? found
    exact .jumps before goes there
  induction path with
  | start => exact .start
  | @goes done i rest m m' before does ih =>
    rw [List.map_append]
    refine .next ih ?_ ?_
    · rintro target rfl
      cases (does.effect rfl).2
    · rintro rfl
      cases (does.effect rfl).2
  | jumps before found ih => rw [List.map_append]; exact jump ih (.inl rfl) found
  | branches before found ih => rw [List.map_append]; exact jump ih (.inr ⟨_, rfl⟩) found
  | stays before ih => rw [List.map_append]; exact .next ih (by simp) (by simp)
  | calls before back ih => rw [List.map_append]; exact .next ih (by simp) (by simp)

/-- The check accepts just the functions whose instructions are all allowed behind the ones in front
of them. On the routes of an accepted function, however it jumps, every scratch register that is
read is supplied by what was executed on the way: it never holds what was left there in front of a
label, or what a called function left there besides its result. -/
theorem Function.check_iff_allowed (f : Function) :
    (f.check = .ok () ↔
      ∀ (k : Nat) (i : Instr), f.instrs[k]? = some i → i.Allowed (f.instrs.take k)) ∧
    (f.check = .ok () → ∀ done i rest, Route f done (i :: rest) →
      ∀ r ∈ i.reads, r.isScratch = true → Supplied done r) :=
  ⟨check_eq_ok_iff, fun accepted _ _ _ route _ => supplied_of_check accepted route⟩

/-- A loop that divides what it is given by a call. -/
def divisions : Function where
  name := "divisions"
  frame := ⟨0, [], [], 0⟩
  instrs :=
    [.mov (.register .rbx) (.register .rcx), .label "again", .call "dividend",
      .mov (.register .rcx) (.immediate 3), .cqo, .idiv (.register .rcx),
      .shift .sal (.register .rax) .rcx, .cmp (.register .rdx) (.register .rbx),
      .jcc .less "again", .ret]

/-- In its second turn the loop does not rely on the first. -/
theorem Function.check_iff_allowed_divisions : divisions.check = .ok () ∧
    ∃ done rest, Route divisions done (.idiv (.register .rcx) :: rest) ∧
      done = divisions.instrs.take 9 ++ (divisions.instrs.drop 1).take 4 ∧ Supplied done .rcx := by
  have accepted : divisions.check = .ok () := by decide
  have first : Route divisions ([] ++ divisions.instrs.take 8) (divisions.instrs.drop 8) :=
    .through .start (by simp [divisions])
  have back : divisions.instrs =
      divisions.instrs.take 1 ++ .label "again" :: divisions.instrs.drop 2 := rfl
  have again : Route divisions (divisions.instrs.take 9) (divisions.instrs.drop 1) :=
    .jumps first (.inr ⟨_, rfl⟩) back
  have there : Route divisions (divisions.instrs.take 9 ++ (divisions.instrs.drop 1).take 4)
      (.idiv (.register .rcx) :: divisions.instrs.drop 6) :=
    again.through (by simp [divisions])
  exact ⟨accepted, _, _, there, rfl,
    (check_iff_allowed divisions).2 accepted _ _ _ there .rcx (by decide) rfl⟩

end Target

end ThreeAddress
