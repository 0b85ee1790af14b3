import ThreeAddress.Proofs.Target.Cells
import ThreeAddress.Target.Legality
/-!
# Legal code

The check of a function goes through its instructions and keeps the scratch registers that are
written. Code is judged piece by piece instead: a piece is legal wherever certain scratch registers
are written, and leaves others written.

* `LegalFrom`, `illegalFrom?_eq_none` : what the check says of the rest of a function;
* `Legal` : a piece of code with the registers it relies on and those it leaves;
* `Instr.Plain` : an instruction that is legal wherever the scratch registers it reads are written;
* `Legal.append`, `Legal.cons`, `Legal.all`, `Legal.of_plainCode` : how pieces are put together.
-/

namespace ThreeAddress

namespace Target

variable {known known' behind behind' : List Register} {code front back : List Instr} {i : Instr}

/-! ## What is checked -/

/-- Every instruction is legal at its place, given whether the first one follows a sign extension
and which scratch registers are written in front of it. -/
def LegalFrom : Bool → SortedSet Register → List Instr → Prop
  | _, _, [] => True
  | extended, written, i :: rest =>
    i.illegality? extended written = none ∧ LegalFrom (i == .cqo) (i.writtenAfter written) rest

/-- The check finds nothing if every instruction is legal. -/
theorem illegalFrom?_eq_none {index : Nat} {extended : Bool} {written : SortedSet Register} :
    illegalFrom? index extended written code = none ↔ LegalFrom extended written code := by
  induction code generalizing index extended written with
  | nil => exact iff_of_true rfl trivial
  | cons i rest ih =>
    rw [illegalFrom?, LegalFrom, ← @ih (index + 1)]
    cases i.illegality? extended written <;> simp

theorem LegalFrom.append {extended : Bool} {written : SortedSet Register}
    (h : LegalFrom extended written front)
    (h' : ∀ extended, LegalFrom extended (front.foldl Instr.writtenAfter written) back) :
    LegalFrom extended written (front ++ back) := by
  induction front generalizing extended written with
  | nil => exact h' extended
  | cons i front ih => exact ⟨h.1, ih h.2 h'⟩

/-! ## Pieces of code -/

/-- The scratch registers among some registers are written. -/
def Known (known : List Register) (written : SortedSet Register) : Prop :=
  ∀ r ∈ known, r.isScratch = true → r ∈ written

/-- Wherever the scratch registers among some are written, the code is legal, and those among others
are written behind it. -/
def Legal (known : List Register) (code : List Instr) (behind : List Register) : Prop :=
  ∀ extended written, Known known written →
    LegalFrom extended written code ∧ Known behind (code.foldl Instr.writtenAfter written)

namespace Legal

theorem imp (h : Legal known code behind) (more : ∀ r ∈ known, r.isScratch = true → r ∈ known')
    (fewer : ∀ r ∈ behind', r.isScratch = true → r ∈ behind) : Legal known' code behind' := by
  intro extended written k
  obtain ⟨legal, left⟩ := h extended written fun r hr scratch => k r (more r hr scratch) scratch
  exact ⟨legal, fun r hr scratch => left r (fewer r hr scratch) scratch⟩

/-- What is written behind code need not be relied on. -/
theorem forget (h : Legal known code behind) : Legal known code [] :=
  h.imp (fun _ hr _ => hr) fun _ hr => absurd hr List.not_mem_nil

theorem nil : Legal known [] known := fun _ _ k => ⟨trivial, k⟩

theorem append (h : Legal known front behind) (h' : Legal behind back behind') :
    Legal known (front ++ back) behind' := by
  intro extended written k
  obtain ⟨legal, left⟩ := h extended written k
  rw [List.foldl_append]
  exact ⟨legal.append fun extended => (h' extended _ left).1, (h' false _ left).2⟩

/-- A function of legal code passes the check. -/
theorem check (h : Legal known code behind)
    (entry : ∀ r ∈ known, r.isScratch = true → r ∈ writtenOnEntry) : firstIllegal? code = none :=
  illegalFrom?_eq_none.2 (h false _ entry).1

end Legal

/-! ## Plain instructions -/

/-- Is the instruction neither a label nor a call? These are the ones behind which scratch registers
are not written any more. -/
def Instr.keeps : Instr → Bool
  | label _ | call _ => false
  | _ => true

/-- An instruction that is legal wherever the scratch registers that it reads are written. -/
structure Instr.Plain (known : List Register) (i : Instr) : Prop where
  operands : i.badOperands? = none
  form : i.badForm? false = none
  read : ∀ r ∈ i.readList, r.isScratch = true → r ∈ known
  keeps : i.keeps = true

instance : Decidable (i.Plain known) :=
  decidable_of_iff (i.badOperands? = none ∧ i.badForm? false = none ∧
      (∀ r ∈ i.readList, r.isScratch = true → r ∈ known) ∧ i.keeps = true)
    ⟨fun ⟨operands, form, read, keeps⟩ => ⟨operands, form, read, keeps⟩,
      fun h => ⟨h.operands, h.form, h.read, h.keeps⟩⟩

theorem Instr.badForm?_eq_none (form : i.badForm? false = none) (extended : Bool) :
    i.badForm? extended = none := by
  cases i <;> first | exact form | cases form

theorem Instr.writtenAfter_of_keeps {written : SortedSet Register} (keeps : i.keeps = true) :
    i.writtenAfter written = written.union (i.writes.filter Register.isScratch) := by
  cases i <;> first | rfl | cases keeps

theorem Instr.badRead?_eq_none {written : SortedSet Register}
    (read : ∀ r ∈ i.readList, r.isScratch = true → r ∈ written) : i.badRead? written = none := by
  rw [badRead?, Option.map_eq_none_iff, List.find?_eq_none]
  intro r hr
  cases scratch : r.isScratch with
  | false => simp
  | true =>
    have mem := read r (SortedSet.mem_ofList.1 (SortedSet.mem_iff.2 hr)) scratch
    simp [SortedSet.contains_eq_true.2 mem]

/-- The registers that a plain instruction writes are written behind it, and so are all others that
were. -/
theorem Legal.plain (h : i.Plain known) : Legal known [i] (i.writeList ++ known) := by
  intro extended written k
  have legal : i.illegality? extended written = none := by
    rw [Instr.illegality?, h.operands, Instr.badForm?_eq_none h.form,
      Instr.badRead?_eq_none fun r hr scratch => k r (h.read r hr scratch) scratch]
    rfl
  refine ⟨⟨legal, trivial⟩, fun r hr scratch => ?_⟩
  rw [List.foldl_cons, List.foldl_nil, Instr.writtenAfter_of_keeps h.keeps, SortedSet.mem_union,
    SortedSet.mem_filter]
  rcases List.mem_append.1 hr with writes | old
  · exact .inr ⟨SortedSet.mem_ofList.2 writes, scratch⟩
  · exact .inl (k r old scratch)

theorem Legal.cons (h : i.Plain known) (rest : Legal (i.writeList ++ known) code behind) :
    Legal known (i :: code) behind := (Legal.plain h).append rest

/-- What was written is still written. -/
theorem Legal.one (h : i.Plain known) : Legal known [i] known :=
  (Legal.plain h).imp (fun _ hr _ => hr) fun _ hr _ => List.mem_append_right _ hr

/-- Plain instructions leave written what was written. -/
theorem Legal.all (h : ∀ i ∈ code, i.Plain known) : Legal known code known := by
  induction code with
  | nil => exact .nil
  | cons i code ih =>
    obtain ⟨first, rest⟩ := List.forall_mem_cons.1 h
    exact (Legal.one first).append (ih rest)

/-- The code is made of plain instructions, each of which may rely on those in front of it. -/
def PlainCode : List Register → List Instr → Prop
  | _, [] => True
  | known, i :: rest => i.Plain known ∧ PlainCode (i.writeList ++ known) rest

instance PlainCode.decidable : (known : List Register) → (code : List Instr) →
    Decidable (PlainCode known code)
  | _, [] => isTrue trivial
  | _, _ :: rest => @instDecidableAnd _ _ _ (PlainCode.decidable _ rest)

theorem Legal.of_plainCode (h : PlainCode known code) :
    Legal known code (code.flatMap Instr.writeList ++ known) := by
  induction code generalizing known with
  | nil => exact .nil
  | cons i code ih =>
    refine .cons h.1 ((ih h.2).imp (fun _ hr _ => hr) fun r hr _ => ?_)
    simp only [List.flatMap_cons, List.append_assoc, List.mem_append] at hr ⊢
    exact or_left_comm.1 hr

/-! ## Labels, calls and divisions -/

theorem Legal.label (name : String) : Legal known [.label name] [] := by
  intro extended written _
  exact ⟨⟨rfl, trivial⟩, List.forall_mem_nil _⟩

/-- Behind a call the result is written. -/
theorem Legal.call (target : String) : Legal known [.call target] [.rax] := by
  intro extended written _
  have legal : (Instr.call target).illegality? extended written = none := by
    have read : (Instr.call target).badRead? written = none :=
      Instr.badRead?_eq_none fun r hr scratch => by
        obtain rfl := List.mem_singleton.1 hr
        cases scratch
    rw [Instr.illegality?, read]
    rfl
  refine ⟨⟨legal, trivial⟩, fun r hr _ => ?_⟩
  exact SortedSet.mem_insert.2 (.inl (List.mem_singleton.1 hr))

/-- A division by a register other than that of the dividend follows the sign extension. -/
theorem Legal.divide {r : Register} (rax : .rax ∈ known) (divisor : r.isScratch = true → r ∈ known)
    (apart : r ≠ .rax ∧ r ≠ .rdx) :
    Legal known [.cqo, .idiv (.register r)] (.rax :: .rdx :: known) := by
  intro extended written k
  have extension : Instr.cqo.Plain known :=
    ⟨rfl, rfl, fun s hs _ => List.mem_singleton.1 hs ▸ rax, rfl⟩
  obtain ⟨⟨first, -⟩, extended'⟩ := Legal.plain extension extended written k
  have form : (Instr.idiv (.register r)).badForm? true = none := by
    obtain ⟨rax, rdx⟩ := apart
    cases r <;> first | rfl | exact absurd rfl rax | exact absurd rfl rdx
  have read : (Instr.idiv (.register r)).badRead? (Instr.writtenAfter written .cqo) = none := by
    refine Instr.badRead?_eq_none fun s hs scratch => extended' s ?_ scratch
    have hs : s = .rax ∨ s = .rdx ∨ s = r := by simpa [Instr.readList, Operand.read] using hs
    rcases hs with rfl | rfl | rfl
    · exact List.mem_cons_of_mem _ rax
    · exact List.mem_cons_self
    · exact List.mem_cons_of_mem _ (divisor scratch)
  have second : (Instr.idiv (.register r)).illegality? true (Instr.writtenAfter written .cqo) =
      none := by
    rw [Instr.illegality?, form, read]
    rfl
  refine ⟨⟨first, second, trivial⟩, fun s hs scratch => ?_⟩
  rw [List.foldl_cons, List.foldl_cons, List.foldl_nil, Instr.writtenAfter_of_keeps rfl,
    SortedSet.mem_union, SortedSet.mem_filter, Instr.writes, SortedSet.mem_ofList]
  rcases List.mem_cons.1 hs with rfl | hs
  · exact .inr ⟨List.mem_cons_self, scratch⟩
  · exact .inl (extended' s hs scratch)

end Target

end ThreeAddress
