import ThreeAddress.Proofs.Compilation.Symbols
import ThreeAddress.Proofs.FlowGraph.Closed
/-!
# What a failed compilation reports

A program fails to compile if one of its procedures does, and each of these is reported once, in the
order of the text. A fault with a label is reported with an instruction of the procedure: the search
for it looks at the whole text, so it finds one wherever the fault was noticed.

* `collect_cases` : the results of a list, or the errors of all members that have one;
* `Fault.instr?_undefined`, `Fault.instr?_repeated` : the instruction that a fault is about;
* `Fault.instr?_eq_text` : looking for a label and looking for its text is the same;
* `Proc.succs_found` : behind the cut into blocks no label is looked up in vain;
* `ProcFailure.Located` : what a failure says about its procedure;
* `Program.failures_located` : the failures of a program, with their places.
-/

namespace ThreeAddress

/-! ## All errors -/

/-- Does a computation fail? -/
def Fails {ε α : Type} (x : Except ε α) : Prop := ∃ e, x = .error e

instance {ε α : Type} : (x : Except ε α) → Decidable (Fails x)
  | .ok _ => .isFalse (by rintro ⟨e, h⟩; cases h)
  | .error e => .isTrue ⟨e, rfl⟩

/-- The results of a list are collected if none fails, and otherwise the errors of all that do. -/
theorem collect_cases {ε α β : Type} (f : β → Except ε α) (l : List β) :
    (∃ as, collect (l.map f) = .ok as ∧ ∀ b ∈ l, ¬ Fails (f b)) ∨
    ∃ es, collect (l.map f) = .error es ∧ (∃ b ∈ l, Fails (f b)) ∧
      List.Forall₂ (fun b e => f b = .error e) (l.filter fun b => Fails (f b)) es := by
  induction l with
  | nil => exact .inl ⟨[], rfl, by simp⟩
  | cons b rest ih =>
    rw [List.map_cons]
    cases first : f b with
    | ok a =>
      have fine : ¬ Fails (f b) := by
        rw [first]
        rintro ⟨e, h⟩
        cases h
      rw [List.filter_cons_of_neg (by simpa using fine)]
      rcases ih with ⟨as, more, all⟩ | ⟨es, more, ⟨c, hc, fails⟩, failed⟩
      · exact .inl ⟨a :: as, by simp [collect, more], List.forall_mem_cons.2 ⟨fine, all⟩⟩
      · exact .inr ⟨es, by simp [collect, more], ⟨c, List.mem_cons_of_mem b hc, fails⟩, failed⟩
    | error e =>
      have fails : Fails (f b) := ⟨e, first⟩
      have some : ∃ c ∈ b :: rest, Fails (f c) := ⟨b, List.mem_cons_self, fails⟩
      rw [List.filter_cons_of_pos (by simpa using fails)]
      right
      rcases ih with ⟨as, more, all⟩ | ⟨es, more, -, failed⟩
      · have none : (rest.filter fun b => Fails (f b)) = [] := by simpa using all
        rw [none]
        exact ⟨[e], by simp [collect, more], some, .cons first .nil⟩
      · exact ⟨e :: es, by simp [collect, more], some, .cons first failed⟩

theorem collect_eq_error {ε α β : Type} {f : β → Except ε α} {l : List β} {es : List ε}
    (h : collect (l.map f) = .error es) :
    List.Forall₂ (fun b e => f b = .error e) (l.filter fun b => Fails (f b)) es := by
  rcases collect_cases f l with ⟨as, ok, -⟩ | ⟨es', failed, -, all⟩
  · cases h.symm.trans ok
  · cases h.symm.trans failed
    exact all

theorem fails_collect_iff {ε α β : Type} {f : β → Except ε α} {l : List β} :
    Fails (collect (l.map f)) ↔ ∃ b ∈ l, Fails (f b) := by
  rcases collect_cases f l with ⟨as, ok, all⟩ | ⟨es, failed, some, all⟩
  · rw [ok]
    constructor
    · rintro ⟨e, h⟩
      cases h
    · rintro ⟨b, hb, fails⟩
      exact absurd fails (all b hb)
  · exact iff_of_true ⟨es, failed⟩ some

/-! ## The instruction that a fault is about -/

namespace Label

/-- Labels have different texts. -/
theorem text_injective : Function.Injective Label.text := by
  rintro ⟨s⟩ ⟨s'⟩ same
  exact congrArg Label.mk ((String.append_right_inj ".L").1 same)

end Label

namespace Instr

variable {i : Instr} {l : Label}

/-- The instruction jumps or branches to the label, or is a phi with an argument from its block. -/
def Names (i : Instr) (l : Label) : Prop := i.target? = some l ∨ l ∈ i.phiBlocks

theorem mentions_iff : i.mentions l = true ↔ i.Names l := by
  rw [mentions, List.contains_iff_mem, List.mem_append, Option.mem_toList, Names]

end Instr

namespace Fault

variable {body : List Instr} {l : Label}

/-- If an instruction names the label, one that does is found. -/
theorem instr?_undefined (h : ∃ i ∈ body, i.Names l) :
    ∃ i ∈ body, i.Names l ∧ instr? body (.label (.undefined l)) = some i := by
  obtain ⟨i, hi, names⟩ := h
  have found : (body.find? (Instr.mentions l)).isSome :=
    List.find?_isSome.2 ⟨i, hi, Instr.mentions_iff.2 names⟩
  obtain ⟨j, hj⟩ := Option.isSome_iff_exists.1 found
  exact ⟨j, List.mem_of_find?_eq_some hj, Instr.mentions_iff.1 (List.find?_some hj), hj⟩

/-- If the label is defined twice, the second definition is found. -/
theorem instr?_repeated (h : 2 ≤ body.count (.label l)) :
    instr? body (.label (.repeated l)) = some (.label l) := by
  rw [instr?, List.filter_beq, List.getElem?_replicate]
  exact if_pos h

/-- Since labels have different texts, an instruction may as well be looked for by the text. -/
theorem instr?_eq_text (body : List Instr) (l : Label) :
    instr? body (.label (.undefined l)) =
        body.find? (fun i => (i.target?.toList ++ i.phiBlocks).any fun m => m.text == l.text) ∧
      instr? body (.label (.repeated l)) =
        (body.filter fun i => match i with
          | .label m => m.text == l.text
          | _ => false)[1]? := by
  have text : ∀ m : Label, (m.text == l.text) = (m == l) := by
    intro m
    rw [Bool.eq_iff_iff, beq_iff_eq, beq_iff_eq]
    exact Label.text_injective.eq_iff
  simp only [text]
  constructor
  · rw [instr?]
    congr 1
    funext i
    rw [Instr.mentions, List.contains_eq_any_beq]
    simp only [BEq.comm]
  · rw [instr?]
    congr 2
    funext i
    cases i <;> simp

end Fault

/-! ## The failure of a procedure -/

namespace Proc

variable {q : Proc} {o : CompileOptions} {l : Label}

/-- A label stands among the labels of a procedure as often as it is defined. -/
theorem count_labels (q : Proc) (l : Label) : q.labels.count l = q.body.count (.label l) := by
  rw [labels, List.count_filterMap, List.count]
  congr 1
  funext i
  cases i <;> simp

/-- What a procedure fails with is a label, if it has no graph, or else a breach. -/
theorem fault_of_compile {f : ProcFailure} (h : q.compile o = .error f) :
    (∃ e, FlowGraph.build q (.avoiding q.labels) = .error e ∧ f = .ofFault q (.label e)) ∨
      ∃ b, f = .ofFault q (.breach b) := by
  rw [compile] at h
  cases built : FlowGraph.build q (.avoiding q.labels) with
  | error e =>
    have failed : FlowGraph.ofProc q = .error e := by
      simp [FlowGraph.ofProc, built, bind, Except.bind]
    rw [failed] at h
    cases h
    exact .inl ⟨e, rfl, rfl⟩
  | ok made =>
    right
    have made' : FlowGraph.ofProc q = .ok (made.1, made.2.avoidingTemps made.1.temps.toList) := by
      simp [FlowGraph.ofProc, built, bind, Except.bind, pure, Except.pure]
    rw [made'] at h
    cases compiled : made.1.compile (made.2.avoidingTemps made.1.temps.toList) o with
    | error b =>
      simp only [compiled] at h
      cases h
      exact ⟨b, rfl⟩
    | ok c =>
      simp only [compiled] at h
      cases h

/-- An instruction of the text names a label that is looked at. -/
theorem Asks.exists_names (h : q.Asks l) : ∃ i ∈ q.body, i.Names l := by
  rcases h with ⟨i, hi, target⟩ | ⟨b, hb, i, hi, mem⟩
  · exact ⟨i, hi, .inl target⟩
  · have plain := Instr.ne_label_of_isPhi (Block.isPhi_of_mem_phis hi)
    exact ⟨i, (mem_body_iff plain).2 ⟨b, hb, Block.mem_body_of_mem_phis hi⟩, .inr mem⟩

end Proc

namespace FlowGraph

/-- Every edge of a well-formed graph leads to a block that is found under its label. -/
theorem WellFormed.succs_found {g : FlowGraph} (wf : g.WellFormed) {l m : Label}
    (edge : m ∈ g.succs l) : ∃ b, g.block? m = some b := by
  obtain ⟨b, hb, rfl, exits⟩ := exists_of_mem_succs wf.nodup edge
  have label : m ∈ g.labels := by
    rcases Block.mem_succs.1 exits with target | ⟨-, next⟩
    · exact wf.targets b hb m target
    · exact mem_labels_of_next? wf.nodup (mem_labels.2 ⟨b, hb, rfl⟩) next
  obtain ⟨c, hc, same⟩ := mem_labels.1 label
  exact ⟨c, (block?_eq_some wf.nodup).2 ⟨hc, same⟩⟩

end FlowGraph

/-- Behind the cut into blocks no label is missing: whatever is done to the graph, each edge of the
graph that is lowered leads to a block of it. -/
theorem Proc.succs_found {q : Proc} {o : CompileOptions} {g last : FlowGraph} {names : FreshNames}
    {prepared : Prepared} {rounds : List OptimizerRound} (proper : q.isProper = true)
    (built : FlowGraph.ofProc q = .ok (g, names)) (prepare : g.prepare names o = .ok prepared)
    (optimize : prepared.graph.optimize o.optimizer prepared.singleAssignment = .ok (last, rounds))
    {l m : Label} (edge : m ∈ last.succs l) : ∃ b, last.block? m = some b := by
  have wf := (FlowGraph.builtFrom_of_ofProc built).wellFormed.prepare
    (FlowGraph.writable_of_ofProc proper built) (FlowGraph.avoids_of_ofProc built) prepare
  exact (wf.optimize optimize).succs_found edge

namespace ProcFailure

variable {f : ProcFailure} {q : Proc}

/-- The failure names its procedure, and a fault with a label comes with an instruction that has to
do with it. -/
structure Located (f : ProcFailure) (q : Proc) : Prop where
  proc : f.proc = q.name
  /-- A label that is defined twice comes with a definition of it. -/
  repeated : ∀ l, f.fault = .label (.repeated l) →
    q.labels.Duplicate l ∧ .label l ∈ q.body ∧ f.instr = some (.label l)
  /-- A label that is not defined comes with a jump, a branch or a phi that names it. -/
  undefined : ∀ l, f.fault = .label (.undefined l) →
    l ∉ q.labels ∧ ∃ i ∈ q.body, i.Names l ∧ f.instr = some i
  /-- The instruction stands in the report as it is written. -/
  report : ∀ e, f.fault = .label e → ∃ i ∈ q.body, f.instr = some i ∧
    f.text = "[" ++ e.code ++ "] in " ++ q.name.text ++ (" at `" ++ i.text ++ "`") ++ ": " ++
      e.message

theorem text_of_instr {i : Instr} (h : f.instr = some i) :
    f.text = "[" ++ f.fault.code ++ "] in " ++ f.proc.text ++ (" at `" ++ i.text ++ "`") ++ ": " ++
      f.fault.message := by
  rw [text, h]

theorem located_repeated {l : Label} (twice : q.labels.Duplicate l) :
    (ofFault q (.label (.repeated l))).Located q := by
  have count : 2 ≤ q.body.count (.label l) := by
    rw [← q.count_labels]
    exact List.duplicate_iff_two_le_count.1 twice
  have mem : .label l ∈ q.body := List.count_pos_iff.1 (by omega)
  have instr := Fault.instr?_repeated count
  refine ⟨rfl, ?_, ?_, ?_⟩
  · rintro m ⟨⟩
    exact ⟨twice, mem, instr⟩
  · rintro m ⟨⟩
  · rintro e ⟨⟩
    exact ⟨.label l, mem, instr, text_of_instr instr⟩

theorem located_undefined {l : Label} (asked : q.Asks l) (new : l ∉ q.labels) :
    (ofFault q (.label (.undefined l))).Located q := by
  obtain ⟨i, hi, names, instr⟩ := Fault.instr?_undefined asked.exists_names
  refine ⟨rfl, ?_, ?_, ?_⟩
  · rintro m ⟨⟩
  · rintro m ⟨⟩
    exact ⟨new, i, hi, names, instr⟩
  · rintro e ⟨⟩
    exact ⟨i, hi, instr, text_of_instr instr⟩

theorem located_breach (q : Proc) (b : Breach) : (ofFault q (.breach b)).Located q := by
  refine ⟨rfl, ?_, ?_, ?_⟩
  · rintro m ⟨⟩
  · rintro m ⟨⟩
  · rintro e ⟨⟩

end ProcFailure

/-- Wherever a procedure fails, the failure is located. -/
theorem Proc.located_of_compile {q : Proc} {o : CompileOptions} {f : ProcFailure}
    (h : q.compile o = .error f) : f.Located q := by
  rcases fault_of_compile h with ⟨e, built, rfl⟩ | ⟨b, rfl⟩
  · rcases FlowGraph.build_cases q with
      ⟨l, twice, made⟩ | ⟨-, l, asked, new, made⟩ | ⟨-, -, names, made⟩
    · cases built.symm.trans made
      exact ProcFailure.located_repeated twice
    · cases built.symm.trans made
      exact ProcFailure.located_undefined asked fun mem => new (mem_labels_cut.2 (.inl mem))
    · cases built.symm.trans made
  · exact ProcFailure.located_breach q b

namespace Program

variable {p : Program} {o : CompileOptions}

theorem fails_compile_iff : Fails (p.compile o) ↔ ∃ q ∈ p.procs, Fails (q.compile o) := by
  rw [← fails_collect_iff, compile, compileProcs]
  cases collect (p.procs.map fun q => q.compile o) with
  | ok procs => exact iff_of_false (by rintro ⟨e, ⟨⟩⟩) (by rintro ⟨e, ⟨⟩⟩)
  | error fs => exact iff_of_true ⟨fs, rfl⟩ ⟨fs, rfl⟩

theorem collect_of_compile {fs : List ProcFailure} (h : p.compile o = .error fs) :
    collect (p.procs.map fun q => q.compile o) = .error fs := by
  rw [compile, compileProcs] at h
  cases collected : collect (p.procs.map fun q => q.compile o) with
  | ok procs =>
    rw [collected] at h
    cases h
  | error fs' =>
    rw [collected] at h
    cases h
    rfl

/-- A program fails to compile if and only if one of its procedures does. The failures are those of
the procedures that fail, one for each, in the order of the program. Each names its procedure, and a
failure for a label comes with an instruction of the procedure: a definition of a label that is
defined twice, or a jump, a branch or a phi that names a label that is not defined. -/
theorem failures_located (p : Program) (o : CompileOptions) :
    (Fails (p.compile o) ↔ ∃ q ∈ p.procs, Fails (q.compile o)) ∧
    (∀ fs, p.compile o = .error fs →
      List.Forall₂ (fun q f => q.compile o = .error f ∧ f.proc = q.name)
        (p.procs.filter fun q => Fails (q.compile o)) fs) ∧
    ∀ q ∈ p.procs, ∀ f, q.compile o = .error f → f.Located q := by
  refine ⟨fails_compile_iff, ?_, fun q _ f h => Proc.located_of_compile h⟩
  intro fs h
  apply (collect_eq_error (collect_of_compile h)).imp
  intro q f failed
  exact ⟨failed, (Proc.located_of_compile failed).proc⟩

/-- One procedure jumps to a label that it does not have, one has nothing wrong, and one defines a
label twice. -/
example : compile ⟨[], [
      ⟨⟨"bad"⟩, [], [.jump ⟨"9"⟩]⟩,
      ⟨⟨"good"⟩, [], [.ret (.temp .sink)]⟩,
      ⟨⟨"worse"⟩, [], [.label ⟨"1"⟩, .nop, .label ⟨"1"⟩, .ret (.temp .sink)]⟩]⟩ .standard =
    .error [
      ⟨⟨"bad"⟩, some (.jump ⟨"9"⟩), .label (.undefined ⟨"9"⟩)⟩,
      ⟨⟨"worse"⟩, some (.label ⟨"1"⟩), .label (.repeated ⟨"1"⟩)⟩] := by
  rfl

end Program

end ThreeAddress
