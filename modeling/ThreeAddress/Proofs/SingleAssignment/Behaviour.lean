import ThreeAddress.Proofs.FlowGraph.Flattening
import ThreeAddress.Proofs.SingleAssignment.Convert
/-!
# What single assignment does to a program

A procedure may be replaced by its single-assignment form, provided that it jumps only to labels of
its own text. A jump to another label fails; but the cutting into blocks gives labels to blocks that
have none, and the single-assignment form has them all in its text. If the jump names one of those,
the single-assignment form goes on there.

* `Program.endsWith_convert` : the program with the single-assignment form ends in the same way;
* `Program.convert_captures_label` : a program that has to fail, and does not.
-/

namespace ThreeAddress

open Execution

/-- The text of the procedure has no phis. -/
def Proc.PhiFree (q : Proc) : Prop := ∀ i ∈ q.body, i.isPhi = false

instance (q : Proc) : Decidable q.PhiFree := by
  unfold Proc.PhiFree
  infer_instance

/-! ## One procedure -/

namespace FlowGraph

variable {q : Proc} {g : FlowGraph} {names : FreshNames}

/-- The names that are left for a procedure avoid its temporaries. -/
theorem avoids_of_ofProc (h : ofProc q = .ok (g, names)) : ∀ t ∈ g.temps, t ∈ names.temps :=
  fun _ ht => (names_of_ofProc h).2 ▸ ht

/-- A procedure that is cut into blocks has a single-assignment form. -/
theorem exists_conversion (wf : g.WellFormed) : ∃ c, g.convert names = .ok c := by
  obtain ⟨live, found⟩ := exists_liveness wf.nodup
  rw [convert, found]
  exact ⟨_, rfl⟩

/-- Whatever its blocks are like, they are renamed, one by one. -/
theorem exists_renamed_conversion (wf : g.WellFormed) (names : FreshNames) :
    ∃ c, g.convert names = .ok c ∧ c.graph.labels = g.labels ∧ ∃ live root rs,
      ∀ b' ∈ c.graph.blocks, ∃ b ∈ g.blocks, ∃ r, RenamedFrom live root b r ∧
        b' = r.toBlock g rs := by
  obtain ⟨c, converted⟩ : ∃ c, g.convert names = .ok c := exists_conversion wf
  obtain ⟨live, -, graph⟩ := exists_renamed_of_convert converted
  obtain ⟨root, all⟩ := exists_renamedAll wf.nodup live names
  refine ⟨c, converted, graph ▸ all.labels_toBlocks _ _, live, root,
    (renameBlocks live names g.blocks).1, fun b' hb' => ?_⟩
  rw [graph] at hb'
  obtain ⟨r, -, b, hb, rfl, -, renamed⟩ := all.exists_of_mem_toBlocks hb'
  exact ⟨b, hb, r, renamed, rfl⟩

end FlowGraph

section Convert

variable {q : Proc} {g : FlowGraph} {names : FreshNames} {c : Conversion}

/-- The activations of a procedure are those of its single-assignment form. -/
theorem Proc.renamedTo_convert (free : q.PhiFree) (closed : q.Closed)
    (built : FlowGraph.ofProc q = .ok (g, names)) (h : g.convert names = .ok c) :
    q.RenamedTo Failure.SameUpToVersion c.graph.toProc := by
  have from_ := FlowGraph.builtFrom_of_ofProc built
  have freeGraph := from_.phiFree free
  obtain ⟨live, V, found, versioned, -⟩ :=
    versioned_of_convert from_.wellFormed freeGraph.bare (FlowGraph.avoids_of_ofProc built) h
  intro args globals t t' r _ runs same
  rw [g.runs_iff from_.wellFormed freeGraph.phisTold (from_.closed closed) from_.name
    from_.instrs.symm, ← from_.params] at runs
  obtain ⟨r', result, runs'⟩ := versioned.runs from_.wellFormed freeGraph
    (FlowGraph.solved_of_liveness from_.wellFormed.nodup found) Keeping.byName_lawful Keeping.byName_lawful
    Keeping.byName_empty Keeping.byName_empty runs same
  exact ⟨r', result, (FlowGraph.runs_toProc_iff (versioned.wellFormed from_.wellFormed)).2 runs'⟩

/-- The activations of a single-assignment form are those of the procedure. -/
theorem Proc.convert_renamedTo (free : q.PhiFree) (closed : q.Closed)
    (built : FlowGraph.ofProc q = .ok (g, names)) (h : g.convert names = .ok c) :
    c.graph.toProc.RenamedTo Failure.SameUpToVersion q := by
  have from_ := FlowGraph.builtFrom_of_ofProc built
  have freeGraph := from_.phiFree free
  obtain ⟨live, V, found, versioned, -⟩ :=
    versioned_of_convert from_.wellFormed freeGraph.bare (FlowGraph.avoids_of_ofProc built) h
  intro args globals t t' r _ runs same
  rw [FlowGraph.runs_toProc_iff (versioned.wellFormed from_.wellFormed)] at runs
  obtain ⟨r', result, runs'⟩ := versioned.runs_back from_.wellFormed freeGraph
    (FlowGraph.solved_of_liveness from_.wellFormed.nodup found) Keeping.byName_lawful Keeping.byName_lawful
    Keeping.byName_empty Keeping.byName_empty runs same
  refine ⟨r', result, ?_⟩
  rw [← from_.params, g.runs_iff from_.wellFormed freeGraph.phisTold (from_.closed closed) from_.name
    from_.instrs.symm]
  exact runs'

end Convert

/-! ## A program -/

namespace Program

variable {p : Program} {k : Nat} {q : Proc} {g : FlowGraph} {names : FreshNames}

/-- A program ends in the same way when a procedure that jumps to labels of its own text is
replaced by its single-assignment form, except that a temporary without a value may be named by one
of its versions. -/
theorem endsWith_convert (hq : p.procs[k]? = some q) (free : q.PhiFree) (closed : q.Closed)
    (built : FlowGraph.ofProc q = .ok (g, names)) :
    ∃ c, g.convert names = .ok c ∧
      (∀ e, p.EndsWith e → ∃ e', SameEnding Failure.SameUpToVersion e e' ∧
        (p.replace k c.graph.toProc).EndsWith e') ∧
      ∀ e', (p.replace k c.graph.toProc).EndsWith e' →
        ∃ e, SameEnding Failure.SameUpToVersion e e' ∧ p.EndsWith e := by
  have from_ := FlowGraph.builtFrom_of_ofProc built
  obtain ⟨c, converted⟩ : ∃ c, g.convert names = .ok c := FlowGraph.exists_conversion from_.wellFormed
  obtain ⟨_, _, -, versioned, -⟩ := versioned_of_convert from_.wellFormed (from_.phiFree free).bare
    (FlowGraph.avoids_of_ofProc built) converted
  have name : c.graph.toProc.name = q.name := versioned.name.trans from_.name
  have params : c.graph.toProc.params = q.params := versioned.params.trans from_.params
  have refl : ∀ f : Failure, f.SameUpToVersion f := fun f => .inl rfl
  refine ⟨c, converted, fun e h => ?_, fun e' h => ?_⟩
  · have related := matches_replace (.refl refl) hq name params
      (Proc.renamedTo_convert free closed built converted)
    obtain ⟨e', same, h'⟩ := finishes_same refl related rfl (finishes_iff.2 h)
    exact ⟨e', same, finishes_iff.1 h'⟩
  · have hq' : (p.replace k c.graph.toProc).procs[k]? = some c.graph.toProc :=
      getElem?_replace hq
    have related := matches_replace (.refl refl) hq' name.symm params.symm
      (Proc.convert_renamedTo free closed built converted)
    rw [replace_replace hq] at related
    obtain ⟨e, same, h'⟩ := finishes_same refl related rfl (finishes_iff.2 h)
    exact ⟨e, same.symm Versioned.sameUpToVersion_symm, finishes_iff.1 h'⟩

/-- A procedure that counts down and jumps to its own labels. -/
def countdown : Proc :=
  let n : Temp := ⟨"n", none⟩
  let one : Temp := ⟨"one", none⟩
  ⟨⟨"main"⟩, [], [
    .const (.temp n) 3,
    .label ⟨"loop"⟩,
    .print (.temp n),
    .const (.temp one) 1,
    .binary .sub (.temp n) (.temp n) (.temp one),
    .branch .nonzero (.temp n) ⟨"loop"⟩,
    .ret (.temp n)]⟩

/-- Counting down in single assignment. -/
theorem endsWith_convert_countdown : ∃ g names c, FlowGraph.ofProc countdown = .ok (g, names) ∧
    g.convert names = .ok c ∧
    ∃ e', SameEnding Failure.SameUpToVersion ⟨#[.word 3, .word 2, .word 1], .ok 0⟩ e' ∧
      (replace ⟨[], [countdown]⟩ 0 c.graph.toProc).EndsWith e' := by
  obtain ⟨⟨g, names⟩, built⟩ : ∃ made, FlowGraph.ofProc countdown = .ok made := ⟨_, rfl⟩
  have hq : (⟨[], [countdown]⟩ : Program).procs[0]? = some countdown := rfl
  obtain ⟨c, converted, runs, -⟩ := endsWith_convert hq (by decide) (by decide) built
  have run : (⟨[], [countdown]⟩ : Program).run 30 = ⟨#[.word 3, .word 2, .word 1], .ok 0⟩ := rfl
  exact ⟨g, names, c, built, converted, runs _ (endsWith_of_run run (by simp))⟩

/-- A procedure that jumps to a label it does not have, but its second block is given. -/
def strayJump : Proc :=
  ⟨⟨"main"⟩, [], [.jump ⟨"_bb1"⟩, .print (.temp .sink), .ret (.temp .sink)]⟩

/-- The stray jump fails, but the single-assignment form of the procedure has the label. -/
theorem convert_captures_label : strayJump.PhiFree ∧
    ∃ g names c, FlowGraph.ofProc strayJump = .ok (g, names) ∧ g.convert names = .ok c ∧
      (⟨[], [strayJump]⟩ : Program).EndsWith
        ⟨#[], .error (.unknownLabel ⟨"main"⟩ ⟨"_bb1"⟩)⟩ ∧
      (replace ⟨[], [strayJump]⟩ 0 c.graph.toProc).EndsWith ⟨#[.word 0], .ok 0⟩ := by
  refine ⟨by decide, _, _, _, rfl, rfl, ?_, ?_⟩
  · have run : (⟨[], [strayJump]⟩ : Program).run 10 =
        ⟨#[], .error (.unknownLabel ⟨"main"⟩ ⟨"_bb1"⟩)⟩ := rfl
    exact endsWith_of_run run (by simp)
  · exact @endsWith_of_run _ _ 10 rfl (by simp)

end Program

end ThreeAddress
