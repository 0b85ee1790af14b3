import Mathlib.Data.List.Chain
import ThreeAddress.Proofs.Activation.Replacement
import ThreeAddress.Proofs.FlowGraph.Closed
import ThreeAddress.Proofs.FlowGraph.Layout
/-!
# Procedures with labels in front of all blocks

A procedure may be replaced by its graph, laid out as text with a label in front of every block,
under two provisos. It has to jump to labels of its own text only: a fresh label is in the new text,
where the jump finds it. And the labels in the text have to tell its phis where control came from.
They need not: if control comes to a phi from a block without a label, the phi is told of the last
block that has one, and in the new text of the block itself.

* `FlowGraph.phisTold_of_build` : when labels tell the phis of a procedure where control came from;
* `Program.endsWith_toProc` : the program with the graph in place of the procedure ends in the same
  way;
* `Program.toProc_misleads_phi` : a procedure that means something else.
-/

namespace ThreeAddress

open Execution

namespace FlowGraph

variable {q : Proc} {g : FlowGraph} {names names' : FreshNames}

/-- The labels that a closed procedure jumps to are kept in its text. -/
theorem BuiltFrom.closed (h : BuiltFrom q g) (closed : q.Closed) : g.Closed Block.named := by
  intro b hb l target c hc label
  obtain ⟨i, hi, hl⟩ := Block.target?_of_mem target
  have mem : i ∈ g.instrs := List.mem_flatMap.2 ⟨b, hb, List.mem_append_right _ hi⟩
  rw [h.instrs] at mem
  exact (h.named c hc).2 (label ▸ closed i mem l hl)

/-- A block without a label in the text stands behind a transfer of control. -/
theorem exists_transfer_of_build (h : build q names = .ok (g, names')) {before later : List Block}
    {b c : Block} (split : g.blocks = before ++ b :: c :: later) (unnamed : c.named = false) :
    ∃ i, b.body.getLast? = some i ∧ i.isTransfer = true := by
  have made : g.blocks.map Block.piece = q.pieces := by
    obtain ⟨rfl, -⟩ := eq_of_build h
    exact nameBlocks_piece names q.pieces
  have chain := made ▸ q.isChain_pieces
  rw [split, List.map_append, List.map_cons, List.map_cons] at chain
  have pair := (List.isChain_append_cons_cons.1 chain).2.1
  exact pair (by simp [Block.piece, unnamed])

/-- So the labels in the text keep the phis of different blocks apart. -/
theorem phisTold_of_build (h : build q names = .ok (g, names')) (agree : g.PhisAgree Block.named) :
    g.PhisTold Block.named where
  agree
  apart := by
    intro before b c later split i last phi
    cases named : c.named with
    | true => rfl
    | false =>
      obtain ⟨j, last', transfer⟩ := exists_transfer_of_build h split named
      obtain rfl := Option.some.inj (last.symm.trans last')
      cases i <;> simp_all [Instr.isPhi, Instr.isTransfer]

end FlowGraph

namespace Proc

variable {q : Proc} {g : FlowGraph} {names : FreshNames}

/-- A procedure and the text of its graph have the same activations. -/
theorem runs_toProc (closed : q.Closed)
    (built : FlowGraph.build q (.avoiding q.labels) = .ok (g, names))
    (agree : g.PhisAgree Block.named) {σ : Type} {K : Keeping σ} {a : Local σ} {t : List Effect}
    {r : Result} : q.Runs K a t r ↔ g.toProc.Runs K a t r := by
  have from_ := FlowGraph.builtFrom_of_build (fun l hl => SortedSet.mem_ofList.2 hl) built
  rw [FlowGraph.runs_toProc_iff from_.wellFormed]
  exact g.runs_iff from_.wellFormed (FlowGraph.phisTold_of_build built agree) (from_.closed closed)
    from_.name from_.instrs.symm

end Proc

/-- Two procedures with the same parameters and activations may stand for each other. -/
theorem Proc.RenamedTo.of_runs_iff {q q' : Proc} (params : q'.params = q.params)
    (runs : ∀ {a : Local (Store Temp)} {t : List Effect} {r : Result},
      q.Runs .byName a t r ↔ q'.Runs .byName a t r) : q.RenamedTo Eq q' := by
  intro args globals t t' r _ ran same
  obtain ⟨r', result, ran'⟩ := Control.Yields.same (fun _ => rfl) ran same
  rw [params]
  exact ⟨r', result, runs.1 ran'⟩

namespace Program

variable {p : Program} {k : Nat} {q : Proc} {g : FlowGraph} {names : FreshNames} {e : Ending}

/-- A program ends in the same way when a procedure that jumps to labels of its own text, and whose
phis are told where control came from, is replaced by its graph as text. -/
theorem endsWith_toProc (hq : p.procs[k]? = some q) (closed : q.Closed)
    (built : FlowGraph.build q (.avoiding q.labels) = .ok (g, names))
    (agree : g.PhisAgree Block.named) : p.EndsWith e ↔ (p.replace k g.toProc).EndsWith e := by
  have from_ := FlowGraph.builtFrom_of_build (fun l hl => SortedSet.mem_ofList.2 hl) built
  have name : g.toProc.name = q.name := from_.name
  have params : g.toProc.params = q.params := from_.params
  have refl : ∀ r : Proc, r.RenamedTo Eq r := .refl fun _ => rfl
  rw [← finishes_iff, ← finishes_iff]
  constructor
  · intro h
    have related := matches_replace refl hq name params
      (.of_runs_iff params (Proc.runs_toProc closed built agree))
    obtain ⟨e', same, h'⟩ := finishes_same (fun _ => rfl) related rfl h
    exact same.eq ▸ h'
  · intro h
    have hq' : (p.replace k g.toProc).procs[k]? = some g.toProc := getElem?_replace hq
    have related := matches_replace refl hq' name.symm params.symm
      (.of_runs_iff params.symm (Proc.runs_toProc closed built agree).symm)
    rw [replace_replace hq] at related
    obtain ⟨e', same, h'⟩ := finishes_same (fun _ => rfl) related rfl h
    exact same.eq ▸ h'

/-- A loop whose phi is reached from two labelled blocks, and that has a block without a label. -/
def phiLoop : Proc :=
  let n : Temp := ⟨"n", none⟩
  let i : Temp := ⟨"i", none⟩
  let j : Temp := ⟨"j", none⟩
  let one : Temp := ⟨"one", none⟩
  ⟨⟨"main"⟩, [], [
    .label ⟨"start"⟩,
    .const (.temp n) 3,
    .const (.temp one) 1,
    .label ⟨"loop"⟩,
    .phi i (.ofList [(.block ⟨"start"⟩, n), (.block ⟨"again"⟩, j)]),
    .print (.temp i),
    .binary .sub (.temp j) (.temp i) (.temp one),
    .branch .zero (.temp j) ⟨"exit"⟩,
    .nop,
    .label ⟨"again"⟩,
    .jump ⟨"loop"⟩,
    .label ⟨"exit"⟩,
    .ret (.temp i)]⟩

/-- The loop, with a label for every block. -/
theorem endsWith_toProc_phiLoop : ∃ g names,
    FlowGraph.build phiLoop (.avoiding phiLoop.labels) = .ok (g, names) ∧ phiLoop.Closed ∧
      g.PhisAgree Block.named ∧ (∃ b ∈ g.blocks, b.named = false) ∧
      (replace ⟨[], [phiLoop]⟩ 0 g.toProc).EndsWith ⟨#[.word 3, .word 2, .word 1], .ok 1⟩ := by
  obtain ⟨g, names, built, unnamed, kept⟩ : ∃ g names,
      FlowGraph.build phiLoop (.avoiding phiLoop.labels) = .ok (g, names) ∧
      (∃ b ∈ g.blocks, b.named = false) ∧
      ∀ b ∈ g.blocks, ∀ i ∈ b.body, i.isPhi = true → b.named = true ∧
        ∀ c ∈ g.blocks, c.label ∈ g.preds b.label → c.named = true :=
    ⟨_, _, rfl, by decide +kernel, by decide +kernel⟩
  have closed : phiLoop.Closed := by decide
  have from_ := FlowGraph.builtFrom_of_build (fun l hl => SortedSet.mem_ofList.2 hl) built
  have agree : g.PhisAgree Block.named := .of_kept from_.wellFormed kept
  have run : (⟨[], [phiLoop]⟩ : Program).run 40 = ⟨#[.word 3, .word 2, .word 1], .ok 1⟩ := rfl
  exact ⟨g, names, built, closed, agree, unnamed,
    (endsWith_toProc rfl closed built agree).1 (endsWith_of_run run (by simp))⟩

/-- A phi that control comes to from a block without a label, behind a branch in the block that the
phi names. -/
def phiPastBranch : Proc :=
  let x : Temp := ⟨"x", none⟩
  let y : Temp := ⟨"y", none⟩
  let w : Temp := ⟨"w", none⟩
  ⟨⟨"main"⟩, [], [
    .const (.temp x) 1,
    .const (.temp y) 2,
    .label ⟨"L0"⟩,
    .branch .zero (.temp x) ⟨"L2"⟩,
    .nop,
    .label ⟨"L2"⟩,
    .phi w (.ofList [(.block ⟨"L0"⟩, y)]),
    .print (.temp w)]⟩

/-- The phi chooses an argument. With a label for every block, it finds none. -/
theorem toProc_misleads_phi : phiPastBranch.Closed ∧ ∃ g names,
    FlowGraph.build phiPastBranch (.avoiding phiPastBranch.labels) = .ok (g, names) ∧
      g.PhisFirst ∧ (⟨[], [phiPastBranch]⟩ : Program).EndsWith ⟨#[.word 2], .ok 0⟩ ∧
      (replace ⟨[], [phiPastBranch]⟩ 0 g.toProc).EndsWith
        ⟨#[], .error (.uninitialized ⟨"main"⟩ ⟨"w", none⟩)⟩ := by
  refine ⟨by decide, _, _, rfl, by decide +kernel, ?_, ?_⟩
  · exact @endsWith_of_run _ _ 20 rfl (by simp)
  · exact @endsWith_of_run _ _ 20 rfl (by simp)

end Program

end ThreeAddress
