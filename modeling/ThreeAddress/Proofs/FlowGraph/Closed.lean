import Mathlib.Data.List.Duplicate
import ThreeAddress.Proofs.FlowGraph.Build
/-!
# Closed procedures

A procedure has a graph if no label is defined twice and every label that is looked at is the label
of a block. Two things are not what one expects of a closed procedure. The labels of all blocks
count, also those that were made up for blocks without one; and of the phis only those at the heads
of blocks are looked at.

* `Proc.Closed` : the procedure jumps to labels of its text;
* `Proc.cut`, `Proc.Given` : the blocks before anything is checked, and their fresh labels;
* `FlowGraph.build_iff_closed` : which procedures have a graph, and what is wrong with the others;
* `FlowGraph.build_misses_label` : procedures with a graph although they name an undefined label.
-/

namespace ThreeAddress

/-- The procedure jumps only to labels of its text. -/
def Proc.Closed (q : Proc) : Prop := ∀ i ∈ q.body, ∀ l, i.target? = some l → l ∈ q.labels

instance (q : Proc) : Decidable q.Closed := by
  unfold Proc.Closed
  exact List.decidableBAll _ _

theorem Instr.ne_label_of_target {i : Instr} {l : Label} (h : i.target? = some l) (m : Label) :
    i ≠ .label m := by
  rintro rfl
  cases h

theorem Instr.ne_label_of_isPhi {i : Instr} (h : i.isPhi = true) (m : Label) : i ≠ .label m := by
  rintro rfl
  cases h

theorem Instr.isPhi_of_mem_phiBlocks {i : Instr} {l : Label} (h : l ∈ i.phiBlocks) :
    i.isPhi = true := by
  cases i <;> simp_all [phiBlocks, isPhi]

/-! ## Before the labels are checked -/

namespace Proc

/-- The blocks of a procedure, whether it is closed or not. -/
def cut (p : Proc) : FlowGraph :=
  ⟨p.name, p.params, (nameBlocks (.avoiding p.labels) p.pieces).1⟩

/-- A label that was made up for a block. -/
def Given (p : Proc) (l : Label) : Prop := ∃ b ∈ p.cut.blocks, b.named = false ∧ b.label = l

instance (p : Proc) (l : Label) : Decidable (p.Given l) := by
  unfold Given
  infer_instance

variable {p : Proc} {l : Label}

theorem cut_of_ofProc {g : FlowGraph} {names : FreshNames} (h : FlowGraph.ofProc p = .ok (g, names)) :
    g = p.cut := by
  obtain ⟨left, built, -⟩ := FlowGraph.exists_build_of_ofProc h
  exact (FlowGraph.eq_of_build built).1

theorem piece_cut (p : Proc) : p.cut.blocks.map Block.piece = p.pieces := nameBlocks_piece _ _

theorem instrs_cut (p : Proc) : p.cut.instrs = p.body := by
  rw [FlowGraph.instrs_eq_flatMap_piece, piece_cut, flatMap_pieces]

theorem straight_cut {b : Block} (hb : b ∈ p.cut.blocks) : Straight b.body :=
  p.straight_of_mem_pieces (q := b.piece) (p.piece_cut ▸ List.mem_map_of_mem hb)

theorem labels_eq_pieces (p : Proc) : p.labels = p.pieces.filterMap Piece.label? := by
  have h := FlowGraph.labels_of_pieces (fun _ => p.straight_of_mem_pieces) p.name p.params
  rwa [flatMap_pieces] at h

/-- A block has a label of the text or one that was made up. -/
theorem mem_labels_cut : l ∈ p.cut.labels ↔ l ∈ p.labels ∨ p.Given l := by
  rw [FlowGraph.mem_labels]
  constructor
  · rintro ⟨b, hb, rfl⟩
    cases named : b.named with
    | true =>
      left
      rw [labels_eq_pieces]
      exact label_mem_of_named p.piece_cut hb named
    | false => exact .inr ⟨b, hb, named, rfl⟩
  · rintro (h | ⟨b, hb, -, rfl⟩)
    · rw [labels_eq_pieces, ← piece_cut, List.mem_filterMap] at h
      obtain ⟨q, hq, label⟩ := h
      obtain ⟨b, hb, rfl⟩ := List.mem_map.1 hq
      refine ⟨b, hb, ?_⟩
      simp only [Block.piece, Option.ite_none_right_eq_some, Option.some.injEq] at label
      exact label.2
    · exact ⟨b, hb, rfl⟩

/-- An instruction of the text is a label or stands in a block. -/
theorem mem_body_iff {i : Instr} (plain : ∀ l, i ≠ .label l) :
    i ∈ p.body ↔ ∃ b ∈ p.cut.blocks, i ∈ b.body := by
  rw [← instrs_cut, FlowGraph.instrs, List.mem_flatMap]
  refine exists_congr fun b => and_congr_right fun _ => ?_
  rw [List.mem_append, or_iff_right]
  intro h
  cases named : b.named
  · simp [named] at h
  · exact plain b.label (by simpa [named] using h)

/-- The targets of the text are those of the blocks. -/
theorem target_mem_body : (∃ i ∈ p.body, i.target? = some l) ↔
    ∃ b ∈ p.cut.blocks, b.target? = some l := by
  constructor
  · rintro ⟨i, hi, target⟩
    obtain ⟨b, hb, mem⟩ := (mem_body_iff (Instr.ne_label_of_target target)).1 hi
    refine ⟨b, hb, ?_⟩
    rw [Block.target?, (straight_cut hb).last_of_transfer mem (Instr.isTransfer_of_target target)]
    exact target
  · rintro ⟨b, hb, target⟩
    obtain ⟨i, last, target⟩ := Option.bind_eq_some_iff.1 target
    exact ⟨i, (mem_body_iff (Instr.ne_label_of_target target)).2
      ⟨b, hb, List.mem_of_mem_getLast? last⟩, target⟩

/-- If all phis stand at the heads of blocks, their edges are those of the phis in the text. -/
theorem phiBlocks_mem_body (first : p.cut.PhisFirst) : (∃ i ∈ p.body, l ∈ i.phiBlocks) ↔
    ∃ b ∈ p.cut.blocks, ∃ i ∈ b.phis, l ∈ i.phiBlocks := by
  constructor
  · rintro ⟨i, hi, hl⟩
    have phi := Instr.isPhi_of_mem_phiBlocks hl
    obtain ⟨b, hb, mem⟩ := (mem_body_iff (Instr.ne_label_of_isPhi phi)).1 hi
    rw [← b.phis_append_code, List.mem_append] at mem
    refine ⟨b, hb, i, mem.resolve_right fun late => ?_, hl⟩
    simp [first b hb i late] at phi
  · rintro ⟨b, hb, i, hi, hl⟩
    exact ⟨i, (mem_body_iff (Instr.ne_label_of_isPhi (Block.isPhi_of_mem_phis hi))).2
      ⟨b, hb, Block.mem_body_of_mem_phis hi⟩, hl⟩

/-- A label that is looked at: a target, or an edge of a phi at the head of a block. -/
def Asks (p : Proc) (l : Label) : Prop :=
  (∃ i ∈ p.body, i.target? = some l) ∨ ∃ b ∈ p.cut.blocks, ∃ i ∈ b.phis, l ∈ i.phiBlocks

end Proc

/-! ## The check -/

/-- What is reported as repeated occurred before. -/
theorem duplicate_of_firstRepeated? {α : Type} [DecidableEq α] {l before : List α} {a : α}
    (h : firstRepeated? before l = some a) : (a ∈ before ∧ a ∈ l) ∨ l.Duplicate a := by
  induction l generalizing before with
  | nil => cases h
  | cons b rest ih =>
    rw [firstRepeated?] at h
    split at h
    · next old =>
      cases h
      exact .inl ⟨old, List.mem_cons_self⟩
    · rcases ih h with ⟨old, again⟩ | twice
      · rcases List.mem_cons.1 old with rfl | old
        · exact .inr (.cons_mem again)
        · exact .inl ⟨old, List.mem_cons_of_mem _ again⟩
      · exact .inr (.cons_duplicate twice)

namespace FlowGraph

variable {p : Proc} {l : Label}

/-- The labels that are looked at, as a list. -/
theorem mem_asked : l ∈ p.cut.blocks.filterMap Block.target? ++
    p.cut.blocks.flatMap (fun b => b.phis.flatMap Instr.phiBlocks) ↔ p.Asks l := by
  rw [Proc.Asks, Proc.target_mem_body, List.mem_append, List.mem_filterMap]
  simp only [List.mem_flatMap]

/-- The graph of a procedure is what it is cut into. Otherwise a label is reported that is defined
twice, or if there is none, one that is looked at and no block has. -/
theorem build_cases (p : Proc) :
    (∃ l, p.labels.Duplicate l ∧ build p (.avoiding p.labels) = .error (.repeated l)) ∨
      (p.labels.Nodup ∧ ∃ l, p.Asks l ∧ l ∉ p.cut.labels ∧
        build p (.avoiding p.labels) = .error (.undefined l)) ∨
      (p.labels.Nodup ∧ (∀ l, p.Asks l → l ∈ p.cut.labels) ∧
        ∃ names, build p (.avoiding p.labels) = .ok (p.cut, names)) := by
  rw [build_eq]
  cases repeated : firstRepeated? [] p.labels with
  | some l => exact .inl ⟨l, (duplicate_of_firstRepeated? repeated).resolve_left (by simp), rfl⟩
  | none =>
    have nodup := (firstRepeated?_eq_none.1 repeated).1
    have cut : (⟨p.name, p.params, (nameBlocks (.avoiding p.labels) p.pieces).1⟩ : FlowGraph) =
      p.cut := rfl
    simp only [cut]
    right
    cases undefined : p.cut.undefinedLabel? with
    | some l =>
      exact .inl ⟨nodup, l, mem_asked.1 (List.mem_of_find?_eq_some undefined),
        by simpa using List.find?_some undefined, rfl⟩
    | none =>
      refine .inr ⟨nodup, fun l asked => ?_, _, rfl⟩
      simpa using List.find?_eq_none.1 undefined l (mem_asked.2 asked)

/-- Which procedures have a graph, by the labels that are looked at. -/
theorem exists_build_iff (p : Proc) :
    (∃ names, build p (.avoiding p.labels) = .ok (p.cut, names)) ↔
      p.labels.Nodup ∧ ∀ l, p.Asks l → l ∈ p.cut.labels := by
  rcases build_cases p with ⟨l, twice, made⟩ | ⟨-, l, asked, new, made⟩ | ⟨nodup, all, names, made⟩
  · refine ⟨fun ⟨names, h⟩ => ?_, fun h => absurd h.1 twice.not_nodup⟩
    cases made.symm.trans h
  · refine ⟨fun ⟨names, h⟩ => ?_, fun h => absurd (h.2 l asked) new⟩
    cases made.symm.trans h
  · exact ⟨fun _ => ⟨nodup, all⟩, fun _ => ⟨names, made⟩⟩

/-- A procedure has a graph if and only if no label is defined twice, every target is a label of the
text or was made up for a block, and every edge of a phi at the head of a block names a block. If no
target was made up and every phi stands at the head of a block, this says that the procedure is
closed. A label that is defined twice is reported first, and otherwise one that no block has. -/
theorem build_iff_closed (p : Proc) :
    let graph : Prop := ∃ names, build p (.avoiding p.labels) = .ok (p.cut, names)
    (graph ↔ p.labels.Nodup ∧
      (∀ i ∈ p.body, ∀ l, i.target? = some l → l ∈ p.labels ∨ p.Given l) ∧
      ∀ b ∈ p.cut.blocks, ∀ i ∈ b.phis, ∀ l ∈ i.phiBlocks, l ∈ p.cut.labels) ∧
    ((∀ i ∈ p.body, ∀ l, i.target? = some l → ¬ p.Given l) → p.cut.PhisFirst →
      (graph ↔ p.labels.Nodup ∧ p.Closed ∧
        ∀ i ∈ p.body, ∀ l ∈ i.phiBlocks, l ∈ p.cut.labels)) ∧
    (¬ p.labels.Nodup →
      ∃ l, p.labels.Duplicate l ∧ build p (.avoiding p.labels) = .error (.repeated l)) ∧
    (p.labels.Nodup → ¬ graph →
      ∃ l, p.Asks l ∧ l ∉ p.cut.labels ∧ build p (.avoiding p.labels) = .error (.undefined l)) := by
  intro graph
  have asks : (∀ l, p.Asks l → l ∈ p.cut.labels) ↔
      (∀ i ∈ p.body, ∀ l, i.target? = some l → l ∈ p.labels ∨ p.Given l) ∧
      ∀ b ∈ p.cut.blocks, ∀ i ∈ b.phis, ∀ l ∈ i.phiBlocks, l ∈ p.cut.labels := by
    simp only [← Proc.mem_labels_cut]
    constructor
    · exact fun h => ⟨fun i hi l target => h l (.inl ⟨i, hi, target⟩),
        fun b hb i hi l hl => h l (.inr ⟨b, hb, i, hi, hl⟩)⟩
    · rintro ⟨targets, edges⟩ l (⟨i, hi, target⟩ | ⟨b, hb, i, hi, hl⟩)
      · exact targets i hi l target
      · exact edges b hb i hi l hl
  have accepts : graph ↔ _ := (exists_build_iff p).trans (and_congr_right fun _ => asks)
  refine ⟨accepts, fun apart first => ?_, fun twice => ?_, fun nodup none => ?_⟩
  · rw [accepts]
    refine and_congr_right fun _ => and_congr ?_ ⟨fun edges i hi l hl => ?_, ?_⟩
    · exact forall₂_congr fun i hi => forall₂_congr fun l target =>
        or_iff_left (apart i hi l target)
    · obtain ⟨b, hb, j, hj, mem⟩ := (Proc.phiBlocks_mem_body first).1 ⟨i, hi, hl⟩
      exact edges b hb j hj l mem
    · intro edges b hb i hi l hl
      obtain ⟨j, hj, mem⟩ := (Proc.phiBlocks_mem_body first).2 ⟨b, hb, i, hi, hl⟩
      exact edges j hj l mem
  · rcases build_cases p with h | ⟨nodup, -⟩ | ⟨nodup, -⟩
    · exact h
    · exact absurd nodup twice
    · exact absurd nodup twice
  · rcases build_cases p with ⟨l, twice, -⟩ | ⟨-, h⟩ | ⟨-, -, h⟩
    · exact absurd nodup twice.not_nodup
    · exact h
    · exact absurd h none

/-- A loop whose first block is its own predecessor. -/
def selfLoop : Proc :=
  let x : Temp := ⟨"x", none⟩
  let head : Label := ⟨"head"⟩
  ⟨⟨"main"⟩, [x], [
    .label head,
    .phi x ((SortedMap.insert ∅ .entry x).insert (.block head) x),
    .branch .nonzero (.temp x) head,
    .ret (.temp x)]⟩

/-- The loop has a graph, but not without its label, and not with the label twice. -/
theorem build_iff_closed_selfLoop :
    (∃ names, build selfLoop (.avoiding selfLoop.labels) = .ok (selfLoop.cut, names)) ∧
      (∃ l, build { selfLoop with body := selfLoop.body.tail } (.avoiding []) =
        .error (.undefined l)) ∧
      ∃ l, build { selfLoop with body := selfLoop.body ++ selfLoop.body }
        (.avoiding [⟨"head"⟩, ⟨"head"⟩]) = .error (.repeated l) := by
  refine ⟨?_, ?_, ?_⟩
  · exact ((build_iff_closed selfLoop).2.1 (by decide) (by decide)).2 (by decide)
  · obtain ⟨l, -, -, made⟩ :=
      (build_iff_closed { selfLoop with body := selfLoop.body.tail }).2.2.2 (by decide) (by
        rw [(build_iff_closed _).1]
        decide)
    exact ⟨l, made⟩
  · obtain ⟨l, -, made⟩ :=
      (build_iff_closed { selfLoop with body := selfLoop.body ++ selfLoop.body }).2.2.1 (by decide)
    exact ⟨l, made⟩

/-- A procedure whose phi stands behind another instruction and has an edge from nowhere. -/
def strayEdge : Proc :=
  let a : Temp := ⟨"a", none⟩
  ⟨⟨"main"⟩, [], [
    .label ⟨"L0"⟩,
    .nop,
    .phi ⟨"x", none⟩ (SortedMap.insert ∅ (.block ⟨"L9"⟩) a),
    .ret (.temp .sink)]⟩

/-- A procedure that jumps to a label that is given to its second block. -/
def jumpToGiven : Proc := ⟨⟨"main"⟩, [], [.jump ⟨"_bb1"⟩, .ret (.temp .sink)]⟩

/-- An edge of a phi and a target of a jump that are no labels of the text, and are let pass. -/
theorem build_misses_label :
    (∃ names, build strayEdge (.avoiding strayEdge.labels) = .ok (strayEdge.cut, names) ∧
      ∃ i ∈ strayEdge.body, ∃ l ∈ i.phiBlocks, l ∉ strayEdge.cut.labels) ∧
    ∃ names, build jumpToGiven (.avoiding jumpToGiven.labels) = .ok (jumpToGiven.cut, names) ∧
      ¬ jumpToGiven.Closed := by
  refine ⟨⟨_, rfl, ?_⟩, _, rfl, ?_⟩ <;> decide

end FlowGraph

end ThreeAddress
