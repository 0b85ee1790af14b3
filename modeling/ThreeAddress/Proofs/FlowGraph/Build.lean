import ThreeAddress.FlowGraph.Build
import ThreeAddress.Proofs.FlowGraph.Shape
import ThreeAddress.Proofs.Results
/-!
# The graph of a procedure

Cutting a body into blocks loses nothing: put together again, with the labels that stood in the
text, the blocks are the body. The fresh labels are new.

* `firstRepeated?_eq_none` : when nothing is repeated;
* `FreshNames.label_not_mem` : a fresh label is fresh;
* `FlowGraph.BuiltFrom` : what is true of a graph that was built;
* `FlowGraph.builtFrom_of_build` : and that it is.
-/

namespace ThreeAddress

/-! ## Repetitions -/

theorem firstRepeated?_eq_none {α : Type} [DecidableEq α] {l before : List α} :
    firstRepeated? before l = none ↔ l.Nodup ∧ ∀ a ∈ l, a ∉ before := by
  induction l generalizing before with
  | nil => simp [firstRepeated?]
  | cons a rest ih =>
    by_cases h : a ∈ before
    · simp [firstRepeated?, h]
    · rw [firstRepeated?, if_neg h, ih, List.nodup_cons]
      constructor
      · rintro ⟨nodup, apart⟩
        refine ⟨⟨fun hm => apart a hm List.mem_cons_self, nodup⟩, ?_⟩
        intro b hb
        rcases List.mem_cons.1 hb with rfl | hb
        · exact h
        · exact fun hb' => apart b hb (List.mem_cons_of_mem _ hb')
      · rintro ⟨⟨new, nodup⟩, apart⟩
        refine ⟨nodup, fun b hb hb' => ?_⟩
        rcases List.mem_cons.1 hb' with rfl | hb'
        · exact new hb
        · exact apart b (List.mem_cons_of_mem _ hb) hb'

/-! ## Fresh labels -/

namespace FreshNames

/-- The number of a fresh label can be read off its text. -/
theorem decimalValue_blockLabel (n : Nat) :
    decimalValue ((blockLabel n).suffix.toList.drop 3) = n := by
  have front : ("_bb" ++ decimalText n).toList = ['_', 'b', 'b'] ++ (decimalText n).toList := by
    rw [String.toList_append]
    rfl
  rw [blockLabel, front]
  exact decimalValue_decimalText n

/-- The label given out was not in use. -/
theorem label_not_mem (names : FreshNames) : names.label.1 ∉ names.labels := by
  intro h
  have free : (fun n => names.labels.contains (blockLabel n)) (firstFree
      (fun n => names.labels.contains (blockLabel n)) names.labels.size names.nextBlock) = false :=
    taken_firstFree (names.labels.toList.map fun l => decimalValue (l.suffix.toList.drop 3))
      (fun n _ taken => List.mem_map.2
        ⟨_, SortedSet.contains_eq_true.1 taken, decimalValue_blockLabel n⟩)
      (by rw [List.length_map]; exact Nat.le_refl _)
  have taken := SortedSet.contains_eq_true.2 h
  rw [label] at taken
  exact absurd (free.symm.trans taken) (by decide)

/-- The label given out is in use from then on, along with all others. -/
theorem mem_labels_label (names : FreshNames) {l : Label} :
    l ∈ names.label.2.labels ↔ l = names.label.1 ∨ l ∈ names.labels := by
  simp [label]

end FreshNames

/-! ## Pieces -/

/-- The instructions of a piece, its label included. -/
def Piece.instrs (p : Piece) : List Instr := (p.label?.map Instr.label).toList ++ p.body

/-- What `pieces` makes of an instruction that is neither a label nor a transfer of control. -/
def Piece.push (i : Instr) : List Piece → List Piece
  | ⟨none, body⟩ :: more => ⟨none, i :: body⟩ :: more
  | more => ⟨none, [i]⟩ :: more

/-- What `pieces` makes of a label. -/
def Piece.mark (l : Label) : List Piece → List Piece
  | ⟨none, body⟩ :: more => ⟨some l, body⟩ :: more
  | more => ⟨some l, []⟩ :: more

theorem pieces_label (l : Label) (rest : List Instr) :
    pieces (.label l :: rest) = Piece.mark l (pieces rest) := by
  rw [pieces]
  rcases pieces rest with - | ⟨⟨- | m, b⟩, more⟩ <;> rfl

theorem pieces_transfer {i : Instr} (h : i.isTransfer = true) (rest : List Instr) :
    pieces (i :: rest) = ⟨none, [i]⟩ :: pieces rest := by
  cases i <;> simp_all [Instr.isTransfer, pieces]

theorem pieces_plain {i : Instr} (h : i.isTransfer = false) (plain : ∀ l, i ≠ .label l)
    (rest : List Instr) : pieces (i :: rest) = Piece.push i (pieces rest) := by
  rcases h' : pieces rest with - | ⟨⟨- | m, b⟩, more⟩ <;> cases i <;>
    simp_all [Instr.isTransfer, pieces, Piece.push]

/-- Nothing is lost when a body is cut into pieces. -/
theorem flatMap_pieces (body : List Instr) : (pieces body).flatMap Piece.instrs = body := by
  have mark : ∀ l ps, (Piece.mark l ps).flatMap Piece.instrs =
      .label l :: ps.flatMap Piece.instrs := by
    intro l ps
    rcases ps with - | ⟨⟨- | m, b⟩, more⟩ <;> simp [Piece.mark, Piece.instrs]
  have push : ∀ i ps, (Piece.push i ps).flatMap Piece.instrs = i :: ps.flatMap Piece.instrs := by
    intro i ps
    rcases ps with - | ⟨⟨- | m, b⟩, more⟩ <;> simp [Piece.push, Piece.instrs]
  induction body with
  | nil => rfl
  | cons i rest ih =>
    by_cases label : ∃ l, i = .label l
    · obtain ⟨l, rfl⟩ := label
      rw [pieces_label, mark, ih]
    · cases transfer : i.isTransfer with
      | true =>
        rw [pieces_transfer transfer, List.flatMap_cons, ih]
        rfl
      | false => rw [pieces_plain transfer fun l e => label ⟨l, e⟩, push, ih]

/-- Control enters a piece at its beginning and leaves it at its end. -/
theorem straight_of_mem_pieces {body : List Instr} {p : Piece} (hp : p ∈ pieces body) :
    Straight p.body := by
  induction body generalizing p with
  | nil => cases hp
  | cons i rest ih =>
    by_cases label : ∃ l, i = .label l
    · obtain ⟨l, rfl⟩ := label
      rw [pieces_label] at hp
      rcases h : pieces rest with - | ⟨⟨- | m, b⟩, more⟩ <;> rw [h] at hp ih <;>
        rcases List.mem_cons.1 hp with rfl | hp
      · trivial
      · cases hp
      · exact ih (p := ⟨none, b⟩) List.mem_cons_self
      · exact ih (List.mem_cons_of_mem _ hp)
      · trivial
      · exact ih hp
    · have plain : ∀ l, i ≠ .label l := fun l e => label ⟨l, e⟩
      cases transfer : i.isTransfer with
      | true =>
        rw [pieces_transfer transfer] at hp
        rcases List.mem_cons.1 hp with rfl | hp
        · exact ⟨fun _ => rfl, plain, trivial⟩
        · exact ih hp
      | false =>
        have single : Straight [i] := ⟨fun _ => rfl, plain, trivial⟩
        rw [pieces_plain transfer plain] at hp
        rcases h : pieces rest with - | ⟨⟨- | m, b⟩, more⟩ <;> rw [h] at hp ih <;>
          rcases List.mem_cons.1 hp with rfl | hp
        · exact single
        · cases hp
        · exact ⟨fun t => absurd t (by simp [transfer]), plain,
            ih (p := ⟨none, b⟩) List.mem_cons_self⟩
        · exact ih (List.mem_cons_of_mem _ hp)
        · exact single
        · exact ih hp

/-- A piece may stand in front of another: behind a cut without a label, control was transferred. -/
def Piece.Before (p q : Piece) : Prop :=
  q.label? = none → ∃ i, p.body.getLast? = some i ∧ i.isTransfer = true

theorem Piece.isChain_mark {l : Label} {ps : List Piece} (h : ps.IsChain Piece.Before) :
    (Piece.mark l ps).IsChain Piece.Before := by
  rcases ps with - | ⟨⟨- | m, body⟩, more⟩
  · exact .singleton _
  · cases h with
    | singleton => exact .singleton _
    | cons_cons before rest => exact .cons_cons before rest
  · exact .cons_cons nofun h

theorem Piece.isChain_push {i : Instr} {ps : List Piece} (h : ps.IsChain Piece.Before) :
    (Piece.push i ps).IsChain Piece.Before := by
  rcases ps with - | ⟨⟨- | m, body⟩, more⟩
  · exact .singleton _
  · cases h with
    | singleton => exact .singleton _
    | cons_cons before rest =>
      refine .cons_cons (fun unnamed => ?_) rest
      obtain ⟨j, last, transfer⟩ := before unnamed
      have ne : body ≠ [] := by
        rintro rfl
        cases last
      exact ⟨j, (List.getLast?_cons_of_ne_nil ne).trans last, transfer⟩
  · exact .cons_cons nofun h

theorem isChain_pieces (body : List Instr) : (ThreeAddress.pieces body).IsChain Piece.Before := by
  induction body with
  | nil => exact .nil
  | cons i rest ih =>
    by_cases label : ∃ l, i = .label l
    · obtain ⟨l, rfl⟩ := label
      rw [pieces_label]
      exact Piece.isChain_mark ih
    · cases transfer : i.isTransfer with
      | true =>
        rw [pieces_transfer transfer]
        cases h : pieces rest with
        | nil => exact .singleton _
        | cons q more => exact .cons_cons (fun _ => ⟨i, rfl, transfer⟩) (h ▸ ih)
      | false =>
        rw [pieces_plain transfer fun l e => label ⟨l, e⟩]
        exact Piece.isChain_push ih

/-- The pieces of a procedure; without instructions there is one that is empty. -/
def Proc.pieces (p : Proc) : List Piece :=
  match ThreeAddress.pieces p.body with
  | [] => [⟨none, []⟩]
  | ps => ps

theorem Proc.pieces_eq (p : Proc) :
    p.pieces = ThreeAddress.pieces p.body ∨ (p.body = [] ∧ p.pieces = [⟨none, []⟩]) := by
  have text := ThreeAddress.flatMap_pieces p.body
  rw [pieces]
  cases h : ThreeAddress.pieces p.body with
  | nil => exact .inr ⟨by simpa [h] using text.symm, rfl⟩
  | cons q qs => exact .inl rfl

theorem Proc.pieces_ne_nil (p : Proc) : p.pieces ≠ [] := by
  rw [pieces]
  cases ThreeAddress.pieces p.body <;> simp

theorem Proc.flatMap_pieces (p : Proc) : p.pieces.flatMap Piece.instrs = p.body := by
  rcases p.pieces_eq with h | ⟨none, h⟩
  · rw [h, ThreeAddress.flatMap_pieces]
  · rw [h, none]
    rfl

theorem Proc.isChain_pieces (p : Proc) : p.pieces.IsChain Piece.Before := by
  rcases p.pieces_eq with h | ⟨-, h⟩ <;> rw [h]
  · exact ThreeAddress.isChain_pieces p.body
  · exact .singleton _

theorem Proc.straight_of_mem_pieces (p : Proc) {q : Piece} (hq : q ∈ p.pieces) :
    Straight q.body := by
  rcases p.pieces_eq with h | ⟨-, h⟩ <;> rw [h] at hq
  · exact ThreeAddress.straight_of_mem_pieces hq
  · obtain rfl := List.mem_singleton.1 hq
    trivial

/-! ## Blocks -/

/-- The piece that a block was made of. -/
def Block.piece (b : Block) : Piece := ⟨if b.named then some b.label else none, b.body⟩

theorem Block.instrs_piece (b : Block) :
    b.piece.instrs = (if b.named then [.label b.label] else []) ++ b.body := by
  cases h : b.named <;> simp [piece, Piece.instrs, h]

theorem nameBlocks_piece (names : FreshNames) (ps : List Piece) :
    (nameBlocks names ps).1.map Block.piece = ps := by
  induction ps generalizing names with
  | nil => rfl
  | cons p ps ih =>
    rcases p with ⟨- | l, body⟩ <;> simp [nameBlocks, Block.piece, ih]

/-- Names for blocks are no versions. -/
theorem versions_nameBlocks (names : FreshNames) (ps : List Piece) :
    (nameBlocks names ps).2.nextVersion = names.nextVersion ∧
      (nameBlocks names ps).2.temps = names.temps := by
  induction ps generalizing names with
  | nil => exact ⟨rfl, rfl⟩
  | cons p ps ih =>
    rcases p with ⟨- | l, body⟩
    · exact ih names.label.2
    · exact ih names

/-- The labels that blocks are given are new. -/
theorem nameBlocks_fresh {names : FreshNames} {ps : List Piece} {b : Block}
    (hb : b ∈ (nameBlocks names ps).1) (unnamed : b.named = false) : b.label ∉ names.labels := by
  induction ps generalizing names with
  | nil => cases hb
  | cons p ps ih =>
    rcases p with ⟨- | l, body⟩
    · rcases List.mem_cons.1 hb with rfl | hb
      · exact names.label_not_mem
      · exact fun h => ih hb (names.mem_labels_label.2 (.inr h))
    · rcases List.mem_cons.1 hb with rfl | hb
      · cases unnamed
      · exact ih hb

/-- A label that stands in the text is the label of a piece. -/
theorem label_mem_of_named {ps : List Piece} {bs : List Block} (h : bs.map Block.piece = ps)
    {b : Block} (hb : b ∈ bs) (named : b.named = true) : b.label ∈ ps.filterMap Piece.label? := by
  refine List.mem_filterMap.2 ⟨b.piece, h ▸ List.mem_map_of_mem hb, ?_⟩
  simp [Block.piece, named]

/-- No label is given twice. -/
theorem nameBlocks_nodup {names : FreshNames} {ps : List Piece}
    (nodup : (ps.filterMap Piece.label?).Nodup)
    (used : ∀ l ∈ ps.filterMap Piece.label?, l ∈ names.labels) :
    ((nameBlocks names ps).1.map Block.label).Nodup := by
  induction ps generalizing names with
  | nil => exact List.nodup_nil
  | cons p ps ih =>
    rcases p with ⟨- | l, body⟩
    · -- the fresh label is neither in the text nor given out later
      have used : ∀ l ∈ ps.filterMap Piece.label?, l ∈ names.labels := used
      have used' : ∀ l ∈ ps.filterMap Piece.label?, l ∈ names.label.2.labels :=
        fun l hl => names.mem_labels_label.2 (.inr (used l hl))
      refine List.nodup_cons.2 ⟨fun hm => ?_, ih nodup used'⟩
      obtain ⟨b, hb, e⟩ := List.mem_map.1 hm
      cases named : b.named with
      | true =>
        have := used _ (label_mem_of_named (nameBlocks_piece _ ps) hb named)
        rw [e] at this
        exact names.label_not_mem this
      | false => exact nameBlocks_fresh hb named (names.mem_labels_label.2 (.inl e))
    · have nodup : (l :: ps.filterMap Piece.label?).Nodup := nodup
      have used : ∀ m ∈ l :: ps.filterMap Piece.label?, m ∈ names.labels := used
      refine List.nodup_cons.2 ⟨fun hm => ?_, ih (List.nodup_cons.1 nodup).2
        fun m hm => used m (List.mem_cons_of_mem _ hm)⟩
      obtain ⟨b, hb, e⟩ := List.mem_map.1 hm
      have e : b.label = l := e
      cases named : b.named with
      | true =>
        have := label_mem_of_named (nameBlocks_piece names ps) hb named
        rw [e] at this
        exact (List.nodup_cons.1 nodup).1 this
      | false => exact nameBlocks_fresh hb named (e ▸ used l List.mem_cons_self)

/-! ## Graphs -/

namespace FlowGraph

/-- What is true of the graph of a procedure. -/
structure BuiltFrom (p : Proc) (g : FlowGraph) : Prop where
  name : g.name = p.name
  params : g.params = p.params
  wellFormed : g.WellFormed
  /-- The text is kept. -/
  instrs : g.instrs = p.body
  /-- The labels of the text are those of the blocks that have one there. -/
  named : ∀ b ∈ g.blocks, b.named = true ↔ b.label ∈ p.labels

theorem instrs_eq_flatMap_piece (g : FlowGraph) :
    g.instrs = (g.blocks.map Block.piece).flatMap Piece.instrs := by
  rw [instrs, List.flatMap_map]
  exact List.flatMap_congr fun b _ => b.instrs_piece.symm

/-- The labels of pieces whose bodies have none are those of the text. -/
theorem labels_of_pieces {ps : List Piece} (straight : ∀ p ∈ ps, Straight p.body)
    (name : Global) (params : List Temp) :
    (Proc.labels ⟨name, params, ps.flatMap Piece.instrs⟩) = ps.filterMap Piece.label? := by
  have none : ∀ {code : List Instr}, Straight code →
      Proc.labels ⟨name, params, code⟩ = [] := by
    intro code h
    refine List.filterMap_eq_nil_iff.2 fun i hi => ?_
    cases i with
    | label l => exact absurd hi (h.not_mem_label l)
    | _ => rfl
  have append : ∀ front back : List Instr, Proc.labels ⟨name, params, front ++ back⟩ =
      Proc.labels ⟨name, params, front⟩ ++ Proc.labels ⟨name, params, back⟩ :=
    fun _ _ => List.filterMap_append
  induction ps with
  | nil => rfl
  | cons p ps ih =>
    have rest := ih fun q hq => straight q (List.mem_cons_of_mem _ hq)
    have own := none (straight p List.mem_cons_self)
    rcases p with ⟨- | l, body⟩
    · rw [List.flatMap_cons, append, rest]
      exact congrArg (· ++ ps.filterMap Piece.label?) own
    · rw [List.flatMap_cons, append, rest]
      exact congrArg (l :: · ++ ps.filterMap Piece.label?) own

/-- What a procedure is cut into is checked for repeated labels first. -/
theorem build_eq (p : Proc) (names : FreshNames) :
    build p names = match firstRepeated? [] p.labels with
      | some l => .error (.repeated l)
      | none =>
        match undefinedLabel? ⟨p.name, p.params, (nameBlocks names p.pieces).1⟩ with
        | some l => .error (.undefined l)
        | none => .ok (⟨p.name, p.params, (nameBlocks names p.pieces).1⟩,
            (nameBlocks names p.pieces).2) := rfl

theorem target_of_undefinedLabel?_eq_none {g : FlowGraph} (h : g.undefinedLabel? = none)
    {b : Block} (hb : b ∈ g.blocks) {l : Label} (hl : b.target? = some l) : l ∈ g.labels := by
  have := List.find?_eq_none.1 h l
    (List.mem_append_left _ (List.mem_filterMap.2 ⟨b, hb, hl⟩))
  simpa using this

/-- The blocks of a graph that was built are the pieces of the body, with names. -/
theorem eq_of_build {p : Proc} {g : FlowGraph} {names names' : FreshNames}
    (h : build p names = .ok (g, names')) :
    g = ⟨p.name, p.params, (nameBlocks names p.pieces).1⟩ ∧ g.undefinedLabel? = none ∧
      p.labels.Nodup := by
  rw [build_eq] at h
  split at h
  · cases h
  · next unrepeated =>
    split at h
    · cases h
    · next defined =>
      cases h
      exact ⟨rfl, defined, (firstRepeated?_eq_none.1 unrepeated).1⟩

/-- A graph that was built is what it should be. -/
theorem builtFrom_of_build {p : Proc} {g : FlowGraph} {names names' : FreshNames}
    (avoids : ∀ l ∈ p.labels, l ∈ names.labels) (h : build p names = .ok (g, names')) :
    BuiltFrom p g := by
  obtain ⟨rfl, undefined, nodup⟩ := eq_of_build h
  have labels : p.labels = p.pieces.filterMap Piece.label? := by
    rw [← labels_of_pieces (fun _ => p.straight_of_mem_pieces) p.name p.params, p.flatMap_pieces]
  have hpiece := nameBlocks_piece names p.pieces
  refine ⟨rfl, rfl, ⟨?_, ?_, ?_, ?_⟩, ?_, ?_⟩
  · intro none
    exact p.pieces_ne_nil (hpiece.symm.trans (congrArg (List.map Block.piece) none))
  · exact nameBlocks_nodup (labels ▸ nodup) (labels ▸ avoids)
  · intro b hb
    exact p.straight_of_mem_pieces (q := b.piece) (hpiece ▸ List.mem_map_of_mem hb)
  · intro b hb l hl
    exact target_of_undefinedLabel?_eq_none undefined hb hl
  · rw [instrs_eq_flatMap_piece, hpiece, p.flatMap_pieces]
  · intro b hb
    constructor
    · intro named
      rw [labels]
      exact label_mem_of_named hpiece hb named
    · intro hm
      cases named : b.named with
      | true => rfl
      | false => exact absurd (avoids _ hm) (nameBlocks_fresh hb named)

/-- The graph of a procedure is built with names that avoid its labels, and then its temporaries. -/
theorem exists_build_of_ofProc {p : Proc} {g : FlowGraph} {names : FreshNames}
    (h : ofProc p = .ok (g, names)) : ∃ left, build p (.avoiding p.labels) = .ok (g, left) ∧
      names = left.avoidingTemps g.temps.toList := by
  obtain ⟨made, built, h⟩ := bind_eq_ok_iff.1 h
  cases h
  exact ⟨made.2, built, rfl⟩

/-- The names that are left for a procedure are versions from the first on, apart from its
temporaries. -/
theorem names_of_ofProc {p : Proc} {g : FlowGraph} {names : FreshNames}
    (h : ofProc p = .ok (g, names)) : names.nextVersion = 1 ∧ names.temps = g.temps := by
  obtain ⟨left, built, rfl⟩ := exists_build_of_ofProc h
  have made : left = (nameBlocks (.avoiding p.labels) p.pieces).2 := by
    rw [build_eq] at built
    split at built
    · cases built
    · split at built
      · cases built
      · cases built
        rfl
  obtain ⟨next, temps⟩ := versions_nameBlocks (.avoiding p.labels) p.pieces
  rw [made]
  refine ⟨next, SortedSet.ext fun t => ?_⟩
  rw [FreshNames.avoidingTemps, temps, SortedSet.mem_union, SortedSet.mem_ofList, SortedSet.mem_iff]
  exact or_iff_right (SortedSet.not_mem_empty t)

/-- The graph of a procedure is what it should be. -/
theorem builtFrom_of_ofProc {p : Proc} {g : FlowGraph} {names : FreshNames}
    (h : ofProc p = .ok (g, names)) : BuiltFrom p g := by
  obtain ⟨left, built, -⟩ := exists_build_of_ofProc h
  exact builtFrom_of_build (fun l hl => SortedSet.mem_ofList.2 hl) built

/-- If the text has no phi, neither has the graph. -/
theorem BuiltFrom.phiFree {p : Proc} {g : FlowGraph} (h : BuiltFrom p g)
    (free : ∀ i ∈ p.body, i.isPhi = false) : g.PhiFree := by
  intro b hb i hi
  have mem : i ∈ g.instrs := List.mem_flatMap.2 ⟨b, hb, List.mem_append_right _ hi⟩
  rw [h.instrs] at mem
  exact free i mem

end FlowGraph

end ThreeAddress
