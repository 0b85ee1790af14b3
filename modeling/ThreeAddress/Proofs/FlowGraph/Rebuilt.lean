import ThreeAddress.Proofs.FlowGraph.Closed
import ThreeAddress.Proofs.FlowGraph.Exits
/-!
# Graphs of graphs as text

Text that has a label in front of every block of a graph is cut into the blocks of the graph again.
The labels cut it where the blocks begin, and nothing cuts it elsewhere: no block contains a label,
and control is transferred at the ends of blocks only. The labels pass the check if jumps, branches
and phis name blocks.

* `pieces_linear` : the text is cut into the blocks;
* `FlowGraph.EdgesNamed` : the phis name blocks;
* `FlowGraph.build_toProc` : the graph of the text is the graph, with every label in the text;
* `FlowGraph.Overlies` : graphs with the same blocks in the same order, and with the same edges.
-/

namespace ThreeAddress

/-! ## Cutting the text -/

/-- Straight code in front of a label, or of nothing, is a piece. -/
theorem pieces_straight {code rest : List Instr} (straight : Straight code) (ne : code ≠ [])
    (apart : ∀ body more, pieces rest ≠ ⟨none, body⟩ :: more) :
    pieces (code ++ rest) = ⟨none, code⟩ :: pieces rest := by
  induction code with
  | nil => exact absurd rfl ne
  | cons i code ih =>
    obtain ⟨ends, plain, straight⟩ := straight
    rw [List.cons_append]
    cases transfer : i.isTransfer with
    | true =>
      obtain rfl := ends transfer
      rw [pieces_transfer transfer, List.nil_append]
    | false =>
      rw [pieces_plain transfer plain]
      by_cases last : code = []
      · rw [last, List.nil_append]
        rcases cut : pieces rest with - | ⟨⟨- | l, body⟩, more⟩
        · rfl
        · exact absurd cut (apart body more)
        · rfl
      · rw [ih straight last]
        rfl

/-- A label with straight code in front of another label, or of nothing, is a piece. -/
theorem pieces_marked {code rest : List Instr} (straight : Straight code)
    (apart : ∀ body more, pieces rest ≠ ⟨none, body⟩ :: more) (l : Label) :
    pieces (.label l :: (code ++ rest)) = ⟨some l, code⟩ :: pieces rest := by
  rw [pieces_label]
  by_cases empty : code = []
  · rw [empty, List.nil_append]
    rcases cut : pieces rest with - | ⟨⟨- | m, body⟩, more⟩
    · rfl
    · exact absurd cut (apart body more)
    · rfl
  · rw [pieces_straight straight empty apart]
    rfl

/-- The piece of a block whose label stands in the text. -/
def Block.marked (b : Block) : Piece := ⟨some b.label, b.body⟩

/-- Text with a label in front of every block is cut into the blocks. -/
theorem pieces_linear {bs : List Block} (straight : ∀ b ∈ bs, Straight b.body) :
    pieces (bs.flatMap fun b => .label b.label :: b.body) = bs.map Block.marked := by
  induction bs with
  | nil => rfl
  | cons b bs ih =>
    have rest := ih fun c hc => straight c (List.mem_cons_of_mem _ hc)
    have apart : ∀ body more, pieces (bs.flatMap fun b => .label b.label :: b.body) ≠
        ⟨none, body⟩ :: more := by
      intro body more cut
      rw [rest] at cut
      cases bs <;> cases cut
    rw [List.flatMap_cons, List.cons_append,
      pieces_marked (straight b List.mem_cons_self) apart, rest]
    rfl

/-- No label is made up for blocks that have one. -/
theorem nameBlocks_marked (names : FreshNames) (bs : List Block) :
    nameBlocks names (bs.map Block.marked) = (bs.map fun b => { b with named := true }, names) := by
  induction bs with
  | nil => rfl
  | cons b bs ih => simp only [List.map_cons, Block.marked, nameBlocks, ih]

/-! ## Building the graph again -/

namespace FlowGraph

variable {g g' g'' : FlowGraph}

/-- The phis at the heads of blocks have arguments for blocks only. -/
def EdgesNamed (g : FlowGraph) : Prop :=
  ∀ b ∈ g.blocks, ∀ i ∈ b.phis, ∀ l ∈ i.phiBlocks, l ∈ g.labels

/-- The phis of a graph that was built name blocks. -/
theorem edgesNamed_of_build {q : Proc} {names left : FreshNames}
    (built : build q names = .ok (g, left)) : g.EdgesNamed := by
  intro b hb i hi l hl
  have checked := List.find?_eq_none.1 (eq_of_build built).2.1 l
    (List.mem_append_right _ (List.mem_flatMap.2 ⟨b, hb, List.mem_flatMap.2 ⟨i, hi, hl⟩⟩))
  simpa using checked

/-- The same graph, with the labels of all blocks in the text. -/
def allNamed (g : FlowGraph) : FlowGraph :=
  { g with blocks := g.blocks.map fun b => { b with named := true } }

theorem labels_allNamed (g : FlowGraph) : g.allNamed.labels = g.labels := by
  rw [labels, labels, allNamed, List.map_map]
  rfl

theorem exits_allNamed (g : FlowGraph) :
    g.allNamed.blocks.map Block.exit = g.blocks.map Block.exit := by
  rw [allNamed, List.map_map]
  rfl

theorem bodies_allNamed (g : FlowGraph) :
    g.allNamed.blocks.map Block.body = g.blocks.map Block.body := by
  rw [allNamed, List.map_map]
  rfl

theorem WellFormed.pieces_toProc (wf : g.WellFormed) :
    g.toProc.pieces = g.blocks.map Block.marked := by
  have cut : pieces g.toProc.body = g.blocks.map Block.marked := pieces_linear wf.straight
  rcases g.toProc.pieces_eq with same | ⟨none, -⟩
  · rw [same, cut]
  · rw [none] at cut
    exact absurd (List.map_eq_nil_iff.1 cut.symm) wf.nonempty

theorem WellFormed.labels_toProc (wf : g.WellFormed) : g.toProc.labels = g.labels := by
  rw [Proc.labels_eq_pieces, wf.pieces_toProc, List.filterMap_map, labels]
  exact congrFun List.filterMap_eq_map' g.blocks

/-- Every label that is looked at is the label of a block. -/
theorem WellFormed.undefinedLabel?_allNamed (wf : g.WellFormed) (edges : g.EdgesNamed) :
    g.allNamed.undefinedLabel? = none := by
  refine List.find?_eq_none.2 fun l hl => ?_
  rw [labels_allNamed]
  simp only [decide_not, Bool.not_eq_true', decide_eq_false_iff_not, Decidable.not_not]
  rcases List.mem_append.1 hl with target | edge
  · obtain ⟨b', hb', target⟩ := List.mem_filterMap.1 target
    obtain ⟨b, hb, rfl⟩ := List.mem_map.1 hb'
    exact wf.targets b hb l target
  · obtain ⟨b', hb', edge⟩ := List.mem_flatMap.1 edge
    obtain ⟨b, hb, rfl⟩ := List.mem_map.1 hb'
    obtain ⟨i, hi, edge⟩ := List.mem_flatMap.1 edge
    exact edges b hb i hi l edge

/-- The graph of a graph as text is the graph, with all labels in the text. No name is made up. -/
theorem build_toProc (wf : g.WellFormed) (edges : g.EdgesNamed) (names : FreshNames) :
    build g.toProc names = .ok (g.allNamed, names) := by
  have once : firstRepeated? [] g.toProc.labels = none := by
    rw [wf.labels_toProc]
    exact firstRepeated?_eq_none.2 ⟨wf.nodup, fun _ _ => List.not_mem_nil⟩
  have cut : nameBlocks names g.toProc.pieces = (g.allNamed.blocks, names) := by
    rw [wf.pieces_toProc, nameBlocks_marked]
    rfl
  have named : (⟨g.toProc.name, g.toProc.params, g.allNamed.blocks⟩ : FlowGraph) = g.allNamed := rfl
  rw [build_eq, once, cut]
  simp only [named, wf.undefinedLabel?_allNamed edges]

/-! ## The same edges -/

/-- The graphs have the same blocks in the same order, and the same edges. -/
structure Overlies (g g' : FlowGraph) : Prop where
  labels : g'.labels = g.labels
  succs : ∀ l, g'.succs l = g.succs l
  preds : ∀ l, g'.preds l = g.preds l

/-- Graphs whose blocks are left in the same ways have the same edges. -/
theorem Overlies.of_exits (same : g'.blocks.map Block.exit = g.blocks.map Block.exit) :
    g.Overlies g' where
  labels := by
    have labels := congrArg (List.map Prod.fst) same
    rwa [List.map_map, List.map_map] at labels
  succs := succs_of_exits same
  preds := preds_of_exits same

end FlowGraph

end ThreeAddress
