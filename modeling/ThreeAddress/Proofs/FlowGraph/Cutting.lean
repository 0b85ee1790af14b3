import ThreeAddress.Proofs.FlowGraph.Build
/-!
# Where a procedure is cut

A graph that was built is the procedure again: its text, cut at the beginning, at every label and
behind every transfer of control and nowhere else. The edges are read off the last instructions of
the blocks and the order of the text.

* `FlowGraph.start` : the place of the text at which a block begins;
* `BeginsAt` : the places at which blocks have to begin;
* `exists_length_take_iff` : pieces that a label or a transfer parts begin there and nowhere else;
* `FlowGraph.CutFrom`, `FlowGraph.cutFrom_of_build` : what is true of every graph that was built.
-/

namespace ThreeAddress

/-! ## Pieces -/

/-- Cutting makes no piece of nothing. -/
theorem ne_nil_of_mem_pieces {body : List Instr} {q : Piece} (hq : q ∈ pieces body) :
    q.instrs ≠ [] := by
  have mark : ∀ l ps, (∀ q ∈ ps, Piece.instrs q ≠ []) → ∀ q ∈ Piece.mark l ps, q.instrs ≠ [] := by
    intro l ps h
    rcases ps with - | ⟨⟨- | m, b⟩, more⟩
    · simp [Piece.mark, Piece.instrs]
    · exact List.forall_mem_cons.2 ⟨by simp [Piece.instrs], (List.forall_mem_cons.1 h).2⟩
    · exact List.forall_mem_cons.2 ⟨by simp [Piece.instrs], h⟩
  have push : ∀ i ps, (∀ q ∈ ps, Piece.instrs q ≠ []) → ∀ q ∈ Piece.push i ps, q.instrs ≠ [] := by
    intro i ps h
    rcases ps with - | ⟨⟨- | m, b⟩, more⟩
    · simp [Piece.push, Piece.instrs]
    · exact List.forall_mem_cons.2 ⟨by simp [Piece.instrs], (List.forall_mem_cons.1 h).2⟩
    · exact List.forall_mem_cons.2 ⟨by simp [Piece.instrs], h⟩
  induction body generalizing q with
  | nil => cases hq
  | cons i rest ih =>
    have rest_ne : ∀ q ∈ pieces rest, q.instrs ≠ [] := fun _ => ih
    by_cases label : ∃ l, i = .label l
    · obtain ⟨l, rfl⟩ := label
      rw [pieces_label] at hq
      exact mark l _ rest_ne q hq
    · cases transfer : i.isTransfer with
      | true =>
        rw [pieces_transfer transfer] at hq
        rcases List.mem_cons.1 hq with rfl | hq
        · simp [Piece.instrs]
        · exact ih hq
      | false =>
        rw [pieces_plain transfer fun l e => label ⟨l, e⟩] at hq
        exact push i _ rest_ne q hq

/-- A label stands in front of a piece only. -/
theorem Piece.eq_zero_of_label {q : Piece} (straight : Straight q.body) {k : Nat} {l : Label}
    (h : q.instrs[k]? = some (.label l)) : k = 0 := by
  rcases q with ⟨- | m, body⟩
  · exact absurd (List.mem_of_getElem? h) (straight.not_mem_label l)
  · cases k with
    | zero => rfl
    | succ k =>
      have h : body[k]? = some (.label l) := h
      exact absurd (List.mem_of_getElem? h) (straight.not_mem_label l)

/-- A transfer of control stands at the end of a piece only. -/
theorem Piece.succ_eq_length_of_transfer {q : Piece} (straight : Straight q.body) {k : Nat}
    {i : Instr} (h : q.instrs[k]? = some i) (transfer : i.isTransfer = true) :
    k + 1 = q.instrs.length := by
  have body : ∀ {code : List Instr}, Straight code → ∀ {k : Nat}, code[k]? = some i →
      k + 1 = code.length := by
    intro code straight
    induction code with
    | nil => exact fun h => by simp at h
    | cons j rest ih =>
      intro k h
      cases k with
      | zero =>
        obtain rfl := Option.some.inj h
        rw [straight.1 transfer]
        rfl
      | succ k => exact congrArg (· + 1) (ih straight.2.2 h)
  rcases q with ⟨- | m, code⟩
  · exact body straight h
  · cases k with
    | zero =>
      obtain rfl := Option.some.inj h
      cases transfer
    | succ k => exact congrArg (· + 1) (body straight h)

theorem Piece.getElem?_zero {q : Piece} {l : Label} (label : q.label? = some l) :
    q.instrs[0]? = some (.label l) := by
  rw [instrs, label]
  rfl

theorem Piece.getLast?_instrs {q : Piece} {i : Instr} (last : q.body.getLast? = some i) :
    q.instrs.getLast? = some i := by
  rw [instrs, List.getLast?_append, last]
  rfl

/-- Where blocks have to begin: at the beginning, at a label, and at what follows a transfer. -/
def BeginsAt (body : List Instr) (k : Nat) : Prop :=
  k = 0 ∨ (∃ l, body[k]? = some (.label l)) ∨
    ∃ j i, k = j + 1 ∧ k < body.length ∧ body[j]? = some i ∧ i.isTransfer = true

theorem BeginsAt.lt_length {body : List Instr} {k : Nat} (h : BeginsAt body k) :
    k = 0 ∨ k < body.length := by
  rcases h with rfl | ⟨l, h⟩ | ⟨j, i, -, bound, -⟩
  · exact .inl rfl
  · exact .inr (List.getElem?_eq_some_iff.1 h).1
  · exact .inr bound

/-- Within a piece no block has to begin. -/
theorem Piece.not_beginsAt {q : Piece} (straight : Straight q.body) (rest : List Instr) {k : Nat}
    (positive : 0 < k) (within : k < q.instrs.length) : ¬ BeginsAt (q.instrs ++ rest) k := by
  rintro (rfl | ⟨l, h⟩ | ⟨j, i, rfl, -, h, transfer⟩)
  · exact absurd positive (Nat.lt_irrefl 0)
  · rw [List.getElem?_append_left within] at h
    exact absurd (eq_zero_of_label straight h) (by omega)
  · rw [List.getElem?_append_left (by omega)] at h
    exact absurd (succ_eq_length_of_transfer straight h transfer) (by omega)

/-- Behind a piece a block has to begin if there is another piece. -/
theorem Piece.beginsAt_length {q r : Piece} (before : Piece.Before q r) (full : r.instrs ≠ [])
    (rest : List Instr) : BeginsAt (q.instrs ++ (r.instrs ++ rest)) q.instrs.length := by
  have more : 0 < r.instrs.length := List.length_pos_iff.2 full
  right
  cases label : r.label? with
  | some l =>
    left
    refine ⟨l, ?_⟩
    rw [List.getElem?_append_right (Nat.le_refl _), Nat.sub_self, List.getElem?_append_left more]
    exact getElem?_zero label
  | none =>
    obtain ⟨i, last, transfer⟩ := before label
    have last := getLast?_instrs last
    have positive : 0 < q.instrs.length := List.length_pos_of_mem (List.mem_of_getLast? last)
    right
    refine ⟨q.instrs.length - 1, i, by omega, ?_, ?_, transfer⟩
    · rw [List.length_append, List.length_append]
      omega
    · rw [List.getElem?_append_left (by omega), ← List.getLast?_eq_getElem?]
      exact last

/-- Further behind a piece blocks have to begin where they would without it. -/
theorem beginsAt_append {front rest : List Instr} (full : front ≠ []) {k : Nat} (positive : 0 < k) :
    BeginsAt (front ++ rest) (front.length + k) ↔ BeginsAt rest k := by
  have more : 0 < front.length := List.length_pos_iff.2 full
  have behind (j : Nat) : (front ++ rest)[front.length + j]? = rest[j]? := by
    rw [List.getElem?_append_right (Nat.le_add_right _ _), Nat.add_sub_cancel_left]
  constructor
  · rintro (h | ⟨l, h⟩ | ⟨j, i, same, bound, h, transfer⟩)
    · omega
    · exact .inr (.inl ⟨l, behind k ▸ h⟩)
    · obtain ⟨j, rfl⟩ : ∃ j', j = front.length + j' := ⟨j - front.length, by omega⟩
      rw [List.length_append] at bound
      exact .inr (.inr ⟨j, i, by omega, by omega, behind j ▸ h, transfer⟩)
  · rintro (h | ⟨l, h⟩ | ⟨j, i, same, bound, h, transfer⟩)
    · omega
    · exact .inr (.inl ⟨l, (behind k).trans h⟩)
    · refine .inr (.inr ⟨front.length + j, i, by omega, ?_, (behind j).trans h, transfer⟩)
      rw [List.length_append]
      omega

/-- The first piece begins at the beginning, and the others as far behind it as without it. -/
theorem exists_length_take_cons_iff {q : Piece} {rest : List Piece} {k : Nat} :
    (∃ i < (q :: rest).length, (((q :: rest).take i).flatMap Piece.instrs).length = k) ↔
      k = 0 ∨ ∃ i < rest.length,
        q.instrs.length + ((rest.take i).flatMap Piece.instrs).length = k := by
  constructor
  · rintro ⟨- | i, lt, same⟩
    · exact .inl same.symm
    · exact .inr ⟨i, Nat.lt_of_succ_lt_succ lt, by
        rwa [List.take_succ_cons, List.flatMap_cons, List.length_append] at same⟩
  · rintro (rfl | ⟨i, lt, same⟩)
    · exact ⟨0, Nat.succ_pos _, rfl⟩
    · exact ⟨i + 1, Nat.succ_lt_succ lt, by
        rwa [List.take_succ_cons, List.flatMap_cons, List.length_append]⟩

/-- Pieces that are parted by labels and transfers only begin where blocks have to begin. -/
theorem exists_length_take_iff {ps : List Piece} (ne : ps ≠ []) (chain : ps.IsChain Piece.Before)
    (straight : ∀ q ∈ ps, Straight q.body) (filled : ∀ q ∈ ps, q.instrs ≠ []) {k : Nat} :
    (∃ i < ps.length, ((ps.take i).flatMap Piece.instrs).length = k) ↔
      BeginsAt (ps.flatMap Piece.instrs) k := by
  induction ps generalizing k with
  | nil => exact absurd rfl ne
  | cons q rest ih =>
    obtain ⟨straight, straights⟩ := List.forall_mem_cons.1 straight
    obtain ⟨full, filled⟩ := List.forall_mem_cons.1 filled
    have := List.length_pos_iff.2 full
    rw [exists_length_take_cons_iff, List.flatMap_cons]
    rcases Nat.eq_zero_or_pos k with rfl | positive
    · exact iff_of_true (.inl rfl) (.inl rfl)
    rcases Nat.lt_or_ge k q.instrs.length with within | behind
    · refine iff_of_false ?_ (Piece.not_beginsAt straight _ positive within)
      rintro (h | ⟨i, -, same⟩) <;> omega
    obtain ⟨k, rfl⟩ : ∃ k', k = q.instrs.length + k' := ⟨k - q.instrs.length, by omega⟩
    cases rest with
    | nil =>
      refine iff_of_false ?_ fun begins => ?_
      · rintro (h | ⟨i, lt, -⟩)
        · omega
        · exact absurd lt (Nat.not_lt_zero i)
      · rcases begins.lt_length with h | h
        · omega
        · rw [List.flatMap_nil, List.append_nil] at h
          omega
    | cons r more =>
      obtain ⟨before, chain⟩ := List.isChain_cons_cons.1 chain
      rcases Nat.eq_zero_or_pos k with rfl | further
      · refine iff_of_true (.inr ⟨0, Nat.succ_pos _, rfl⟩) ?_
        exact Piece.beginsAt_length before (filled r List.mem_cons_self) _
      · rw [beginsAt_append full further,
          ← ih (List.cons_ne_nil r more) chain straights filled]
        simp only [Nat.add_left_cancel_iff, (Nat.ne_of_gt positive), false_or]

/-- Pieces take up room. -/
theorem length_take_lt {ps : List Piece} (filled : ∀ q ∈ ps, q.instrs ≠ []) {i j : Nat} (lt : i < j)
    (bound : j ≤ ps.length) : ((ps.take i).flatMap Piece.instrs).length <
      ((ps.take j).flatMap Piece.instrs).length := by
  induction ps generalizing i j with
  | nil => exact absurd (Nat.lt_of_lt_of_le lt bound) (Nat.not_lt_zero i)
  | cons q rest ih =>
    obtain ⟨full, filled⟩ := List.forall_mem_cons.1 filled
    have := List.length_pos_iff.2 full
    obtain ⟨j, rfl⟩ : ∃ j', j = j' + 1 := ⟨j - 1, by omega⟩
    rw [List.take_succ_cons, List.flatMap_cons, List.length_append]
    cases i with
    | zero =>
      rw [List.take_zero, List.flatMap_nil, List.length_nil]
      omega
    | succ i =>
      have := ih filled (Nat.lt_of_succ_lt_succ lt) (Nat.le_of_succ_le_succ bound)
      rw [List.take_succ_cons, List.flatMap_cons, List.length_append]
      omega

/-- A block that both jumps to the next one and may run into it has one edge to it. -/
theorem Block.nodup_succs (b : Block) (next : Option Label) : (b.succs next).Nodup := by
  have nodup : ∀ o : Option Label, o.toList.Nodup := by
    rintro (- | l)
    · exact List.nodup_nil
    · exact List.nodup_singleton l
  refine List.nodup_append.2 ⟨nodup _, List.Nodup.filter _ ?_, fun l hl m hm same => ?_⟩
  · split
    · exact nodup next
    · exact List.nodup_nil
  · have := (List.mem_filter.1 hm).2
    simp [← same, hl] at this

namespace FlowGraph

variable {g : FlowGraph} {p : Proc} {names left : FreshNames}

/-! ## Places of the text -/

/-- How many instructions of the text stand in front of a block: the place at which it begins. -/
def start (g : FlowGraph) (i : Nat) : Nat := instrs { g with blocks := g.blocks.take i } |>.length

theorem start_eq (g : FlowGraph) (i : Nat) :
    g.start i = (((g.blocks.map Block.piece).take i).flatMap Piece.instrs).length := by
  rw [start, instrs_eq_flatMap_piece, List.map_take]

/-- Where the blocks begin in the text of a graph whose blocks are the pieces of a procedure. -/
theorem exists_start_iff (same : g.blocks.map Block.piece = p.pieces) {k : Nat} :
    (∃ i < g.blocks.length, g.start i = k) ↔ BeginsAt p.body k := by
  have length : g.blocks.length = p.pieces.length := by rw [← same, List.length_map]
  simp only [start_eq, same, length]
  rcases p.pieces_eq with cut | ⟨none, single⟩
  · have iff := exists_length_take_iff (k := k) p.pieces_ne_nil p.isChain_pieces
      (fun _ => p.straight_of_mem_pieces) fun q hq => ne_nil_of_mem_pieces (cut ▸ hq)
    rwa [p.flatMap_pieces] at iff
  · rw [single, none]
    constructor
    · rintro ⟨i, lt, rfl⟩
      obtain rfl : i = 0 := Nat.lt_one_iff.1 lt
      exact .inl rfl
    · rintro (rfl | ⟨l, h⟩ | ⟨j, i, -, bound, -⟩)
      · exact ⟨0, Nat.one_pos, rfl⟩
      · simp at h
      · exact absurd bound (Nat.not_lt_zero _)

/-- Later blocks begin further behind. -/
theorem start_lt (same : g.blocks.map Block.piece = p.pieces) {i j : Nat} (lt : i < j)
    (bound : j < g.blocks.length) : g.start i < g.start j := by
  have length : g.blocks.length = p.pieces.length := by rw [← same, List.length_map]
  rw [start_eq, start_eq, same]
  rw [length] at bound
  rcases p.pieces_eq with cut | ⟨-, single⟩
  · exact length_take_lt (fun q hq => ne_nil_of_mem_pieces (cut ▸ hq)) lt (Nat.le_of_lt bound)
  · rw [single] at bound
    simp at bound
    omega

/-! ## Edges -/

theorem nodup_succs (nodup : g.labels.Nodup) (l : Label) : (g.succs l).Nodup := by
  rw [succs]
  cases found : (withSuccs g.blocks).find? fun e => e.1.label == l with
  | none => exact List.nodup_nil
  | some e =>
    have mem : (e.1, e.2) ∈ withSuccs g.blocks := List.mem_of_find?_eq_some found
    have same : e.2 = e.1.succs (g.next? e.1.label) := ((mem_withSuccs nodup).1 mem).2
    change e.2.Nodup
    rw [same]
    exact e.1.nodup_succs _

theorem preds_sublist (g : FlowGraph) (l : Label) : (g.preds l).Sublist g.labels := by
  have all : ∀ bs : List Block, ((withSuccs bs).filterMap fun e =>
      if l ∈ e.2 then some e.1.label else none).Sublist (bs.map Block.label) := by
    intro bs
    induction bs with
    | nil => exact .slnil
    | cons b rest ih =>
      rw [withSuccs, List.filterMap_cons, List.map_cons]
      split
      · exact ih.cons _
      · next found =>
        cases (Option.ite_none_right_eq_some.1 found).2
        exact ih.cons_cons _
  exact all g.blocks

/-- The edges to a block are those from its predecessors, each of which is listed once. -/
theorem count_preds (nodup : g.labels.Nodup) (l m : Label) :
    (g.preds l).count m = if l ∈ g.succs m then 1 else 0 := by
  have edge : m ∈ g.preds l ↔ l ∈ g.succs m := by
    rw [mem_preds nodup]
    constructor
    · rintro ⟨b, hb, rfl, h⟩
      rwa [succs_eq nodup hb]
    · exact exists_of_mem_succs nodup
  rw [List.Nodup.count (nodup.sublist (g.preds_sublist l))]
  simp only [edge]

/-! ## Graphs -/

/-- What it means that a graph is the procedure, cut into blocks. -/
structure CutFrom (p : Proc) (g : FlowGraph) : Prop where
  /-- The text is kept. -/
  text : g.instrs = p.body
  /-- A label belongs to one block. -/
  distinct : g.labels.Nodup
  /-- The blocks that have their label in the text have one of its labels, and the others have not. -/
  fresh : ∀ b ∈ g.blocks, b.named = true ↔ b.label ∈ p.labels
  /-- Blocks begin at the beginning, at each label and behind each transfer of control. -/
  begins : ∀ k, (∃ i < g.blocks.length, g.start i = k) ↔ BeginsAt p.body k
  /-- No two blocks begin at one place. -/
  rising : ∀ i j, i < j → j < g.blocks.length → g.start i < g.start j
  /-- No edge is listed twice. -/
  once : ∀ l, (g.succs l).Nodup
  /-- Edges lead to the target of the last instruction and, if that does not always jump or return,
  to the next block. -/
  leaves : ∀ before b later, g.blocks = before ++ b :: later → ∀ l, l ∈ g.succs b.label ↔
    b.target? = some l ∨ b.fallsThrough = true ∧ later.head?.map Block.label = some l
  /-- Predecessors are listed once, and are the blocks that edges lead from. -/
  arrives : ∀ l m, (g.preds l).count m = if l ∈ g.succs m then 1 else 0

/-- A graph that was built with labels that the text does not have is the procedure, cut into
blocks. -/
theorem cutFrom_of_build (avoids : ∀ l ∈ p.labels, l ∈ names.labels)
    (h : build p names = .ok (g, left)) : CutFrom p g := by
  have built := builtFrom_of_build avoids h
  have nodup := built.wellFormed.nodup
  have same : g.blocks.map Block.piece = p.pieces := by
    rw [(eq_of_build h).1]
    exact nameBlocks_piece names p.pieces
  refine ⟨built.instrs, nodup, built.named, fun _ => exists_start_iff same, fun _ _ => start_lt same,
    nodup_succs nodup, fun before b later split l => ?_, count_preds nodup⟩
  have hb : b ∈ g.blocks := split ▸ List.mem_append_right _ List.mem_cons_self
  rw [succs_eq nodup hb, next?_of_split nodup split, Block.mem_succs]

/-- Two labels in a row, a branch to what follows it, code behind a jump, and a branch at the end. -/
def tangle : Proc :=
  let x : Temp := ⟨"x", none⟩
  ⟨⟨"main"⟩, [x], [
    .nop,
    .label ⟨"a"⟩,
    .label ⟨"b"⟩,
    .branch .nonzero (.temp x) ⟨"c"⟩,
    .label ⟨"c"⟩,
    .jump ⟨"a"⟩,
    .nop,
    .branch .zero (.temp x) ⟨"b"⟩]⟩

theorem cutFrom_tangle : (∀ l ∈ tangle.labels, l ∈ (FreshNames.avoiding tangle.labels).labels) ∧
    ∃ g left, build tangle (.avoiding tangle.labels) = .ok (g, left) ∧ CutFrom tangle g ∧
      (List.range g.blocks.length).map g.start = [0, 1, 2, 4, 6] := by
  have avoids : ∀ l ∈ tangle.labels, l ∈ (FreshNames.avoiding tangle.labels).labels := by
    decide +kernel
  obtain ⟨g, left, built, starts⟩ : ∃ g left,
      build tangle (.avoiding tangle.labels) = .ok (g, left) ∧
        (List.range g.blocks.length).map g.start = [0, 1, 2, 4, 6] := ⟨_, _, rfl, by decide +kernel⟩
  exact ⟨avoids, g, left, built, cutFrom_of_build avoids built, starts⟩

end FlowGraph

end ThreeAddress
