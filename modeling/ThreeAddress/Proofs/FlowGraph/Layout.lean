import ThreeAddress.Proofs.Activation.Renaming
import ThreeAddress.Proofs.FlowGraph.Shape
/-!
# Graphs laid out as text

The blocks of a graph, one behind the other, are a body again. Some blocks keep their labels in
it: those of the source text, or all of them. Running the body is running the graph, as long as
nothing jumps to a label that is left out.

* `layout` : the body, where `keep` says which labels stand in it;
* `FlowGraph.Marked`, `FlowGraph.PhisTold` : the labels that are passed in the body on the way to a
  block, and that they tell its phis what the edges of the graph tell them;
* `Placed` : a position in the body and one in the graph that are the same;
* `FlowGraph.runs_of_runs` : a run of the body that succeeds is a run of the graph;
* `FlowGraph.runs_iff`, `FlowGraph.runs_toProc_iff` : if no label is missed, the runs are the same.
-/

namespace ThreeAddress

open Execution

/-- The label of a block, if it stands in the text. -/
def Block.mark (keep : Block → Bool) (b : Block) : List Instr :=
  if keep b then [.label b.label] else []

/-- Blocks as text. -/
def layout (keep : Block → Bool) (bs : List Block) : List Instr :=
  bs.flatMap fun b => b.mark keep ++ b.body

namespace FlowGraph

theorem linear_eq_layout (g : FlowGraph) : g.linear = layout (fun _ => true) g.blocks := rfl

/-- Every label stands in the text. -/
def AllKept (g : FlowGraph) (keep : Block → Bool) : Prop := ∀ b ∈ g.blocks, keep b = true

/-- Every label that is jumped to stands in the text. -/
def Closed (g : FlowGraph) (keep : Block → Bool) : Prop :=
  ∀ b ∈ g.blocks, ∀ l, b.target? = some l → ∀ c ∈ g.blocks, c.label = l → keep c = true

end FlowGraph

/-! ## Labels in the text -/

theorem codeFrom?_eq_none {l : Label} {code : List Instr} (h : Instr.label l ∉ code) :
    codeFrom? l code = none := by
  induction code with
  | nil => rfl
  | cons i rest ih =>
    rw [codeFrom?, ih fun hm => h (List.mem_cons_of_mem _ hm), if_neg]
    exact fun e => h (e ▸ List.mem_cons_self)

theorem codeFrom?_append {l : Label} {front rest : List Instr} (h : Instr.label l ∉ rest) :
    codeFrom? l (front ++ .label l :: rest) = some (.label l :: rest) := by
  induction front with
  | nil => rw [List.nil_append, codeFrom?, codeFrom?_eq_none h, if_pos rfl]
  | cons i front ih => rw [List.cons_append, codeFrom?, ih]

variable {keep : Block → Bool} {bs : List Block}

theorem layout_cons (b : Block) : layout keep (b :: bs) = b.mark keep ++ (b.body ++ layout keep bs) := by
  rw [layout, List.flatMap_cons, List.append_assoc]
  rfl

theorem layout_append (before later : List Block) :
    layout keep (before ++ later) = layout keep before ++ layout keep later := List.flatMap_append

theorem mem_layout_label (straight : ∀ b ∈ bs, Straight b.body) {l : Label} :
    Instr.label l ∈ layout keep bs ↔ ∃ b ∈ bs, keep b = true ∧ b.label = l := by
  simp only [layout, List.mem_flatMap, List.mem_append]
  constructor
  · rintro ⟨b, hb, hm | hm⟩
    · refine ⟨b, hb, ?_⟩
      cases hk : keep b with
      | true => simp_all [Block.mark]
      | false => simp [Block.mark, hk] at hm
    · exact absurd hm ((straight b hb).not_mem_label l)
  · rintro ⟨b, hb, hk, rfl⟩
    exact ⟨b, hb, .inl (by simp [Block.mark, hk])⟩

namespace FlowGraph

variable {g : FlowGraph} {before later : List Block} {b : Block}

/-- A label that stands in the text is found in front of its block. -/
theorem WellFormed.codeFrom?_layout (h : g.WellFormed) (split : g.blocks = before ++ b :: later)
    (kept : keep b = true) :
    codeFrom? b.label (layout keep g.blocks) =
      some (.label b.label :: (b.body ++ layout keep later)) := by
  have hb : b ∈ g.blocks := split ▸ List.mem_append_right _ List.mem_cons_self
  have mark : b.mark keep = [.label b.label] := by simp [Block.mark, kept]
  rw [split, layout_append, layout_cons, mark, List.singleton_append]
  refine codeFrom?_append fun hm => ?_
  rcases List.mem_append.1 hm with hm | hm
  · exact (h.straight b hb).not_mem_label _ hm
  · have straight : ∀ c ∈ later, Straight c.body := fun c hc =>
      h.straight c (split ▸ List.mem_append_right _ (List.mem_cons_of_mem _ hc))
    obtain ⟨c, hc, -, e⟩ := (mem_layout_label straight).1 hm
    exact (label_not_mem_of_split h.nodup split).2 (e ▸ List.mem_map_of_mem hc)

end FlowGraph

/-! ## Where control came from -/

/-- What is taken for the block that control came from, and for the one that it is in. -/
structure Marks where
  previous : Origin
  current : Origin

/-- What the label of a block makes of them, if it stands in the text. -/
def Block.passed (keep : Block → Bool) (b : Block) (marks : Marks) : Marks :=
  if keep b then ⟨marks.current, .block b.label⟩ else marks

/-- What the text takes for the place of control. -/
def Spot.marks (pos : Spot) : Marks := ⟨pos.previous, pos.current⟩

namespace FlowGraph

/-- Control can come from `origin` to a block, in such a way that the labels that stand in the text
leave these marks. -/
inductive Marked (g : FlowGraph) (keep : Block → Bool) : Origin → Block → Marks → Prop where
  | entry {b : Block} (first : g.blocks.head? = some b) :
      Marked g keep .entry b (b.passed keep ⟨.entry, .entry⟩)
  | edge {origin : Origin} {b c : Block} {marks : Marks} (h : Marked g keep origin b marks)
      (mem : c ∈ g.blocks) (succ : c.label ∈ b.succs (g.next? b.label)) :
      Marked g keep (.block b.label) c (c.passed keep marks)

/-- Every phi finds the same argument for the last label that was passed in the text as for the edge
of the graph. -/
def PhisAgree (g : FlowGraph) (keep : Block → Bool) : Prop :=
  ∀ origin b marks, g.Marked keep origin b marks → ∀ dest args, .phi dest args ∈ b.body →
    args.get? marks.previous = args.get? origin

/-- The labels in the text tell the phis where control came from, and keep the phis of different
blocks apart. -/
structure PhisTold (g : FlowGraph) (keep : Block → Bool) : Prop where
  agree : g.PhisAgree keep
  apart : ∀ before b c later, g.blocks = before ++ b :: c :: later →
    ∀ i, b.body.getLast? = some i → i.isPhi = true → keep c = true

variable {g : FlowGraph} {origin : Origin} {b c : Block} {marks : Marks}

theorem Marked.mem (h : g.Marked keep origin b marks) : b ∈ g.blocks := by
  cases h with
  | entry first => exact List.mem_of_mem_head? first
  | edge _ mem _ => exact mem

/-- Control runs past the end of a block. -/
theorem Marked.next {before later : List Block} (wf : g.WellFormed)
    (h : g.Marked keep origin b marks) (split : g.blocks = before ++ b :: c :: later)
    (falls : b.fallsThrough = true) : g.Marked keep (.block b.label) c (c.passed keep marks) := by
  refine .edge h (by simp [split]) (Block.mem_succs.2 (.inr ⟨falls, ?_⟩))
  exact next?_of_split wf.nodup split

/-- Behind a label that stands in the text, the block is known. -/
theorem Marked.current (h : g.Marked keep origin b marks) (kept : keep b = true) :
    marks.current = .block b.label := by
  cases h <;> rw [Block.passed, if_pos kept]

/-- A block whose label stands in the text, and those of all blocks before it, is known to have been
entered along an edge. -/
theorem Marked.previous (wf : g.WellFormed) (h : g.Marked keep origin b marks)
    (kept : keep b = true) (preds : ∀ c ∈ g.blocks, c.label ∈ g.preds b.label → keep c = true) :
    marks.previous = origin := by
  cases h with
  | entry first => rw [Block.passed, if_pos kept]
  | @edge _ c _ marks h mem succ =>
    rw [Block.passed, if_pos kept]
    exact h.current (preds c h.mem ((mem_preds wf.nodup).2 ⟨c, h.mem, rfl, succ⟩))

/-- Phis are told where control came from if they and all blocks before them have labels in the
text. -/
theorem PhisAgree.of_kept (wf : g.WellFormed) (kept : ∀ b ∈ g.blocks, ∀ i ∈ b.body,
    i.isPhi = true → keep b = true ∧
      ∀ c ∈ g.blocks, c.label ∈ g.preds b.label → keep c = true) : g.PhisAgree keep := by
  intro origin b marks h dest args mem
  obtain ⟨own, preds⟩ := kept b h.mem _ mem rfl
  rw [h.previous wf own preds]

theorem AllKept.phisTold (wf : g.WellFormed) (all : g.AllKept keep) : g.PhisTold keep where
  agree := .of_kept wf fun b hb _ _ _ => ⟨all b hb, fun c hc _ => all c hc⟩
  apart := fun _ _ _ _ split _ _ _ => all _ (by simp [split])

theorem AllKept.marks_eq (wf : g.WellFormed) (all : g.AllKept keep)
    (h : g.Marked keep origin b marks) : marks = ⟨origin, .block b.label⟩ := by
  rw [← h.previous wf (all b h.mem) fun c hc _ => all c hc, ← h.current (all b h.mem)]

theorem PhiFree.phisTold (free : g.PhiFree) : g.PhisTold keep where
  agree := fun _ b _ h _ _ mem => nomatch free b h.mem _ mem
  apart := fun _ b _ _ split i last phi => by
    rw [free b (by simp [split]) i (List.mem_of_getLast? last)] at phi
    cases phi

end FlowGraph

/-- The place that control came from matters to a group of phis only by the arguments it chooses. -/
theorem Keeping.assign_congr {σ : Type} (K : Keeping σ) {origin origin' : Origin}
    {phis : List Instr} (h : ∀ dest args, .phi dest args ∈ phis → args.get? origin = args.get? origin')
    (s : σ) : K.assign origin phis s = K.assign origin' phis s := by
  have same : phis.filterMap (K.chosen s origin) = phis.filterMap (K.chosen s origin') := by
    refine List.filterMap_congr fun i hi => ?_
    cases i with
    | phi dest args => rw [chosen, chosen, h dest args hi]
    | _ => rfl
  rw [assign, same, assign]

/-! ## Positions that are the same -/

/-- A position in the text and one in the graph are the same. -/
inductive Placed (g : FlowGraph) (keep : Block → Bool) : Spot → Point → Prop where
  /-- In front of the label of a block. -/
  | enter {before later : List Block} {b : Block} {origin : Origin} {pos : Spot}
      (split : g.blocks = before ++ b :: later) (kept : keep b = true)
      (code : pos.code = .label b.label :: (b.body ++ layout keep later))
      (marked : g.Marked keep origin b (b.passed keep pos.marks)) :
      Placed g keep pos (.enter origin b.label)
  /-- Behind the label of a block, whose phis are not executed yet. -/
  | entered {before later : List Block} {b : Block} {origin : Origin} {pos : Spot}
      (split : g.blocks = before ++ b :: later) (code : pos.code = b.body ++ layout keep later)
      (marked : g.Marked keep origin b pos.marks) : Placed g keep pos (.enter origin b.label)
  /-- Within a block. The end is only reached if control runs past it. -/
  | within {before later : List Block} {b : Block} {origin : Origin} {pos : Spot}
      {front rest : List Instr} (split : g.blocks = before ++ b :: later)
      (body : b.body = front ++ rest) (code : pos.code = rest ++ layout keep later)
      (falls : rest = [] → b.fallsThrough = true) (marked : g.Marked keep origin b pos.marks) :
      Placed g keep pos (.within origin b.label rest)

/-- The beginning of the text is the beginning of the graph. -/
theorem Placed.first {g : FlowGraph} {l : Label} (h : g.entry? = some l) :
    Placed g keep (.first (layout keep g.blocks)) (.enter .entry l) := by
  rw [FlowGraph.entry?, FlowGraph.labels] at h
  cases hb : g.blocks with
  | nil => simp [hb] at h
  | cons b later =>
    have split : g.blocks = [] ++ b :: later := hb
    simp only [hb, List.map_cons, List.head?_cons, Option.some.injEq] at h
    subst h
    rw [layout_cons]
    have marked : g.Marked keep .entry b (b.passed keep ⟨.entry, .entry⟩) :=
      .entry (by rw [hb, List.head?_cons])
    cases kept : keep b with
    | true => exact .enter split kept (by simp [Block.mark, kept, Spot.first]) marked
    | false =>
      rw [Block.passed, if_neg (by simp [kept])] at marked
      exact .entered split (by simp [Block.mark, kept, Spot.first]) marked

/-! ## Steps in the text and in the graph -/

theorem Keeping.assign_nil {σ : Type} (K : Keeping σ) (origin : Origin) (s : σ) :
    K.assign origin [] s = s := rfl

/-- Behind a group of phis there is the rest of the block or the label of the next. -/
theorem span_phis_layout {rest : List Instr}
    (stops : (∃ i ∈ rest, i.isPhi = false) ∨ ∀ b, bs.head? = some b → keep b = true) :
    (rest ++ layout keep bs).takeWhile Instr.isPhi = rest.takeWhile Instr.isPhi ∧
      (rest ++ layout keep bs).dropWhile Instr.isPhi =
        rest.dropWhile Instr.isPhi ++ layout keep bs := by
  induction rest with
  | nil =>
    have kept := stops.resolve_left (by simp)
    cases bs with
    | nil => exact ⟨rfl, rfl⟩
    | cons b later =>
      have mark : b.mark keep = [.label b.label] := by simp [Block.mark, kept b rfl]
      rw [layout_cons, mark]
      exact ⟨rfl, rfl⟩
  | cons i rest ih =>
    cases h : i.isPhi with
    | true =>
      have ih := ih (stops.imp_left fun ⟨j, hj, plain⟩ => by
        rcases List.mem_cons.1 hj with rfl | hj
        · exact absurd (h.symm.trans plain) (by decide)
        · exact ⟨j, hj, plain⟩)
      rw [List.cons_append, List.takeWhile_cons_of_pos h, List.takeWhile_cons_of_pos h,
        List.dropWhile_cons_of_pos h, List.dropWhile_cons_of_pos h, ih.1, ih.2]
      exact ⟨rfl, rfl⟩
    | false =>
      have h : ¬ i.isPhi = true := by simp [h]
      rw [List.cons_append, List.takeWhile_cons_of_neg h, List.takeWhile_cons_of_neg h,
        List.dropWhile_cons_of_neg h, List.dropWhile_cons_of_neg h]
      exact ⟨rfl, rfl⟩

/-- The group of phis at the head of a block, from its first phi on. -/
theorem Block.span_of_phis {b : Block} {i : Instr} {group : List Instr} (h : b.phis = i :: group) :
    ∃ rest, i.isPhi = true ∧ b.body = i :: rest ∧ rest.takeWhile Instr.isPhi = group ∧
      rest.dropWhile Instr.isPhi = b.code := by
  rw [phis] at h
  cases body : b.body with
  | nil => simp [body] at h
  | cons j rest =>
    rw [body] at h
    cases phi : j.isPhi with
    | false => simp [phi] at h
    | true =>
      rw [List.takeWhile_cons_of_pos phi, List.cons.injEq] at h
      obtain ⟨rfl, rfl⟩ := h
      exact ⟨rest, phi, rfl, rfl, by rw [code, body, List.dropWhile_cons_of_pos phi]⟩

section Steps

variable {σ : Type} {g : FlowGraph} {K : Keeping σ} {a : Local σ} {origin : Origin}
  {before later : List Block} {b : Block}

theorem ofBody_step_plain {proc : Global} {body : List Instr} {i : Instr} (plain : i.isPhi = false)
    (inner : ∀ l, i ≠ .label l) (rest : List Instr) (previous current : Origin) :
    (Control.ofBody proc body).step K ⟨i :: rest, previous, current⟩ a =
      (Control.ofBody proc body).perform K ⟨rest, previous, current⟩ a i := by
  cases i with
  | label l => exact absurd rfl (inner l)
  | phi dest args => simp [Instr.isPhi] at plain
  | _ => rfl

/-- The label of a block is passed in the text. -/
theorem ofBody_step_label {proc : Global} {body code : List Instr} {pos : Spot} {l : Label}
    (h : pos.code = .label l :: code) :
    (Control.ofBody proc body).step K pos a = .going ⟨code, pos.current, .block l⟩ a := by
  rw [Control.step]
  simp only [Control.ofBody, h]

/-- A group of phis is executed in one step. -/
theorem ofBody_step_group {proc : Global} {body : List Instr} {pos : Spot} {i : Instr}
    {rest : List Instr} (code : pos.code = i :: rest) (phi : i.isPhi = true) :
    (Control.ofBody proc body).step K pos a =
      .going { pos with code := pos.code.dropWhile Instr.isPhi }
        { a with temps := K.assign pos.previous (pos.code.takeWhile Instr.isPhi) a.temps } := by
  obtain ⟨text, previous, current⟩ := pos
  cases code
  rw [List.dropWhile_cons_of_pos phi, List.takeWhile_cons_of_pos phi]
  cases i with
  | phi dest args => rfl
  | _ => cases phi

theorem ofBody_step_over {proc : Global} {body : List Instr} {pos : Spot} (h : pos.code = []) :
    (Control.ofBody proc body).step K pos a = .ends (.ok (0, a.globals)) := by
  rw [Control.step]
  simp only [Control.ofBody, h]

theorem ofGraph_step_plain {i : Instr} (plain : i.isPhi = false) (l : Label) (rest : List Instr) :
    (Control.ofGraph g).step K (.within origin l (i :: rest)) a =
      (Control.ofGraph g).perform K (.within origin l rest) a i := by
  cases i with
  | phi dest args => simp [Instr.isPhi] at plain
  | _ => rfl

theorem ofGraph_step_phi {i : Instr} (phi : i.isPhi = true) (l : Label) (rest : List Instr) :
    (Control.ofGraph g).step K (.within origin l (i :: rest)) a =
      .going (.within origin l (rest.dropWhile Instr.isPhi))
        { a with temps := K.assign origin (i :: rest.takeWhile Instr.isPhi) a.temps } := by
  cases i with
  | phi dest args => rfl
  | _ => cases phi

theorem ofGraph_step_enter (nodup : g.labels.Nodup) (split : g.blocks = before ++ b :: later) :
    (Control.ofGraph g).step K (.enter origin b.label) a =
      .going (.within origin b.label b.code) { a with temps := K.assign origin b.phis a.temps } := by
  rw [Control.step]
  simp only [Control.ofGraph, FlowGraph.block?_of_split nodup split]

theorem ofGraph_step_over (nodup : g.labels.Nodup) (split : g.blocks = before ++ [b]) :
    (Control.ofGraph g).step K (.within origin b.label []) a = .ends (.ok (0, a.globals)) := by
  rw [Control.step]
  simp only [Control.ofGraph, FlowGraph.next?_of_split nodup split]
  rfl

theorem ofGraph_step_next {c : Block} (nodup : g.labels.Nodup)
    (split : g.blocks = before ++ b :: c :: later) :
    (Control.ofGraph g).step K (.within origin b.label []) a =
      .going (.enter (.block b.label) c.label) a := by
  rw [Control.step]
  simp only [Control.ofGraph, FlowGraph.next?_of_split nodup split]
  rfl

/-! ## Side by side -/

/-- The same temporaries, at positions that are the same. -/
def SamePlace (σ : Type) (g : FlowGraph) (keep : Block → Bool) :
    Spot → σ → Point → σ → Prop :=
  fun pos s point s' => s = s' ∧ Placed g keep pos point

variable {E : Leeway Point σ} {s : σ} {staged : Store Nat} {globals : Store Global}
  {pos : Spot} {front rest : List Instr}

/-- A jump in the text goes where it goes in the graph. -/
theorem alike_goto (wf : g.WellFormed) (either : (∀ f y, E.failure f y) ∨ g.Closed keep)
    (split : g.blocks = before ++ b :: later) {i : Instr} (hi : i ∈ b.body) {l : Label}
    (hl : i.target? = some l) (marked : g.Marked keep origin b pos.marks) :
    Alike K K (SamePlace σ g keep) E
      ((Control.ofBody g.name (layout keep g.blocks)).goto pos ⟨s, staged, globals⟩ l)
      ((Control.ofGraph g).goto (.within origin b.label rest) ⟨s, staged, globals⟩ l) := by
  have hb : b ∈ g.blocks := split ▸ List.mem_append_right _ List.mem_cons_self
  have mem := wf.mem_labels_of_target hb hi hl
  obtain ⟨c, hc, rfl⟩ := FlowGraph.mem_labels.1 mem
  obtain ⟨before', later', split'⟩ := List.append_of_mem hc
  have there : (Control.ofGraph g).goto (.within origin b.label rest) ⟨s, staged, globals⟩ c.label =
      .going (.enter (.block b.label) c.label) ⟨s, staged, globals⟩ := by
    rw [Control.goto]
    simp [Control.ofGraph, mem]
  rw [there, Control.goto]
  have target : b.target? = some c.label := by
    rw [Block.target?, (wf.straight b hb).last_of_transfer hi (Instr.isTransfer_of_target hl)]
    exact hl
  by_cases kept : keep c = true
  · simp only [Control.ofBody, wf.codeFrom?_layout split' kept, Option.map_some]
    exact .going ⟨rfl, .enter split' kept rfl (marked.edge hc (Block.mem_succs.2 (.inl target)))⟩
  · -- the label is left out, so the text has no place to go to
    have none : codeFrom? c.label (layout keep g.blocks) = none := by
      refine codeFrom?_eq_none fun hm => kept ?_
      obtain ⟨d, hd, hk, e⟩ := (mem_layout_label wf.straight).1 hm
      obtain rfl := FlowGraph.eq_of_label wf.nodup hc hd e
      exact hk
    simp only [Control.ofBody, none, Option.map_none]
    rcases either with any | closed
    · exact .fails (any _ _)
    · exact absurd (closed b hb c.label target c hc rfl) kept

/-- An instruction within a block does the same in the text and in the graph. -/
theorem alike_instr (wf : g.WellFormed) (exact : ∀ f, E.failure f (.ends (.error f)))
    (either : (∀ f y, E.failure f y) ∨ g.Closed keep) (split : g.blocks = before ++ b :: later) {i : Instr}
    (body : b.body = front ++ i :: rest) (plain : i.isPhi = false)
    (code : pos.code = (i :: rest) ++ layout keep later)
    (marked : g.Marked keep origin b pos.marks) :
    Alike K K (SamePlace σ g keep) E
      ((Control.ofBody g.name (layout keep g.blocks)).step K pos ⟨s, staged, globals⟩)
      ((Control.ofGraph g).step K (.within origin b.label (i :: rest)) ⟨s, staged, globals⟩) := by
  have hb : b ∈ g.blocks := split ▸ List.mem_append_right _ List.mem_cons_self
  have hi : i ∈ b.body := body ▸ List.mem_append_right _ List.mem_cons_self
  have inner : ∀ l, i ≠ .label l := fun l e => (wf.straight b hb).not_mem_label l (e ▸ hi)
  have body' : b.body = (front ++ [i]) ++ rest := by rw [body, List.append_assoc]; rfl
  obtain ⟨text, previous, current⟩ := pos
  have code : text = i :: (rest ++ layout keep later) := code
  subst code
  rw [ofBody_step_plain plain inner, ofGraph_step_plain plain]
  have next : ∀ s : σ, i.fallsThrough = true →
      SamePlace σ g keep ⟨rest ++ layout keep later, previous, current⟩ s
        (.within origin b.label rest) s := by
    refine fun s falls => ⟨rfl, .within split body' rfl ?_ marked⟩
    rintro rfl
    rw [Block.fallsThrough, body, List.getLast?_concat]
    exact falls
  have sameProc : (Control.ofGraph g).proc =
      (Control.ofBody g.name (layout keep g.blocks)).proc := rfl
  refine alike_perform_same sameProc exact plain (fun _ _ _ h => h) (fun t _ h => .inr ⟨h, exact _⟩)
    ?_ ?_ fun l hl => ?_
  · exact fun d hd w _ => next _ (Instr.fallsThrough_of_def? hd)
  · exact fun _ falls => next s falls
  · exact alike_goto wf either split hi hl marked

/-- A group of phis is executed in the text. -/
theorem ofBody_step_phis (told : g.PhisTold keep) (split : g.blocks = before ++ b :: later)
    {i : Instr} (body : b.body = front ++ i :: rest) (phi : i.isPhi = true)
    (code : pos.code = (i :: rest) ++ layout keep later) (marked : g.Marked keep origin b pos.marks) :
    ∃ pos', (Control.ofBody g.name (layout keep g.blocks)).step K pos a =
        .going pos' { a with temps := K.assign origin (i :: rest.takeWhile Instr.isPhi) a.temps } ∧
      pos'.code = rest.dropWhile Instr.isPhi ++ layout keep later ∧ pos'.marks = pos.marks := by
  have stops : (∃ j ∈ rest, j.isPhi = false) ∨ ∀ c, later.head? = some c → keep c = true := by
    by_cases plain : ∃ j ∈ rest, j.isPhi = false
    · exact .inl plain
    · right
      rintro c next
      obtain ⟨more, rfl⟩ := List.head?_eq_some_iff.1 next
      obtain ⟨j, last, phi⟩ := Block.exists_last_phi body (List.cons_ne_nil _ _) fun j hj => by
        rcases List.mem_cons.1 hj with rfl | hj
        · exact phi
        · simpa using fun h => plain ⟨j, hj, h⟩
      exact told.apart _ _ _ _ split j last phi
  have span := span_phis_layout stops
  have group : K.assign pos.previous (i :: rest.takeWhile Instr.isPhi) =
      K.assign origin (i :: rest.takeWhile Instr.isPhi) := by
    refine funext fun s => K.assign_congr (fun dest args mem => ?_) s
    refine told.agree origin b _ marked dest args (body ▸ List.mem_append_right _ ?_)
    exact List.mem_cons.2 ((List.mem_cons.1 mem).imp_right (List.takeWhile_subset _ ·))
  obtain ⟨text, previous, current⟩ := pos
  have code : text = i :: (rest ++ layout keep later) := code
  subst code
  cases i with
  | phi dest args =>
    refine ⟨⟨(rest ++ layout keep later).dropWhile Instr.isPhi, previous, current⟩, ?_, span.2, rfl⟩
    rw [Control.step]
    simp only [Control.ofBody, span.1, group]
  | _ => cases phi

/-- If nothing stands behind a group of phis, the block is left at its end. -/
theorem falls_behind_phis {i : Instr} (body : b.body = front ++ i :: rest) (phi : i.isPhi = true)
    (none : rest.dropWhile Instr.isPhi = []) : b.fallsThrough = true := by
  obtain ⟨j, last, phi'⟩ := Block.exists_last_phi body (List.cons_ne_nil _ _) fun j hj => by
    rcases List.mem_cons.1 hj with rfl | hj
    · exact phi
    · exact List.dropWhile_eq_nil_iff.1 none j hj
  exact Block.fallsThrough_of_last_phi last phi'

/-- What is in front within a block does the same in the text and in the graph. -/
theorem alike_within (wf : g.WellFormed) (told : g.PhisTold keep)
    (exact : ∀ f, E.failure f (.ends (.error f))) (either : (∀ f y, E.failure f y) ∨ g.Closed keep)
    (split : g.blocks = before ++ b :: later) {i : Instr} (body : b.body = front ++ i :: rest)
    (code : pos.code = (i :: rest) ++ layout keep later) (marked : g.Marked keep origin b pos.marks) :
    Alike K K (SamePlace σ g keep) E
      ((Control.ofBody g.name (layout keep g.blocks)).step K pos ⟨s, staged, globals⟩)
      ((Control.ofGraph g).step K (.within origin b.label (i :: rest)) ⟨s, staged, globals⟩) := by
  cases phi : i.isPhi with
  | false => exact alike_instr wf exact either split body phi code marked
  | true =>
    obtain ⟨pos', step, code', marks⟩ :=
      ofBody_step_phis (K := K) (a := ⟨s, staged, globals⟩) told split body phi code marked
    have body' : b.body = (front ++ i :: rest.takeWhile Instr.isPhi) ++ rest.dropWhile Instr.isPhi := by
      rw [body, List.append_assoc, List.cons_append, List.takeWhile_append_dropWhile]
    rw [step, ofGraph_step_phi phi]
    exact .going ⟨rfl, .within split body' code' (falls_behind_phis body phi) (marks ▸ marked)⟩

/-! ## Runs -/

/-- What is executed next in the text is executed in the graph, from in front of the phis of a
block. If there are none, that is what is executed within the block. -/
theorem follow_entered (wf : g.WellFormed) (told : g.PhisTold keep)
    (split : g.blocks = before ++ b :: later) (code : pos.code = b.body ++ layout keep later)
    (marked : g.Marked keep origin b pos.marks)
    (within : b.phis = [] → ∃ y,
      (Control.ofGraph g).Quiet K (.going (.within origin b.label b.code) ⟨s, staged, globals⟩) y ∧
      Alike K K (SamePlace σ g keep) E
        ((Control.ofBody g.name (layout keep g.blocks)).step K pos ⟨s, staged, globals⟩) y) :
    ∃ y, (Control.ofGraph g).Quiet K (.going (.enter origin b.label) ⟨s, staged, globals⟩) y ∧
      Alike K K (SamePlace σ g keep) E
        ((Control.ofBody g.name (layout keep g.blocks)).step K pos ⟨s, staged, globals⟩) y := by
  cases phis : b.phis with
  | nil =>
    obtain ⟨y, quiet, alike⟩ := within phis
    refine ⟨y, .going ?_, alike⟩
    rw [ofGraph_step_enter wf.nodup split, phis]
    exact quiet
  | cons i group =>
    obtain ⟨rest, phi, body, rfl, behind⟩ := b.span_of_phis phis
    have whole : b.body = [] ++ i :: rest := body
    rw [body] at code
    obtain ⟨pos', step, there, marks⟩ :=
      ofBody_step_phis (K := K) (a := ⟨s, staged, globals⟩) told split whole phi code marked
    have falls := falls_behind_phis whole phi
    rw [behind] at there falls
    refine ⟨_, .step _ _, ?_⟩
    rw [step, ofGraph_step_enter wf.nodup split, phis]
    exact .going ⟨rfl, .within split b.phis_append_code.symm there falls (marks ▸ marked)⟩

/-- What is executed next in the text is executed in the graph, from within a block. -/
theorem follow_within (wf : g.WellFormed) (told : g.PhisTold keep)
    (exact : ∀ f, E.failure f (.ends (.error f))) (either : (∀ f y, E.failure f y) ∨ g.Closed keep)
    (split : g.blocks = before ++ b :: later) (body : b.body = front ++ rest)
    (code : pos.code = rest ++ layout keep later) (falls : rest = [] → b.fallsThrough = true)
    (marked : g.Marked keep origin b pos.marks) :
    ∃ y, (Control.ofGraph g).Quiet K (.going (.within origin b.label rest) ⟨s, staged, globals⟩) y ∧
      Alike K K (SamePlace σ g keep) E
        ((Control.ofBody g.name (layout keep g.blocks)).step K pos ⟨s, staged, globals⟩) y := by
  -- blocks without anything to execute are passed in the graph only
  induction later generalizing before b origin front rest with
  | nil =>
    cases rest with
    | cons i rest =>
      exact ⟨_, .step _ _, alike_within wf told exact either split body code marked⟩
    | nil =>
      refine ⟨_, .step _ _, ?_⟩
      rw [ofGraph_step_over wf.nodup split, ofBody_step_over code]
      exact .ends
  | cons c later ih =>
    cases rest with
    | cons i rest =>
      exact ⟨_, .step _ _, alike_within wf told exact either split body code marked⟩
    | nil =>
      have split' : g.blocks = (before ++ [b]) ++ c :: later := by
        rw [split, List.append_assoc]
        rfl
      have marked' := marked.next wf split (falls rfl)
      rw [layout_cons, List.nil_append] at code
      by_cases kept : keep c = true
      · rw [Block.mark, if_pos kept, List.singleton_append] at code
        rw [Block.passed, if_pos kept] at marked'
        refine ⟨_, .step _ _, ?_⟩
        rw [ofGraph_step_next wf.nodup split, ofBody_step_label code]
        exact .going ⟨rfl, .entered split' rfl marked'⟩
      · rw [Block.mark, if_neg kept, List.nil_append] at code
        rw [Block.passed, if_neg kept] at marked'
        have within (none : c.phis = []) := by
          have body' : c.body = [] ++ c.code := by rw [← none, c.phis_append_code]
          have code' : pos.code = c.code ++ layout keep later := by
            rw [code, body', List.nil_append]
          exact ih split' body' code' Block.fallsThrough_of_code_nil marked'
        obtain ⟨y, quiet, alike⟩ := follow_entered wf told split' code marked' within
        refine ⟨y, .going ?_, alike⟩
        rw [ofGraph_step_next wf.nodup split]
        exact quiet

/-- The phis at the head of a block are executed in the text. -/
theorem quiet_phis (told : g.PhisTold keep) (split : g.blocks = before ++ b :: later)
    (code : pos.code = b.body ++ layout keep later) (marked : g.Marked keep origin b pos.marks) :
    ∃ pos', (Control.ofBody g.name (layout keep g.blocks)).Quiet K (.going pos a)
        (.going pos' { a with temps := K.assign origin b.phis a.temps }) ∧
      Placed g keep pos' (.within origin b.label b.code) := by
  have body := b.phis_append_code.symm
  cases phis : b.phis with
  | nil =>
    rw [phis] at body
    rw [body] at code
    exact ⟨pos, .refl _, .within split body code Block.fallsThrough_of_code_nil marked⟩
  | cons i rest =>
    obtain ⟨rest', phi, body', group, behind⟩ := b.span_of_phis phis
    rw [body'] at code
    obtain ⟨pos', step, there, marks⟩ := ofBody_step_phis (K := K) (a := a) told split
      (body'.trans (List.nil_append _).symm) phi code marked
    rw [behind] at there
    refine ⟨pos', .going ?_,
      .within split body there Block.fallsThrough_of_code_nil (marks ▸ marked)⟩
    rw [step, group]
    exact .refl _

/-- The graph follows the text. -/
theorem follows_layout (wf : g.WellFormed) (told : g.PhisTold keep)
    (exact : ∀ f, E.failure f (.ends (.error f))) (either : (∀ f y, E.failure f y) ∨ g.Closed keep) :
    Follows (Control.ofBody g.name (layout keep g.blocks)) K (Control.ofGraph g) K
      (SamePlace σ g keep) E := by
  rintro pos s point - staged globals ⟨rfl, placed⟩
  cases placed with
  | enter split kept code marked =>
    rw [Block.passed, if_pos kept] at marked
    refine ⟨_, .refl _, ?_⟩
    rw [ofBody_step_label code]
    exact .going ⟨rfl, .entered split rfl marked⟩
  | @entered before later b origin _ split code marked =>
    refine follow_entered wf told split code marked fun none => ?_
    have body : b.body = [] ++ b.code := by rw [← none, b.phis_append_code]
    have code' : pos.code = b.code ++ layout keep later := by rw [code, body, List.nil_append]
    exact follow_within wf told exact either split body code' Block.fallsThrough_of_code_nil marked
  | within split body code falls marked =>
    exact follow_within wf told exact either split body code falls marked

/-- The text follows the graph. -/
theorem layout_follows (wf : g.WellFormed) (told : g.PhisTold keep)
    (closed : g.Closed keep) :
    Follows (Control.ofGraph g) K (Control.ofBody g.name (layout keep g.blocks)) K
      (fun point s' pos s => SamePlace σ g keep pos s point s') (FailsAs Spot σ Eq) := by
  have exact : ∀ f, (FailsAs Point σ Eq).failure f (.ends (.error f)) := fun f => ⟨f, rfl, rfl⟩
  rintro point - pos s staged globals ⟨rfl, placed⟩
  cases placed with
  | @enter before later b origin _ split kept code marked =>
    rw [Block.passed, if_pos kept] at marked
    obtain ⟨pos', quiet, placed⟩ := @quiet_phis keep σ g K ⟨s, staged, globals⟩ _ _ _ _
      ⟨b.body ++ layout keep later, pos.current, .block b.label⟩ told split rfl marked
    rw [← ofBody_step_label (K := K) (a := ⟨s, staged, globals⟩) code] at quiet
    refine ⟨_, .going quiet, ?_⟩
    rw [ofGraph_step_enter wf.nodup split]
    exact .going ⟨rfl, placed⟩
  | @entered before later b origin _ split code marked =>
    obtain ⟨pos', quiet, placed⟩ := quiet_phis (K := K) (a := ⟨s, staged, globals⟩) told split code
      marked
    refine ⟨_, quiet, ?_⟩
    rw [ofGraph_step_enter wf.nodup split]
    exact .going ⟨rfl, placed⟩
  | @within before later b origin _ front rest split body code falls marked =>
    cases rest with
    | cons i rest =>
      have alike : Alike K K (SamePlace σ g keep) (FailsAs Point σ Eq)
          ((Control.ofBody g.name (layout keep g.blocks)).step K pos ⟨s, staged, globals⟩)
          ((Control.ofGraph g).step K (.within origin b.label (i :: rest)) ⟨s, staged, globals⟩) :=
        alike_within wf told exact (.inr closed) split body code marked
      have alike := alike.symm
      simp only [eq_comm] at alike
      exact ⟨_, .step _ _, alike⟩
    | nil =>
      cases later with
      | nil =>
        refine ⟨_, .step _ _, ?_⟩
        rw [ofGraph_step_over wf.nodup split, ofBody_step_over code]
        exact .ends
      | cons c later =>
        have split' : g.blocks = (before ++ [b]) ++ c :: later := by
          rw [split, List.append_assoc]
          rfl
        have marked' := marked.next wf split (falls rfl)
        refine ⟨_, .refl _, ?_⟩
        rw [ofGraph_step_next wf.nodup split]
        rw [layout_cons, List.nil_append] at code
        refine .going ⟨rfl, ?_⟩
        by_cases kept : keep c = true
        · rw [Block.mark, if_pos kept] at code
          exact .enter split' kept code marked'
        · rw [Block.mark, if_neg kept] at code
          rw [Block.passed, if_neg kept] at marked'
          exact .entered split' code marked'

end Steps

/-! ## Procedures and graphs -/

theorem FlowGraph.WellFormed.exists_entry {g : FlowGraph} (wf : g.WellFormed) :
    ∃ l, g.entry? = some l := by
  rw [FlowGraph.entry?, FlowGraph.labels]
  cases h : g.blocks with
  | nil => exact absurd h wf.nonempty
  | cons b later => exact ⟨b.label, rfl⟩

section Runs

variable {σ : Type} {g : FlowGraph} {K : Keeping σ} {a : Local σ} {t : List Effect} {r : Result}
  {p : Proc}

theorem FlowGraph.runs_iff_yields {l : Label} (entry : g.entry? = some l) :
    g.Runs K a t r ↔ (Control.ofGraph g).Yields K (.going (.enter .entry l) a) t r := by
  rw [FlowGraph.Runs, entry]

theorem Alike.first (keep : Block → Bool) {E : Leeway Point σ} {l : Label}
    (h : g.entry? = some l) (a : Local σ) :
    Alike K K (SamePlace σ g keep) E (.going (.first (layout keep g.blocks)) a)
      (.going (.enter .entry l) a) :=
  .going ⟨rfl, .first h⟩

/-- A run of the text that succeeds is a run of the graph. -/
theorem FlowGraph.runs_of_runs (wf : g.WellFormed) (told : g.PhisTold keep)
    (name : g.name = p.name) (body : p.body = layout keep g.blocks) {v : Word × Store Global}
    (h : p.Runs K a t (.ok v)) : g.Runs K a t (.ok v) := by
  obtain ⟨l, entry⟩ := wf.exists_entry
  rw [Proc.Runs, ← name, body] at h
  rw [FlowGraph.Runs, entry]
  have follows : Follows (Control.ofBody g.name (layout keep g.blocks)) K (Control.ofGraph g) K
      (SamePlace σ g keep) (.afterFailure Point σ) :=
    follows_layout wf told (fun _ => trivial) (.inl fun _ _ => trivial)
  exact h.carry_ok follows id (.first keep entry a)

/-- If no label is missed, the text and the graph have the same runs. -/
theorem FlowGraph.runs_iff (wf : g.WellFormed) (told : g.PhisTold keep)
    (closed : g.Closed keep) (name : g.name = p.name) (body : p.body = layout keep g.blocks) :
    p.Runs K a t r ↔ g.Runs K a t r := by
  obtain ⟨l, entry⟩ := wf.exists_entry
  rw [Proc.Runs, ← name, body, FlowGraph.Runs, entry]
  constructor
  · intro h
    have follows := follows_layout (K := K) (E := FailsAs Point σ Eq) wf told (fun f => ⟨f, rfl, rfl⟩)
      (.inr closed)
    obtain ⟨r', same, h⟩ := h.carry follows (.first keep entry a) (.refl (fun _ => rfl) t)
    rwa [same.eq]
  · intro h
    obtain ⟨r', same, h⟩ := h.carry (layout_follows (K := K) wf told closed)
      (.going ⟨rfl, .first entry⟩) (.refl (fun _ => rfl) t)
    rwa [same.eq]

/-- The text of a graph with all labels has the runs of the graph. -/
theorem FlowGraph.runs_toProc_iff (wf : g.WellFormed) : g.toProc.Runs K a t r ↔ g.Runs K a t r :=
  have all : g.AllKept fun _ => true := fun _ _ => rfl
  g.runs_iff wf (all.phisTold wf) (fun _ _ _ _ _ _ _ => rfl) rfl rfl

end Runs

end ThreeAddress
