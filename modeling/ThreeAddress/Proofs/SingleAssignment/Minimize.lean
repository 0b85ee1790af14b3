import ThreeAddress.Proofs.SingleAssignment.Versioned
import ThreeAddress.SingleAssignment.Minimize
/-!
# Removal of redundant phis

A round of the minimization drops phis and renames what is read. Its copies are undone one by one,
and each one changes the sources of those to come; but in the end there is one renaming, which
reads a destination like its source.

* `Undoes` : a renaming that makes copies superfluous;
* `FlowGraph.minimizeRound_eq` : a round is one renaming;
* `Versioned.minimizeRound`, `Versioned.minimize` : what is left is a single-assignment form, of
  the same procedure.
-/

namespace ThreeAddress

/-! ## Renamings -/

/-- The renaming reads the destination of every copy like its source, and nothing else changes. -/
structure Undoes (f : Temp → Temp) (copies : List (Temp × Temp)) : Prop where
  same : ∀ e ∈ copies, f e.1 = f e.2
  other : ∀ t, t ∉ copies.map Prod.fst → f t = t
  /-- What all copies have in common with their sources stays. -/
  keeps : ∀ {α : Type} (kind : Temp → α), (∀ e ∈ copies, kind e.1 = kind e.2) →
    ∀ t, kind (f t) = kind t

/-- The renaming that undoes one more copy. -/
def undoMore (f : Temp → Temp) (dest src : Temp) : Temp → Temp :=
  if f src = dest then f else fun t => if f t = dest then f src else f t

theorem Undoes.nil : Undoes (fun t => t) [] := ⟨by simp, fun _ _ => rfl, fun _ _ _ => rfl⟩

theorem Undoes.more {f : Temp → Temp} {copies : List (Temp × Temp)} (h : Undoes f copies)
    {dest src : Temp} (fresh : dest ∉ copies.map Prod.fst) :
    Undoes (undoMore f dest src) (copies ++ [(dest, src)]) := by
  have self : f dest = dest := h.other dest fresh
  rw [undoMore]
  by_cases cycle : f src = dest
  · rw [if_pos cycle]
    refine ⟨fun e he => ?_, fun t ht => h.other t fun hm => ht ?_, fun kind same t => ?_⟩
    · rcases List.mem_append.1 he with he | he
      · exact h.same e he
      · obtain rfl := List.mem_singleton.1 he
        exact self.trans cycle.symm
    · rw [List.map_append]
      exact List.mem_append_left _ hm
    · exact h.keeps kind (fun e he => same e (List.mem_append_left _ he)) t
  · rw [if_neg cycle]
    refine ⟨fun e he => ?_, fun t ht => ?_, fun kind same t => ?_⟩
    · rcases List.mem_append.1 he with he | he
      · simp only [h.same e he]
      · obtain rfl := List.mem_singleton.1 he
        simp [self, cycle]
    · rw [List.map_append, List.mem_append, not_or] at ht
      rw [h.other t ht.1, if_neg]
      exact fun e => ht.2 (by simp [e])
    · have old := h.keeps kind fun e he => same e (List.mem_append_left _ he)
      have new : kind dest = kind src := same (dest, src) (by simp)
      split
      · next e => rw [old, ← new, ← e, old]
      · exact old t

/-! ## A round -/

/-- A block in the middle of a round: the phis that stay, the copies that are not undone yet, and
the code. -/
structure HalfBlock where
  label : Label
  named : Bool
  phis : List Instr
  copies : List (Temp × Temp)
  code : List Instr

namespace HalfBlock

/-- The copy that a pair stands for. -/
def copy (e : Temp × Temp) : Instr := .copy (.temp e.1) (.temp e.2)

/-- The block, with a renaming of what it reads. -/
def toBlock (f : Temp → Temp) (b : HalfBlock) : Block :=
  ⟨b.label, b.named, (b.phis ++ b.copies.map copy ++ b.code).map (Instr.mapReads f)⟩

/-- The block when its copies are undone. -/
def done (b : HalfBlock) : HalfBlock := { b with copies := [] }

end HalfBlock

/-- What is taken out of code is a copy to the temporary, and all else stays. -/
theorem exists_of_takeCopy {dest : Temp} {code left : List Instr} {src? : Option Temp}
    (h : takeCopy dest code = some (src?, left)) :
    ∃ front src back, code = front ++ .copy (.temp dest) src :: back ∧ left = front ++ back ∧
      src.temp? = src? := by
  induction code generalizing left with
  | nil => cases h
  | cons i code ih =>
    by_cases here : ∃ src, i = .copy (.temp dest) src
    · obtain ⟨src, rfl⟩ := here
      rw [takeCopy, if_pos rfl] at h
      cases h
      exact ⟨[], src, code, rfl, rfl, rfl⟩
    · have step : takeCopy dest (i :: code) =
          (takeCopy dest code).map fun e => (e.1, i :: e.2) := by
        cases i with
        | copy d src => exact if_neg fun same => here ⟨src, by rw [same]⟩
        | _ => rfl
      rw [step] at h
      obtain ⟨e, found, same⟩ := Option.map_eq_some_iff.1 h
      cases same
      obtain ⟨front, src, back, split, rest, temp⟩ := ih found
      exact ⟨i :: front, src, back, congrArg (i :: ·) split, congrArg (i :: ·) rest, temp⟩

/-- The copy is found behind the phis. -/
theorem takeCopy_append {f : Temp → Temp} (sink : f .sink = .sink) {phis : List Instr}
    (all : ∀ i ∈ phis, i.isPhi = true) (d s : Temp) (rest : List Instr) :
    takeCopy d ((phis ++ HalfBlock.copy (d, s) :: rest).map (Instr.mapReads f)) =
      some (some (f s), (phis ++ rest).map (Instr.mapReads f)) := by
  induction phis with
  | nil =>
    have src : (Var.temp s).rename f = .temp (f s) := by
      rcases (Var.temp s).cases_named with ⟨t, e, -, hn⟩ | ⟨e, hn⟩ | ⟨g, e, hn⟩
      · cases e
        simp only [Var.rename, hn]
      · cases e
        rw [sink]
        rfl
      · cases e
    simp [takeCopy, HalfBlock.copy, Instr.mapReads, Instr.mapUses, Instr.mapPhiArgs, src, Var.temp?]
  | cons i phis ih =>
    have phi := all i List.mem_cons_self
    have ih := ih fun j hj => all j (List.mem_cons_of_mem _ hj)
    cases i with
    | phi dest args =>
      rw [List.cons_append, List.map_cons, takeCopy]
      · rw [ih]
        rfl
      · intro d src e
        cases e
    | _ => cases phi

namespace FlowGraph

variable {g : FlowGraph} {f : Temp → Temp}

/-- A graph in the middle of a round. -/
def halfway (g : FlowGraph) (bs : List HalfBlock) (f : Temp → Temp) : FlowGraph :=
  { g with blocks := bs.map (HalfBlock.toBlock f) }

theorem mapBodies_halfway_append (h : Block → List Instr) {before later : List HalfBlock}
    {b : HalfBlock} (same : ∀ c ∈ before ++ later, h (c.toBlock f) = (c.toBlock f).body) :
    (g.halfway (before ++ b :: later) f).mapBodies h =
      { g with blocks := before.map (HalfBlock.toBlock f) ++
          { b.toBlock f with body := h (b.toBlock f) } :: later.map (HalfBlock.toBlock f) } := by
  have keep : ∀ cs : List HalfBlock, (∀ c ∈ cs, c ∈ before ++ later) →
      (cs.map (HalfBlock.toBlock f)).map (fun c => { c with body := h c }) =
        cs.map (HalfBlock.toBlock f) := by
    intro cs sub
    rw [List.map_map]
    refine List.map_congr_left fun c hc => ?_
    rw [Function.comp, same c (sub c hc)]
  simp only [mapBodies, halfway, List.map_append, List.map_cons]
  rw [keep before fun c hc => List.mem_append_left _ hc,
    keep later fun c hc => List.mem_append_right _ hc]

/-- A second renaming is made along with the first. -/
theorem mapInstrs_halfway {h : Temp → Temp} (sink : h .sink = .sink) (bs : List HalfBlock) :
    (g.halfway bs f).mapInstrs (Instr.mapReads h) = g.halfway bs fun t => h (f t) := by
  simp only [mapInstrs, mapBodies, halfway, List.map_map]
  congr 1
  refine List.map_congr_left fun b _ => ?_
  simp only [Function.comp, HalfBlock.toBlock, List.map_map]
  congr 1
  exact List.map_congr_left fun i _ => Instr.mapReads_mapReads sink i

/-- One copy is undone. -/
theorem undoCopy_halfway (sink : f .sink = .sink) {before later : List HalfBlock} {b : HalfBlock}
    (nodup : ((before ++ b :: later).map HalfBlock.label).Nodup)
    (all : ∀ i ∈ b.phis, i.isPhi = true) {d s : Temp} (named : d ≠ .sink)
    {more : List (Temp × Temp)} (copies : b.copies = (d, s) :: more) :
    (g.halfway (before ++ b :: later) f).undoCopy b.label d =
      g.halfway (before ++ { b with copies := more } :: later) (undoMore f d s) := by
  have labels : (g.halfway (before ++ b :: later) f).labels = (before ++ b :: later).map HalfBlock.label := by
    rw [FlowGraph.labels, halfway, List.map_map]
    rfl
  have split : (g.halfway (before ++ b :: later) f).blocks =
      before.map (HalfBlock.toBlock f) ++ b.toBlock f :: later.map (HalfBlock.toBlock f) := by
    rw [halfway, List.map_append, List.map_cons]
  have found := block?_of_split (labels ▸ nodup) split
  have taken : takeCopy d (b.toBlock f).body = some (some (f s),
      (b.phis ++ (more.map HalfBlock.copy ++ b.code)).map (Instr.mapReads f)) := by
    rw [HalfBlock.toBlock, copies, List.map_cons, List.append_assoc, List.cons_append]
    exact takeCopy_append sink all d s _
  have others : ∀ c ∈ before ++ later, c.label ≠ b.label := by
    intro c hc e
    rw [List.map_append, List.map_cons] at nodup
    have apart := List.nodup_middle.1 nodup
    refine (List.nodup_cons.1 apart).1 ?_
    rw [← List.map_append]
    exact e ▸ List.mem_map_of_mem hc
  have removed : (g.halfway (before ++ b :: later) f).mapBodies (fun c => if c.label = b.label then
        (b.phis ++ (more.map HalfBlock.copy ++ b.code)).map (Instr.mapReads f) else c.body) =
      g.halfway (before ++ { b with copies := more } :: later) f := by
    rw [mapBodies_halfway_append _ fun c hc => if_neg (others c hc)]
    simp [halfway, HalfBlock.toBlock]
  have found : (g.halfway (before ++ b :: later) f).block? b.label = some (b.toBlock f) := found
  simp only [undoCopy, found, Option.bind_some, taken, removed]
  by_cases cycle : f s = d
  · rw [if_pos cycle, undoMore, if_pos cycle]
  · rw [if_neg cycle, undoMore, if_neg cycle]
    exact @mapInstrs_halfway g f (fun t => if t = d then f s else t) (if_neg (Ne.symm named)) _

/-- The copies of one block are undone. -/
theorem undoCopies_block {before later : List HalfBlock} {b : HalfBlock}
    (nodup : ((before ++ b :: later).map HalfBlock.label).Nodup)
    (all : ∀ i ∈ b.phis, i.isPhi = true) {copies : List (Temp × Temp)} :
    ∀ {f : Temp → Temp} {undone : List (Temp × Temp)}, Undoes f undone →
      ((undone ++ copies).map Prod.fst).Nodup → .sink ∉ (undone ++ copies).map Prod.fst →
      ∃ f', Undoes f' (undone ++ copies) ∧
        (g.halfway (before ++ { b with copies } :: later) f).undoCopies
            (copies.map fun e => (b.label, e.1)) =
          g.halfway (before ++ b.done :: later) f' := by
  induction copies with
  | nil =>
    intro f undone h _ _
    exact ⟨f, by rwa [List.append_nil], rfl⟩
  | cons e more ih =>
    intro f undone h once named
    have regroup : undone ++ e :: more = (undone ++ [e]) ++ more := by simp
    have sink : f .sink = .sink := by
      refine h.other _ fun hm => named ?_
      rw [List.map_append]
      exact List.mem_append_left _ hm
    have fresh : e.1 ∉ undone.map Prod.fst := by
      rw [List.map_append, List.map_cons] at once
      exact fun hm => (List.nodup_append.1 once).2.2 _ hm _ List.mem_cons_self rfl
    have ne : e.1 ≠ .sink := by
      rintro he
      refine named ?_
      rw [← he]
      exact List.mem_map_of_mem (List.mem_append_right _ List.mem_cons_self)
    rw [regroup] at once named ⊢
    obtain ⟨f', undoes, same⟩ := ih (h.more fresh) once named
    refine ⟨f', undoes, ?_⟩
    have step := @undoCopy_halfway g f sink before later { b with copies := e :: more } (by simpa using nodup) all
      e.1 e.2 ne more rfl
    rw [← same, List.map_cons, undoCopies, List.foldl_cons]
    exact congrArg (List.foldl _ · _) step

/-- The copies of several blocks are undone. -/
theorem undoCopies_halfway {later : List HalfBlock} :
    ∀ {before : List HalfBlock} {f : Temp → Temp} {undone : List (Temp × Temp)},
      ((before ++ later).map HalfBlock.label).Nodup →
      (∀ b ∈ later, ∀ i ∈ b.phis, i.isPhi = true) → Undoes f undone →
      ((undone ++ later.flatMap HalfBlock.copies).map Prod.fst).Nodup →
      .sink ∉ (undone ++ later.flatMap HalfBlock.copies).map Prod.fst →
      ∃ f', Undoes f' (undone ++ later.flatMap HalfBlock.copies) ∧
        (g.halfway (before ++ later) f).undoCopies
            (later.flatMap fun b => b.copies.map fun e => (b.label, e.1)) =
          g.halfway (before ++ later.map HalfBlock.done) f' := by
  induction later with
  | nil =>
    intro before f undone _ _ h _ _
    exact ⟨f, by simpa using h, rfl⟩
  | cons b later ih =>
    intro before f undone nodup all h once named
    rw [List.flatMap_cons, ← List.append_assoc] at once named ⊢
    have first : ((undone ++ b.copies).map Prod.fst).Sublist
        ((undone ++ b.copies ++ later.flatMap HalfBlock.copies).map Prod.fst) :=
      (List.sublist_append_left _ _).map _
    obtain ⟨f₁, h₁, same₁⟩ := undoCopies_block (g := g) nodup (all b List.mem_cons_self) h
      (once.sublist first) fun hm => named (first.subset hm)
    have nodup' : (((before ++ [b.done]) ++ later).map HalfBlock.label).Nodup := by
      simpa [HalfBlock.done] using nodup
    obtain ⟨f₂, h₂, same₂⟩ := ih nodup' (fun c hc => all c (List.mem_cons_of_mem _ hc)) h₁ once named
    refine ⟨f₂, h₂, ?_⟩
    rw [List.flatMap_cons, undoCopies, List.foldl_append]
    rw [List.append_assoc, List.singleton_append] at same₂
    have same₁ : (g.halfway (before ++ b :: later) f).undoCopies
        (b.copies.map fun e => (b.label, e.1)) = g.halfway (before ++ b.done :: later) f₁ := same₁
    rw [undoCopies] at same₁
    rw [same₁]
    refine same₂.trans ?_
    rw [List.map_cons, List.append_assoc, List.singleton_append]

end FlowGraph

/-- Is the phi still there after a round? -/
def Instr.stays (i : Instr) : Bool := !i.isNullChoice && i.singleSource?.isNone

theorem Instr.singleSource?_of_isNullChoice {i : Instr} (h : i.isNullChoice = true) :
    i.singleSource? = none := by
  cases i with
  | phi dest args =>
    rw [isNullChoice, Bool.and_eq_true, List.all_eq_true] at h
    have none : args.values.filter (· != dest) = [] :=
      List.filter_eq_nil_iff.2 fun t ht => by simpa using h.2 t ht
    rw [singleSource?, none]
    rfl
  | _ => rfl

theorem Instr.def?_of_singleSource? {i : Instr} {e : Temp × Temp} (h : i.singleSource? = some e) :
    i.def? = some e.1 := by
  cases i with
  | phi dest args =>
    rw [singleSource?] at h
    split at h
    · cases h
      rfl
    · cases h
  | _ => cases h

theorem Instr.isNullChoice_of_plain {i : Instr} (plain : i.isPhi = false) :
    i.isNullChoice = false := by
  cases i <;> first | rfl | cases plain

/-- The code of a block behind its phis, without phis that choose nothing. -/
def Block.chosen (b : Block) : List Instr := b.code.filter fun i => !i.isNullChoice

theorem Block.chosen_of_plain {b : Block} (first : ∀ i ∈ b.code, i.isPhi = false) :
    b.chosen = b.code :=
  List.filter_eq_self.2 fun i hi => by rw [Instr.isNullChoice_of_plain (first i hi)]; rfl

theorem Block.takeWhile_isPhi_chosen (b : Block) : b.chosen.takeWhile Instr.isPhi = [] :=
  takeWhile_isPhi_filter_code b fun i plain => by rw [Instr.isNullChoice_of_plain plain]; rfl

/-- A block at the beginning of a round. -/
def Block.half (b : Block) : HalfBlock :=
  ⟨b.label, b.named, b.phis.filter Instr.stays, b.phis.filterMap Instr.singleSource?, b.chosen⟩

theorem Block.filter_phis_and_code (b : Block) :
    ({ b with body := b.body.filter fun i => !i.isNullChoice } : Block).phis =
        b.phis.filter (fun i => !i.isNullChoice) ∧
      ({ b with body := b.body.filter fun i => !i.isNullChoice } : Block).code = b.chosen := by
  refine Block.phis_and_code_of_head ?_ (fun i hi => isPhi_of_mem_phis (List.mem_filter.1 hi).1)
    b.takeWhile_isPhi_chosen
  have whole := congrArg (List.filter fun i => !i.isNullChoice) b.phis_append_code
  rw [List.filter_append] at whole
  exact whole.symm

/-- The phis of a block are sorted out. -/
theorem Block.collapse_filter (b : Block) :
    ({ b with body := b.body.filter fun i => !i.isNullChoice } : Block).collapse =
      (b.half.toBlock fun t => t).body := by
  obtain ⟨phis, code⟩ := b.filter_phis_and_code
  rw [Block.collapse, phis, code, HalfBlock.toBlock, half]
  have id : Instr.mapReads (fun t => t) = fun i => i := funext Instr.mapReads_id
  rw [id, List.map_id', List.filter_filter, List.filterMap_filter, List.map_filterMap]
  congr 2
  · exact List.filter_congr fun i _ => Bool.and_comm _ _
  · refine List.filterMap_congr fun i _ => ?_
    cases null : i.isNullChoice with
    | false => rfl
    | true =>
      rw [Instr.singleSource?_of_isNullChoice null]
      rfl

namespace FlowGraph

variable {g : FlowGraph}

/-- The phis that have a single source, each with its source. -/
def superfluous (g : FlowGraph) : List (Temp × Temp) :=
  g.blocks.flatMap fun b => b.phis.filterMap Instr.singleSource?

/-- A graph without the phis that a round removes, and with other names for what it reads. -/
def afterRound (g : FlowGraph) (f : Temp → Temp) : FlowGraph :=
  g.mapBodies fun b => (b.phis.filter Instr.stays ++ b.chosen).map (Instr.mapReads f)

theorem collapse_dropNullChoices :
    g.dropNullChoices.collapse = g.halfway (g.blocks.map Block.half) fun t => t := by
  simp only [collapse, dropNullChoices, mapBodies, halfway, List.map_map]
  congr 1
  refine List.map_congr_left fun b _ => ?_
  simp only [Function.comp]
  rw [b.collapse_filter]
  rfl

theorem collapsible_dropNullChoices : g.dropNullChoices.collapsible =
    (g.blocks.map Block.half).flatMap fun b => b.copies.map fun e => (b.label, e.1) := by
  simp only [collapsible, dropNullChoices, mapBodies, List.flatMap_map]
  refine List.flatMap_congr fun b _ => ?_
  rw [b.filter_phis_and_code.1, Block.half, List.filterMap_filter,
    List.map_filterMap]
  refine List.filterMap_congr fun i _ => ?_
  cases null : i.isNullChoice with
  | false => rfl
  | true =>
    rw [Instr.singleSource?_of_isNullChoice null]
    rfl

theorem superfluous_sublist (g : FlowGraph) : (g.superfluous.map Prod.fst).Sublist g.defs := by
  have phis : ∀ l : List Instr,
      ((l.filterMap Instr.singleSource?).map Prod.fst).Sublist (l.filterMap Instr.def?) := by
    intro l
    induction l with
    | nil => exact .slnil
    | cons i l ih =>
      cases source : i.singleSource? with
      | none =>
        rw [List.filterMap_cons_none source]
        exact ih.trans ((List.sublist_cons_self i l).filterMap _)
      | some e =>
        rw [List.filterMap_cons_some source,
          List.filterMap_cons_some (Instr.def?_of_singleSource? source)]
        exact ih.cons_cons _
  rw [superfluous, defs, code]
  induction g.blocks with
  | nil => exact .slnil
  | cons b bs ih =>
    rw [List.flatMap_cons, List.flatMap_cons, List.map_append, List.filterMap_append]
    exact ((phis b.phis).trans ((List.takeWhile_sublist _).filterMap _)).append ih

/-- A round removes phis and makes one renaming. -/
theorem minimizeRound_eq (nodup : g.labels.Nodup) (once : g.defs.Nodup) (named : .sink ∉ g.defs) :
    ∃ f, Undoes f g.superfluous ∧ g.minimizeRound.1 = g.afterRound f := by
  have copies : (g.blocks.map Block.half).flatMap HalfBlock.copies = g.superfluous := by
    rw [List.flatMap_map]
    rfl
  have labels : (g.blocks.map Block.half).map HalfBlock.label = g.labels := by
    rw [List.map_map]
    rfl
  have all : ∀ b ∈ g.blocks.map Block.half, ∀ i ∈ b.phis, i.isPhi = true := by
    intro b hb i hi
    obtain ⟨c, -, rfl⟩ := List.mem_map.1 hb
    exact Block.isPhi_of_mem_phis (List.mem_filter.1 hi).1
  have sub := g.superfluous_sublist
  obtain ⟨f, undoes, same⟩ := @undoCopies_halfway g (g.blocks.map Block.half) [] _ []
    (labels ▸ nodup) all .nil (by rw [List.nil_append, copies]; exact once.sublist sub)
    (by rw [List.nil_append, copies]; exact fun hm => named (sub.subset hm))
  rw [List.nil_append, copies] at undoes
  refine ⟨f, undoes, ?_⟩
  rw [minimizeRound]
  simp only [collapse_dropNullChoices, collapsible_dropNullChoices]
  refine same.trans ?_
  simp only [List.nil_append, halfway, afterRound, mapBodies, List.map_map]
  congr 1
  refine List.map_congr_left fun b _ => ?_
  simp [HalfBlock.toBlock, HalfBlock.done, Block.half]

/-- What every round keeps holds of what is left without redundant phis. -/
theorem of_minimize {P : FlowGraph → Prop} (round : ∀ g, P g → P g.minimizeRound.1) (h : P g) :
    P g.minimize.graph := by
  rw [FlowGraph.minimize]
  generalize g.phiCount + 1 = left
  induction left generalizing g with
  | zero => exact h
  | succ left ih =>
    rw [minimizeRounds]
    by_cases last : g.minimizeRound.2.nullChoices = 0 ∧ g.minimizeRound.2.collapsed = 0
    · simp only [if_pos last]
      exact round g h
    · simp only [if_neg last]
      exact ih (round g h)

theorem labels_undoCopy (g : FlowGraph) (l : Label) (dest : Temp) :
    (g.undoCopy l dest).labels = g.labels := by
  rw [undoCopy]
  split
  · rfl
  · dsimp only
    split
    · exact labels_mapBodies _ g
    · split
      · exact labels_mapBodies _ g
      · exact (labels_mapBodies _ _).trans (labels_mapBodies _ g)

theorem labels_undoCopies (copies : List (Label × Temp)) :
    (g.undoCopies copies).labels = g.labels := by
  induction copies generalizing g with
  | nil => rfl
  | cons e copies ih => exact ih.trans (labels_undoCopy g e.1 e.2)

/-- The removal of redundant phis keeps the blocks, wherever the phis stand. -/
theorem labels_minimize (g : FlowGraph) : g.minimize.graph.labels = g.labels :=
  of_minimize (P := fun g' => g'.labels = g.labels)
    (fun g' same => ((labels_undoCopies _).trans
      ((labels_mapBodies _ _).trans (labels_mapBodies _ g'))).trans same) rfl

end FlowGraph

/-! ## What is left -/

theorem Instr.mapReads_setDef (f : Temp → Temp) (n : Temp) {i : Instr} (plain : i.isPhi = false) :
    (i.setDef n).mapReads f = (i.mapUses f).setDef n := by
  cases i with
  | phi dest args => cases plain
  | _ => rfl

/-- Renaming what renamed code reads makes other versions current. -/
theorem Renames.mapReads {root env last f : Temp → Temp} {code code' : List Instr}
    (h : Renames root env code code' last) (root_sink : root .sink = .sink) (sink : f .sink = .sink)
    (plain : ∀ i ∈ code, i.isPhi = false)
    (fixed : ∀ i ∈ code', ∀ n, i.def? = some n → f n = n) :
    Renames root (fun t => f (env t)) code (code'.map (Instr.mapReads f)) fun t => f (last t) := by
  induction h with
  | nil env => exact .nil _
  | @keeps env _ i _ _ hd _ ih =>
    have first := plain i List.mem_cons_self
    rw [List.map_cons, Instr.mapReads_of_plain (by rwa [Instr.isPhi_mapUses]),
      Instr.mapUses_mapUses sink]
    exact .keeps hd (ih (fun j hj => plain j (List.mem_cons_of_mem _ hj))
      fun j hj => fixed j (List.mem_cons_of_mem _ hj))
  | @defines env last i t n rest rest' hd hn _ ih =>
    have first := plain i List.mem_cons_self
    have named : n.isSink = false :=
      isSink_of_root root_sink (hn ▸ Instr.def?_not_isSink first hd)
    have self : f n = n := fixed _ List.mem_cons_self n
      (Instr.def?_setDef ((Instr.def?_mapUses env i).trans hd) named)
    have ih := ih (fun j hj => plain j (List.mem_cons_of_mem _ hj))
      fun j hj => fixed j (List.mem_cons_of_mem _ hj)
    have update : (fun u => f (Function.update env t n u)) = Function.update (fun u => f (env u)) t n := by
      funext u
      by_cases same : u = t
      · subst same
        rw [Function.update_self, Function.update_self, self]
      · rw [Function.update_of_ne same, Function.update_of_ne same]
    rw [List.map_cons, Instr.mapReads_setDef f n (by rwa [Instr.isPhi_mapUses]),
      Instr.mapUses_mapUses sink]
    rw [update] at ih
    exact .defines hd hn ih

/-- The arguments of a phi with a single source are read like the destination. -/
theorem Undoes.of_singleSource? {f : Temp → Temp} {copies : List (Temp × Temp)}
    (h : Undoes f copies) {dest src : Temp} {args : SortedMap Origin Temp}
    (source : (Instr.phi dest args).singleSource? = some (dest, src)) (mem : (dest, src) ∈ copies)
    {v : Temp} (hv : v ∈ args.values) : f v = f dest := by
  rw [Instr.singleSource?] at source
  split at source
  · next only =>
    cases source
    by_cases same : v = dest
    · rw [same]
    · have other : v ∈ SortedSet.ofList (args.values.filter (· != dest)) :=
        SortedSet.mem_ofList.2 (List.mem_filter.2 ⟨hv, by simpa using same⟩)
      rw [SortedSet.mem_iff, only, List.mem_singleton] at other
      rw [other]
      exact (h.same _ mem).symm
  · cases source

namespace FlowGraph

variable {g : FlowGraph} {f : Temp → Temp}

/-- The phis of a block behind a round are those that stay. -/
theorem phis_and_code_afterRound (b : Block) :
    ({ b with body := (b.phis.filter Instr.stays ++ b.chosen).map (Instr.mapReads f) } : Block).phis =
        (b.phis.filter Instr.stays).map (Instr.mapReads f) ∧
      ({ b with body := (b.phis.filter Instr.stays ++ b.chosen).map (Instr.mapReads f) } :
        Block).code = b.chosen.map (Instr.mapReads f) := by
  refine Block.phis_and_code_of_head (List.map_append ..) (fun i hi => ?_) ?_
  · obtain ⟨j, hj, rfl⟩ := List.mem_map.1 hi
    rw [Instr.isPhi_mapReads]
    exact Block.isPhi_of_mem_phis (List.mem_filter.1 hj).1
  · have same : Instr.isPhi ∘ Instr.mapReads f = Instr.isPhi := funext (Instr.isPhi_mapReads f)
    rw [List.takeWhile_map, same, b.takeWhile_isPhi_chosen]
    rfl

/-- The blocks behind a round. -/
theorem exists_of_mem_afterRound (first : g.PhisFirst) {b' : Block}
    (h : b' ∈ (g.afterRound f).blocks) : ∃ b ∈ g.blocks, b'.label = b.label ∧
      b'.phis = (b.phis.filter Instr.stays).map (Instr.mapReads f) ∧
      b'.code = b.code.map (Instr.mapReads f) := by
  obtain ⟨b, hb, rfl⟩ := List.mem_map.1 h
  obtain ⟨phis, code⟩ := @phis_and_code_afterRound f b
  exact ⟨b, hb, rfl, phis, code.trans (by rw [Block.chosen_of_plain (first b hb)])⟩

/-- The phis behind a round stay from in front of it, with other arguments. -/
theorem exists_phi_of_afterRound (first : g.PhisFirst) {b' : Block}
    (h : b' ∈ (g.afterRound f).blocks) {dest : Temp} {args : SortedMap Origin Temp}
    (mem : .phi dest args ∈ b'.phis) : ∃ b ∈ g.blocks, b'.label = b.label ∧
      ∃ old, .phi dest old ∈ b.phis ∧ (Instr.phi dest old).stays = true ∧
        args = old.map fun _ t => f t := by
  obtain ⟨b, hb, label, phis, -⟩ := exists_of_mem_afterRound first h
  rw [phis] at mem
  obtain ⟨i, hi, renamed⟩ := List.mem_map.1 mem
  obtain ⟨old, rfl, rfl⟩ := Instr.mapReads_phi renamed
  obtain ⟨hi, stays⟩ := List.mem_filter.1 hi
  exact ⟨b, hb, label, old, hi, stays, rfl⟩

theorem afterRound_labels : (g.afterRound f).labels = g.labels := by
  rw [FlowGraph.labels, afterRound, mapBodies, List.map_map]
  rfl

/-- What is defined behind a round was defined in front of it. -/
theorem afterRound_defs : ((g.afterRound f).defs).Sublist g.defs := by
  have body : ∀ b : Block, (((b.phis.filter Instr.stays ++ b.chosen).map (Instr.mapReads f)).filterMap
      Instr.def?).Sublist (b.body.filterMap Instr.def?) := by
    intro b
    have same : Instr.def? ∘ Instr.mapReads f = Instr.def? := funext (Instr.def?_mapReads f)
    rw [List.filterMap_map, same]
    refine List.Sublist.filterMap _ ?_
    conv => rhs; rw [← b.phis_append_code]
    exact List.filter_sublist.append List.filter_sublist
  simp only [defs, FlowGraph.code, afterRound, mapBodies, List.flatMap_map]
  induction g.blocks with
  | nil => exact .slnil
  | cons b bs ih =>
    rw [List.flatMap_cons, List.flatMap_cons, List.filterMap_append, List.filterMap_append]
    exact (body b).append ih

end FlowGraph

/-- The same versions under other names. -/
def Versioning.through (V : Versioning) (f : Temp → Temp) : Versioning :=
  ⟨V.root, fun l t => f (V.start l t), fun l t => f (V.finish l t)⟩

theorem Instr.mem_values_of_singleSource? {dest : Temp} {args : SortedMap Origin Temp}
    {e : Temp × Temp} (h : (phi dest args).singleSource? = some e) :
    e.1 = dest ∧ e.2 ∈ args.values := by
  rw [singleSource?] at h
  split at h
  · next src only =>
    cases h
    have mem : src ∈ SortedSet.ofList (args.values.filter (· != dest)) := by
      rw [SortedSet.mem_iff, only]
      exact List.mem_singleton.2 rfl
    exact ⟨rfl, (List.mem_filter.1 (SortedSet.mem_ofList.1 mem)).1⟩
  · cases h

theorem FlowGraph.mem_superfluous {g : FlowGraph} {e : Temp × Temp} :
    e ∈ g.superfluous ↔ ∃ b ∈ g.blocks, ∃ args, .phi e.1 args ∈ b.phis ∧
      (Instr.phi e.1 args).singleSource? = some e := by
  rw [superfluous, List.mem_flatMap]
  constructor
  · rintro ⟨b, hb, mem⟩
    obtain ⟨i, hi, source⟩ := List.mem_filterMap.1 mem
    cases i with
    | phi dest args =>
      obtain ⟨rfl, -⟩ := Instr.mem_values_of_singleSource? source
      exact ⟨b, hb, args, hi, source⟩
    | _ => cases source
  · rintro ⟨b, hb, args, hi, source⟩
    exact ⟨b, hb, List.mem_filterMap.2 ⟨_, hi, source⟩⟩

namespace Versioned

variable {g g' : FlowGraph} {live : Liveness} {V : Versioning} {f : Temp → Temp}

/-- A destination and the source it is read like are versions of one temporary. -/
theorem root_undone (h : Versioned g g' live V) (undoes : Undoes f g'.superfluous) (t : Temp) :
    V.root (f t) = V.root t := by
  refine undoes.keeps V.root (fun e he => ?_) t
  obtain ⟨b, hb, args, mem, source⟩ := FlowGraph.mem_superfluous.1 he
  obtain ⟨-, value⟩ := Instr.mem_values_of_singleSource? source
  obtain ⟨u, hu, dest, -, -, roots⟩ := h.phis b hb e.1 args mem
  rw [roots e.2 value, dest]
  exact h.root_start _ (h.labels ▸ FlowGraph.mem_labels.2 ⟨b, hb, rfl⟩) u hu

/-- What is not the destination of a superfluous phi is read as before. -/
theorem undone_of_def? (h : Versioned g g' live V) (undoes : Undoes f g'.superfluous) {i : Instr}
    {d : Temp} (hi : i ∈ g'.code) (hd : i.def? = some d) (other : i.singleSource? = none) :
    f d = d := by
  refine undoes.other d fun mem => ?_
  obtain ⟨e, he, rfl⟩ := List.mem_map.1 mem
  obtain ⟨b, hb, args, mem, source⟩ := FlowGraph.mem_superfluous.1 he
  have code := FlowGraph.mem_code.2 ⟨b, hb, Block.mem_body_of_mem_phis mem⟩
  rw [FlowGraph.eq_of_def? h.once hi code hd rfl, source] at other
  cases other

theorem undone_of_param (h : Versioned g g' live V) (undoes : Undoes f g'.superfluous) {t : Temp}
    (ht : t ∈ g.params) : f t = t :=
  undoes.other t fun mem => h.apart t (g'.superfluous_sublist.subset mem) (h.params ▸ ht)

/-- The destination of a phi that stays is read as before. -/
theorem undone_of_stays (h : Versioned g g' live V) (undoes : Undoes f g'.superfluous) {b : Block}
    (hb : b ∈ g'.blocks) {dest : Temp} {args : SortedMap Origin Temp} (mem : .phi dest args ∈ b.phis)
    (stays : (Instr.phi dest args).stays = true) : f dest = dest := by
  rw [Instr.stays, Bool.and_eq_true, Option.isNone_iff_eq_none] at stays
  have code := FlowGraph.mem_code.2 ⟨b, hb, Block.mem_body_of_mem_phis mem⟩
  exact h.undone_of_def? undoes code rfl stays.2

/-- All that a removed phi may choose is read like its destination. -/
theorem alike_of_not_stays (undoes : Undoes f g'.superfluous) {b : Block} (hb : b ∈ g'.blocks)
    {dest : Temp} {args : SortedMap Origin Temp} (mem : .phi dest args ∈ b.phis)
    (gone : (Instr.phi dest args).stays = false) {v : Temp} (hv : v ∈ args.values) :
    f v = f dest := by
  cases source : (Instr.phi dest args).singleSource? with
  | some e =>
    obtain ⟨_, src⟩ := e
    obtain ⟨rfl, -⟩ := Instr.mem_values_of_singleSource? source
    exact undoes.of_singleSource? source
      (FlowGraph.mem_superfluous.2 ⟨b, hb, args, mem, source⟩) hv
  | none =>
    have null : (Instr.phi dest args).isNullChoice = true := by
      simpa [Instr.stays, source] using gone
    rw [Instr.isNullChoice, Bool.and_eq_true, List.all_eq_true] at null
    exact congrArg f (by simpa using null.2 v hv)

/-- What is left of a single-assignment form is one of the same procedure. -/
theorem afterRound (free : g.PhiFree) (h : Versioned g g' live V)
    (undoes : Undoes f g'.superfluous) : Versioned g (g'.afterRound f) live (V.through f) where
  name := h.name
  params := h.params
  labels := FlowGraph.afterRound_labels.trans h.labels
  root_sink := h.root_sink
  spelling := h.spelling
  root_param := h.root_param
  named := h.named
  root_start l hl t ht := (h.root_undone undoes _).trans (h.root_start l hl t ht)
  code b hb b' hb' label := by
    obtain ⟨c, hc, label', -, code⟩ := FlowGraph.exists_of_mem_afterRound (h.phisFirst free) hb'
    rw [code]
    have sink : f .sink = .sink :=
      undoes.other _ fun mem => h.sink_not_mem_defs free (g'.superfluous_sublist.subset mem)
    refine (h.code b hb c hc (label'.symm.trans label)).mapReads h.root_sink sink (free b hb)
      fun i hi n hn => ?_
    have plain := h.phisFirst free c hc i hi
    refine h.undone_of_def? undoes (FlowGraph.mem_code.2 ⟨c, hc, Block.mem_body_of_mem_code hi⟩) hn ?_
    cases i with
    | phi dest args => cases plain
    | _ => rfl
  phis b' hb' dest args mem := by
    obtain ⟨c, hc, label, old, hi, stays, rfl⟩ :=
      FlowGraph.exists_phi_of_afterRound (h.phisFirst free) hb' mem
    obtain ⟨t, ht, start, onEdges, onEntry, roots⟩ := h.phis c hc dest old hi
    rw [label]
    refine ⟨t, ht, ?_, fun p hp => ?_, ?_, fun v hv => ?_⟩
    · exact (h.undone_of_stays undoes hc hi stays).symm.trans (congrArg f start)
    · rw [SortedMap.get?_map, onEdges p hp]
      rfl
    · rw [SortedMap.get?_map, onEntry]
      split
      · next both => rw [Option.map_some, h.undone_of_param undoes both.2]
      · rfl
    · obtain ⟨⟨origin, w⟩, he, rfl⟩ := List.mem_map.1 hv
      have value := SortedMap.get?_eq_some.2 he
      rw [SortedMap.get?_map, Option.map_eq_some_iff] at value
      obtain ⟨u, hu, rfl⟩ := value
      exact (h.root_undone undoes u).trans
        (roots u (List.mem_map.2 ⟨_, SortedMap.get?_eq_some.1 hu, rfl⟩))
  edges b' hb' dest args mem p v hv := by
    obtain ⟨c, hc, label, old, hi, -, rfl⟩ :=
      FlowGraph.exists_phi_of_afterRound (h.phisFirst free) hb' mem
    rw [SortedMap.get?_map, Option.map_eq_some_iff] at hv
    obtain ⟨u, hu, -⟩ := hv
    rw [label]
    exact h.edges c hc dest old hi p u hu
  joined b' hb' t ht none := by
    obtain ⟨c, hc, label, phis, -⟩ := FlowGraph.exists_of_mem_afterRound (h.phisFirst free) hb'
    rw [label] at ht none ⊢
    by_cases phi : V.start c.label t ∈ c.phiDefs
    · -- the phi was removed, so all that it may choose is read like its destination
      obtain ⟨args, mem⟩ := Block.mem_phiDefs.1 phi
      obtain ⟨u, hu, start, onEdges, onEntry, -⟩ := h.phis c hc _ args mem
      have hl := h.labels ▸ FlowGraph.mem_labels.2 ⟨c, hc, rfl⟩
      obtain rfl : t = u := by
        rw [← h.root_start _ hl t ht, start, h.root_start _ hl u hu]
      have gone : (Instr.phi (V.start c.label t) args).stays = false := by
        refine Bool.eq_false_iff.2 fun stays => none (Block.mem_phiDefs.2 ⟨args.map fun _ t => f t, ?_⟩)
        have self := h.undone_of_stays undoes hc mem stays
        rw [phis]
        exact List.mem_map.2
          ⟨_, List.mem_filter.2 ⟨mem, stays⟩, congrArg (Instr.phi · _) self.symm⟩
      have chosen : ∀ v ∈ args.values, f v = f (V.start c.label t) := fun _ hv =>
        alike_of_not_stays undoes hc mem gone hv
      refine ⟨fun p hp => chosen _ ?_, fun entry param => ?_⟩
      · exact List.mem_map.2 ⟨_, SortedMap.get?_eq_some.1 (onEdges p hp), rfl⟩
      · rw [if_pos ⟨entry, param⟩] at onEntry
        exact (chosen t (List.mem_map.2 ⟨_, SortedMap.get?_eq_some.1 onEntry, rfl⟩)).symm.trans
          (h.undone_of_param undoes param)
    · obtain ⟨onEdges, onEntry⟩ := h.joined c hc t ht phi
      refine ⟨fun p hp => congrArg f (onEdges p hp), fun entry param => ?_⟩
      exact (congrArg f (onEntry entry param)).trans (h.undone_of_param undoes param)
  once := h.once.sublist FlowGraph.afterRound_defs
  apart d hd := h.apart d (FlowGraph.afterRound_defs.subset hd)

/-- Behind a round there is a single-assignment form with the same versions, and what every round
keeps still holds. -/
theorem minimizeRound (wf : g.WellFormed) (free : g.PhiFree) {P : FlowGraph → Versioning → Prop}
    (kept : ∀ {g' V f}, Versioned g g' live V → Undoes f g'.superfluous → P g' V →
      P (g'.afterRound f) (V.through f))
    (h : Versioned g g' live V) (holds : P g' V) :
    ∃ V', V'.root = V.root ∧ Versioned g g'.minimizeRound.1 live V' ∧ P g'.minimizeRound.1 V' := by
  obtain ⟨f, undoes, same⟩ := FlowGraph.minimizeRound_eq (h.labels ▸ wf.nodup) h.once
    (h.sink_not_mem_defs free)
  rw [same]
  exact ⟨V.through f, rfl, h.afterRound free undoes, kept h undoes holds⟩

/-- What every round keeps holds of what is left without redundant phis, a single-assignment form
with the same versions. -/
theorem minimize_keeps (wf : g.WellFormed) (free : g.PhiFree) {P : FlowGraph → Versioning → Prop}
    (kept : ∀ {g' V f}, Versioned g g' live V → Undoes f g'.superfluous → P g' V →
      P (g'.afterRound f) (V.through f))
    (h : Versioned g g' live V) (holds : P g' V) :
    ∃ V', V'.root = V.root ∧ Versioned g g'.minimize.graph live V' ∧ P g'.minimize.graph V' := by
  refine FlowGraph.of_minimize
    (P := fun g' => ∃ V', V'.root = V.root ∧ Versioned g g' live V' ∧ P g' V') ?_ ⟨V, rfl, h, holds⟩
  rintro g' ⟨V', root, h', holds'⟩
  obtain ⟨V'', root', left⟩ := h'.minimizeRound wf free kept holds'
  exact ⟨V'', root'.trans root, left⟩

/-- What is left without redundant phis is a single-assignment form with the same versions. -/
theorem minimize (wf : g.WellFormed) (free : g.PhiFree) (h : Versioned g g' live V) :
    ∃ V', V'.root = V.root ∧ Versioned g g'.minimize.graph live V' := by
  obtain ⟨V', root, h', -⟩ :=
    h.minimize_keeps wf free (P := fun _ _ => True) (fun _ _ _ => trivial) trivial
  exact ⟨V', root, h'⟩

end Versioned

end ThreeAddress
