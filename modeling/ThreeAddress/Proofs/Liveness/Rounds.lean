import Mathlib.Algebra.Order.BigOperators.Group.List
import Mathlib.Algebra.Order.Ring.Nat
import ThreeAddress.Proofs.Liveness.Solution
/-!
# The rounds that find the live sets

A round never makes a live set smaller, and live sets only have temporaries of the procedure. A
round that leaves the live sets before all blocks as they are is followed by one that changes
nothing. So the rounds end within their bound, with live sets that agree with each other.

* `liveRounds_spec` : enough rounds find a table that a round keeps;
* `FlowGraph.solved_of_liveness` : the live sets that are found agree;
* `FlowGraph.exists_liveness` : and they are found.
-/

namespace ThreeAddress

namespace FlowGraph

variable {g : FlowGraph} {table table' : LiveTable} {t : Temp}

/-- A round through some blocks, from the last to the first. -/
def roundOver (g : FlowGraph) (blocks : List (Block × List Label)) (table : LiveTable) : LiveTable :=
  blocks.foldr
    (fun (b, succs) table => table.insert b.label (b.liveness (g.liveAfter table b.label succs)))
    table

theorem liveRound_eq (table : LiveTable) : g.liveRound table = g.roundOver (withSuccs g.blocks) table :=
  rfl

variable {blocks : List (Block × List Label)} {e : Block × List Label}

theorem roundOver_cons : g.roundOver (e :: blocks) table =
    (g.roundOver blocks table).insert e.1.label
      (e.1.liveness (g.liveAfter (g.roundOver blocks table) e.1.label e.2)) := rfl

theorem before_insert {l m : Label} {live : BlockLive} :
    LiveTable.before (table.insert l live) m =
      if m = l then live.before else LiveTable.before table m := by
  rw [LiveTable.before, SortedMap.get?_insert]
  by_cases h : m = l
  · rw [if_pos h, if_pos h]
  · rw [if_neg h, if_neg h, LiveTable.before]

/-- A round changes nothing at other labels. -/
theorem get?_roundOver {l : Label} (h : l ∉ blocks.map fun e => e.1.label) :
    (g.roundOver blocks table).get? l = table.get? l := by
  induction blocks with
  | nil => rfl
  | cons e rest ih =>
    rw [List.map_cons, List.mem_cons, not_or] at h
    rw [roundOver_cons, SortedMap.get?_insert, if_neg h.1, ih h.2]

/-! ## Rounds that change nothing -/

/-- If a round changes nothing, the live sets agree. -/
theorem get?_of_roundOver_eq (nodup : (blocks.map fun e => e.1.label).Nodup)
    (h : g.roundOver blocks table = table) (he : e ∈ blocks) :
    table.get? e.1.label = some (e.1.liveness (g.liveAfter table e.1.label e.2)) := by
  induction blocks with
  | nil => cases he
  | cons f rest ih =>
    rw [List.map_cons, List.nodup_cons] at nodup
    -- the round through the other blocks changes nothing either
    have rest_eq : g.roundOver rest table = table := by
      refine SortedMap.ext fun l => ?_
      by_cases hl : l = f.1.label
      · rw [hl, get?_roundOver nodup.1]
      · have := congrArg (fun m => SortedMap.get? m l) h
        rwa [roundOver_cons, SortedMap.get?_insert, if_neg hl] at this
    rcases List.mem_cons.1 he with rfl | he
    · have := congrArg (fun m => SortedMap.get? m e.1.label) h
      rw [roundOver_cons, SortedMap.get?_insert, if_pos rfl, rest_eq] at this
      exact this.symm
    · exact ih nodup.2 rest_eq he

/-- The labels of the blocks with their successors. -/
theorem map_label_withSuccs (blocks : List Block) :
    (withSuccs blocks).map (fun e => e.1.label) = blocks.map Block.label := by
  induction blocks with
  | nil => rfl
  | cons b rest ih => rw [withSuccs, List.map_cons, List.map_cons, ih]

/-- A table that a round keeps has live sets that agree. -/
theorem solved_of_liveRound (nodup : g.labels.Nodup) (h : g.liveRound table = table) (rounds : Nat) :
    Solved g ⟨table, g.liveAtEntry table, rounds⟩ := by
  refine ⟨fun b hb => ?_, rfl⟩
  have nodup' : ((withSuccs g.blocks).map fun e => e.1.label).Nodup := by
    rwa [map_label_withSuccs]
  have mem := (mem_withSuccs nodup).2 ⟨hb, rfl⟩
  have block := get?_of_roundOver_eq nodup' h mem
  rw [← succs_eq nodup hb] at block
  exact block

/-! ## Rounds grow -/

/-- The live sets before blocks are contained in those of the other table. -/
def Within (table table' : LiveTable) : Prop :=
  ∀ l t, t ∈ LiveTable.before table l → t ∈ LiveTable.before table' l

theorem mem_liveFrom_mono {after after' : SortedSet Temp} {code : List Instr}
    (h : ∀ t ∈ after, t ∈ after') (ht : t ∈ liveFrom after code) : t ∈ liveFrom after' code := by
  induction code generalizing t with
  | nil => exact h t ht
  | cons i rest ih =>
    rcases mem_liveBefore.1 ht with use | ⟨kept, ht⟩
    · exact mem_liveBefore.2 (.inl use)
    · exact mem_liveBefore.2 (.inr ⟨kept, ih ht⟩)

theorem mem_liveAfter_mono (h : Within table table') {l : Label} {succs : List Label}
    (ht : t ∈ g.liveAfter table l succs) : t ∈ g.liveAfter table' l succs := by
  obtain ⟨next, hn, before | arg⟩ := mem_liveAfter.1 ht
  · exact mem_liveAfter.2 ⟨next, hn, .inl (h next t before)⟩
  · exact mem_liveAfter.2 ⟨next, hn, .inr arg⟩

theorem roundOver_mono (h : Within table table') :
    Within (g.roundOver blocks table) (g.roundOver blocks table') := by
  induction blocks with
  | nil => exact h
  | cons e rest ih =>
    intro l t ht
    rw [roundOver_cons, before_insert] at ht ⊢
    by_cases hl : l = e.1.label
    · rw [if_pos hl, Block.mem_liveness_before] at ht ⊢
      exact ⟨ht.1, mem_liveFrom_mono (fun _ => mem_liveAfter_mono ih) ht.2⟩
    · rw [if_neg hl] at ht ⊢
      exact ih l t ht

/-- A round depends on nothing but the live sets before blocks. -/
theorem roundOver_congr (h : ∀ l, LiveTable.before table l = LiveTable.before table' l) :
    (∀ l, LiveTable.before (g.roundOver blocks table) l =
        LiveTable.before (g.roundOver blocks table') l) ∧
      ∀ l ∈ blocks.map (fun e => e.1.label),
        (g.roundOver blocks table).get? l = (g.roundOver blocks table').get? l := by
  induction blocks with
  | nil => exact ⟨h, fun l hl => by cases hl⟩
  | cons e rest ih =>
    have same : g.liveAfter (g.roundOver rest table) e.1.label e.2 =
        g.liveAfter (g.roundOver rest table') e.1.label e.2 := by
      refine SortedSet.ext fun t => ?_
      rw [mem_liveAfter, mem_liveAfter]
      simp only [ih.1]
    constructor
    · intro l
      rw [roundOver_cons, roundOver_cons, before_insert, before_insert, same, ih.1]
    · intro l hl
      rw [roundOver_cons, roundOver_cons, SortedMap.get?_insert, SortedMap.get?_insert, same]
      by_cases he : l = e.1.label
      · rw [if_pos he, if_pos he]
      · rw [if_neg he, if_neg he]
        refine ih.2 l ?_
        rw [List.map_cons, List.mem_cons] at hl
        exact hl.resolve_left he

/-! ## Rounds stay within the temporaries of the procedure -/

theorem not_isSink_of_mem_temps (sink : .sink ∉ g.temps) (ht : t ∈ g.temps) :
    t.isSink = false := by
  cases named : t.isSink with
  | false => rfl
  | true => exact absurd (Temp.isSink_iff.1 named ▸ ht) sink

theorem mem_temps_of_param (ht : t ∈ g.params) (named : t.isSink = false) : t ∈ g.temps := by
  rw [temps, SortedSet.mem_ofList]
  exact List.mem_append_left _ (List.mem_filter.2 ⟨ht, by simp [named]⟩)

theorem mem_temps_of_mem_temps {b : Block} (hb : b ∈ g.blocks) {i : Instr} (hi : i ∈ b.body)
    (ht : t ∈ i.temps) : t ∈ g.temps := by
  rw [temps, SortedSet.mem_ofList, List.mem_append, List.mem_flatMap]
  exact .inr ⟨b, hb, List.mem_flatMap.2 ⟨i, hi, ht⟩⟩

theorem mem_temps_of_mem_code {i : Instr} (hi : i ∈ g.code) (ht : t ∈ i.temps) : t ∈ g.temps := by
  obtain ⟨b, hb, hi⟩ := mem_code.1 hi
  exact mem_temps_of_mem_temps hb hi ht

theorem mem_temps_of_mem_uses {b : Block} (hb : b ∈ g.blocks) {i : Instr} (hi : i ∈ b.body)
    (ht : t ∈ i.uses) : t ∈ g.temps :=
  mem_temps_of_mem_temps hb hi (Instr.mem_temps.2 (.inr (.inl ht)))

theorem mem_temps_of_def? {b : Block} (hb : b ∈ g.blocks) {i : Instr} (hi : i ∈ b.body)
    (ht : i.def? = some t) : t ∈ g.temps :=
  mem_temps_of_mem_temps hb hi (Instr.mem_temps.2 (.inl ht))

theorem mem_temps_of_mem_phiArgsFrom {b : Block} (hb : b ∈ g.blocks) {origin : Origin}
    (ht : t ∈ b.phiArgsFrom origin) : t ∈ g.temps := by
  obtain ⟨dest, args, hi, arg⟩ := Block.mem_phiArgsFrom.1 ht
  refine mem_temps_of_mem_temps hb (Block.mem_body_of_mem_phis hi) ?_
  exact Instr.mem_temps.2 (.inr (.inr (List.mem_map.2 ⟨_, SortedMap.get?_eq_some.1 arg, rfl⟩)))

/-- Nothing but temporaries of the procedure is live. -/
def Inside (g : FlowGraph) (table : LiveTable) : Prop :=
  ∀ l t, t ∈ LiveTable.before table l → t ∈ g.temps ∧ l ∈ g.labels

/-- Nor is anything else live after a block. -/
theorem mem_temps_of_mem_liveAfter (nodup : g.labels.Nodup) (inside : g.Inside table) {l : Label}
    {succs : List Label} (ht : t ∈ g.liveAfter table l succs) : t ∈ g.temps := by
  obtain ⟨next, -, before | ⟨b, hb, arg⟩⟩ := mem_liveAfter.1 ht
  · exact (inside next t before).1
  · exact mem_temps_of_mem_phiArgsFrom ((block?_eq_some nodup).1 hb).1 arg

/-- Nor on entry. -/
theorem mem_temps_of_mem_liveAtEntry (inside : g.Inside table) (ht : t ∈ g.liveAtEntry table) :
    t ∈ g.temps := by
  rw [liveAtEntry] at ht
  split at ht
  · exact absurd ht (SortedSet.not_mem_empty t)
  · next first later blocks =>
    rcases SortedSet.mem_foldl_insert.1 ht with arg | before
    · exact mem_temps_of_mem_phiArgsFrom (by simp [blocks]) arg
    · exact (inside _ t before).1

/-- Nor within a block. -/
theorem mem_temps_of_mem_liveFrom {b : Block} (hb : b ∈ g.blocks) {after : SortedSet Temp}
    (inside : ∀ t ∈ after, t ∈ g.temps) {code : List Instr} (inner : ∀ i ∈ code, i ∈ b.body)
    (ht : t ∈ liveFrom after code) : t ∈ g.temps := by
  induction code generalizing t with
  | nil => exact inside t ht
  | cons i code ih =>
    rcases mem_liveBefore.1 ht with use | ⟨-, ht⟩
    · exact mem_temps_of_mem_uses hb (inner i List.mem_cons_self) use
    · exact ih (fun j hj => inner j (List.mem_cons_of_mem _ hj)) ht

theorem roundOver_inside (nodup : g.labels.Nodup) (sub : ∀ e ∈ blocks, e.1 ∈ g.blocks)
    (h : g.Inside table) : g.Inside (g.roundOver blocks table) := by
  induction blocks with
  | nil => exact h
  | cons e rest ih =>
    have ih := ih fun f hf => sub f (List.mem_cons_of_mem _ hf)
    have he := sub e List.mem_cons_self
    intro l t ht
    rw [roundOver_cons, before_insert] at ht
    by_cases hl : l = e.1.label
    · rw [if_pos hl, Block.mem_liveness_before] at ht
      have after : ∀ t ∈ g.liveAfter (g.roundOver rest table) e.1.label e.2, t ∈ g.temps :=
        fun t => mem_temps_of_mem_liveAfter nodup ih
      exact ⟨mem_temps_of_mem_liveFrom he after (fun _ => Block.mem_body_of_mem_code) ht.2,
        mem_labels.2 ⟨e.1, he, hl.symm⟩⟩
    · rw [if_neg hl] at ht
      exact ih l t ht

/-! ## Enough rounds -/

/-- The number of temporaries that are live before blocks, counted once for every block. -/
def liveCount (g : FlowGraph) (table : LiveTable) : Nat :=
  (g.labels.map fun l => (LiveTable.before table l).size).sum

theorem liveCount_le (h : g.Inside table) : g.liveCount table ≤ g.blocks.length * g.temps.size := by
  have each : ∀ n ∈ g.labels.map fun l => (LiveTable.before table l).size, n ≤ g.temps.size := by
    intro n hn
    obtain ⟨l, -, rfl⟩ := List.mem_map.1 hn
    exact SortedSet.size_le fun t ht => (h l t ht).1
  have sum := List.sum_le_card_nsmul _ _ each
  rw [List.length_map, labels, List.length_map] at sum
  exact sum

/-- A round that adds something adds to the count. -/
theorem liveCount_lt (h : Within table table') (inside : g.Inside table')
    (ne : ¬ ∀ l, LiveTable.before table l = LiveTable.before table' l) :
    g.liveCount table < g.liveCount table' := by
  rw [not_forall] at ne
  obtain ⟨l, ne⟩ := ne
  have hl : l ∈ g.labels := by
    refine Classical.byContradiction fun hl => ne (SortedSet.ext fun t => ?_)
    exact ⟨fun ht => absurd (inside l t (h l t ht)).2 hl, fun ht => absurd (inside l t ht).2 hl⟩
  refine List.sum_lt_sum _ _ (fun m _ => SortedSet.size_le (h m)) ⟨l, hl, ?_⟩
  exact SortedSet.size_lt (h l) ne

/-- Rounds find a table that a round keeps, if there are more of them than can add something. -/
theorem liveRounds_spec (nodup : g.labels.Nodup) {left rounds : Nat} (grows : Within table table')
    (round : g.liveRound table = table') (inside : g.Inside table)
    (enough : g.blocks.length * g.temps.size < left + g.liveCount table) :
    ∃ last n, g.liveRounds left rounds table' = some (last, n) ∧ g.liveRound last = last := by
  have sub : ∀ e ∈ withSuccs g.blocks, e.1 ∈ g.blocks :=
    fun e he => ((mem_withSuccs nodup).1 he).1
  have inside' : g.Inside table' := by
    rw [← round, liveRound_eq]
    exact roundOver_inside nodup sub inside
  induction left generalizing table table' rounds with
  | zero =>
    have := liveCount_le inside
    omega
  | succ left ih =>
    rw [liveRounds]
    by_cases stable : g.liveRound table' = table'
    · exact ⟨table', rounds + 1, by simp [stable], stable⟩
    simp only [if_neg stable]
    -- live sets before blocks that stayed as they are would have made this round the last
    have adds : ¬ ∀ l, LiveTable.before table l = LiveTable.before table' l := by
      intro same
      refine stable (SortedMap.ext fun l => ?_)
      have congr := @roundOver_congr g table table' (withSuccs g.blocks) same
      by_cases hl : l ∈ (withSuccs g.blocks).map fun e => e.1.label
      · rw [liveRound_eq, ← congr.2 l hl, ← liveRound_eq, round]
      · rw [liveRound_eq, get?_roundOver hl]
    have more := liveCount_lt grows inside' adds
    have grows' : Within table' (g.liveRound table') := by
      have := @roundOver_mono g table table' (withSuccs g.blocks) grows
      rwa [← liveRound_eq, ← liveRound_eq, round] at this
    refine ih grows' rfl inside' (by omega) ?_
    rw [liveRound_eq]
    exact roundOver_inside nodup sub inside'

/-- Nothing is live at the beginning of the search. -/
theorem before_unknown (labels : List Label) (l : Label) :
    LiveTable.before (.ofList (labels.map fun l => (l, .unknown))) l = ∅ := by
  rw [LiveTable.before]
  cases h : SortedMap.get? (.ofList (labels.map fun l => (l, BlockLive.unknown))) l with
  | none => rfl
  | some live =>
    obtain ⟨m, -, e⟩ := List.mem_map.1 (SortedMap.mem_of_get?_ofList h)
    cases e
    rfl

/-- What holds at the beginning and is kept by every round holds of the live sets that are found,
and a round keeps those. -/
theorem of_liveness {P : LiveTable → Prop} (start : P (.ofList (g.labels.map fun l => (l, .unknown))))
    (keeps : ∀ table, P table → P (g.liveRound table)) {live : Liveness}
    (h : g.liveness = .ok live) : P live.blocks ∧ g.liveRound live.blocks = live.blocks ∧
      live.atEntry = g.liveAtEntry live.blocks := by
  have last : ∀ {left rounds : Nat} {table last : LiveTable} {n : Nat}, P table →
      g.liveRounds left rounds table = some (last, n) → P last ∧ g.liveRound last = last := by
    intro left
    induction left with
    | zero => intro rounds table last n _ h; cases h
    | succ left ih =>
      intro rounds table last n holds h
      rw [liveRounds] at h
      by_cases stable : g.liveRound table = table
      · simp only [stable, if_true, Option.some.injEq, Prod.mk.injEq] at h
        rw [← h.1]
        exact ⟨holds, stable⟩
      · simp only [if_neg stable] at h
        exact ih (keeps table holds) h
  rw [liveness] at h
  split at h
  · next table rounds found =>
    cases h
    obtain ⟨holds, stable⟩ := last start found
    exact ⟨holds, stable, rfl⟩
  · cases h

/-- The live sets that are found agree with each other. -/
theorem solved_of_liveness (nodup : g.labels.Nodup) {live : Liveness}
    (h : g.liveness = .ok live) : Solved g live := by
  obtain ⟨-, stable, atEntry⟩ := of_liveness (P := fun _ => True) trivial (fun _ _ => trivial) h
  exact ⟨(solved_of_liveRound nodup stable live.rounds).blocks, atEntry⟩

/-- Only temporaries of the procedure are live, before blocks of the procedure. -/
theorem inside_of_liveness (nodup : g.labels.Nodup) {live : Liveness} (h : g.liveness = .ok live) :
    g.Inside live.blocks := by
  refine (of_liveness (P := g.Inside) (fun l t ht => ?_) (fun table inside => ?_) h).1
  · rw [before_unknown] at ht
    exact absurd ht (SortedSet.not_mem_empty t)
  · rw [liveRound_eq]
    exact roundOver_inside nodup (fun e he => ((mem_withSuccs nodup).1 he).1) inside

/-- The sink is not live if nothing names it. -/
theorem sink_not_live (nodup : g.labels.Nodup) (bare : g.Bare) {live : Liveness}
    (h : g.liveness = .ok live) (l : Label) : .sink ∉ live.before l := fun mem =>
  bare.sink (inside_of_liveness nodup h l _ mem).1

/-- Only a phi can name the sink. -/
theorem PhiFree.bare (free : g.PhiFree) : g.Bare := by
  refine ⟨fun b hb => Block.phis_of_phiFree (free b hb), fun mem => ?_⟩
  rw [temps, SortedSet.mem_ofList, List.mem_append, List.mem_flatMap] at mem
  rcases mem with param | ⟨b, hb, mem⟩
  · simp [Temp.isSink] at param
  · obtain ⟨i, hi, ht⟩ := List.mem_flatMap.1 mem
    have plain := free b hb i hi
    have named : Temp.sink.isSink = false := by
      rcases List.mem_append.1 ht with ht | ht
      · rcases List.mem_append.1 ht with hd | use
        · exact Instr.def?_not_isSink plain (Option.mem_toList.1 hd)
        · exact Instr.uses_not_isSink use
      · cases i with
        | phi dest args => cases plain
        | _ => cases ht
    simp [Temp.isSink] at named

/-- The live sets of a procedure are found within the bound. -/
theorem exists_liveness (nodup : g.labels.Nodup) : ∃ live, g.liveness = .ok live := by
  have inside : g.Inside (.ofList (g.labels.map fun l => (l, .unknown))) := by
    intro l t ht
    rw [before_unknown] at ht
    exact absurd ht (SortedSet.not_mem_empty t)
  have grows : Within (.ofList (g.labels.map fun l => (l, .unknown)))
      (g.liveRound (.ofList (g.labels.map fun l => (l, .unknown)))) := by
    intro l t ht
    rw [before_unknown] at ht
    exact absurd ht (SortedSet.not_mem_empty t)
  have bound : g.liveBound = g.blocks.length * g.temps.size + g.blocks.length + 1 + 1 := by
    rw [liveBound, Nat.mul_add, Nat.mul_one]
  rw [liveness, bound, liveRounds]
  by_cases stable : g.liveRound (.ofList (g.labels.map fun l => (l, .unknown))) =
      .ofList (g.labels.map fun l => (l, .unknown))
  · simp [stable]
  · have enough : g.blocks.length * g.temps.size < g.blocks.length * g.temps.size +
        g.blocks.length + 1 + g.liveCount (.ofList (g.labels.map fun l => (l, .unknown))) := by omega
    obtain ⟨last, n, found, -⟩ := @liveRounds_spec g _ _ nodup _ 1 grows rfl inside enough
    simp [stable, found]

end FlowGraph

end ThreeAddress
