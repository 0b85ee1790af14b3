import ThreeAddress.Proofs.SingleAssignment.Passes
/-!
# No redundant phi is left

A round of the removal of redundant phis counts what it removes, and there are so many phis less
behind it. So the rounds come to an end, and the last one, which removes nothing, has looked at every
phi that is left. The other instructions are those that were there before, except that they read the
sources of the removed phis.

* `FlowGraph.RoundsTo` : rounds until one removes nothing, however many;
* `FlowGraph.Intact.phiCount_minimizeRound` : a round removes the phis that it counts;
* `FlowGraph.Intact.roundsTo`, `FlowGraph.RoundsTo.length_le` : the rounds come to an end, the last
  one after as many as there are phis;
* `FlowGraph.LosesPhis` : a graph without some phis of another, and with a renaming of what is read;
* `FlowGraph.RoundsTo.stays`, `FlowGraph.RoundsTo.exists_renaming` : what is left in the end;
* `FlowGraph.irredundant_minimize` : all of this for the single-assignment form of a procedure.
-/

namespace ThreeAddress

/-! ## One phi -/

/-- A phi with these arguments has none at all, or has two to choose from besides its own
destination. -/
def HasChoice (dest : Temp) (args : SortedMap Origin Temp) : Prop :=
  args.values = [] ∨ ∃ s ∈ args.values, ∃ t ∈ args.values, s ≠ t ∧ s ≠ dest ∧ t ≠ dest

namespace Instr

variable {dest : Temp} {args : SortedMap Origin Temp}

/-- The temporaries besides its destination that a phi can choose. -/
def otherSources (dest : Temp) (args : SortedMap Origin Temp) : SortedSet Temp :=
  .ofList (args.values.filter (· != dest))

theorem mem_otherSources {t : Temp} : t ∈ otherSources dest args ↔ t ∈ args.values ∧ t ≠ dest := by
  rw [otherSources, SortedSet.mem_ofList, List.mem_filter, bne_iff_ne]

/-- The phis that stay in a round are those that have a choice. -/
theorem hasChoice_of_stays (h : (phi dest args).stays = true) : HasChoice dest args := by
  rw [stays, Bool.and_eq_true, Option.isNone_iff_eq_none] at h
  obtain ⟨real, many⟩ := h
  by_cases empty : args.values = []
  · exact .inl empty
  · obtain ⟨s, hs⟩ : ∃ s, s ∈ otherSources dest args := by
      by_contra none
      refine absurd real ?_
      have null : args.values.all (· == dest) = true := List.all_eq_true.2 fun t ht =>
        beq_iff_eq.2 (by_contra fun other => none ⟨t, mem_otherSources.2 ⟨ht, other⟩⟩)
      simp [isNullChoice, null, empty]
    have distinct := SortedSet.nodup_toList (otherSources dest args)
    have hs := SortedSet.mem_iff.1 hs
    rw [singleSource?, ← otherSources] at many
    have mem : ∀ t ∈ (otherSources dest args).toList, t ∈ args.values ∧ t ≠ dest := fun t ht =>
      mem_otherSources.1 (SortedSet.mem_iff.2 ht)
    rcases all : (otherSources dest args).toList with _ | ⟨t, _ | ⟨u, rest⟩⟩
    · rw [all] at hs
      cases hs
    · simp [all] at many
    · rw [all] at distinct mem
      obtain ⟨ht, t_ne⟩ := mem t List.mem_cons_self
      obtain ⟨hu, u_ne⟩ := mem u (List.mem_cons_of_mem _ List.mem_cons_self)
      have ne : t ≠ u := fun e => (List.nodup_cons.1 distinct).1 (e ▸ List.mem_cons_self)
      exact .inr ⟨t, ht, u, hu, ne, t_ne, u_ne⟩

/-- Every phi stays, or chooses nothing, or has a single source. -/
theorem length_filter_stays {phis : List Instr} :
    (phis.filter stays).length + phis.countP isNullChoice +
      (phis.filterMap singleSource?).length = phis.length := by
  induction phis with
  | nil => rfl
  | cons i phis ih =>
    cases null : i.isNullChoice with
    | true =>
      have source := singleSource?_of_isNullChoice null
      have gone : i.stays = false := by simp [stays, null]
      rw [List.filter_cons_of_neg (by simp [gone]), List.countP_cons_of_pos null,
        List.filterMap_cons_none source, List.length_cons]
      omega
    | false =>
      rw [List.countP_cons_of_neg (by simp [null])]
      cases source : i.singleSource? with
      | none =>
        rw [List.filter_cons_of_pos (by simp [stays, null, source]), List.filterMap_cons_none source,
          List.length_cons, List.length_cons]
        omega
      | some e =>
        rw [List.filter_cons_of_neg (by simp [stays, source]), List.filterMap_cons_some source,
          List.length_cons, List.length_cons]
        omega

end Instr

/-! ## One round -/

/-- The instructions of a block that are no phis. -/
def Block.plain (b : Block) : List Instr := b.body.filter fun i => !i.isPhi

/-- The instructions that are no phis outlive a round. -/
theorem Block.plain_afterRound {f : Temp → Temp} (b : Block) :
    ({ b with body := (b.phis.filter Instr.stays ++ b.chosen).map (Instr.mapReads f) } : Block).plain =
      b.plain.map (Instr.mapUses f) := by
  have none : ∀ is : List Instr, (∀ i ∈ is, i.isPhi = true) → is.filter (fun i => !i.isPhi) = [] :=
    fun is phis => List.filter_eq_nil_iff.2 fun i hi => by simp [phis i hi]
  have chosen : b.chosen.filter (fun i => !i.isPhi) = b.code.filter fun i => !i.isPhi := by
    rw [Block.chosen, List.filter_filter]
    refine List.filter_congr fun i _ => ?_
    cases plain : i.isPhi with
    | true => rfl
    | false => simp [Instr.isNullChoice_of_plain plain]
  have plain : b.plain = b.code.filter fun i => !i.isPhi := by
    rw [Block.plain, ← b.phis_append_code, List.filter_append,
      none _ fun _ => Block.isPhi_of_mem_phis, List.nil_append]
  have same : (fun i => !i.isPhi) ∘ Instr.mapReads f = fun i => !i.isPhi :=
    funext fun i => congrArg not (Instr.isPhi_mapReads f i)
  rw [plain, ← chosen, Block.plain, List.filter_map, same, List.filter_append,
    none _ fun i hi => Block.isPhi_of_mem_phis (List.mem_filter.1 hi).1, List.nil_append]
  exact List.map_congr_left fun i hi =>
    Instr.mapReads_of_plain (by simpa using (List.mem_filter.1 hi).2) f

namespace FlowGraph

variable {g g' : FlowGraph}

/-- The phis at the heads of all blocks, in order. -/
def heads (g : FlowGraph) : List Instr := g.blocks.flatMap Block.phis

theorem mem_heads {i : Instr} : i ∈ g.heads ↔ ∃ b ∈ g.blocks, i ∈ b.phis := List.mem_flatMap

/-- What only phis are is counted at the heads of blocks. -/
theorem PhisFirst.countP_code (first : g.PhisFirst) {p : Instr → Bool}
    (onlyPhis : ∀ i, i.isPhi = false → p i = false) : g.code.countP p = g.heads.countP p := by
  have body : ∀ b ∈ g.blocks, b.body.countP p = b.phis.countP p := by
    intro b hb
    have none : b.code.countP p = 0 := List.countP_eq_zero.2 fun i hi => by
      simp [onlyPhis i (first b hb i hi)]
    rw [← b.phis_append_code, List.countP_append, none, Nat.add_zero]
  rw [code, heads, List.countP_flatMap, List.countP_flatMap]
  exact congrArg List.sum (List.map_congr_left body)

theorem PhisFirst.phiCount (first : g.PhisFirst) : g.phiCount = g.heads.length := by
  have all : ∀ i ∈ g.heads, i.isPhi = true := fun i hi => by
    obtain ⟨b, -, hi⟩ := mem_heads.1 hi
    exact Block.isPhi_of_mem_phis hi
  rw [FlowGraph.phiCount, first.countP_code fun _ plain => plain, List.countP_eq_length.2 all]

theorem superfluous_eq : g.superfluous = g.heads.filterMap Instr.singleSource? :=
  (List.filterMap_flatMap ..).symm

/-- A round counts the phis that choose nothing. -/
theorem PhisFirst.nullChoices_minimizeRound (first : g.PhisFirst) :
    g.minimizeRound.2.nullChoices = g.heads.countP Instr.isNullChoice := by
  have dropped : g.dropNullChoices.code = g.code.filter fun i => !i.isNullChoice := by
    simp only [code, dropNullChoices, mapBodies, List.flatMap_map, List.filter_flatMap]
  have removed : g.minimizeRound.2.nullChoices = g.code.length - g.dropNullChoices.code.length := rfl
  have whole := List.length_eq_countP_add_countP Instr.isNullChoice (l := g.code)
  have others : (g.code.filter fun i => !i.isNullChoice).length =
      g.code.countP fun i => ¬ i.isNullChoice = true := by
    rw [← List.countP_eq_length_filter]
    exact List.countP_congr fun i _ => by simp
  rw [removed, dropped, others, ← first.countP_code fun _ => Instr.isNullChoice_of_plain]
  omega

/-- And those that have a single source. -/
theorem collapsed_minimizeRound : g.minimizeRound.2.collapsed = g.superfluous.length := by
  have counted : g.minimizeRound.2.collapsed = g.dropNullChoices.collapsible.length := rfl
  rw [counted, collapsible_dropNullChoices, superfluous, List.flatMap_map, List.length_flatMap,
    List.length_flatMap]
  refine congrArg List.sum (List.map_congr_left fun b _ => ?_)
  rw [List.length_map]
  rfl

variable {f : Temp → Temp}

theorem heads_afterRound : (g.afterRound f).heads =
    (g.heads.filter Instr.stays).map (Instr.mapReads f) := by
  simp only [heads, afterRound, mapBodies, List.flatMap_map, List.filter_flatMap, List.map_flatMap]
  exact List.flatMap_congr fun b _ => (phis_and_code_afterRound b).1

/-- The second graph is the first without some of its phis, and with a renaming of what is read.
Only destinations of phis that are gone have other names. -/
structure LosesPhis (f : Temp → Temp) (g g' : FlowGraph) : Prop where
  blocks : g'.blocks.map (fun b => (b.label, b.named, b.plain)) =
    g.blocks.map fun b => (b.label, b.named, b.plain.map (Instr.mapUses f))
  heads : g'.heads.Sublist (g.heads.map (Instr.mapReads f))
  defs : g'.defs.Sublist g.defs
  moved : ∀ t, f t ≠ t → (∃ i ∈ g.heads, i.def? = some t) ∧ t ∉ g'.defs

namespace LosesPhis

variable {g'' : FlowGraph} {h : Temp → Temp}

theorem sink (loses : LosesPhis f g g') (named : .sink ∉ g.defs) : f .sink = .sink := by
  by_contra other
  obtain ⟨⟨i, hi, def_⟩, -⟩ := loses.moved _ other
  obtain ⟨b, hb, hi⟩ := mem_heads.1 hi
  exact named (mem_defs.2 ⟨b, hb, i, Block.mem_body_of_mem_phis hi, def_⟩)

/-- Losing more phis makes one renaming of two. -/
theorem trans (first : LosesPhis f g g') (more : LosesPhis h g' g'') (named : .sink ∉ g.defs) :
    LosesPhis (fun t => h (f t)) g g'' := by
  have sink' : h .sink = .sink := more.sink fun mem => named (first.defs.subset mem)
  refine ⟨?_, ?_, more.defs.trans first.defs, fun t other => ?_⟩
  · have regroup : ∀ (f : Temp → Temp) (bs : List Block),
        bs.map (fun b => (b.label, b.named, b.plain.map (Instr.mapUses f))) =
          (bs.map fun b => (b.label, b.named, b.plain)).map
            fun e => (e.1, e.2.1, e.2.2.map (Instr.mapUses f)) := by
      intro f bs
      rw [List.map_map]
      rfl
    rw [more.blocks, regroup, first.blocks, List.map_map]
    refine List.map_congr_left fun b _ => ?_
    simp only [Function.comp, List.map_map]
    congr 2
    exact List.map_congr_left fun i _ => Instr.mapUses_mapUses sink' i
  · have all := first.heads.map (Instr.mapReads h)
    rw [List.map_map] at all
    have twice : Instr.mapReads h ∘ Instr.mapReads f = Instr.mapReads fun t => h (f t) :=
      funext fun i => Instr.mapReads_mapReads sink' i
    exact more.heads.trans (twice ▸ all)
  · by_cases same : f t = t
    · rw [same] at other
      obtain ⟨⟨i, hi, def_⟩, gone⟩ := more.moved t other
      obtain ⟨j, hj, rfl⟩ := List.mem_map.1 (first.heads.subset hi)
      exact ⟨⟨j, hj, (Instr.def?_mapReads f j).symm.trans def_⟩, gone⟩
    · obtain ⟨phi, gone⟩ := first.moved t same
      exact ⟨phi, fun mem => gone (more.defs.subset mem)⟩

end LosesPhis

/-- A round removes phis, and nothing else. -/
theorem Intact.losesPhis_afterRound (h : g.Intact) (undoes : Undoes f g.superfluous) :
    LosesPhis f g (g.afterRound f) where
  blocks := by
    simp only [afterRound, mapBodies, List.map_map]
    exact List.map_congr_left fun b _ => congrArg (b.label, b.named, ·) b.plain_afterRound
  heads := by
    rw [heads_afterRound]
    exact List.filter_sublist.map _
  defs := afterRound_defs
  moved t other := by
    have mem : t ∈ g.superfluous.map Prod.fst := by_contra fun none => other (undoes.other t none)
    obtain ⟨e, he, rfl⟩ := List.mem_map.1 mem
    obtain ⟨b, hb, args, phi, source⟩ := mem_superfluous.1 he
    refine ⟨⟨_, mem_heads.2 ⟨b, hb, phi⟩, rfl⟩, fun left => ?_⟩
    obtain ⟨b', hb', i', hi', def'⟩ := mem_defs.1 left
    obtain ⟨c, hc, rfl⟩ := mem_mapBodies.1 hb'
    obtain ⟨i, hi, rfl⟩ := List.mem_map.1 hi'
    -- there is one definition, and it is the phi that the round removes
    have same : ∀ {i}, i ∈ c.body → i.def? = some e.1 → i = .phi e.1 args := fun hi def_ =>
      eq_of_def? h.once (mem_code.2 ⟨c, hc, hi⟩)
        (mem_code.2 ⟨b, hb, Block.mem_body_of_mem_phis phi⟩) def_ rfl
    rw [Instr.def?_mapReads] at def'
    rcases List.mem_append.1 hi with hi | hi
    · obtain ⟨hi, stays⟩ := List.mem_filter.1 hi
      rw [same (Block.mem_body_of_mem_phis hi) def'] at stays
      simp [Instr.stays, source] at stays
    · have hi := (List.mem_filter.1 hi).1
      have plain := h.phisFirst c hc i hi
      rw [same (Block.mem_body_of_mem_code hi) def'] at plain
      cases plain

/-- Behind a round there are so many phis less as it counts. -/
theorem Intact.phiCount_minimizeRound (h : g.Intact) :
    g.minimizeRound.1.phiCount + g.minimizeRound.2.nullChoices + g.minimizeRound.2.collapsed =
      g.phiCount := by
  obtain ⟨f, -, same⟩ := h.exists_afterRound
  rw [h.minimizeRound.phisFirst.phiCount, h.phisFirst.phiCount,
    h.phisFirst.nullChoices_minimizeRound, collapsed_minimizeRound, superfluous_eq, same,
    heads_afterRound, List.length_map]
  exact Instr.length_filter_stays

end FlowGraph

/-! ## All rounds -/

/-- Does a round remove nothing? -/
def MinimizeRound.Quiet (r : MinimizeRound) : Prop := r.nullChoices = 0 ∧ r.collapsed = 0

namespace FlowGraph

variable {g g' : FlowGraph} {rounds : List MinimizeRound}

/-- Rounds are made until one removes nothing. -/
inductive RoundsTo : FlowGraph → List MinimizeRound → FlowGraph → Prop
  | last {g : FlowGraph} (quiet : g.minimizeRound.2.Quiet) :
    RoundsTo g [g.minimizeRound.2] g.minimizeRound.1
  | again {g g' : FlowGraph} {rounds : List MinimizeRound} (busy : ¬ g.minimizeRound.2.Quiet)
      (more : RoundsTo g.minimizeRound.1 rounds g') : RoundsTo g (g.minimizeRound.2 :: rounds) g'

/-- A round that is not the last one leaves fewer phis. -/
theorem Intact.phiCount_lt (h : g.Intact) (busy : ¬ g.minimizeRound.2.Quiet) :
    g.minimizeRound.1.phiCount < g.phiCount := by
  have counted := h.phiCount_minimizeRound
  rw [MinimizeRound.Quiet] at busy
  omega

/-- With more rounds than there are phis, one of them removes nothing. -/
theorem Intact.roundsTo (h : g.Intact) {left : Nat} (enough : g.phiCount < left) :
    RoundsTo g (g.minimizeRounds left).rounds (g.minimizeRounds left).graph := by
  induction left generalizing g with
  | zero => exact absurd enough (Nat.not_lt_zero _)
  | succ left ih =>
    rw [minimizeRounds]
    by_cases quiet : g.minimizeRound.2.nullChoices = 0 ∧ g.minimizeRound.2.collapsed = 0
    · simp only [if_pos quiet]
      exact .last quiet
    · have fewer := h.phiCount_lt quiet
      simp only [if_neg quiet]
      exact .again quiet (ih h.minimizeRound (by omega))

namespace RoundsTo

/-- There is one round more than there are phis at most. -/
theorem length_le (h : RoundsTo g rounds g') (intact : g.Intact) :
    rounds.length ≤ g.phiCount + 1 := by
  induction h with
  | last => simp
  | @again g g' rounds busy _ ih =>
    have ih := ih intact.minimizeRound
    have fewer := intact.phiCount_lt busy
    rw [List.length_cons]
    omega

/-- A phi that is left has been looked at in the last round. -/
theorem stays (h : RoundsTo g rounds g') (intact : g.Intact) : ∀ i ∈ g'.heads, i.stays = true := by
  induction h with
  | @last g quiet =>
    intro i' hi'
    obtain ⟨f, undoes, same⟩ := intact.exists_afterRound
    have none : g.superfluous = [] := List.length_eq_zero_iff.1
      (collapsed_minimizeRound.symm.trans quiet.2)
    -- without a phi that has a single source, nothing is renamed
    have id : f = fun t => t := funext fun t => undoes.other t (by simp [none])
    rw [same, heads_afterRound, id] at hi'
    obtain ⟨i, hi, rfl⟩ := List.mem_map.1 hi'
    rw [Instr.mapReads_id]
    exact (List.mem_filter.1 hi).2
  | again _ _ ih => exact ih intact.minimizeRound

/-- The rounds lose phis, and nothing else. -/
theorem exists_renaming (h : RoundsTo g rounds g') (intact : g.Intact) :
    ∃ f, LosesPhis f g g' := by
  induction h with
  | @last g =>
    obtain ⟨f, undoes, same⟩ := intact.exists_afterRound
    exact ⟨f, same ▸ intact.losesPhis_afterRound undoes⟩
  | @again g g' _ _ _ ih =>
    obtain ⟨f, undoes, same⟩ := intact.exists_afterRound
    obtain ⟨f', more⟩ := ih intact.minimizeRound
    rw [same] at more
    exact ⟨_, (intact.losesPhis_afterRound undoes).trans more intact.named⟩

end RoundsTo

/-! ## Procedures -/

/-- The removal of redundant phis from the single-assignment form of a procedure comes to an end,
after one round more than there are phis at most. Every phi that is left has no argument at all, or
two to choose from besides its own destination. Nothing but phis is lost. -/
theorem irredundant_minimize {q : Proc} {names : FreshNames} (free : q.PhiFree)
    (built : ofProc q = .ok (g, names)) : ∃ c, g.convert names = .ok c ∧
      RoundsTo c.graph c.graph.minimize.rounds c.graph.minimize.graph ∧
      c.graph.minimize.rounds.length ≤ c.graph.phiCount + 1 ∧
      (∀ b ∈ c.graph.minimize.graph.blocks, ∀ dest args, .phi dest args ∈ b.body →
        HasChoice dest args) ∧
      ∃ f, LosesPhis f c.graph c.graph.minimize.graph := by
  have from_ := builtFrom_of_ofProc built
  have wf := from_.wellFormed
  obtain ⟨c, converted⟩ : ∃ c, g.convert names = .ok c := exists_conversion wf
  obtain ⟨live, V, -, versioned, -⟩ :=
    versioned_of_convert wf (from_.phiFree free).bare (avoids_of_ofProc built) converted
  have intact := intact_of_versioned wf (from_.phiFree free) versioned
  have rounds := intact.roundsTo (Nat.lt_succ_self _)
  refine ⟨c, converted, rounds, rounds.length_le intact, fun b hb dest args mem => ?_,
    rounds.exists_renaming intact⟩
  rw [← b.phis_append_code] at mem
  rcases List.mem_append.1 mem with phi | code
  · exact Instr.hasChoice_of_stays (rounds.stays intact _ (mem_heads.2 ⟨b, hb, phi⟩))
  · cases intact.minimize.phisFirst b hb _ code

/-- A loop within a loop, where the outer one prints a temporary that is never assigned. -/
def nestedLoops : Proc :=
  let n : Temp := ⟨"n", none⟩
  let x : Temp := ⟨"x", none⟩
  let u : Temp := ⟨"u", none⟩
  ⟨⟨"nested"⟩, [n, x], [
    .label ⟨"outer"⟩,
    .print (.temp u),
    .label ⟨"inner"⟩,
    .binary .sub (.temp n) (.temp n) (.temp x),
    .branch .positive (.temp n) ⟨"inner"⟩,
    .branch .nonzero (.temp n) ⟨"outer"⟩,
    .ret (.temp x)]⟩

/-- The phis of the temporary that is never assigned are removed in one round, although they only
have each other to choose from; those of the parameter that is never changed take two. -/
theorem irredundant_minimize_nestedLoops : nestedLoops.PhiFree ∧ ∃ g names c,
    ofProc nestedLoops = .ok (g, names) ∧ g.convert names = .ok c ∧ c.graph.phiCount = 10 ∧
      c.graph.minimize.graph.phiCount = 2 ∧
      RoundsTo c.graph [⟨0, 7⟩, ⟨0, 1⟩, ⟨0, 0⟩] c.graph.minimize.graph ∧
      (∀ b ∈ c.graph.minimize.graph.blocks, ∀ dest args, .phi dest args ∈ b.body →
        HasChoice dest args) ∧
      ∃ f, LosesPhis f c.graph c.graph.minimize.graph := by
  have free : nestedLoops.PhiFree := by decide
  obtain ⟨⟨g, names⟩, built⟩ : ∃ made, ofProc nestedLoops = .ok made := ⟨_, rfl⟩
  obtain ⟨c, converted, rounds, -, choices, loses⟩ := irredundant_minimize free built
  have found : ((ofProc nestedLoops).toOption.bind fun made =>
      (made.1.convert made.2).toOption.map fun c =>
        (c.graph.phiCount, c.graph.minimize.graph.phiCount, c.graph.minimize.rounds)) =
      some (10, 2, [⟨0, 7⟩, ⟨0, 1⟩, ⟨0, 0⟩]) := by
    decide +kernel
  simp only [built, converted, Except.toOption, Option.bind_some, Option.map_some,
    Option.some.injEq, Prod.mk.injEq] at found
  obtain ⟨phis, left, made⟩ := found
  exact ⟨free, g, names, c, built, converted, phis, left, made ▸ rounds, choices, loses⟩

end FlowGraph

end ThreeAddress
