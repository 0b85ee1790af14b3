import ThreeAddress.Proofs.FlowGraph.Walks
import ThreeAddress.Proofs.Liveness.Rounds
/-!
# Live sets are exact

What is live is in the live sets, since they agree with each other. And nothing else is: nothing is
live at the beginning of the search, and a round adds what some walk reads before defining it.

* `Solved.has_of_liveAt` : what is live is in the live sets;
* `FlowGraph.hasAt_iff` : what is in a live set is live, and the other way round;
* `FlowGraph.liveness_exact` : the live sets around blocks and instructions.
-/

namespace ThreeAddress

namespace Liveness

/-- What the live sets say about a site. -/
def HasAt (live : Liveness) (g : FlowGraph) (t : Temp) : Site → Prop
  | .head l => t ∈ live.before l
  | .within l rest => t ∈ liveFrom (live.after g l) rest

end Liveness

variable {g : FlowGraph} {live : Liveness} {t : Temp} {b : Block}

/-! ## What is live is in the live sets -/

/-- What is live is in the live sets. -/
theorem Solved.has_of_liveAt (h : Solved g live) (nodup : g.labels.Nodup) {s : Site}
    (at_ : g.LiveAt t s) : live.HasAt g t s := by
  refine at_.rec_on (fun s reads => ?_) fun s u goes kept has => ?_
  · cases s with
    | head => cases reads
    | within l rest =>
      cases rest with
      | nil =>
        obtain ⟨b, hb, edge, arg⟩ := reads
        exact FlowGraph.mem_liveAfter.2
          ⟨b.label, edge, .inr ⟨b, (FlowGraph.block?_eq_some nodup).2 ⟨hb, rfl⟩, arg⟩⟩
      | cons i rest => exact mem_liveBefore.2 (.inl reads)
  · cases goes with
    | enter hb => exact (h.mem_before hb).2 ⟨fun phi => kept ⟨_, hb, rfl, phi⟩, has⟩
    | pass => exact mem_liveBefore.2 (.inr ⟨kept, has⟩)
    | leave edge => exact FlowGraph.mem_liveAfter.2 ⟨_, edge, .inl has⟩

/-! ## What is in the live sets is live -/

namespace FlowGraph

/-- The live sets before blocks have nothing but what is live. -/
def OnlyLive (g : FlowGraph) (table : LiveTable) : Prop :=
  ∀ l t, t ∈ LiveTable.before table l → g.LiveAt t (.head l)

variable {table : LiveTable}

theorem OnlyLive.after (h : g.OnlyLive table) (nodup : g.labels.Nodup) {l : Label}
    (ht : t ∈ g.liveAfter table l (g.succs l)) : g.LiveAt t (.within l []) := by
  obtain ⟨next, edge, before | ⟨c, found, arg⟩⟩ := mem_liveAfter.1 ht
  · exact .go (.leave edge) id (h next t before)
  · obtain ⟨hc, rfl⟩ := (block?_eq_some nodup).1 found
    exact .here ⟨c, hc, edge, arg⟩

/-- What is in the live set before some instructions is live there, if that is so behind them. -/
theorem liveAt_of_mem_liveFrom {l : Label} {after : SortedSet Temp}
    (behind : ∀ t ∈ after, g.LiveAt t (.within l [])) {rest : List Instr}
    (ht : t ∈ liveFrom after rest) : g.LiveAt t (.within l rest) := by
  induction rest with
  | nil => exact behind t ht
  | cons i rest ih =>
    rcases mem_liveBefore.1 ht with use | ⟨kept, later⟩
    · exact .here use
    · exact .go .pass kept (ih later)

/-- What is live behind the phis of a block and defined by none of them is live before it. -/
theorem LiveAt.enter (nodup : g.labels.Nodup) (hb : b ∈ g.blocks) (kept : t ∉ b.phiDefs)
    (h : g.LiveAt t (.within b.label b.code)) : g.LiveAt t (.head b.label) := by
  refine .go (.enter hb) ?_ h
  rintro ⟨c, hc, label, phi⟩
  obtain rfl := eq_of_label nodup hb hc label
  exact kept phi

theorem OnlyLive.roundOver (nodup : g.labels.Nodup) {blocks : List (Block × List Label)}
    (sub : ∀ e ∈ blocks, e ∈ withSuccs g.blocks) (h : g.OnlyLive table) :
    g.OnlyLive (g.roundOver blocks table) := by
  induction blocks with
  | nil => exact h
  | cons e rest ih =>
    have ih := ih fun f hf => sub f (List.mem_cons_of_mem _ hf)
    obtain ⟨b, succs⟩ := e
    obtain ⟨hb, same⟩ := (mem_withSuccs nodup).1 (sub _ List.mem_cons_self)
    rw [← succs_eq nodup hb] at same
    intro l t ht
    rw [roundOver_cons, before_insert] at ht
    by_cases label : l = b.label
    · subst label
      rw [if_pos rfl, Block.mem_liveness_before, same] at ht
      exact .enter nodup hb ht.1 (liveAt_of_mem_liveFrom (fun t => ih.after nodup) ht.2)
    · rw [if_neg label] at ht
      exact ih l t ht

/-- What is in the live set before a block is live there. -/
theorem onlyLive_of_liveness (nodup : g.labels.Nodup) (h : g.liveness = .ok live) :
    g.OnlyLive live.blocks := by
  refine (of_liveness (P := g.OnlyLive) (fun l t ht => ?_) (fun table only => ?_) h).1
  · rw [before_unknown] at ht
    exact absurd ht (SortedSet.not_mem_empty t)
  · rw [liveRound_eq]
    exact only.roundOver nodup fun e he => he

/-- The live sets say of every site what is live there. -/
theorem hasAt_iff (nodup : g.labels.Nodup) (h : g.liveness = .ok live) :
    (∀ l, live.HasAt g t (.head l) ↔ g.LiveAt t (.head l)) ∧
      ∀ l rest, live.HasAt g t (.within l rest) ↔ g.LiveAt t (.within l rest) := by
  have only := onlyLive_of_liveness nodup h
  have solved := solved_of_liveness nodup h
  exact ⟨fun l => ⟨only l t, solved.has_of_liveAt nodup⟩, fun l rest =>
    ⟨liveAt_of_mem_liveFrom fun t => only.after nodup, solved.has_of_liveAt nodup⟩⟩

end FlowGraph

/-! ## The sets around instructions -/

theorem length_liveThrough (after : SortedSet Temp) (code : List Instr) :
    (liveThrough after code).1.length = code.length := by
  induction code with
  | nil => rfl
  | cons i rest ih => exact congrArg (· + 1) ih

/-- The live sets around an instruction are those before the rest of the code. -/
theorem eq_of_getElem?_liveThrough {after : SortedSet Temp} {code : List Instr} {n : Nat}
    {s : InstrLive} (h : (liveThrough after code).1[n]? = some s) :
    s = ⟨liveFrom after (code.drop n), liveFrom after (code.drop (n + 1))⟩ := by
  induction code generalizing n with
  | nil => cases h
  | cons i rest ih =>
    cases n with
    | zero => exact (Option.some.inj h).symm
    | succ n => exact ih h

/-- Around the phis there are the same sets, and behind them those of the code. -/
theorem Solved.instrs (h : Solved g live) (hb : b ∈ g.blocks) : live.instrs b.label =
    b.phis.map (fun _ => ⟨live.before b.label, liveFrom (live.after g b.label) b.code⟩) ++
      (liveThrough (live.after g b.label) b.code).1 := by
  rw [Liveness.instrs, Liveness.before, LiveTable.before, h.blocks b hb]
  rfl

theorem Block.drop_body {n : Nat} (h : b.phis.length ≤ n) :
    b.body.drop n = b.code.drop (n - b.phis.length) := by
  rw [← b.phis_append_code, List.drop_append, List.drop_eq_nil_of_le h, List.nil_append]

/-- Live sets are found for every graph, and they are exact: before every block, before and after
every instruction that is no phi at a head, and behind the phis at the head of a block, they have
just the temporaries that some walk from there reads before defining them. -/
theorem FlowGraph.liveness_exact (nodup : g.labels.Nodup) : ∃ live, g.liveness = .ok live ∧
    ∀ b ∈ g.blocks, (∀ t, t ∈ live.before b.label ↔ g.LiveAt t (.head b.label)) ∧
      (live.instrs b.label).length = b.body.length ∧
      ∀ n s, (live.instrs b.label)[n]? = some s →
        (n < b.phis.length → ∀ t, t ∈ s.after ↔ g.LiveAt t (.within b.label b.code)) ∧
        (b.phis.length ≤ n → ∀ t,
          (t ∈ s.before ↔ g.LiveAt t (.within b.label (b.body.drop n))) ∧
            (t ∈ s.after ↔ g.LiveAt t (.within b.label (b.body.drop (n + 1))))) := by
  obtain ⟨live, found⟩ := exists_liveness nodup
  refine ⟨live, found, fun b hb => ⟨fun t => (hasAt_iff nodup found).1 b.label, ?_, fun n s hs => ?_⟩⟩
  · rw [(solved_of_liveness nodup found).instrs hb, List.length_append, List.length_map,
      length_liveThrough, ← List.length_append, b.phis_append_code]
  · have within : ∀ t rest, t ∈ liveFrom (live.after g b.label) rest ↔
        g.LiveAt t (.within b.label rest) := fun t rest => (hasAt_iff nodup found).2 b.label rest
    rw [(solved_of_liveness nodup found).instrs hb] at hs
    refine ⟨fun leading => ?_, fun behind => ?_⟩
    · rw [List.getElem?_append_left (by rwa [List.length_map]), List.getElem?_map] at hs
      obtain ⟨-, -, rfl⟩ := Option.map_eq_some_iff.1 hs
      exact fun t => within t b.code
    · rw [List.getElem?_append_right (by rwa [List.length_map]), List.length_map] at hs
      obtain rfl := eq_of_getElem?_liveThrough hs
      rw [Block.drop_body behind, Block.drop_body (Nat.le_succ_of_le behind), Nat.succ_sub behind]
      exact fun t => ⟨within t _, within t _⟩

/-- A loop that counts down to zero, with a phi for the counter. -/
def FlowGraph.counting : FlowGraph :=
  let one : Temp := ⟨"one", none⟩
  let n (k : Nat) : Temp := ⟨"n", some k⟩
  ⟨⟨"count"⟩, [one, n 1], [
    ⟨⟨"entry"⟩, true, []⟩,
    ⟨⟨"loop"⟩, true, [
      .phi (n 2) (.ofList [(.block ⟨"entry"⟩, n 1), (.block ⟨"loop"⟩, n 3)]),
      .binary .sub (.temp (n 3)) (.temp (n 2)) (.temp one),
      .branch .nonzero (.temp (n 3)) ⟨"loop"⟩]⟩,
    ⟨⟨"exit"⟩, true, [.ret (.temp (n 3))]⟩]⟩

/-- In front of the loop the step is live, but neither of the counters is: the phi defines one and
reads the other on its edge. -/
theorem FlowGraph.liveness_exact_counting :
    counting.labels.Nodup ∧ counting.LiveAt ⟨"one", none⟩ (.head ⟨"loop"⟩) ∧
      ¬ counting.LiveAt ⟨"n", some 2⟩ (.head ⟨"loop"⟩) ∧
      ¬ counting.LiveAt ⟨"n", some 3⟩ (.head ⟨"loop"⟩) := by
  have nodup : counting.labels.Nodup := by decide
  obtain ⟨live, found, exact_⟩ := counting.liveness_exact nodup
  obtain ⟨before, -⟩ := exact_ _ (List.mem_cons_of_mem _ List.mem_cons_self)
  have sets : counting.liveness.toOption.map (fun live => (live.before ⟨"loop"⟩).toList) =
      some [⟨"one", none⟩] := rfl
  rw [found] at sets
  have loop : (live.before ⟨"loop"⟩).toList = [⟨"one", none⟩] := Option.some.inj sets
  refine ⟨nodup, (before _).1 ?_, fun h => ?_, fun h => ?_⟩
  · rw [SortedSet.mem_iff, loop]
    exact List.mem_cons_self
  · have mem := (before _).2 h
    rw [SortedSet.mem_iff, loop] at mem
    exact absurd mem (by decide)
  · have mem := (before _).2 h
    rw [SortedSet.mem_iff, loop] at mem
    exact absurd mem (by decide)

end ThreeAddress
