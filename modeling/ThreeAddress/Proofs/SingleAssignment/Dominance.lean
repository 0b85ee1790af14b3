import ThreeAddress.Proofs.Liveness.Exact
import ThreeAddress.Proofs.SingleAssignment.Behaviour
import ThreeAddress.Proofs.SingleAssignment.Entry
import ThreeAddress.Proofs.SingleAssignment.Minimize
/-!
# Definitions dominate reads

In single-assignment form every read of a version comes behind its definition, on every walk from
the entry. A converted procedure has phis for all that is live in front of a block. The removal of
redundant phis keeps what is needed of them, but for one case: if the first block of a procedure is
a loop, control also comes to it from the entry, where no temporary has a version yet. A phi for a
temporary that is no parameter has no argument for the entry then, and may be replaced by what it
chooses in the later rounds of the loop. That is read in the first round, too.

* `Versioned.HasEntryPhis`, `Versioned.minimize_entryPhis` : a block that control does not come back
  to keeps its phis;
* `FlowGraph.dominated_of_minimize` : definitions dominate reads without redundant phis, if control
  does not come back to the first block, or no temporary but parameters is live before it;
* `FlowGraph.minimize_undominated` : a read in the first round of a loop.
-/

namespace ThreeAddress

variable {g g' : FlowGraph} {live : Liveness} {V : Versioning} {f : Temp → Temp}

namespace Versioned

/-- A block has phis for the temporaries that are live before it, apart from parameters. -/
def HasEntryPhis (g : FlowGraph) (live : Liveness) (l : Label) (g' : FlowGraph) (V : Versioning) :
    Prop :=
  ∀ b ∈ g'.blocks, b.label = l → ∀ t ∈ live.before l, t ∉ g.params → V.start l t ∈ b.phiDefs

/-- A phi chooses nothing if control comes from no block, unless it is that of a parameter. -/
theorem values_eq_nil (h : Versioned g g' live V) {b : Block} (hb : b ∈ g'.blocks)
    (none : g.preds b.label = []) {t : Temp} (ht : t ∈ live.before b.label) (other : t ∉ g.params)
    {args : SortedMap Origin Temp} (mem : .phi (V.start b.label t) args ∈ b.phis) :
    args.values = [] := by
  obtain ⟨u, hu, start, -, onEntry, -⟩ := h.phis b hb _ args mem
  have hl := h.labels ▸ FlowGraph.mem_labels.2 ⟨b, hb, rfl⟩
  obtain rfl : t = u := by
    rw [← h.root_start _ hl t ht, start, h.root_start _ hl u hu]
  refine List.eq_nil_iff_forall_not_mem.2 fun v hv => ?_
  obtain ⟨⟨origin, w⟩, he, -⟩ := List.mem_map.1 hv
  have value := SortedMap.get?_eq_some.2 he
  cases origin with
  | entry =>
    rw [value, if_neg fun both => other both.2] at onEntry
    cases onEntry
  | block p =>
    have edge := h.edges b hb _ args mem p w value
    rw [none] at edge
    cases edge

/-- Phis that choose nothing stay in every round. -/
theorem HasEntryPhis.afterRound (free : g.PhiFree) {l : Label} (none : g.preds l = [])
    (h : Versioned g g' live V) (undoes : Undoes f g'.superfluous)
    (phis : HasEntryPhis g live l g' V) :
    HasEntryPhis g live l (g'.afterRound f) (V.through f) := by
  rintro b' hb' rfl t ht other
  obtain ⟨c, hc, label, left, -⟩ := FlowGraph.exists_of_mem_afterRound (h.phisFirst free) hb'
  rw [label] at none ht ⊢
  obtain ⟨args, mem⟩ := Block.mem_phiDefs.1 (phis c hc label.symm t (label ▸ ht) other)
  rw [label] at mem
  have empty := h.values_eq_nil hc none ht other mem
  have source : (Instr.phi (V.start c.label t) args).singleSource? = Option.none := by
    rw [Instr.singleSource?, empty]
    rfl
  have self : f (V.start c.label t) = V.start c.label t := h.undone_of_def? undoes
    (FlowGraph.mem_code.2 ⟨c, hc, Block.mem_body_of_mem_phis mem⟩) rfl source
  refine Block.mem_phiDefs.2 ⟨args.map fun _ t => f t, ?_⟩
  rw [left]
  refine List.mem_map.2 ⟨_, List.mem_filter.2 ⟨mem, ?_⟩, congrArg (Instr.phi · _) self.symm⟩
  simp [Instr.stays, Instr.isNullChoice, source, empty]

/-- If every block has phis for all that is live before it, a block that control comes to from no
other keeps them. -/
theorem minimize_entryPhis (wf : g.WellFormed) (free : g.PhiFree) (h : Versioned g g' live V)
    (all : V.HasAllPhis g' live) : ∃ V', Versioned g g'.minimize.graph live V' ∧
      ∀ l, g.preds l = [] → HasEntryPhis g live l g'.minimize.graph V' := by
  obtain ⟨V', -, reduced, phis⟩ := h.minimize_keeps wf free
    (P := fun g' V => ∀ l, g.preds l = [] → HasEntryPhis g live l g' V)
    (fun h undoes phis l none => (phis l none).afterRound free none h undoes)
    (by
      rintro l - b hb rfl t ht -
      exact all b hb t ht)
  exact ⟨V', reduced, phis⟩

end Versioned

/-! ## Without redundant phis -/

namespace FlowGraph

variable {q : Proc} {names : FreshNames}

/-- Without redundant phis, the only definition of a version dominates its reads, if control does
not come back to the first block of the procedure, or no temporary with the name of the version is
live before that block but for parameters. -/
theorem dominated_of_minimize (free : q.PhiFree) (built : ofProc q = .ok (g, names)) :
    ∃ c, g.convert names = .ok c ∧ c.graph.minimize.graph.defs.Nodup ∧
      ∀ d ∈ c.graph.minimize.graph.defs,
        (∀ l, g.entry? = some l → g.preds l = [] ∨
          ∀ t, t.root = d.root → g.LiveAt t (.head l) → t ∈ g.params) →
        ∀ s, c.graph.minimize.graph.Reads d s → c.graph.minimize.graph.Dominated d s := by
  have from_ := builtFrom_of_ofProc built
  have wf := from_.wellFormed
  have freeGraph := from_.phiFree free
  obtain ⟨c, converted⟩ : ∃ c, g.convert names = .ok c := exists_conversion wf
  obtain ⟨live, V, found, versioned, all⟩ :=
    versioned_of_convert wf freeGraph.bare (avoids_of_ofProc built) converted
  have solved := solved_of_liveness wf.nodup found
  obtain ⟨l, entry⟩ := wf.exists_entry
  obtain ⟨V', reduced, phis⟩ := versioned.minimize_entryPhis wf freeGraph all
  refine ⟨c, converted, reduced.once, fun d hd careful s reads => ?_⟩
  have entry' : c.graph.minimize.graph.entry? = some l :=
    (entry?_of_labels reduced.labels).trans entry
  refine .of_not_liveAt entry' reads fun at_ => ?_
  refine reduced.not_live_of_phi wf freeGraph solved entry hd (fun before other b hb label => ?_)
    (at_.live (reduced.wellFormed wf) .entry)
  rcases careful l entry with none | params
  · exact phis l none b hb label _ before other
  · exact absurd (params _ (reduced.spelling d) (((hasAt_iff wf.nodup found).1 l).1 before)) other

/-- A procedure whose first block is a loop that counts down a parameter. -/
def countdownFrom : Proc :=
  let n : Temp := ⟨"n", none⟩
  let one : Temp := ⟨"one", none⟩
  ⟨⟨"count"⟩, [n], [
    .label ⟨"loop"⟩,
    .const (.temp one) 1,
    .binary .sub (.temp n) (.temp n) (.temp one),
    .branch .nonzero (.temp n) ⟨"loop"⟩,
    .ret (.temp n)]⟩

/-- Counting down a parameter reads every version behind its definition. -/
theorem dominated_of_minimize_countdownFrom : ∃ g names c,
    ofProc countdownFrom = .ok (g, names) ∧ g.convert names = .ok c ∧ g.preds ⟨"loop"⟩ ≠ [] ∧
      ∀ d ∈ c.graph.minimize.graph.defs, ∀ s, c.graph.minimize.graph.Reads d s →
        c.graph.minimize.graph.Dominated d s := by
  obtain ⟨⟨g, names⟩, built⟩ : ∃ made, ofProc countdownFrom = .ok made := ⟨_, rfl⟩
  obtain ⟨c, converted, -, dominated⟩ := dominated_of_minimize (by decide) built
  have found : (ofProc countdownFrom).toOption.map (fun made =>
      (made.1.preds ⟨"loop"⟩, FlowGraph.entry? made.1, made.1.params,
        made.1.liveness.toOption.map fun live => (live.before ⟨"loop"⟩).toList)) =
      some ([⟨"loop"⟩], some ⟨"loop"⟩, [⟨"n", none⟩], some [⟨"n", none⟩]) := by
    decide +kernel
  have wf := (builtFrom_of_ofProc built).wellFormed
  obtain ⟨live, solved⟩ := exists_liveness wf.nodup
  simp only [built, solved, Except.toOption, Option.map_some, Option.some.injEq, Prod.mk.injEq] at found
  obtain ⟨preds, entry, params, before⟩ := found
  refine ⟨g, names, c, built, converted, by simp [preds], fun d hd s => dominated d hd ?_ s⟩
  rintro l entry'
  obtain rfl : (⟨"loop"⟩ : Label) = l := Option.some.inj (entry.symm.trans entry')
  refine .inr fun t _ at_ => ?_
  have mem : t ∈ live.before ⟨"loop"⟩ := ((hasAt_iff wf.nodup solved).1 _).2 at_
  rw [SortedSet.mem_iff, before] at mem
  rwa [params]

/-- A procedure that reads a temporary behind a loop, in whose second round it is assigned. -/
def lateDefinition : Proc :=
  let n : Temp := ⟨"n", none⟩
  let y : Temp := ⟨"y", none⟩
  ⟨⟨"late"⟩, [n], [
    .label ⟨"L0"⟩,
    .branch .nonzero (.temp n) ⟨"L1"⟩,
    .const (.temp y) 5,
    .const (.temp n) 1,
    .jump ⟨"L0"⟩,
    .label ⟨"L1"⟩,
    .ret (.temp y)]⟩

/-- What is left of the procedure without redundant phis returns a version that has no definition
on the way past the loop. -/
theorem minimize_undominated : lateDefinition.PhiFree ∧ ∃ g names c,
    ofProc lateDefinition = .ok (g, names) ∧ g.convert names = .ok c ∧
      ∃ d ∈ c.graph.minimize.graph.defs, ∃ s, c.graph.minimize.graph.Reads d s ∧
        ¬ c.graph.minimize.graph.Dominated d s := by
  refine ⟨by decide, ?_⟩
  obtain ⟨⟨g, names⟩, built⟩ : ∃ made, ofProc lateDefinition = .ok made := ⟨_, rfl⟩
  obtain ⟨c, converted⟩ : ∃ c, g.convert names = .ok c :=
    exists_conversion (builtFrom_of_ofProc built).wellFormed
  let n (k : Nat) : Temp := ⟨"n", some k⟩
  let y : Temp := ⟨"y", some 3⟩
  let first : Block := ⟨⟨"L0"⟩, true, [
    .phi (n 1) (.ofList [(.entry, ⟨"n", none⟩), (.block ⟨"_bb0"⟩, n 4)]),
    .branch .nonzero (.temp (n 1)) ⟨"L1"⟩]⟩
  let last : Block := ⟨⟨"L1"⟩, true, [.ret (.temp y)]⟩
  have found : (ofProc lateDefinition).toOption.bind (fun made =>
      (made.1.convert made.2).toOption.map fun c => c.graph.minimize.graph) =
      some ⟨⟨"late"⟩, [⟨"n", none⟩], [first,
        ⟨⟨"_bb0"⟩, false, [.const (.temp y) 5, .const (.temp (n 4)) 1, .jump ⟨"L0"⟩]⟩, last]⟩ := by
    decide +kernel
  simp only [built, converted, Except.toOption, Option.bind_some, Option.map_some,
    Option.some.injEq] at found
  refine ⟨g, names, c, built, converted, ?_⟩
  rw [found]
  refine ⟨y, by decide, .within ⟨"L1"⟩ last.code, by decide, fun dominated => ?_⟩
  -- the branch is taken in the first round
  have walk : ∀ {g : FlowGraph}, first ∈ g.blocks → last ∈ g.blocks → last.label ∈ g.succs first.label →
      g.Walk (.head first.label) [.head first.label, .within first.label first.code,
        .within first.label [], .head last.label] (.within last.label last.code) :=
    fun hf hl edge => .go (.enter hf) (.go .pass (.go (.leave edge) (.go (.enter hl) (.here _))))
  obtain ⟨q, hq, defines⟩ := dominated ⟨"L0"⟩ _ rfl (walk (by decide) (by decide) (by decide))
  revert q
  decide

end FlowGraph

end ThreeAddress
