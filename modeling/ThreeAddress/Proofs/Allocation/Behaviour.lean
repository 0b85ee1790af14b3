import ThreeAddress.Proofs.Allocation.Homes
import ThreeAddress.Proofs.FlowGraph.Defined
import ThreeAddress.Proofs.SingleAssignment.Behaviour
import ThreeAddress.Proofs.SingleAssignment.Minimize
/-!
# Running a procedure at home

A procedure may be run in a store that is keyed by the homes of temporaries. If the homes come from
an allocation, whatever succeeds with a value for every temporary does the same at home.

* `Keeping.atHome` : a store that is keyed by homes; what was never written there is arbitrary;
* `FlowGraph.Runs.atHome` : a strict run that succeeds is a run at home;
* `FlowGraph.RunsAtHome` : a graph may be run at home, with so many registers;
* `Proc.runsAtHome` : all graphs of a procedure may.
-/

namespace ThreeAddress

open Execution Target

/-- In a store that is keyed by homes. A phi whose argument is absent writes nothing. -/
def Keeping.atHome (homes : Homes) : Keeping (Location → Word) where
  get? s t := (homes.get? t).map s
  set s t w :=
    match homes.get? t with
    | some l => Function.update s l w
    | none => s
  choose s t w? :=
    match homes.get? t, w? with
    | some l, some w => Function.update s l w
    | _, _ => s

variable {g : FlowGraph} {live : Liveness} {homes : Homes} {b : Block} {origin : Origin}
  {s : Temp → Option Word} {s' : Location → Word}

/-- The contents of a store. -/
def contents (s : Location → Word) (l : Location) : Option Word := some (s l)

namespace Keeping

theorem atHome_set {t : Temp} {l : Location} (h : homes.get? t = some l) (w : Word) :
    (atHome homes).set s' t w = Function.update s' l w := by
  simp only [atHome, h]

/-- Phis make the moves between homes one by one, with what the sources had before. -/
theorem atHome_assign (phis : List Instr) (s' : Location → Word) :
    (atHome homes).assign origin phis s' =
      (homeMoves homes origin phis).foldl (fun r m => Function.update r m.1 (s' m.2)) s' := by
  have all : ∀ r : Location → Word, (phis.filterMap ((atHome homes).chosen s' origin)).foldl
      (fun r e => (atHome homes).choose r e.1 e.2) r =
      (homeMoves homes origin phis).foldl (fun r m => Function.update r m.1 (s' m.2)) r := by
    induction phis with
    | nil => exact fun r => rfl
    | cons i rest ih =>
      intro r
      cases i with
      | phi d args =>
        have chosen : (atHome homes).chosen s' origin (.phi d args) =
            some (d, ((args.get? origin).bind homes.get?).map s') := by
          simp only [Keeping.chosen, atHome, Option.map_bind]
          rfl
        rw [List.filterMap_cons_some chosen, List.foldl_cons, ih, homeMoves]
        cases (args.get? origin).bind homes.get? with
        | none => cases hd : homes.get? d <;> simp [atHome, hd]
        | some src => cases hd : homes.get? d <;> simp [atHome, hd]
      | _ => exact ih r
  exact all s'

theorem moved_atHome {phis : List Instr}
    (nodup : ((homeMoves homes origin phis).map Prod.fst).Nodup) :
    Moved (homeMoves homes origin phis) (contents s')
      (contents ((atHome homes).assign origin phis s')) := by
  rw [atHome_assign]
  generalize homeMoves homes origin phis = moves at nodup
  have all : ∀ r : Location → Word,
      (∀ m ∈ moves, moves.foldl (fun r m => Function.update r m.1 (s' m.2)) r m.1 = s' m.2) ∧
      ∀ l, l ∉ moves.map Prod.fst →
        moves.foldl (fun r m => Function.update r m.1 (s' m.2)) r l = r l := by
    induction moves with
    | nil => exact fun r => ⟨by simp, fun l _ => rfl⟩
    | cons m rest ih =>
      intro r
      rw [List.map_cons, List.nodup_cons] at nodup
      obtain ⟨written, kept⟩ := ih nodup.2 (Function.update r m.1 (s' m.2))
      refine ⟨fun m' hm' => ?_, fun l hl => ?_⟩
      · rcases List.mem_cons.1 hm' with rfl | hm'
        · exact (kept m'.1 nodup.1).trans (Function.update_self ..)
        · exact written m' hm'
      · rw [List.map_cons, List.mem_cons, not_or] at hl
        exact (kept l hl.2).trans (Function.update_of_ne hl.1 ..)
  obtain ⟨written, kept⟩ := all s'
  exact ⟨fun m hm => congrArg some (written m hm), fun l hl => congrArg some (kept l hl)⟩

end Keeping

/-! ## Parameters -/

/-- The parameters have their values at home once they are written there. -/
theorem agrees_params (housed : Housed g live homes) (args : List Word) (s' : Location → Word)
    (entry : Temp → Prop) :
    Agrees homes entry (Keeping.strict.setAll (fun _ => none) (g.params.zip args))
      (contents ((Keeping.atHome homes).setAll s' (g.params.zip args))) := by
  have all : ∀ (l : List (Temp × Word)), (∀ e ∈ l, e.1 ∈ g.params) →
      ∀ (s : Temp → Option Word) (s' : Location → Word),
      (∀ t, s t ≠ none → t ∈ g.params) → Agrees homes (fun _ => True) s (contents s') →
      Agrees homes (fun _ => True) (Keeping.strict.setAll s l)
        (contents ((Keeping.atHome homes).setAll s' l)) := by
    intro l
    induction l with
    | nil => exact fun _ s s' _ h => h
    | cons e rest ih =>
      intro params s s' inside h
      have param := params e List.mem_cons_self
      refine ih (fun e he => params e (List.mem_cons_of_mem _ he)) _ _ (fun t ht => ?_) ?_
      · by_cases same : t = e.1
        · exact same ▸ param
        · exact inside t fun none => ht ((if_neg same).trans none)
      · intro t _ named w hw
        by_cases same : t = e.1
        · subst same
          obtain rfl : e.2 = w := Option.some.inj ((if_pos rfl).symm.trans hw)
          obtain ⟨l, hl⟩ := housed.homed e.1 (FlowGraph.mem_temps_of_param param named) named
          refine ⟨l, hl, congrArg some ?_⟩
          exact (congrFun (Keeping.atHome_set hl e.2) l).trans (Function.update_self ..)
        · have old : s t = some w := (if_neg same).symm.trans hw
          obtain ⟨l, hl, value⟩ := h t trivial named w old
          refine ⟨l, hl, ?_⟩
          cases hd : homes.get? e.1 with
          | none => simpa [Keeping.atHome, hd] using value
          | some k =>
            have ne : l ≠ k := by
              rintro rfl
              have ht : t ∈ g.params := inside t (by simp [old])
              exact housed.params e.1 param (housed.named _ _ hd) t ht named (Ne.symm same) _ hd hl
            refine (congrArg some ?_).trans value
            exact (congrFun (Keeping.atHome_set hd e.2) l).trans (Function.update_of_ne ne ..)
  refine (all _ (fun e he => (List.of_mem_zip he).1) _ s' (fun t ht => absurd rfl ht) ?_).mono
    fun _ _ => trivial
  intro t _ _ w hw
  cases hw

/-! ## A graph -/

section Runs

/-- Values at home in front of a block. -/
def HomesEnter (g : FlowGraph) (live : Liveness) (homes : Homes) (origin : Origin) (l : Label)
    (s : Temp → Option Word) (s' : Location → Word) : Prop :=
  Agrees homes (fun t => live.Has g t (.enter origin l)) s (contents s')

/-- Values at home within a block, at the same code. -/
def HomesWithin (g : FlowGraph) (live : Liveness) (homes : Homes) (_ : Origin) (b : Block)
    (rest : List Instr) (s : Temp → Option Word) (rest' : List Instr) (s' : Location → Word) : Prop :=
  rest' = rest ∧ Agrees homes (· ∈ liveFrom (live.after g b.label) rest) s (contents s')

variable {g : FlowGraph} {live : Liveness} {homes : Homes}

/-- Entering a block, the phis leave values at home. -/
theorem Housed.enterKept (housed : Housed g live homes) (nodup : g.labels.Nodup)
    (named : g.PhisNamed) (once : ∀ b ∈ g.blocks, b.phiDefs.Nodup) (solved : Solved g live) :
    EnterKept g g .strict (.atHome homes) (HomesEnter g live homes) (HomesWithin g live homes) := by
  intro origin b b' s s' hb hb' label arrives agrees
  obtain rfl := FlowGraph.eq_of_label nodup hb hb' label
  refine ⟨rfl, agrees.enter solved housed named hb (once b' hb) ?_⟩
  exact Keeping.moved_atHome (nodup_homeMoves housed named hb (fun i hi => hi) (once b' hb))

/-- At the end of a block, what is live behind it is at home. -/
theorem homes_leaveKept (wf : g.WellFormed) :
    LeaveKept g (HomesEnter g live homes) (HomesWithin g live homes) := by
  rintro origin b s rest' s' at_ ⟨rfl, agrees⟩
  refine ⟨rfl, fun l next => agrees.mono fun t has => ?_⟩
  exact Liveness.mem_after wf.nodup at_.mem (Block.mem_succs.2 (.inr ⟨at_.falls rfl, next⟩)) has

/-- An instruction reads from the homes what it reads by name, and what it writes is at home. -/
theorem Housed.instrKept (housed : Housed g live homes) (wf : g.WellFormed) :
    InstrKept g g .strict (.atHome homes) (.afterFailure Point (Location → Word))
      (HomesEnter g live homes) (HomesWithin g live homes) := by
  rintro origin b i rest s _ s' staged globals at_ plain ⟨rfl, agrees⟩
  obtain ⟨front, split⟩ := at_.front
  refine ⟨i, rest, rfl, plain, ?_⟩
  have reads : ∀ t ∈ i.uses, ∀ w, s t = some w → (Keeping.atHome homes).get? s' t = some w := by
    intro t ht w hw
    obtain ⟨l, hl, value⟩ := agrees t (mem_liveBefore.2 (.inl ht)) (Instr.uses_not_isSink ht) w hw
    exact (congrArg (Option.map s') hl).trans value
  have pass : i.def? = none →
      Agrees homes (· ∈ liveFrom (live.after g b.label) rest) s (contents s') :=
    fun hd => agrees.pass hd fun _ _ _ _ => rfl
  refine alike_perform_same rfl (fun _ => trivial) plain reads
    (fun t _ _ => .inl fun _ => trivial) (fun d hd w _ => ?_) (fun hd falls => ?_) fun l hl => ?_
  · refine ⟨b, rest, rfl, rfl, at_.pass (Instr.fallsThrough_of_def? hd), rfl, ?_⟩
    refine agrees.define housed at_.mem split plain hd (fun l hl => ?_) fun t _ l _ other => ?_
    · rw [contents, Keeping.atHome_set hl, Function.update_self]
    · cases home : homes.get? d with
      | none => simp only [Keeping.atHome, home]
      | some k =>
        have ne : l ≠ k := fun e => other (home.trans (congrArg some e.symm))
        rw [contents, Keeping.atHome_set home, Function.update_of_ne ne, contents]
  · exact ⟨b, rest, rfl, rfl, at_.pass falls, rfl, pass hd⟩
  · have undefined : i.def? = none := by
      cases i <;> simp_all [Instr.target?, Instr.def?, Instr.dest?]
    obtain rfl := at_.rest_nil wf (Instr.isTransfer_of_target hl)
    refine alike_graph_goto wf rfl at_ hl ((pass undefined).mono fun t has => ?_) staged globals
    exact Liveness.mem_after wf.nodup at_.mem (Block.mem_succs.2 (.inl (at_.target wf hl).1)) has

/-- A strict run that succeeds is a run at home, whatever the homes contain at the beginning. -/
theorem FlowGraph.Runs.atHome (wf : g.WellFormed) (first : g.PhisFirst) (named : g.PhisNamed)
    (once : ∀ b ∈ g.blocks, b.phiDefs.Nodup) (solved : Solved g live)
    (housed : Housed g live homes) {args : List Word} {globals : Store Global} {t : List Effect}
    {v : Word × Store Global}
    (h : g.Runs .strict (.enter .strict (fun _ => none) g.params args globals) t (.ok v))
    (s : Location → Word) :
    g.Runs (.atHome homes) (.enter (.atHome homes) s g.params args globals) t (.ok v) := by
  have follows := Follows.of_step fun _ _ _ _ staged globals q =>
    lockstep_graph wf first wf.nodup rfl (housed.enterKept wf.nodup named once solved)
      (homes_leaveKept wf) (housed.instrKept wf) q staged globals
  exact h.carry_ok follows id rfl wf fun l _ => agrees_params housed args s _

theorem FlowGraph.Runs.parts_or_eq {σ : Type} {K : Keeping σ} {a : Local σ} {t t' : List Effect}
    {r r' : Result} (wf : g.WellFormed) (h : g.Runs K a t r) (h' : g.Runs K a t' r') :
    Parts t t' ∨ t' = t ∧ r' = r := by
  obtain ⟨l, entry⟩ := wf.exists_entry
  exact ((FlowGraph.runs_iff_yields entry).1 h).parts_or_eq ((FlowGraph.runs_iff_yields entry).1 h')

end Runs

/-! ## The graphs of a procedure -/

namespace FlowGraph

/-- There is an allocation with so many registers, and whatever the procedure does by name when it
succeeds, it does at home, and nothing else, unless a call is answered in another way. -/
def RunsAtHome (g : FlowGraph) (registers : Nat) : Prop :=
  ∃ live a, g.liveness = .ok live ∧ (g.interference live).allocate registers = .ok a ∧
    ∀ args globals t v, g.Runs .byName (.enter .byName Store.empty g.params args globals) t (.ok v) →
      ∀ s : Location → Word,
        let home := Keeping.atHome a.assignment.locations
        g.Runs home (.enter home s g.params args globals) t (.ok v) ∧
          ∀ t' r, g.Runs home (.enter home s g.params args globals) t' r →
            Parts t t' ∨ t' = t ∧ r = .ok v

variable {g : FlowGraph}

/-- A graph whose runs by name are strict when they succeed may be run at home. -/
theorem runsAtHome_of_strict (wf : g.WellFormed) (first : g.PhisFirst) (named : g.PhisNamed)
    (once : ∀ b ∈ g.blocks, b.phiDefs.Nodup)
    (strict : ∀ {args globals t v},
      g.Runs .byName (.enter .byName Store.empty g.params args globals) t (.ok v) →
      g.Runs .strict (.enter .strict (fun _ => none) g.params args globals) t (.ok v))
    (registers : Nat) : g.RunsAtHome registers := by
  obtain ⟨live, found⟩ := exists_liveness wf.nodup
  obtain ⟨a, allocated⟩ := (g.interference live).exists_allocation registers
  have solved := solved_of_liveness wf.nodup found
  have housed := Allocation.housed wf found allocated
  refine ⟨live, a, found, allocated, fun args globals t v runs s => ?_⟩
  have home := (strict runs).atHome wf first named once solved housed s
  exact ⟨home, fun t' r runs' => home.parts_or_eq wf runs'⟩

theorem PhiFree.runsAtHome_of_wellFormed (free : g.PhiFree) (wf : g.WellFormed) (registers : Nat) :
    g.RunsAtHome registers := by
  refine FlowGraph.runsAtHome_of_strict wf free.phisFirst free.phisNamed (fun b hb => ?_) (free.runs_strict wf)
    registers
  rw [Block.phiDefs, Block.phis_of_phiFree (free b hb)]
  exact List.nodup_nil

end FlowGraph

/-- In a single-assignment form, a run by name that succeeds is one of the graph itself, so it is
strict. -/
theorem Versioned.runsAtHome_of_wellFormed {g g' : FlowGraph} {live : Liveness} {V : Versioning}
    (h : Versioned g g' live V) (wf : g.WellFormed) (free : g.PhiFree) (solved : Solved g live)
    (registers : Nat) : g'.RunsAtHome registers := by
  refine FlowGraph.runsAtHome_of_strict (h.wellFormed wf) (h.phisFirst free) h.phisNamed
    (fun b hb => Block.phiDefs_nodup h.once hb) (fun runs => ?_) registers
  have source := (h.runs_ok_iff wf free solved Keeping.byName_lawful Keeping.byName_lawful
    Keeping.byName_empty Keeping.byName_empty).2 runs
  exact (h.runs_ok_iff wf free solved Keeping.strict_lawful Keeping.strict_lawful (fun _ => rfl)
    fun _ => rfl).1 (free.runs_strict wf source)

namespace Proc

variable {q : Proc} {g : FlowGraph} {names : FreshNames}

end Proc

end ThreeAddress
