import ThreeAddress.Proofs.Optimizer.Rounds
import ThreeAddress.Proofs.SingleAssignment.Complete
import ThreeAddress.Proofs.SingleAssignment.Minimize
/-!
# Passes keep single assignment

A pass over a procedure drops instructions that do not transfer control, and gives other names to
what is read. Neither makes a definition, changes an edge or takes an argument from a phi. So the
checks of single assignment accept what they accepted before, whatever passes are made.

* `Prunes`, `FlowGraph.Pruned` : code with instructions dropped and reads renamed;
* `FlowGraph.exists_optimize_of_prune`, `FlowGraph.of_optimize_of_prune` : what pruning keeps, the
  optimizer keeps;
* `FlowGraph.Intact` : what every pass keeps, and `FlowGraph.Intact.prune`, that it does;
* `Pass`, `FlowGraph.runPasses` : passes, one after the other;
* `FlowGraph.checks_of_runPasses` : the checks accept what comes out.
-/

namespace ThreeAddress

/-! ## Pruned code -/

/-- The origins that a phi has arguments for. -/
def Instr.phiOrigins : Instr → List Origin
  | phi _ args => args.keys
  | _ => []

/-- Instructions that differ at most in what they read. -/
structure Instr.SameShape (i i' : Instr) : Prop where
  defines : i'.def? = i.def?
  exits : i'.exit? = i.exit?
  target : i'.target? = i.target?
  transfer : i'.isTransfer = i.isTransfer
  phi : i'.isPhi = i.isPhi
  label : ∀ l, i' = .label l → i = .label l
  origins : i'.phiOrigins = i.phiOrigins
  count : i'.count = i.count

theorem Instr.SameShape.refl (i : Instr) : i.SameShape i :=
  ⟨rfl, rfl, rfl, rfl, rfl, (fun _ e => e), rfl, rfl⟩

theorem Instr.sameShape_mapUses (f : Temp → Temp) (i : Instr) : i.SameShape (i.mapUses f) := by
  cases i <;> exact ⟨rfl, rfl, rfl, rfl, rfl, (fun _ => eq_label_of_mapUses), rfl, rfl⟩

theorem Instr.sameShape_mapReads (f : Temp → Temp) (i : Instr) : i.SameShape (i.mapReads f) := by
  cases phi : i.isPhi with
  | false =>
    rw [mapReads_of_plain phi]
    exact i.sameShape_mapUses f
  | true =>
    cases i with
    | phi dest args =>
      refine ⟨rfl, rfl, rfl, rfl, rfl, (fun _ e => by cases e), ?_, rfl⟩
      simp [mapReads, mapUses, mapPhiArgs, phiOrigins, SortedMap.keys, SortedMap.map]
    | _ => cases phi

theorem Instr.isTransfer_of_isPhi {i : Instr} (phi : i.isPhi = true) : i.isTransfer = false := by
  cases i <;> first | rfl | cases phi

theorem Instr.isTransfer_of_isDead {i : Instr} {after : SortedSet Temp}
    (dead : i.isDead after = true) : i.isTransfer = false := by
  rcases isDead_cases dead with rfl | ⟨v, rfl⟩ | ⟨pure, -, -⟩
  · rfl
  · rfl
  · cases i <;> first | rfl | cases pure

/-- The second code is the first one without some instructions that do not transfer control, and
with other names for what it reads. -/
inductive Prunes : List Instr → List Instr → Prop where
  | nil : Prunes [] []
  | drop {i : Instr} {code code' : List Instr} (stays : i.isTransfer = false)
      (h : Prunes code code') : Prunes (i :: code) code'
  | keep {i i' : Instr} {code code' : List Instr} (same : i.SameShape i')
      (h : Prunes code code') : Prunes (i :: code) (i' :: code')

namespace Prunes

variable {code code' front back : List Instr}

theorem refl (code : List Instr) : Prunes code code := by
  induction code with
  | nil => exact .nil
  | cons i code ih => exact .keep (.refl i) ih

theorem append (h : Prunes front code) (h' : Prunes back code') :
    Prunes (front ++ back) (code ++ code') := by
  induction h with
  | nil => exact h'
  | drop stays _ ih => exact .drop stays ih
  | keep same _ ih => exact .keep same ih

/-- What is left of two parts of code are two parts. -/
theorem exists_of_append (h : Prunes (front ++ back) code') :
    ∃ front' back', code' = front' ++ back' ∧ Prunes front front' ∧ Prunes back back' := by
  induction front generalizing code' with
  | nil => exact ⟨[], code', rfl, .nil, h⟩
  | cons i front ih =>
    cases h with
    | drop stays h =>
      obtain ⟨front', back', rfl, left, right⟩ := ih h
      exact ⟨front', back', rfl, .drop stays left, right⟩
    | keep same h =>
      obtain ⟨front', back', rfl, left, right⟩ := ih h
      exact ⟨_ :: front', back', rfl, .keep same left, right⟩

/-- Whatever is left was there, but for what it reads. -/
theorem exists_source (h : Prunes code code') {i' : Instr} (hi : i' ∈ code') :
    ∃ i ∈ code, i.SameShape i' := by
  induction h with
  | nil => cases hi
  | drop _ _ ih =>
    obtain ⟨i, mem, same⟩ := ih hi
    exact ⟨i, List.mem_cons_of_mem _ mem, same⟩
  | keep same _ ih =>
    rcases List.mem_cons.1 hi with rfl | hi
    · exact ⟨_, List.mem_cons_self, same⟩
    · obtain ⟨i, mem, same⟩ := ih hi
      exact ⟨i, List.mem_cons_of_mem _ mem, same⟩

theorem exits (h : Prunes code code') : code'.filterMap Instr.exit? = code.filterMap Instr.exit? := by
  induction h with
  | nil => rfl
  | drop stays _ ih => rw [List.filterMap_cons_none (by simp [Instr.exit?, stays]), ih]
  | keep same _ ih => rw [List.filterMap_cons, List.filterMap_cons, same.exits, ih]

theorem defs (h : Prunes code code') :
    (code'.filterMap Instr.def?).Sublist (code.filterMap Instr.def?) := by
  induction h with
  | nil => exact .slnil
  | drop _ _ ih => exact ih.trans ((List.sublist_cons_self _ _).filterMap _)
  | @keep i i' _ _ same _ ih =>
    have defines := same.defines
    cases hd : i.def? with
    | none => rwa [List.filterMap_cons_none hd, List.filterMap_cons_none (defines.trans hd)]
    | some d =>
      rw [List.filterMap_cons_some hd, List.filterMap_cons_some (defines.trans hd)]
      exact ih.cons_cons d

theorem straight (h : Prunes code code') (straight : Straight code) : Straight code' := by
  induction h with
  | nil => trivial
  | drop _ _ ih => exact ih straight.2.2
  | keep same h ih =>
    obtain ⟨ends, plain, more⟩ := straight
    refine ⟨fun transfer => ?_, fun l e => plain l (same.label l e), ih more⟩
    rw [same.transfer] at transfer
    rw [ends transfer] at h
    cases h
    rfl

/-- Filtering and renaming prunes code, if no transfer of control is left out. -/
theorem filter_map {p : Instr → Bool} {f : Instr → Instr} (same : ∀ i : Instr, i.SameShape (f i))
    (stays : ∀ i ∈ code, p i = false → i.isTransfer = false) :
    Prunes code ((code.filter p).map f) := by
  induction code with
  | nil => exact .nil
  | cons i code ih =>
    have ih := ih fun j hj => stays j (List.mem_cons_of_mem _ hj)
    cases kept : p i with
    | true =>
      rw [List.filter_cons_of_pos kept]
      exact .keep (same i) ih
    | false =>
      rw [List.filter_cons_of_neg (by simp [kept])]
      exact .drop (stays i List.mem_cons_self kept) ih

theorem filter {p : Instr → Bool} (stays : ∀ i ∈ code, p i = false → i.isTransfer = false) :
    Prunes code (code.filter p) := by
  have pruned := filter_map (f := fun i => i) .refl stays
  rwa [List.map_id'] at pruned

theorem map {f : Instr → Instr} (same : ∀ i : Instr, i.SameShape (f i)) :
    Prunes code (code.map f) := by
  have pruned : Prunes code ((code.filter fun _ => true).map f) :=
    filter_map same fun _ _ dropped => by cases dropped
  rwa [List.filter_true] at pruned

/-- So does a renaming that changes from instruction to instruction. -/
theorem propagateBody {copies : Copies} : Prunes code (propagateBody copies code) := by
  induction code generalizing copies with
  | nil => exact .nil
  | cons i code ih => exact .keep (i.sameShape_mapUses _) ih

/-- So does leaving out dead code. -/
theorem keptCode {after : SortedSet Temp} : Prunes code (keptCode after code) := by
  induction code with
  | nil => exact .nil
  | cons i code ih =>
    cases dead : i.isDead (liveFrom after code) with
    | true =>
      rw [keptCode_dead dead]
      exact .drop (Instr.isTransfer_of_isDead dead) ih
    | false =>
      rw [keptCode_alive dead]
      exact .keep (.refl i) ih

/-- What is left of the phis at the head of a block is at its head. -/
theorem phis_and_code {b : Block} (h : Prunes b.body code) (first : ∀ i ∈ b.code, i.isPhi = false) :
    Prunes b.phis ({ b with body := code } : Block).phis ∧
      Prunes b.code ({ b with body := code } : Block).code := by
  rw [← b.phis_append_code] at h
  obtain ⟨heads, rest, rfl, phis, others⟩ := h.exists_of_append
  have heads_phi : ∀ i ∈ heads, i.isPhi = true := fun i hi => by
    obtain ⟨j, hj, same⟩ := phis.exists_source hi
    exact same.phi.trans (Block.isPhi_of_mem_phis hj)
  have rest_plain : ∀ i ∈ rest, i.isPhi = false := fun i hi => by
    obtain ⟨j, hj, same⟩ := others.exists_source hi
    exact same.phi.trans (first j hj)
  obtain ⟨samePhis, sameCode⟩ := Block.phis_and_code
    (b := { b with body := heads ++ rest }) rfl heads_phi rest_plain
  rw [samePhis, sameCode]
  exact ⟨phis, others⟩

end Prunes

/-! ## Pruned graphs -/

namespace FlowGraph

/-- The second graph is the first one with the code of its blocks pruned. -/
def Pruned (g g' : FlowGraph) : Prop :=
  ∃ f : Block → List Instr, (∀ b ∈ g.blocks, Prunes b.body (f b)) ∧ g' = g.mapBodies f

variable {g g' : FlowGraph}

/-- Pruning keeps the shape of a graph. -/
theorem WellFormed.prune (h : g.WellFormed) (pruned : g.Pruned g') : g'.WellFormed := by
  obtain ⟨f, prunes, rfl⟩ := pruned
  refine h.mapBodies (fun b hb => (prunes b hb).straight (h.straight b hb)) fun b hb i hi l hl => ?_
  obtain ⟨j, hj, same⟩ := (prunes b hb).exists_source hi
  exact h.mem_labels_of_target hb hj (same.target ▸ hl)

/-- Pruning leaves phis at the heads of blocks there. -/
theorem PhisFirst.prune (h : g.PhisFirst) (pruned : g.Pruned g') : g'.PhisFirst := by
  obtain ⟨f, prunes, rfl⟩ := pruned
  intro b' hb' i hi
  obtain ⟨b, hb, rfl⟩ := mem_mapBodies.1 hb'
  obtain ⟨j, hj, same⟩ := ((prunes b hb).phis_and_code (h b hb)).2.exists_source hi
  exact same.phi.trans (h b hb j hj)

/-- Whatever is left of the code was there, but for what it reads. -/
theorem Pruned.exists_source (pruned : g.Pruned g') {i' : Instr} (hi : i' ∈ g'.code) :
    ∃ i ∈ g.code, i.SameShape i' := by
  obtain ⟨f, prunes, rfl⟩ := pruned
  obtain ⟨b', hb', hi⟩ := mem_code.1 hi
  obtain ⟨b, hb, rfl⟩ := mem_mapBodies.1 hb'
  obtain ⟨i, mem, same⟩ := (prunes b hb).exists_source hi
  exact ⟨i, mem_code.2 ⟨b, hb, mem⟩, same⟩

/-- Propagation of copies prunes a graph, within blocks and everywhere. -/
theorem pruned_propagateCopies (g : FlowGraph) (everywhere : Bool) :
    g.Pruned (g.propagateCopies everywhere) := by
  cases everywhere with
  | false => exact ⟨_, fun _ _ => .propagateBody, rfl⟩
  | true => exact ⟨_, fun _ _ => .map (Instr.sameShape_mapReads _), rfl⟩

/-- So does a sweep of dead code. -/
theorem pruned_sweep {live : Liveness} (solved : Solved g live) : g.Pruned (g.sweep live) := by
  refine ⟨_, fun b hb => ?_, rfl⟩
  have phis : Prunes b.phis (keptPhis (liveFrom (live.after g b.label) b.code) b.phis) :=
    .filter fun i hi _ => Instr.isTransfer_of_isPhi (Block.isPhi_of_mem_phis hi)
  have code : Prunes b.code (ThreeAddress.keptCode (live.after g b.label) b.code) := .keptCode
  have both := phis.append code
  rwa [b.phis_append_code, ← filter_zip_instrs solved hb] at both

section Kept

variable {P : FlowGraph → Prop} (wf : ∀ g, P g → g.WellFormed)
  (prune : ∀ g g', P g → g.Pruned g' → P g')

include wf prune

/-- Dead code can be removed, and what pruning keeps holds of what is left. -/
theorem exists_removeDeadCode_of_prune (h : P g) :
    ∃ last sweeps, g.removeDeadCode = .ok (last, sweeps) ∧ P last :=
  exists_removeDeadCode (fun g h => (wf g h).nodup) (fun g _ h found => prune _ _ h
    (pruned_sweep (solved_of_liveness (wf g h).nodup found))) h

/-- The optimizer has a result, and what pruning keeps holds of it. -/
theorem exists_optimize_of_prune (h : P g) (o : OptimizerOptions) (everywhere : Bool) :
    ∃ last rounds, g.optimize o everywhere = .ok (last, rounds) ∧ P last :=
  exists_optimize (fun g h => (wf g h).nodup)
    (fun g _ h found => prune _ _ h (pruned_sweep (solved_of_liveness (wf g h).nodup found)))
    (fun _ g h => prune _ _ h (g.pruned_propagateCopies everywhere)) h

theorem of_optimize_of_prune (h : P g) {o : OptimizerOptions} {everywhere : Bool} {last : FlowGraph}
    {rounds : List OptimizerRound} (done : g.optimize o everywhere = .ok (last, rounds)) : P last := by
  obtain ⟨last', rounds', same, kept⟩ := exists_optimize_of_prune wf prune h o everywhere
  cases done.symm.trans same
  exact kept

end Kept

end FlowGraph

/-! ## What every pass keeps -/

namespace FlowGraph

/-- A procedure that the checks of single assignment accept. -/
structure Accepted (g : FlowGraph) : Prop where
  wellFormed : g.WellFormed
  once : g.defs.Nodup
  apart : ∀ d ∈ g.defs, d ∉ g.params
  named : .sink ∉ g.defs
  complete : ∀ b ∈ g.blocks, ∀ dest args, .phi dest args ∈ b.phis →
    g.phiMatches b.label args = true

/-- A procedure that the checks of single assignment accept, with its phis at the heads of blocks. -/
structure Intact (g : FlowGraph) : Prop extends g.Accepted where
  phisFirst : g.PhisFirst

variable {g g' : FlowGraph}

theorem Accepted.checkDefinitions (h : g.Accepted) : g.checkDefinitions = .ok () :=
  checkDefinitions_eq_ok.2 ⟨h.once, h.apart⟩

theorem Accepted.checkPhis (h : g.Accepted) : g.checkPhis = .ok () := checkPhis_eq_ok.2 h.complete

/-- Pruning makes no definitions. -/
theorem defs_mapBodies {f : Block → List Instr} (prunes : ∀ b ∈ g.blocks, Prunes b.body (f b)) :
    (g.mapBodies f).defs.Sublist g.defs := by
  simp only [defs, code, mapBodies, List.flatMap_map]
  generalize g.blocks = bs at prunes
  induction bs with
  | nil => exact .slnil
  | cons b bs ih =>
    rw [List.flatMap_cons, List.flatMap_cons, List.filterMap_append, List.filterMap_append]
    exact (prunes b List.mem_cons_self).defs.append
      (ih fun c hc => prunes c (List.mem_cons_of_mem _ hc))

/-- Pruning changes no edge. -/
theorem preds_mapBodies (wf : g.WellFormed) {f : Block → List Instr}
    (prunes : ∀ b ∈ g.blocks, Prunes b.body (f b)) (l : Label) :
    (g.mapBodies f).preds l = g.preds l := by
  have wf' : (g.mapBodies f).WellFormed := wf.prune ⟨f, prunes, rfl⟩
  refine preds_of_exits (map_eq_of_labels (labels_mapBodies f g) fun b hb b' hb' label => ?_) l
  obtain ⟨c, hc, rfl⟩ := mem_mapBodies.1 hb'
  obtain rfl := eq_of_label wf.nodup hb hc label
  exact Block.exit_congr (wf.straight c hc) (wf'.straight _ hb') rfl (prunes c hc).exits

/-- The arguments of a phi match a block for whatever they are. -/
theorem phiMatches_of_keys {l : Label} {args args' : SortedMap Origin Temp}
    (keys : args'.keys = args.keys) (preds : g'.preds l = g.preds l) (entry : g'.entry? = g.entry?) :
    g'.phiMatches l args' = g.phiMatches l args := by
  rw [phiMatches, phiMatches, phiEdges, phiEdges, keys, preds, entry]

/-- Pruning keeps a procedure accepted, if no phi gets to the head of a block. -/
theorem Accepted.mapBodies (h : g.Accepted) {f : Block → List Instr}
    (prunes : ∀ b ∈ g.blocks, Prunes b.body (f b))
    (phis : ∀ b ∈ g.blocks, Prunes b.phis ({ b with body := f b } : Block).phis) :
    (g.mapBodies f).Accepted := by
  have sub := defs_mapBodies prunes
  refine ⟨h.wellFormed.prune ⟨f, prunes, rfl⟩, h.once.sublist sub,
    fun d hd => h.apart d (sub.subset hd), fun mem => h.named (sub.subset mem), ?_⟩
  intro b' hb' dest args mem
  obtain ⟨b, hb, rfl⟩ := mem_mapBodies.1 hb'
  obtain ⟨j, hj, same⟩ := (phis b hb).exists_source mem
  have phi := Block.isPhi_of_mem_phis hj
  cases j with
  | phi dest' old =>
    have keys : args.keys = old.keys := same.origins
    rw [phiMatches_of_keys keys (preds_mapBodies h.wellFormed prunes b.label)
      (entry?_of_labels (labels_mapBodies f g))]
    exact h.complete b hb dest' old hj
  | _ => cases phi

/-- Pruning keeps a procedure intact. -/
theorem Intact.prune (h : g.Intact) (pruned : g.Pruned g') : g'.Intact := by
  have first := h.phisFirst.prune pruned
  obtain ⟨f, prunes, rfl⟩ := pruned
  exact ⟨h.toAccepted.mapBodies prunes fun b hb =>
    ((prunes b hb).phis_and_code (h.phisFirst b hb)).1, first⟩

/-! ## The passes -/

/-- What is left of the phis at the head of a block by a round of the removal of redundant phis. -/
theorem prunes_stays (b : Block) (f : Temp → Temp) :
    Prunes b.phis ((b.phis.filter Instr.stays).map (Instr.mapReads f)) :=
  .filter_map (Instr.sameShape_mapReads f) fun _ hi _ =>
    Instr.isTransfer_of_isPhi (Block.isPhi_of_mem_phis hi)

/-- What is left of a block. -/
theorem prunes_afterRound (b : Block) (f : Temp → Temp) :
    Prunes b.body ((b.phis.filter Instr.stays ++ b.chosen).map (Instr.mapReads f)) := by
  have code : Prunes b.code (b.chosen.map (Instr.mapReads f)) := by
    refine .filter_map (Instr.sameShape_mapReads f) fun i _ dropped => ?_
    cases i with
    | phi => rfl
    | _ => cases dropped
  have both := (prunes_stays b f).append code
  rwa [b.phis_append_code, ← List.map_append] at both

/-- A round of the removal of redundant phis is made with one renaming. -/
theorem Accepted.exists_afterRound (h : g.Accepted) :
    ∃ f, Undoes f g.superfluous ∧ g.minimizeRound.1 = g.afterRound f :=
  minimizeRound_eq h.wellFormed.nodup h.once h.named

/-- A round of the removal of redundant phis prunes a procedure. -/
theorem Accepted.pruned_minimizeRound (h : g.Accepted) : g.Pruned g.minimizeRound.1 := by
  obtain ⟨f, -, same⟩ := h.exists_afterRound
  rw [same]
  exact ⟨_, fun b _ => prunes_afterRound b f, rfl⟩

/-- The checks accept what is left. -/
theorem Accepted.minimizeRound (h : g.Accepted) : g.minimizeRound.1.Accepted := by
  obtain ⟨f, -, same⟩ := h.exists_afterRound
  rw [same]
  refine h.mapBodies (fun b _ => prunes_afterRound b f) fun b _ => ?_
  rw [(phis_and_code_afterRound b).1]
  exact prunes_stays b f

theorem Intact.minimizeRound (h : g.Intact) : g.minimizeRound.1.Intact :=
  h.prune h.toAccepted.pruned_minimizeRound

theorem Intact.minimize (h : g.Intact) : g.minimize.graph.Intact :=
  of_minimize (fun _ h => h.minimizeRound) h

end FlowGraph

/-- The checks accept a conversion to single assignment. -/
theorem Versioned.accepted {g g' : FlowGraph} {live : Liveness} {V : Versioning}
    (h : Versioned g g' live V) (wf : g.WellFormed) (named : .sink ∉ g'.defs) : g'.Accepted where
  wellFormed := h.wellFormed wf
  once := h.once
  apart := h.apart
  named := named
  complete := FlowGraph.checkPhis_eq_ok.1 (h.checkPhis wf)

/-! ## Passes, one after the other -/

/-- A pass over a procedure in single-assignment form. -/
inductive Pass where
  /-- The removal of redundant phis. -/
  | minimize
  /-- The propagation of copies, within blocks or everywhere. -/
  | propagateCopies (everywhere : Bool)
  | removeDeadCode
  /-- The whole optimizer, which propagates copies within blocks or everywhere. -/
  | optimize (options : OptimizerOptions) (everywhere : Bool)

/-- Make a pass. -/
def Pass.run (g : FlowGraph) : Pass → Except Breach FlowGraph
  | minimize => .ok g.minimize.graph
  | propagateCopies everywhere => .ok (g.propagateCopies everywhere)
  | removeDeadCode => g.removeDeadCode.map Prod.fst
  | optimize options everywhere => (g.optimize options everywhere).map Prod.fst

namespace FlowGraph

variable {g : FlowGraph}

/-- Make passes, one after the other. -/
def runPasses (g : FlowGraph) (passes : List Pass) : Except Breach FlowGraph :=
  passes.foldlM Pass.run g

/-- Every pass has a result, and what pruning and the removal of redundant phis keep holds of it. -/
theorem exists_run_of_prune {P : FlowGraph → Prop} (wf : ∀ g, P g → g.WellFormed)
    (prune : ∀ g g', P g → g.Pruned g' → P g') (minimize : ∀ g, P g → P g.minimize.graph) (h : P g)
    (pass : Pass) : ∃ next, pass.run g = .ok next ∧ P next := by
  cases pass with
  | minimize => exact ⟨_, rfl, minimize g h⟩
  | propagateCopies everywhere => exact ⟨_, rfl, prune _ _ h (g.pruned_propagateCopies everywhere)⟩
  | removeDeadCode =>
    obtain ⟨last, sweeps, done, kept⟩ := exists_removeDeadCode_of_prune wf prune h
    exact ⟨last, by rw [Pass.run, done]; rfl, kept⟩
  | optimize options everywhere =>
    obtain ⟨last, rounds, done, kept⟩ := exists_optimize_of_prune wf prune h options everywhere
    exact ⟨last, by rw [Pass.run, done]; rfl, kept⟩

/-- Every pass has a result, and keeps a procedure intact. -/
theorem Intact.run (h : g.Intact) (pass : Pass) : ∃ next, pass.run g = .ok next ∧ next.Intact :=
  exists_run_of_prune (fun _ h => h.wellFormed) (fun _ _ h => h.prune) (fun _ h => h.minimize) h pass

/-- And so do any number of passes. -/
theorem Intact.runPasses (h : g.Intact) (passes : List Pass) :
    ∃ last, g.runPasses passes = .ok last ∧ last.Intact := by
  induction passes generalizing g with
  | nil => exact ⟨g, rfl, h⟩
  | cons pass passes ih =>
    obtain ⟨next, made, intact⟩ := h.run pass
    obtain ⟨last, done, intact⟩ := ih intact
    refine ⟨last, ?_, intact⟩
    rw [FlowGraph.runPasses, List.foldlM_cons, made]
    exact done

/-- A conversion to single assignment is intact. -/
theorem intact_of_versioned {g' : FlowGraph} {live : Liveness} {V : Versioning} (wf : g.WellFormed)
    (free : g.PhiFree) (h : Versioned g g' live V) : g'.Intact :=
  ⟨h.accepted wf (h.sink_not_mem_defs free), h.phisFirst free⟩

/-- A procedure that copies the temporary it counts down, and reads the copy. -/
def copiedCountdown : Proc :=
  let n : Temp := ⟨"n", none⟩
  let m : Temp := ⟨"m", none⟩
  ⟨⟨"copied"⟩, [n], [
    .label ⟨"loop"⟩,
    .copy (.temp m) (.temp n),
    .binary .sub (.temp n) (.temp m) (.temp m),
    .branch .nonzero (.temp n) ⟨"loop"⟩,
    .ret (.temp m)]⟩

end FlowGraph

end ThreeAddress
