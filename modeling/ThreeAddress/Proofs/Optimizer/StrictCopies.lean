import ThreeAddress.Proofs.Activation.Lockstep
import ThreeAddress.Proofs.Liveness.Exact
import ThreeAddress.Proofs.Optimizer.GlobalCopies
import ThreeAddress.Proofs.SingleAssignment.Behaviour
/-!
# Copies in strict single-assignment form

If definitions dominate reads, no destination of a copy is read before the copy is executed, and
copies are faithful at every point of a run. So the text with the copies propagated goes in step
with the text that it was made from: whatever is read has the same value, or has none on both sides
and is the same temporary.

* `FlowGraph.Strict` : definitions dominate reads;
* `FlowGraph.FaithfulText` : a position in both texts where copies are faithful;
* `FlowGraph.Strict.mirrors` : the two texts go in step;
* `Program.run_propagateCopies` : a program runs in the same way with either of them.
-/

namespace ThreeAddress

open Execution

/-! ## Text with other reads -/

/-- A position in text whose instructions are changed. -/
def Spot.map (f : Instr → Instr) (pos : Spot) : Spot := { pos with code := pos.code.map f }

theorem Instr.mapReads_eq_label {f : Temp → Temp} {i : Instr} {l : Label} :
    i.mapReads f = .label l ↔ i = .label l := by
  cases i <;> simp [mapReads, mapUses, mapPhiArgs]

theorem codeFrom?_map {f : Instr → Instr} {l : Label} (label : ∀ i, f i = .label l ↔ i = .label l)
    (code : List Instr) : codeFrom? l (code.map f) = (codeFrom? l code).map (List.map f) := by
  induction code with
  | nil => rfl
  | cons i rest ih =>
    rw [List.map_cons, codeFrom?, codeFrom?, ih]
    cases codeFrom? l rest with
    | some code => rfl
    | none =>
      by_cases here : i = .label l
      · rw [Option.map_none]
        simp only [if_pos here, if_pos ((label i).2 here)]
        rfl
      · rw [Option.map_none]
        simp only [if_neg here, if_neg (fun e => here ((label i).1 e))]
        rfl

namespace FlowGraph

variable {g : FlowGraph} {b : Block} {before later : List Block} {pos : Spot} {s : Store Temp}
  {origin : Origin} {rest : List Instr}

/-- Every temporary that is no parameter is defined once, and on every walk from the entry before
it is read. Where control comes from the entry, phis choose parameters. -/
structure Strict (g : FlowGraph) : Prop extends g.Definite where
  phisFirst : g.PhisFirst
  dominated : ∀ t s, g.Reads t s → t ∈ g.params ∨ g.Dominated t s
  entryArgs : ∀ b ∈ g.blocks, ∀ t ∈ b.phiArgsFrom .entry, t ∈ g.params

/-- No destination of a copy is read before the copy is executed. -/
theorem Strict.copiesExecuted (wf : g.WellFormed) (h : g.Strict) : g.CopiesExecuted := by
  intro i hi d src copy l entry path
  obtain ⟨b, hb, mem⟩ := mem_code.1 hi
  have other := h.apart d (mem_defs.2 ⟨b, hb, i, mem, (Instr.def?_of_tempCopy? copy).1⟩)
  obtain ⟨live, found⟩ := exists_liveness wf.nodup
  rcases (solved_of_liveness wf.nodup found).mem_of_live wf path (.entry entry) with
    mem | ⟨c, hc, -, arg⟩
  · obtain ⟨via, s, walk, reads, clear⟩ := ((hasAt_iff wf.nodup found).1 l).1 mem
    obtain ⟨q, hq, defines⟩ := (h.dominated d s reads).resolve_left other l via entry walk
    exact clear q hq defines
  · exact other (h.entryArgs c hc d arg)

/-! ## Both texts side by side -/

/-- The instruction behind the propagation. -/
def propagated (g : FlowGraph) : Instr → Instr := Instr.mapReads g.copies.resolve

/-- The same temporaries, at the same position in both texts, where copies are faithful. -/
def FaithfulText (g : FlowGraph) (pos : Spot) (s : Store Temp) (pos' : Spot) (s' : Store Temp) :
    Prop :=
  s' = s ∧ pos' = pos.map g.propagated ∧
    ∃ point, Placed g (fun _ => true) pos point ∧ g.Proper point ∧ g.Faithful s.get? point

/-- The text with labels in front of all blocks. -/
theorem linear_propagateGlobally : g.propagateGlobally.linear = g.linear.map g.propagated := by
  simp only [linear, propagateGlobally, mapInstrs, mapBodies, List.flatMap_map, List.map_flatMap]
  rfl

/-- A jump goes to the same block in both texts. -/
theorem alike_goto_propagated (wf : g.WellFormed) {i : Instr} (at_ : g.At origin b (i :: rest))
    {l : Label} (target : i.target? = some l) (marked : g.Marked (fun _ => true) origin b pos.marks)
    (faithful : g.Faithful s.get? (.enter (.block b.label) l)) (staged : Store Nat)
    (globals : Store Global) :
    SameStage g.FaithfulText
      ((Control.ofBody g.name g.linear).goto pos ⟨s, staged, globals⟩ l)
      ((Control.ofBody g.name g.propagateGlobally.linear).goto (pos.map g.propagated)
        ⟨s, staged, globals⟩ l) := by
  obtain ⟨c, hc, rfl⟩ := mem_labels.1 (at_.target wf target).2
  obtain ⟨before, later, split⟩ := List.append_of_mem hc
  have there : codeFrom? c.label (layout (fun _ => true) g.blocks) =
      some (.label c.label :: (c.body ++ layout (fun _ => true) later)) :=
    wf.codeFrom?_layout split rfl
  rw [← linear_eq_layout] at there
  have there' := codeFrom?_map (f := g.propagated) (l := c.label)
    (fun _ => Instr.mapReads_eq_label) g.linear
  rw [← linear_propagateGlobally, there] at there'
  rw [Control.goto, Control.goto]
  simp only [Control.ofBody, there, there', Option.map_some]
  have marked' := marked.edge hc (Block.mem_succs.2 (.inl (at_.target wf target).1))
  exact .going ⟨rfl, rfl, _, .enter split rfl rfl marked', at_.jump wf target, faithful⟩

/-- What is in front within a block does the same in both texts. -/
theorem alike_within_propagated (wf : g.WellFormed) (strict : g.Strict)
    (split : g.blocks = before ++ b :: later) (at_ : g.At origin b rest)
    (code : pos.code = rest ++ layout (fun _ => true) later)
    (marked : g.Marked (fun _ => true) origin b pos.marks)
    (faithful : g.Faithful s.get? (.within origin b.label rest)) (staged : Store Nat)
    (globals : Store Global) :
    SameStage g.FaithfulText
      ((Control.ofBody g.name g.linear).step .byName pos ⟨s, staged, globals⟩)
      ((Control.ofBody g.name g.propagateGlobally.linear).step .byName (pos.map g.propagated)
        ⟨s, staged, globals⟩) := by
  obtain ⟨text, previous, current⟩ := pos
  obtain rfl : text = rest ++ layout (fun _ => true) later := code
  cases rest with
  | nil =>
    cases later with
    | nil => exact .ends
    | cons c later =>
      -- behind the end of the block stands the label of the next
      have split' : g.blocks = (before ++ [b]) ++ c :: later := by
        rw [split, List.append_assoc]
        rfl
      have next : g.next? b.label = some c.label := next?_of_split wf.nodup split
      exact .going ⟨rfl, rfl, _, .entered split' rfl (marked.next wf split (at_.falls rfl)),
        at_.next wf next, faithful.move fun t path => .next next path⟩
  | cons i rest =>
    have plain := strict.phisFirst b at_.mem i at_.mem_code
    have inner : ∀ l, i ≠ .label l := fun l e =>
      (wf.straight b at_.mem).not_mem_label l (e ▸ at_.mem_body)
    obtain ⟨front, code⟩ := at_.front
    have body : b.body = (b.phis ++ front ++ [i]) ++ rest := by
      rw [← b.phis_append_code, code]
      simp
    have plain' : (g.propagated i).isPhi = false := (Instr.isPhi_mapReads _ i).trans plain
    have inner' : ∀ l, g.propagated i ≠ .label l := fun l e => inner l (Instr.mapReads_eq_label.1 e)
    have next : ∀ {s : Store Temp}, i.fallsThrough = true →
        g.Faithful s.get? (.within origin b.label rest) →
        g.FaithfulText ⟨rest ++ layout (fun _ => true) later, previous, current⟩ s
          (Spot.map g.propagated ⟨rest ++ layout (fun _ => true) later, previous, current⟩) s :=
      fun falls faithful => ⟨rfl, rfl, _, .within split body rfl (at_.pass falls).falls marked,
        ⟨b, rfl, at_.pass falls⟩, faithful⟩
    rw [List.cons_append, ofBody_step_plain plain inner, Spot.map, List.map_cons,
      ofBody_step_plain plain' inner', propagated, Instr.mapReads_of_plain plain]
    have exact : ∀ f, (FailsAs Spot (Store Temp) Eq).failure f (.ends (.error f)) :=
      fun f => ⟨f, rfl, rfl⟩
    have sameProc : (Control.ofBody g.name g.propagateGlobally.linear).proc =
        (Control.ofBody g.name g.linear).proc := rfl
    refine alike_perform_uses sameProc exact plain (fun t ht => ?_)
      (fun t ht w hw => ?_) (fun t ht none => .inr ?_) (fun d hd w may => ?_)
      (fun hd falls => ?_) fun l hl => ?_
    · rcases resolve_copies g t with same | chain
      · rw [same]
        exact Instr.uses_not_isSink ht
      · exact chain.not_isSink
    · exact (faithful.resolve (.read ht)).trans hw
    · -- what has no value is no copy, and is read by its own name
      have same : g.copies.resolve t = t := by
        rcases resolve_copies g t with same | chain
        · exact same
        · refine Classical.byContradiction fun ne => ?_
          exact (faithful.holds chain (Ne.symm ne) (.read ht)).2 none
      rw [same]
      exact ⟨none, _, rfl, rfl⟩
    · refine next (Instr.fallsThrough_of_def? hd) ?_
      have faithful' := faithful.define strict.once at_ hd may
      have same : (s.set d w).get? = Keeping.strict.set s.get? d w :=
        funext fun x => Store.get?_set s d x w
      exact same ▸ faithful'
    · exact next falls (faithful.move fun t path => .pass falls (by simp [hd]) path)
    · exact alike_goto_propagated wf at_ hl marked (faithful.move fun t path => .jump hl path) staged globals

/-- The phis at the head of a block choose the same in both texts. -/
theorem alike_phis_propagated (wf : g.WellFormed) (strict : g.Strict) (split : g.blocks = before ++ b :: later)
    (arrives : g.Arrives origin b.label) {i : Instr} {group : List Instr} (phis : b.phis = i :: group)
    (code : pos.code = b.body ++ layout (fun _ => true) later)
    (marked : g.Marked (fun _ => true) origin b pos.marks)
    (faithful : g.Faithful s.get? (.enter origin b.label)) (staged : Store Nat)
    (globals : Store Global) :
    SameStage g.FaithfulText
      ((Control.ofBody g.name g.linear).step .byName pos ⟨s, staged, globals⟩)
      ((Control.ofBody g.name g.propagateGlobally.linear).step .byName (pos.map g.propagated)
        ⟨s, staged, globals⟩) := by
  have hb : b ∈ g.blocks := split ▸ List.mem_append_right _ List.mem_cons_self
  have marks : pos.marks = ⟨origin, .block b.label⟩ := AllKept.marks_eq wf (fun _ _ => rfl) marked
  obtain ⟨text, previous, current⟩ := pos
  obtain rfl : previous = origin := congrArg Marks.previous marks
  obtain rfl : text = b.body ++ layout (fun _ => true) later := code
  obtain ⟨rest, phi, body, -, -⟩ := b.span_of_phis phis
  have front : b.body ++ layout (fun _ => true) later =
      i :: (rest ++ layout (fun _ => true) later) := by
    rw [body]
    rfl
  have front' : (b.body ++ layout (fun _ => true) later).map g.propagated =
      g.propagated i :: (rest ++ layout (fun _ => true) later).map g.propagated := by
    rw [front, List.map_cons]
  have phi' : (g.propagated i).isPhi = true := (Instr.isPhi_mapReads _ i).trans phi
  -- the same group of phis stands in both texts
  obtain ⟨take, drop⟩ := @span_phis_layout (fun _ => true) later b.body (.inr fun _ _ => rfl)
  have same : Instr.isPhi ∘ g.propagated = Instr.isPhi := funext (Instr.isPhi_mapReads _)
  have take' : ((b.body ++ layout (fun _ => true) later).map g.propagated).takeWhile Instr.isPhi =
      b.phis.map g.propagated := by
    rw [List.takeWhile_map, same, take]
    rfl
  have drop' : ((b.body ++ layout (fun _ => true) later).map g.propagated).dropWhile Instr.isPhi =
      (b.code ++ layout (fun _ => true) later).map g.propagated := by
    rw [List.dropWhile_map, same, drop]
    rfl
  have assign : Keeping.byName.assign previous (b.phis.map g.propagated) s =
      Keeping.byName.assign previous b.phis s := faithful.assign hb
  rw [ofBody_step_group front phi, ofBody_step_group front' phi']
  simp only [Spot.map, take, drop, take', drop', assign]
  have all : ∀ i ∈ b.phis, i.isPhi = true := fun i => Block.isPhi_of_mem_phis
  exact .going ⟨rfl, rfl, _,
    .within split b.phis_append_code.symm rfl Block.fallsThrough_of_code_nil marked,
    ⟨b, rfl, .first hb arrives⟩,
    faithful.enter strict.once hb fun phi => Keeping.get?_assign Keeping.byName_lawful all phi⟩

/-- In strict form, the text goes in step with the text behind the propagation. -/
theorem Strict.inStep (wf : g.WellFormed) (strict : g.Strict) :
    InStep g.toProc g.propagateGlobally.toProc g.FaithfulText := by
  refine ⟨?_, ?_⟩
  · rintro pos s _ _ ⟨rfl, rfl, -⟩
    exact List.map_eq_nil_iff.symm
  rintro pos _ _ s ⟨rfl, rfl, point, placed, proper, faithful⟩ staged globals
  cases placed with
  | @enter before later b origin _ split kept code marked =>
    have code' : (pos.map g.propagated).code =
        .label b.label :: (b.body ++ layout (fun _ => true) later).map g.propagated := by
      rw [Spot.map, code]
      rfl
    rw [ofBody_step_label code, ofBody_step_label code']
    exact .going ⟨rfl, rfl, _, .entered split rfl marked, proper, faithful⟩
  | @entered before later b origin _ split code marked =>
    have hb : b ∈ g.blocks := split ▸ List.mem_append_right _ List.mem_cons_self
    cases phis : b.phis with
    | nil =>
      have body := b.phis_append_code
      rw [phis] at body
      rw [← body] at code
      have entered : g.Faithful s.get? (.within origin b.label b.code) :=
        faithful.enter strict.once hb fun _ => rfl
      exact alike_within_propagated wf strict split (.first hb proper) code marked
        entered staged globals
    | cons i group =>
      exact alike_phis_propagated wf strict split proper phis code marked faithful staged globals
  | @within before later b origin _ front rest split body code falls marked =>
    obtain ⟨c, label, at_⟩ := proper
    obtain rfl := eq_of_label wf.nodup (split ▸ List.mem_append_right _ List.mem_cons_self) at_.mem
      label
    exact alike_within_propagated wf strict split at_ code marked faithful staged globals

/-- Their activations go in step from the beginning. -/
theorem Strict.mirrors (wf : g.WellFormed) (strict : g.Strict) :
    g.toProc.Mirrors g.propagateGlobally.toProc := by
  obtain ⟨l, entry⟩ := wf.exists_entry
  refine ⟨_, strict.inStep wf, fun args => ⟨rfl, ?_, _, .first entry, .entry entry,
    .entry (strict.copiesExecuted wf) entry fun t ht => ?_⟩⟩
  · exact congrArg (Spot.mk · .entry .entry) linear_propagateGlobally
  · refine Keeping.get?_setAll_of_not_mem Keeping.byName_lawful fun mem => ?_
    obtain ⟨⟨u, w⟩, he, rfl⟩ := List.mem_map.1 mem
    exact strict.apart _ ht (List.of_mem_zip he).1

/-- Definitions dominate reads if nothing but parameters is live before the first block. -/
theorem dominated_of_live_subset (nodup : g.labels.Nodup) {live : Liveness}
    (found : g.liveness = .ok live) {l : Label} (entry : g.entry? = some l)
    (params : ∀ t ∈ live.before l, t ∈ g.params) (t : Temp) (u : Site) (reads : g.Reads t u) :
    t ∈ g.params ∨ g.Dominated t u := by
  by_cases param : t ∈ g.params
  · exact .inl param
  · exact .inr (.of_not_liveAt entry reads fun at_ =>
      param (params t (((hasAt_iff nodup found).1 l).2 at_)))

end FlowGraph

/-! ## Programs -/

namespace Program

/-- A program runs in the same way, under every limit of steps, when copies are propagated in the
strict form of one of its procedures. So does the rest of a run from a call of the procedure on, with
any arguments, global variables and waiting activations, and any number of steps left; so it takes
as many steps. -/
theorem run_propagateCopies {p : Program} {k : Nat} {g : FlowGraph} (wf : g.WellFormed)
    (strict : g.Strict) (hq : p.procs[k]? = some g.toProc) :
    (∀ limit, (p.replace k (g.propagateCopies true).toProc).run limit = p.run limit) ∧
      ∀ limit left globals printed args callers,
        Execution.run (p.replace k (g.propagateCopies true).toProc) limit left
            ⟨globals, printed, .enter (g.propagateCopies true).toProc args, callers⟩ =
          Execution.run p limit left ⟨globals, printed, .enter g.toProc args, callers⟩ :=
  run_replace_mirrors hq rfl rfl (strict.mirrors wf)

/-- A loop in strict form that copies its counter before it counts down. -/
def countdownCopy : FlowGraph :=
  let n (k : Nat) : Temp := ⟨"n", some k⟩
  let m (k : Nat) : Temp := ⟨"m", some k⟩
  let one : Temp := ⟨"one", some 1⟩
  ⟨⟨"main"⟩, [], [
    ⟨⟨"entry"⟩, true, [.const (.temp (n 1)) 3, .const (.temp one) 1]⟩,
    ⟨⟨"loop"⟩, true, [
      .phi (n 2) (.ofList [(.block ⟨"entry"⟩, n 1), (.block ⟨"loop"⟩, n 3)]),
      .copy (.temp (m 1)) (.temp (n 2)),
      .copy (.temp (m 2)) (.temp (m 1)),
      .print (.temp (m 2)),
      .binary .sub (.temp (n 3)) (.temp (m 1)) (.temp one),
      .branch .nonzero (.temp (n 3)) ⟨"loop"⟩]⟩,
    ⟨⟨"exit"⟩, true, [.ret (.temp (m 2))]⟩]⟩

/-- The copies in the loop are propagated, also to the end of the procedure. -/
theorem run_propagateCopies_countdownCopy : countdownCopy.WellFormed ∧ countdownCopy.Strict ∧
    countdownCopy.propagateCopies true ≠ countdownCopy ∧
    ∀ limit, (replace ⟨[], [countdownCopy.toProc]⟩ 0 (countdownCopy.propagateCopies true).toProc).run
      limit = (⟨[], [countdownCopy.toProc]⟩ : Program).run limit := by
  have built : ∃ names, FlowGraph.ofProc countdownCopy.toProc = .ok (countdownCopy, names) := ⟨_, rfl⟩
  obtain ⟨names, built⟩ := built
  have wf := (FlowGraph.builtFrom_of_ofProc built).wellFormed
  obtain ⟨live, found⟩ := FlowGraph.exists_liveness wf.nodup
  have none : countdownCopy.liveness.toOption.map (fun live => (live.before ⟨"entry"⟩).toList) =
      some [] := by decide +kernel
  simp only [found, Except.toOption, Option.map_some, Option.some.injEq] at none
  have strict : countdownCopy.Strict := by
    have first : ∀ b ∈ countdownCopy.blocks, ∀ i ∈ b.code, i.isPhi = false := by decide
    refine ⟨⟨by decide, by decide⟩, first, ?_, by decide⟩
    refine FlowGraph.dominated_of_live_subset wf.nodup found rfl fun t ht => ?_
    rw [SortedSet.mem_iff, none] at ht
    cases ht
  exact ⟨wf, strict, by decide +kernel, (run_propagateCopies wf strict rfl).1⟩

end Program

end ThreeAddress
