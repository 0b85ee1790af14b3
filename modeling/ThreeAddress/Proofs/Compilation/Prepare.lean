import ThreeAddress.Compilation.Basic
import ThreeAddress.Proofs.FlowGraph.Defined
import ThreeAddress.Proofs.Optimizer.Rounds
import ThreeAddress.Proofs.Results
import ThreeAddress.Proofs.SingleAssignment.Dominance
/-!
# What the optimizer is given

A procedure without phis is given to the optimizer as it is, or in single-assignment form, with or
without redundant phis. If redundant phis are removed, a version may be live before it is defined:
on the first path to its readers, no version has a value. If it is the version of a copy, copy
propagation reads another temporary there, which may have got a new value by then. So procedures
whose first block is a loop are asked not to read the destination of a copy before they have
assigned it.

* `Proc.EnteredOnce` : the first block is no loop;
* `Proc.CopiesInitialized` : no destination of a copy is read before it is assigned;
* `Proc.CarriedTo` : a graph does what a procedure does when it succeeds;
* `FlowGraph.versioned_of_prepare` : the optimizer is given a graph without phis or a
  single-assignment form;
* `Proc.ready_of_prepare` : the optimizer is given what it relies on;
* `Proc.carriedTo_of_compile` : the graph of a compiled procedure does what the procedure does.
-/

namespace ThreeAddress

open Execution

/-- The destination of a copy between temporaries. -/
def Instr.copied? : Instr → Option Temp
  | copy dest src => if src.named?.isSome then dest.named? else none
  | _ => none

theorem Instr.copied?_copy {dest src : Var} (h : src.named?.isSome = true) :
    (copy dest src).copied? = dest.named? := if_pos h

/-- The destinations of the copies between temporaries. -/
def Proc.copied (q : Proc) : List Temp := q.body.filterMap Instr.copied?

/-- No path reads the destination of a copy between temporaries before it is assigned, unless it is
a parameter. -/
def Proc.CopiesInitialized (q : Proc) : Prop :=
  ∀ g names live, FlowGraph.ofProc q = .ok (g, names) → g.liveness = .ok live →
    ∀ d ∈ q.copied, d ∈ q.params ∨ d ∉ live.atEntry

instance (q : Proc) : Decidable q.CopiesInitialized :=
  match built : FlowGraph.ofProc q with
  | .error _ => isTrue fun _ _ _ h => by cases built.symm.trans h
  | .ok (g, _) =>
    match found : g.liveness with
    | .error _ => isTrue fun _ _ _ h h' => by
      cases built.symm.trans h
      cases found.symm.trans h'
    | .ok live => decidable_of_iff
        (∀ d ∈ q.copied, d ∈ q.params ∨ live.atEntry.contains d = false) <| by
      simp only [Bool.eq_false_iff, ne_eq, SortedSet.contains_eq_true]
      constructor
      · intro all _ _ _ h h'
        cases built.symm.trans h
        cases found.symm.trans h'
        exact all
      · intro all
        exact all _ _ _ built found

/-- Control does not come back to the first block. -/
def Proc.EnteredOnce (q : Proc) : Prop :=
  ∀ g names, FlowGraph.ofProc q = .ok (g, names) → ∀ l, g.entry? = some l → g.preds l = []

/-- If procedures are converted, minimized and get their copies propagated, they do not come back to
their first block, or they read no copy before it is assigned. -/
def CompileOptions.Careful (o : CompileOptions) (q : Proc) : Prop :=
  o.singleAssignment = true → o.minimize = true → o.optimizer.copyPropagation = true →
    q.EnteredOnce ∨ q.CopiesInitialized

/-- Every activation of the procedure that succeeds is one of the graph, but for writes of global
variables that change nothing. -/
structure Proc.CarriedTo (q : Proc) (g : FlowGraph) : Prop where
  name : g.name = q.name
  params : g.params = q.params
  runs : ∀ {args globals t v},
    q.Runs .byName (.enter .byName Store.empty q.params args globals) t (.ok v) →
    ∃ t', Fewer True t t' ∧
      g.Runs .strict (.enter .strict (fun _ => none) g.params args globals) t' (.ok v)

theorem Proc.CarriedTo.improves {q : Proc} {g g' : FlowGraph} (h : q.CarriedTo g)
    (improves : g.Improves g') : q.CarriedTo g' := by
  refine ⟨improves.name.trans h.name, improves.params.trans h.params, fun runs => ?_⟩
  obtain ⟨t', fewer, runs'⟩ := h.runs runs
  obtain ⟨t'', fewer', runs''⟩ := improves.runs runs'
  exact ⟨t'', fewer.trans fewer', runs''⟩

/-! ## Copies of versions -/

/-- A copy between versions comes from a copy. -/
theorem Renames.exists_copy {root env last : Temp → Temp} {code code' : List Instr}
    (h : Renames root env code code' last) {i' : Instr} (hi : i' ∈ code') {d s : Temp}
    (copy : i'.tempCopy? = some (d, s)) :
    ∃ i ∈ code, i.copied? = some (root d) := by
  obtain ⟨i, mem, f, ⟨hd, rfl⟩ | ⟨n, hd, rfl⟩⟩ := h.cases_of_mem hi
  · have new := (Instr.def?_of_tempCopy? copy).1
    rw [Instr.def?_mapUses, hd] at new
    cases new
  · obtain ⟨dest', src', e, named, source, -⟩ := Instr.tempCopy?_eq_some.1 copy
    obtain rfl := Instr.eq_of_def?_setDef (Instr.def?_of_tempCopy? copy).1
    cases i with
    | copy dest src =>
      cases e
      refine ⟨_, mem, (Instr.copied?_copy ?_).trans hd⟩
      rcases src.cases_named with ⟨u, rfl, -, hu⟩ | ⟨rfl, hu⟩ | ⟨g, rfl, hu⟩
      · simp [hu]
      · simp only [Var.rename, hu] at source
        cases source
      · simp only [Var.rename, hu] at source
        cases source
    | _ => cases e

namespace FlowGraph

variable {g g' : FlowGraph} {live : Liveness} {V : Versioning}

/-- A single-assignment form is what the optimizer relies on, if its copies are executed. -/
theorem ready_of_versioned (wf : g.WellFormed) (free : g.PhiFree) (h : Versioned g g' live V)
    {copyPropagation : Bool} (copied : copyPropagation = true → g'.CopiesExecuted) :
    g'.Ready true copyPropagation :=
  ⟨h.wellFormed wf, h.phisFirst free, h.phisNamed, fun _ => ⟨h.once, h.apart⟩, fun _ => copied, nofun⟩

theorem CopiesExecuted.of_entryPhis (wf : g.WellFormed) (free : g.PhiFree) (solved : Solved g live)
    (h : Versioned g g' live V)
    (phis : ∀ l, g.entry? = some l → Versioned.HasEntryPhis g live l g' V) : g'.CopiesExecuted := by
  intro i hi d s copy l entry
  rw [entry?_of_labels h.labels] at entry
  obtain ⟨b, hb, mem⟩ := mem_code.1 hi
  refine h.not_live_of_phi wf free solved entry
    (mem_defs.2 ⟨b, hb, i, mem, (Instr.def?_of_tempCopy? copy).1⟩) ?_
  exact fun before other b' hb' label => phis l entry b' hb' label _ before other

theorem CopiesExecuted.of_initialized (wf : g.WellFormed) (free : g.PhiFree) (solved : Solved g live)
    (h : Versioned g g' live V)
    (initialized : ∀ i ∈ g.code, ∀ d, i.copied? = some d → d ∈ g.params ∨ d ∉ live.atEntry) :
    g'.CopiesExecuted := by
  intro i hi d s copy l entry path
  rw [entry?_of_labels h.labels] at entry
  obtain ⟨b', hb', mem⟩ := mem_code.1 hi
  obtain ⟨hd, -, plain⟩ := Instr.def?_of_tempCopy? copy
  have defined : d ∈ g'.defs := mem_defs.2 ⟨b', hb', i, mem, hd⟩
  obtain ⟨atEntry, param⟩ := h.atEntry_of_live wf free solved entry path defined
  rw [← b'.phis_append_code] at mem
  rcases List.mem_append.1 mem with phi | mem
  · rw [Block.isPhi_of_mem_phis phi] at plain
    cases plain
  · obtain ⟨b, hb, -, renames⟩ := h.exists_block hb'
    obtain ⟨j, mem, copied⟩ := renames.exists_copy mem copy
    rcases initialized j (mem_code.2 ⟨b, hb, mem⟩) _ copied with h | h
    · exact param h
    · exact h atEntry

/-- Without phis, a procedure is not taken for one that has some. -/
theorem hasPhis_of_phiFree (free : g.PhiFree) : g.hasPhis = false := by
  rw [hasPhis, List.any_eq_false]
  intro b hb
  simp [Block.phis_of_phiFree (free b hb)]

end FlowGraph

/-! ## Preparation -/

/-- A graph is prepared as it is, or converted. -/
theorem FlowGraph.prepare_cases {g : FlowGraph} {names : FreshNames} {o : CompileOptions}
    {prepared : Prepared} (h : g.prepare names o = .ok prepared) :
    (g.hasPhis = false → prepared.singleAssignment = false) ∧ prepared.graph = g ∨
      (g.hasPhis = false ∧ o.singleAssignment = true) ∧ prepared.singleAssignment = true ∧
        ∃ c, g.convert names = .ok c ∧
          prepared.graph = if o.minimize then c.graph.minimize.graph else c.graph := by
  rw [prepare] at h
  split at h
  · next phis =>
    cases h
    exact .inl ⟨fun none => by simp [none] at phis, rfl⟩
  · next none =>
    split at h
    · next convert =>
      obtain ⟨c, converted, h⟩ := bind_eq_ok_iff.1 h
      refine .inr ⟨⟨Bool.eq_false_iff.2 none, convert⟩, ?_⟩
      -- the checks change nothing
      dsimp only at h
      split at h
      · obtain ⟨-, -, h⟩ := bind_eq_ok_iff.1 h
        obtain ⟨-, -, h⟩ := bind_eq_ok_iff.1 h
        cases h
        exact ⟨rfl, c, converted, by simp [*]⟩
      · obtain ⟨-, -, h⟩ := bind_eq_ok_iff.1 h
        obtain ⟨-, -, h⟩ := bind_eq_ok_iff.1 h
        cases h
        exact ⟨rfl, c, converted, by simp [*]⟩
    · cases h
      exact .inl ⟨fun _ => rfl, rfl⟩

/-- Preparation keeps the blocks. -/
theorem FlowGraph.labels_prepare {g : FlowGraph} {names : FreshNames} {o : CompileOptions}
    {prepared : Prepared} (nodup : g.labels.Nodup) (h : g.prepare names o = .ok prepared) :
    prepared.graph.labels = g.labels := by
  obtain ⟨-, same⟩ | ⟨-, -, c, converted, graph⟩ := prepare_cases h
  · rw [same]
  · have labels := (shape_of_convert nodup converted).1
    rw [graph]
    split
    · exact (labels_minimize c.graph).trans labels
    · exact labels

/-- A graph without phis is prepared as it is, or in a single-assignment form. Blocks have phis for
what is live before them if redundant ones are not removed, or if control does not come to them from
another block. -/
theorem FlowGraph.versioned_of_prepare {g : FlowGraph} {names : FreshNames} {o : CompileOptions}
    {prepared : Prepared} (wf : g.WellFormed) (free : g.PhiFree)
    (avoids : ∀ t ∈ g.temps, t ∈ names.temps) (h : g.prepare names o = .ok prepared) :
    prepared.singleAssignment = false ∧ prepared.graph = g ∨
      ∃ live V, g.liveness = .ok live ∧ prepared.singleAssignment = true ∧
        o.singleAssignment = true ∧ Versioned g prepared.graph live V ∧
        ∀ l, (o.minimize = true → g.preds l = []) →
          Versioned.HasEntryPhis g live l prepared.graph V := by
  obtain ⟨mode, same⟩ | ⟨⟨-, convert⟩, mode, c, converted, graph⟩ := prepare_cases h
  · exact .inl ⟨mode (hasPhis_of_phiFree free), same⟩
  · obtain ⟨live, V, found, versioned, all⟩ := versioned_of_convert wf free.bare avoids converted
    rw [graph]
    cases minimize : o.minimize with
    | true =>
      obtain ⟨V', versioned', phis⟩ := versioned.minimize_entryPhis wf free all
      exact .inr ⟨live, V', found, mode, convert, versioned', fun l once => phis l (once rfl)⟩
    | false =>
      refine .inr ⟨live, V, found, mode, convert, versioned, ?_⟩
      rintro - - b hb rfl t ht -
      exact all b hb t ht

namespace Proc

variable {q : Proc} {g : FlowGraph} {names : FreshNames} {o : CompileOptions}

/-- The graph of a procedure without phis does what the procedure does. -/
theorem carriedTo_graph (from_ : FlowGraph.BuiltFrom q g) (free : g.PhiFree) : q.CarriedTo g := by
  refine ⟨from_.name, from_.params, fun {_ _ t _} runs => ⟨t, .refl _ _, ?_⟩⟩
  refine free.runs_strict from_.wellFormed ?_
  rw [from_.params]
  exact g.runs_of_runs from_.wellFormed free.phisTold from_.name from_.instrs.symm runs

/-- So does its single-assignment form. -/
theorem carriedTo_versioned (from_ : FlowGraph.BuiltFrom q g) (free : g.PhiFree) {g' : FlowGraph}
    {live : Liveness} {V : Versioning} (solved : Solved g live) (h : Versioned g g' live V) :
    q.CarriedTo g' := by
  refine ⟨h.name.trans from_.name, h.params.trans from_.params, fun {_ _ t _} runs =>
    ⟨t, .refl _ _, ?_⟩⟩
  refine (h.runs_ok_iff from_.wellFormed free solved Keeping.byName_lawful Keeping.strict_lawful
    Keeping.byName_empty fun _ => rfl).1 ?_
  rw [from_.params]
  exact g.runs_of_runs from_.wellFormed free.phisTold from_.name from_.instrs.symm runs

/-- What the optimizer is given is what it relies on, and does what the procedure does. -/
theorem ready_of_prepare (free : q.PhiFree) (careful : o.Careful q)
    (built : FlowGraph.ofProc q = .ok (g, names)) {prepared : Prepared}
    (h : g.prepare names o = .ok prepared) :
    prepared.graph.Ready prepared.singleAssignment o.optimizer.copyPropagation ∧
      q.CarriedTo prepared.graph := by
  have from_ := FlowGraph.builtFrom_of_ofProc built
  have wf := from_.wellFormed
  have freeGraph := from_.phiFree free
  obtain ⟨mode, same⟩ | ⟨live, V, found, mode, convert, versioned, phis⟩ :=
    FlowGraph.versioned_of_prepare wf freeGraph (FlowGraph.avoids_of_ofProc built) h
  · rw [mode, same]
    exact ⟨⟨wf, freeGraph.phisFirst, freeGraph.phisNamed, nofun, nofun, fun _ => freeGraph⟩,
      carriedTo_graph from_ freeGraph⟩
  · have solved := FlowGraph.solved_of_liveness wf.nodup found
    rw [mode]
    refine ⟨FlowGraph.ready_of_versioned wf freeGraph versioned fun propagates => ?_,
      carriedTo_versioned from_ freeGraph solved versioned⟩
    by_cases reduced : o.minimize = true
    · rcases careful convert reduced propagates with once | initialized
      · exact .of_entryPhis wf freeGraph solved versioned fun l entry =>
          phis l fun _ => once g names built l entry
      · refine .of_initialized wf freeGraph solved versioned fun i hi d copied => ?_
        rw [from_.params]
        refine initialized g names live built found d ?_
        obtain ⟨b, hb, mem⟩ := FlowGraph.mem_code.1 hi
        have text : i ∈ g.instrs := List.mem_flatMap.2 ⟨b, hb, List.mem_append_right _ mem⟩
        exact List.mem_filterMap.2 ⟨i, from_.instrs ▸ text, copied⟩
    · exact .of_entryPhis wf freeGraph solved versioned fun l _ =>
        phis l fun on => absurd on reduced

end Proc

/-! ## Compiled procedures -/

section Compile

variable {q : Proc} {g : FlowGraph} {o : CompileOptions} {c : CompiledProc}

/-- What a graph is allocated and lowered with. -/
theorem FlowGraph.exists_of_finish (h : g.finish o = .ok c) :
    ∃ live allocation, g.liveness = .ok live ∧
      (g.interference live).allocate o.registers = .ok allocation ∧
      g.lower live allocation.assignment = .ok c.function ∧ c.graph = g ∧
      c.assignment = allocation.assignment := by
  obtain ⟨live, found, h⟩ := bind_eq_ok_iff.1 h
  obtain ⟨allocation, allocated, h⟩ := bind_eq_ok_iff.1 h
  obtain ⟨function, lowered, h⟩ := bind_eq_ok_iff.1 h
  refine ⟨live, allocation, found, allocated, ?_⟩
  dsimp only at h
  split at h
  · obtain ⟨-, -, h⟩ := bind_eq_ok_iff.1 h
    cases h
    exact ⟨lowered, rfl, rfl⟩
  · cases h
    exact ⟨lowered, rfl, rfl⟩

/-- A procedure is compiled by cutting it into blocks, preparing, optimizing, allocating and lowering
it. -/
theorem Proc.exists_of_compile (h : q.compile o = .ok c) :
    ∃ g names prepared rounds live allocation, FlowGraph.ofProc q = .ok (g, names) ∧
      g.prepare names o = .ok prepared ∧
      prepared.graph.optimize o.optimizer prepared.singleAssignment = .ok (c.graph, rounds) ∧
      c.graph.liveness = .ok live ∧
      (c.graph.interference live).allocate o.registers = .ok allocation ∧
      c.assignment = allocation.assignment ∧
      c.graph.lower live c.assignment = .ok c.function := by
  rw [compile] at h
  split at h
  · cases h
  · next g names built =>
    obtain ⟨prepared, prepare, h⟩ := bind_eq_ok_iff.1 (mapError_eq_ok_iff.1 h)
    obtain ⟨optimized, optimize, h⟩ := bind_eq_ok_iff.1 h
    obtain ⟨finished, finish, h⟩ := bind_eq_ok_iff.1 h
    cases h
    obtain ⟨live, allocation, found, allocated, lowered, graph, assignment⟩ :=
      FlowGraph.exists_of_finish finish
    refine ⟨g, names, prepared, optimized.2, live, allocation, built, prepare, ?_, ?_, ?_, assignment,
      ?_⟩
    · rw [graph]
      exact optimize
    · rw [graph]
      exact found
    · rw [graph]
      exact allocated
    · rw [graph, assignment]
      exact lowered

/-- The graph of a compiled procedure does what the procedure does. -/
theorem Proc.carriedTo_of_compile (free : q.PhiFree) (careful : o.Careful q)
    (h : q.compile o = .ok c) :
    ∃ mode, c.graph.Ready mode o.optimizer.copyPropagation ∧ q.CarriedTo c.graph := by
  obtain ⟨g, names, prepared, rounds, live, allocation, built, prepare, optimize, -⟩ :=
    exists_of_compile h
  obtain ⟨ready, carried⟩ := ready_of_prepare free careful built prepare
  obtain ⟨ready', improves⟩ := ready.optimize optimize
  exact ⟨_, ready', carried.improves improves⟩

end Compile

end ThreeAddress
