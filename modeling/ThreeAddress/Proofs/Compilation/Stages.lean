import ThreeAddress.Proofs.Compilation.Names
import ThreeAddress.Proofs.SingleAssignment.Passes
/-!
# What the allocator is given

Whatever phis a procedure has, it can be prepared and optimized: without phis at the heads of blocks
the checks accept its single-assignment form, and with some it is taken as it is. What comes out is
still a well-formed graph that can be written, with the same numbers.

* `FlowGraph.Compilable` : what every stage keeps;
* `FlowGraph.accepted_of_convert` : the checks accept what is converted;
* `FlowGraph.exists_prepare`, `FlowGraph.Compilable.exists_optimize` : the stages have a result, and
  keep it.
-/

namespace ThreeAddress

theorem Instr.count_of_isPhi {i : Instr} (phi : i.isPhi = true) : i.count = 0 := by
  cases i <;> first | rfl | cases phi

namespace FlowGraph

variable {name : Global} {g g' : FlowGraph}

/-! ## Numbers -/

/-- Every number that an instruction gives is small. -/
def Small (g : FlowGraph) : Prop := ∀ i ∈ g.code, i.count < 2 ^ 20

theorem Small.prune (h : g.Small) (pruned : g.Pruned g') : g'.Small := by
  intro i' hi'
  obtain ⟨i, hi, same⟩ := pruned.exists_source hi'
  rw [same.count]
  exact h i hi

theorem Small.versioned {live : Liveness} {V : Versioning} (h : g.Small)
    (versioned : Versioned g g' live V) : g'.Small := by
  intro i' hi'
  obtain ⟨b', hb', hi'⟩ := mem_code.1 hi'
  rw [← b'.phis_append_code] at hi'
  rcases List.mem_append.1 hi' with phi | hi'
  · rw [Instr.count_of_isPhi (Block.isPhi_of_mem_phis phi)]
    decide
  · obtain ⟨b, hb, -, renames⟩ := versioned.exists_block hb'
    obtain ⟨i, hi, -, -, same⟩ := renames.exists_source hi'
    rw [same]
    exact h i (mem_code.2 ⟨b, hb, hi⟩)

/-! ## Preparation -/

/-- A well-formed procedure that can be written, with small numbers. -/
structure Compilable (name : Global) (g : FlowGraph) : Prop where
  wellFormed : g.WellFormed
  writable : g.Writable name
  small : g.Small

theorem Writable.sink_not_mem_temps (h : g.Writable name) : .sink ∉ g.temps := fun mem =>
  Temp.ne_sink_of_isNamed (h.isNamed_of_mem_temps mem) rfl

theorem Writable.sink_not_mem_defs (h : g.Writable name) : .sink ∉ g.defs := fun mem => by
  obtain ⟨b, hb, i, hi, hd⟩ := mem_defs.1 mem
  exact h.sink_not_mem_temps (mem_temps_of_def? hb hi hd)

/-- A procedure that can be written names the sink nowhere. -/
theorem Writable.bare (h : g.Writable name) (none : g.hasPhis = false) : g.Bare := by
  refine ⟨fun b hb => ?_, h.sink_not_mem_temps⟩
  rw [hasPhis, List.any_eq_false] at none
  simpa using none b hb

variable {names : FreshNames}

/-- The checks accept what a procedure without phis at the heads of blocks is converted to. -/
theorem accepted_of_convert (wf : g.WellFormed) (h : g.Writable name) (bare : g.Bare)
    (avoids : ∀ t ∈ g.temps, t ∈ names.temps) {c : Conversion} (converted : g.convert names = .ok c) :
    c.graph.Accepted := by
  obtain ⟨live, V, -, versioned, -⟩ := versioned_of_convert wf bare avoids converted
  exact versioned.accepted wf (h.convert converted).1.sink_not_mem_defs

/-- A procedure that does not begin a block with a phi can be converted, and the checks accept it. -/
theorem exists_toSingleAssignment (h : g.Compilable name) (bare : g.Bare)
    (avoids : ∀ t ∈ g.temps, t ∈ names.temps) (minimize : Bool) :
    ∃ prepared, g.toSingleAssignment names minimize = .ok prepared ∧
      prepared.graph.WellFormed ∧ prepared.graph.Small := by
  obtain ⟨c, converted⟩ : ∃ c, g.convert names = .ok c := exists_conversion h.wellFormed
  have accepted := accepted_of_convert h.wellFormed h.writable bare avoids converted
  have small : c.graph.Small := by
    obtain ⟨live, V, -, versioned, -⟩ := versioned_of_convert h.wellFormed bare avoids converted
    exact h.small.versioned versioned
  have minimized : c.graph.minimize.graph.Accepted ∧ c.graph.minimize.graph.Small :=
    of_minimize (P := fun g => g.Accepted ∧ g.Small)
      (fun g kept => ⟨kept.1.minimizeRound, kept.2.prune kept.1.pruned_minimizeRound⟩)
      ⟨accepted, small⟩
  rw [toSingleAssignment, converted]
  cases minimize with
  | false =>
    refine ⟨⟨c.graph, true, c.events⟩, ?_, accepted.wellFormed, small⟩
    simp [bind, Except.bind, accepted.checkDefinitions, accepted.checkPhis, pure, Except.pure]
  | true =>
    refine ⟨⟨c.graph.minimize.graph, true, c.events ++ c.graph.minimize.events⟩, ?_,
      minimized.1.wellFormed, minimized.2⟩
    simp [bind, Except.bind, minimized.1.checkDefinitions, minimized.1.checkPhis, pure, Except.pure]

/-- A procedure can be prepared. -/
theorem exists_prepare (h : g.Compilable name) (avoids : ∀ t ∈ g.temps, t ∈ names.temps)
    (o : CompileOptions) :
    ∃ prepared, g.prepare names o = .ok prepared ∧ prepared.graph.Compilable name := by
  have prepared : ∃ prepared, g.prepare names o = .ok prepared ∧ prepared.graph.WellFormed ∧
      prepared.graph.Small := by
    rw [prepare]
    split
    · exact ⟨_, rfl, h.wellFormed, h.small⟩
    · next none =>
      split
      · exact exists_toSingleAssignment h (h.writable.bare (Bool.eq_false_iff.2 none)) avoids o.minimize
      · exact ⟨_, rfl, h.wellFormed, h.small⟩
  obtain ⟨prepared, done, wf, small⟩ := prepared
  exact ⟨prepared, done, wf, h.writable.prepare done, small⟩

/-- And it can be optimized. -/
theorem Compilable.exists_optimize (h : g.Compilable name) (o : OptimizerOptions)
    (everywhere : Bool) : ∃ last rounds, g.optimize o everywhere = .ok (last, rounds) ∧
      last.Compilable name := by
  obtain ⟨last, rounds, done, wf, small⟩ := exists_optimize_of_prune
    (P := fun g => g.WellFormed ∧ g.Small) (fun _ kept => kept.1)
    (fun _ _ kept pruned => ⟨kept.1.prune pruned, kept.2.prune pruned⟩) ⟨h.wellFormed, h.small⟩ o
    everywhere
  exact ⟨last, rounds, done, wf, h.writable.optimize done, small⟩

/-- The graph of a procedure that can be written. -/
theorem compilable_of_ofProc {q : Proc} (proper : q.isProper = true)
    (small : ∀ i ∈ q.body, i.count < 2 ^ 20) (built : ofProc q = .ok (g, names)) :
    g.Compilable q.name := by
  have from_ := builtFrom_of_ofProc built
  refine ⟨from_.wellFormed, writable_of_ofProc proper built, fun i hi => small i ?_⟩
  obtain ⟨b, hb, hi⟩ := mem_code.1 hi
  rw [← from_.instrs]
  exact List.mem_flatMap.2 ⟨b, hb, List.mem_append_right _ hi⟩

end FlowGraph

/-- So is the graph of a compiled procedure. -/
theorem Proc.compilable_of_compile {q : Proc} {o : CompileOptions} {c : CompiledProc}
    (proper : q.isProper = true) (small : ∀ i ∈ q.body, i.count < 2 ^ 20)
    (h : q.compile o = .ok c) : c.graph.Compilable q.name := by
  obtain ⟨g, names, prepared, rounds, live, allocation, built, prepare, optimize, -⟩ :=
    exists_of_compile h
  obtain ⟨prepared', prepare', compilable⟩ := FlowGraph.exists_prepare
    (FlowGraph.compilable_of_ofProc proper small built) (FlowGraph.avoids_of_ofProc built) o
  cases prepare.symm.trans prepare'
  obtain ⟨last, rounds', optimize', compilable'⟩ :=
    compilable.exists_optimize o.optimizer prepared.singleAssignment
  cases optimize.symm.trans optimize'
  exact compilable'

end ThreeAddress
