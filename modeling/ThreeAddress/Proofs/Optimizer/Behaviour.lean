import ThreeAddress.Proofs.Compilation.Prepare
/-!
# What the removal of dead code does to a program

Dead code can be removed from the graph of a procedure without phis, from its single-assignment form
and from what is left of that without redundant phis. The program then prints the same and ends with
the same result or the same failure, unless it failed for want of a value: what had none may have
been read by dead code only.

By name, a phi whose argument has no value leaves its destination alone, and liveness does not see
that the old value may still be read. In all three graphs a run by name is also a strict one, where
nothing is left of the old value; so sweeps are compared by strict runs.

* `FlowGraph.PreservedBy` : another graph does what a graph does, unless a value is missing;
* `FlowGraph.ByNameIsStrict` : runs by name are strict;
* `FlowGraph.Ready.exists_removeDeadCode` : dead code can be removed, and nothing else changes;
* `Program.endsWith_removeDeadCode` : a program ends in the same way without the dead code.
-/

namespace ThreeAddress

open Execution

namespace FlowGraph

variable {q : Proc} {g g' g₁ g₂ g₃ last : FlowGraph} {mode : Bool}

/-! ## Without dead code -/

/-- The second graph does what the first one does, but for writes of global variables that change
nothing, unless the first one fails for want of a value. -/
structure PreservedBy (g g' : FlowGraph) : Prop where
  name : g'.name = g.name
  params : g'.params = g.params
  runs : ∀ {args globals t r}, Valued r →
    g.Runs .strict (.enter .strict (fun _ => none) g.params args globals) t r →
    ∃ t', Fewer True t t' ∧
      g'.Runs .strict (.enter .strict (fun _ => none) g'.params args globals) t' r

theorem PreservedBy.refl (g : FlowGraph) : g.PreservedBy g :=
  ⟨rfl, rfl, fun _ runs => ⟨_, .refl _ _, runs⟩⟩

theorem PreservedBy.trans (h₁ : g₁.PreservedBy g₂) (h₂ : g₂.PreservedBy g₃) : g₁.PreservedBy g₃ := by
  refine ⟨h₂.name.trans h₁.name, h₂.params.trans h₁.params, fun valued runs => ?_⟩
  obtain ⟨t', fewer, runs'⟩ := h₁.runs valued runs
  obtain ⟨t'', fewer', runs''⟩ := h₂.runs valued runs'
  exact ⟨t'', fewer.trans fewer', runs''⟩

/-- A sweep does what the graph does, unless a value is missing. -/
theorem Ready.preservedBy_sweep {live : Liveness} (h : g.Ready mode false) (solved : Solved g live) :
    g.PreservedBy (g.sweep live) :=
  ⟨rfl, rfl, fun valued runs =>
    runs.sweep h.wellFormed h.phisFirst solved (fun _ => h.phiDefs_nodup) valued⟩

/-- Dead code can be removed. What is left does what the graph does, unless a value is missing. -/
theorem Ready.exists_removeDeadCode (h : g.Ready mode false) :
    ∃ last sweeps, g.removeDeadCode = .ok (last, sweeps) ∧ last.Ready mode false ∧
      g.PreservedBy last := by
  refine FlowGraph.exists_removeDeadCode (P := fun g' => g'.Ready mode false ∧ g.PreservedBy g')
    (fun g' kept => kept.1.wellFormed.nodup) (fun g' live kept found => ?_) ⟨h, .refl g⟩
  have solved := solved_of_liveness kept.1.wellFormed.nodup found
  exact ⟨kept.1.sweep solved, kept.2.trans (kept.1.preservedBy_sweep solved)⟩

/-! ## Runs by name -/

/-- A run by name is a strict run, unless it fails for want of a value. -/
def ByNameIsStrict (g : FlowGraph) : Prop :=
  ∀ args globals t r, Valued r →
    g.Runs .byName (.enter .byName Store.empty g.params args globals) t r →
    g.Runs .strict (.enter .strict (fun _ => none) g.params args globals) t r

theorem PhiFree.byNameIsStrict (wf : g.WellFormed) (free : g.PhiFree) : g.ByNameIsStrict :=
  fun _ _ _ _ valued runs => free.runs_strict_of_valued wf runs valued

/-- A run of a single-assignment form is a run of the graph, whichever way temporaries are kept. -/
theorem byNameIsStrict_of_versioned {live : Liveness} {V : Versioning} (wf : g.WellFormed)
    (free : g.PhiFree) (solved : Solved g live) (h : Versioned g g' live V) : g'.ByNameIsStrict := by
  intro args globals t r valued runs
  have source := (h.runs_iff_of_valued wf free solved Keeping.byName_lawful Keeping.byName_lawful
    Keeping.byName_empty Keeping.byName_empty valued).2 runs
  exact (h.runs_iff_of_valued wf free solved Keeping.byName_lawful Keeping.strict_lawful
    Keeping.byName_empty (fun _ => rfl) valued).1 source

/-- The text of a graph does what the text of another one does that it is preserved by. -/
theorem PreservedBy.carriedFor (h : g.Ready mode false) (h' : g'.Ready mode false)
    (strict : g.ByNameIsStrict) (preserved : g.PreservedBy g') :
    g.toProc.CarriedFor Valued g'.toProc := by
  intro args globals t r _ valued runs
  rw [runs_toProc_iff h.wellFormed] at runs
  obtain ⟨t', fewer, runs'⟩ := preserved.runs valued (strict args globals t r valued runs)
  refine ⟨t', fewer, ?_⟩
  rw [runs_toProc_iff h'.wellFormed]
  exact runs'.byName_of_valued h'.wellFormed h'.phisFirst valued

/-- A graph that a procedure without phis is cut into, its single-assignment form, and what is left of
that without redundant phis. -/
theorem ready_of_stage {names : FreshNames} {c : Conversion} (free : q.PhiFree)
    (built : ofProc q = .ok (g, names)) (converted : g.convert names = .ok c) {before : FlowGraph}
    (stage : before ∈ [g, c.graph, c.graph.minimize.graph]) :
    ∃ mode, before.Ready mode false ∧ before.ByNameIsStrict ∧ before.name = q.name ∧
      before.params = q.params := by
  have from_ := builtFrom_of_ofProc built
  have wf := from_.wellFormed
  have freeGraph := from_.phiFree free
  obtain ⟨live, V, found, versioned, -⟩ :=
    versioned_of_convert wf freeGraph.bare (avoids_of_ofProc built) converted
  have solved := solved_of_liveness wf.nodup found
  have form : ∀ {g' : FlowGraph} {V : Versioning}, Versioned g g' live V →
      ∃ mode, g'.Ready mode false ∧ g'.ByNameIsStrict ∧ g'.name = q.name ∧ g'.params = q.params :=
    fun versioned => ⟨true, ready_of_versioned wf freeGraph versioned nofun,
      byNameIsStrict_of_versioned wf freeGraph solved versioned,
      versioned.name.trans from_.name, versioned.params.trans from_.params⟩
  simp only [List.mem_cons, List.not_mem_nil, or_false] at stage
  rcases stage with rfl | rfl | rfl
  · exact ⟨false, ⟨wf, freeGraph.phisFirst, freeGraph.phisNamed, nofun, nofun, fun _ => freeGraph⟩,
      freeGraph.byNameIsStrict wf, from_.name, from_.params⟩
  · exact form versioned
  · obtain ⟨V', -, reduced⟩ := versioned.minimize wf freeGraph
    exact form reduced

end FlowGraph

/-! ## A program -/

namespace Program

variable {p : Program} {k : Nat} {q : Proc} {g : FlowGraph} {names : FreshNames}

/-- Dead code can be removed from the graph of a procedure without phis, from its single-assignment
form, and from that without redundant phis. A run of the program with the text of the graph that is
not cut short and does not fail for want of a value ends in the same way without the dead code. -/
theorem endsWith_removeDeadCode (hq : p.procs[k]? = some q) (free : q.PhiFree)
    (built : FlowGraph.ofProc q = .ok (g, names)) :
    ∃ c, g.convert names = .ok c ∧ ∀ before ∈ [g, c.graph, c.graph.minimize.graph],
      ∃ after sweeps, before.removeDeadCode = .ok (after, sweeps) ∧
        ∀ limit, Valued ((p.replace k before.toProc).run limit).result →
          ((p.replace k before.toProc).run limit).result ≠ .error (.stepLimit limit) →
          (p.replace k after.toProc).EndsWith ((p.replace k before.toProc).run limit) := by
  obtain ⟨c, converted⟩ : ∃ c, g.convert names = .ok c :=
    FlowGraph.exists_conversion (FlowGraph.builtFrom_of_ofProc built).wellFormed
  refine ⟨c, converted, fun before stage => ?_⟩
  obtain ⟨mode, ready, strict, name, params⟩ := FlowGraph.ready_of_stage free built converted stage
  obtain ⟨after, sweeps, removed, ready', preserved⟩ := ready.exists_removeDeadCode
  refine ⟨after, sweeps, removed, fun limit valued uncut => ?_⟩
  have related := matches_replace (.refl Valued) (getElem?_replace hq) preserved.name preserved.params
    (preserved.carriedFor ready ready' strict)
  rw [replace_again] at related
  refine finishes_iff.1 (finishes_kept Valued.ok related rfl (fun r same => ?_)
    (finishes_of_run rfl uncut))
  rw [← same] at valued
  cases r with
  | ok v => exact .ok v
  | error f => exact fun f' e => valued f' (by rw [Except.error.inj e]; rfl)

/-- A procedure that counts down, with a value that is not used, a value that is only used for that,
a write that is lost, a copy of a temporary to itself and one that goes nowhere; and then it divides by
zero. -/
def wasteful : Proc :=
  let v (s : String) : Var := .temp ⟨s, none⟩
  ⟨⟨"main"⟩, [], [
    .const (v "n") 2,
    .const (v "n") 3,
    .const (v "one") 1,
    .label ⟨"loop"⟩,
    .print (v "n"),
    .binary .mul (v "square") (v "n") (v "n"),
    .unary .neg (v "unused") (v "square"),
    .copy (v "n") (v "n"),
    .copy .sink (v "n"),
    .binary .sub (v "n") (v "n") (v "one"),
    .branch .nonzero (v "n") ⟨"loop"⟩,
    .binary .div (v "unused") (v "one") (v "n"),
    .ret (v "one")]⟩

/-- The division stays, although its result is not used, and the procedure fails with it in all three
forms. -/
theorem endsWith_removeDeadCode_wasteful : ∃ g names c, FlowGraph.ofProc wasteful = .ok (g, names) ∧
    g.convert names = .ok c ∧ ∀ before ∈ [g, c.graph, c.graph.minimize.graph],
      ∃ after sweeps, before.removeDeadCode = .ok (after, sweeps) ∧
        (replace ⟨[], [wasteful]⟩ 0 after.toProc).EndsWith
          ⟨#[.word 3, .word 2, .word 1], .error (.divisionByZero ⟨"main"⟩)⟩ := by
  have hq : (⟨[], [wasteful]⟩ : Program).procs[0]? = some wasteful := rfl
  obtain ⟨⟨g, names⟩, built⟩ : ∃ made, FlowGraph.ofProc wasteful = .ok made := ⟨_, rfl⟩
  obtain ⟨c, converted, removal⟩ := endsWith_removeDeadCode hq (by decide) built
  have found : ((FlowGraph.ofProc wasteful).toOption.bind fun made =>
      (made.1.convert made.2).toOption.map fun c =>
        [made.1, c.graph, c.graph.minimize.graph].all fun before =>
          let e := (replace ⟨[], [wasteful]⟩ 0 before.toProc).run 60
          decide (e.printed = #[.word 3, .word 2, .word 1]) &&
            match e.result with
            | .error f => decide (f = .divisionByZero ⟨"main"⟩)
            | .ok _ => false) = some true := by
    decide +kernel
  simp only [built, converted, Except.toOption, Option.bind_some, Option.map_some,
    Option.some.injEq, List.all_eq_true] at found
  refine ⟨g, names, c, built, converted, fun before stage => ?_⟩
  obtain ⟨after, sweeps, removed, same⟩ := removal before stage
  have ends := found before stage
  have run : (replace ⟨[], [wasteful]⟩ 0 before.toProc).run 60 =
      ⟨#[.word 3, .word 2, .word 1], .error (.divisionByZero ⟨"main"⟩)⟩ := by
    generalize (replace ⟨[], [wasteful]⟩ 0 before.toProc).run 60 = e at ends
    obtain ⟨printed, _ | v⟩ := e <;> simp_all
  refine ⟨after, sweeps, removed, run ▸ same 60 ?_ ?_⟩
  · rw [run]
    rintro _ ⟨⟩ none
    exact none
  · rw [run]
    simp

end Program

end ThreeAddress
