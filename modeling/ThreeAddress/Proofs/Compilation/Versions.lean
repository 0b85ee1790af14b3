import ThreeAddress.Proofs.Compilation.Behaviour
import ThreeAddress.Proofs.Compilation.Stages
import ThreeAddress.Proofs.FlowGraph.Closed
import ThreeAddress.Proofs.SingleAssignment.Count
/-!
# Versions in compiled code

The compiler makes temporaries in one place, where it converts to single assignment, and no pass
behind that mentions others. So the procedure that is compiled bounds how many there are and the
numbers of their versions, and a version is a number of 32 bits if the procedure is not too large.

* `FlowGraph.Accepted.temps_minimizeRound`, `FlowGraph.temps_propagateCopies`,
  `FlowGraph.temps_sweep` : no pass makes temporaries;
* `Proc.counted_of_compile` : the temporaries of a compiled procedure;
* `Program.fits_of_compile` : a compiled program has no version that is too great.
-/

namespace ThreeAddress

/-! ## Temporaries of renamed code -/

namespace Instr

variable {P : Temp → Prop} {f : Temp → Temp} {i : Instr}

theorem temps_mapUses (keeps : Keeps P f) (h : ∀ t ∈ i.temps, P t) :
    ∀ t ∈ (i.mapUses f).temps, P t := by
  intro t ht
  rcases mem_temps.1 ht with def_ | use | arg
  · rw [def?_mapUses] at def_
    exact h t (mem_temps.2 (.inl def_))
  · obtain ⟨u, hu, rfl⟩ := exists_of_mem_uses_mapUses use
    exact keeps u (h u (mem_temps.2 (.inr (.inl hu))))
  · rw [phiArgs_mapUses] at arg
    exact h t (mem_temps.2 (.inr (.inr arg)))

theorem temps_mapReads (keeps : Keeps P f) (h : ∀ t ∈ i.temps, P t) :
    ∀ t ∈ (i.mapReads f).temps, P t := by
  cases plain : i.isPhi with
  | false =>
    rw [mapReads_of_plain plain]
    exact temps_mapUses keeps h
  | true =>
    cases i with
    | phi dest args =>
      intro t ht
      rcases List.mem_append.1 ht with def_ | arg
      · exact h t (List.mem_append_left _ def_)
      · have values : (phi dest args).phiArgs.map f = ((phi dest args).mapReads f).phiArgs :=
          (SortedMap.values_map f args).symm
        rw [← values] at arg
        obtain ⟨u, hu, rfl⟩ := List.mem_map.1 arg
        exact keeps u (h u (List.mem_append_right _ hu))
    | _ => cases plain

end Instr

theorem temps_propagateBody {P : Temp → Prop} {copies : Copies} {code : List Instr}
    (h : LeadsTo P copies) (temps : ∀ i ∈ code, ∀ t ∈ i.temps, P t) :
    ∀ i ∈ propagateBody copies code, ∀ t ∈ i.temps, P t := by
  induction code generalizing copies with
  | nil => exact List.forall_mem_nil _
  | cons i rest ih =>
    have first := Instr.temps_mapUses h.resolve (temps i List.mem_cons_self)
    exact List.forall_mem_cons.2 ⟨first, ih (h.after first) fun j hj =>
      temps j (List.mem_cons_of_mem _ hj)⟩

namespace FlowGraph

variable {name : Global} {g g' : FlowGraph} {P : Temp → Prop}

/-- The temporaries of other code in the same blocks. -/
theorem temps_mapBodies {f : Block → List Instr} (h : ∀ t ∈ g.temps, P t)
    (code : ∀ b ∈ g.blocks, ∀ i ∈ f b, ∀ t ∈ i.temps, P t) : ∀ t ∈ (g.mapBodies f).temps, P t := by
  intro t ht
  rw [temps, SortedSet.mem_ofList, List.mem_append] at ht
  rcases ht with param | inner
  · refine h t ?_
    rw [temps, SortedSet.mem_ofList]
    exact List.mem_append_left _ param
  · obtain ⟨b', hb', inner⟩ := List.mem_flatMap.1 inner
    obtain ⟨b, hb, rfl⟩ := mem_mapBodies.1 hb'
    obtain ⟨i, hi, ht⟩ := List.mem_flatMap.1 inner
    exact code b hb i hi t ht

theorem temps_sweep {live : Liveness} (h : ∀ t ∈ g.temps, P t) : ∀ t ∈ (g.sweep live).temps, P t :=
  temps_mapBodies h fun b hb i hi t ht => by
    obtain ⟨e, he, rfl⟩ := List.mem_map.1 hi
    exact h t (mem_temps_of_mem_temps hb (List.of_mem_zip (List.mem_filter.1 he).1).1 ht)

theorem temps_propagateCopies (everywhere : Bool) (h : ∀ t ∈ g.temps, P t) :
    ∀ t ∈ (g.propagateCopies everywhere).temps, P t := by
  have temps : ∀ b ∈ g.blocks, ∀ i ∈ b.body, ∀ t ∈ i.temps, P t := fun b hb i hi t ht =>
    h t (mem_temps_of_mem_temps hb hi ht)
  cases everywhere with
  | false => exact temps_mapBodies h fun b hb => temps_propagateBody .empty (temps b hb)
  | true =>
    refine temps_mapBodies h fun b hb i' hi' => ?_
    obtain ⟨i, hi, rfl⟩ := List.mem_map.1 hi'
    refine Instr.temps_mapReads (leadsTo_copies fun j hj => ?_).resolve (temps b hb i hi)
    obtain ⟨c, hc, hj⟩ := mem_code.1 hj
    exact temps c hc j hj

/-- A round of the removal of redundant phis makes no temporaries. -/
theorem Accepted.temps_minimizeRound (h : g.Accepted) (temps : ∀ t ∈ g.temps, P t) :
    ∀ t ∈ g.minimizeRound.1.temps, P t := by
  obtain ⟨f, undoes, same⟩ := h.exists_afterRound
  have copied : ∀ e ∈ g.superfluous, P e.1 ∧ P e.2 := by
    intro e he
    obtain ⟨b, hb, args, mem, source⟩ := mem_superfluous.1 he
    have hi := Block.mem_body_of_mem_phis mem
    have value := (Instr.mem_values_of_singleSource? source).2
    exact ⟨temps _ (mem_temps_of_def? hb hi rfl),
      temps _ (mem_temps_of_mem_temps hb hi (Instr.mem_temps.2 (.inr (.inr value))))⟩
  have keeps : Keeps P f := by
    intro t ht
    rwa [undoes.keeps P (fun e he => propext (iff_of_true (copied e he).1 (copied e he).2)) t]
  rw [same]
  refine temps_mapBodies temps fun b hb i' hi' => ?_
  obtain ⟨i, hi, rfl⟩ := List.mem_map.1 hi'
  have mem : i ∈ b.body := by
    rcases List.mem_append.1 hi with phi | code
    · exact Block.mem_body_of_mem_phis (List.mem_filter.1 phi).1
    · exact Block.mem_body_of_mem_code (List.mem_filter.1 code).1
  exact Instr.temps_mapReads keeps fun t ht => temps t (mem_temps_of_mem_temps hb mem ht)

/-! ## Compiled procedures -/

section Compiled

variable {names : FreshNames} {o : CompileOptions} {prepared : Prepared}

/-- The temporaries of what the optimizer is given. -/
theorem counted_of_prepare (wf : g.WellFormed) (h : g.Writable name) (first : names.nextVersion = 1)
    (used : names.temps = g.temps) (done : g.prepare names o = .ok prepared) :
    g.Counted prepared.graph.temps := by
  obtain ⟨-, same⟩ | ⟨⟨none, -⟩, -, c, converted, graph⟩ := prepare_cases done
  · exact same ▸ g.counted_temps
  · have bare := h.bare none
    have accepted := accepted_of_convert wf h bare (fun _ ht => used ▸ ht) converted
    have counted := counted_of_convert wf bare first used converted
    rw [graph]
    split
    · refine counted.subset (of_minimize
        (P := fun g => g.Accepted ∧ ∀ t ∈ g.temps, t ∈ c.graph.temps) (fun _ kept => ?_)
        ⟨accepted, fun _ ht => ht⟩).2
      exact ⟨kept.1.minimizeRound, kept.1.temps_minimizeRound kept.2⟩
    · exact counted

/-- The optimizer makes no temporaries. -/
theorem Writable.temps_optimize (h : g.Writable name) {options : OptimizerOptions}
    {everywhere : Bool} {last : FlowGraph} {rounds : List OptimizerRound}
    (done : g.optimize options everywhere = .ok (last, rounds)) : ∀ t ∈ last.temps, t ∈ g.temps :=
  (of_optimize (P := fun g' => g'.Writable name ∧ ∀ t ∈ g'.temps, t ∈ g.temps)
    (fun _ kept => kept.1.nodup)
    (fun _ _ kept _ => ⟨kept.1.mapBodies fun i hi => kept.1.code i (code_sweep_sublist.subset hi),
      temps_sweep kept.2⟩)
    (fun _ _ kept => ⟨kept.1.propagateCopies everywhere, temps_propagateCopies everywhere kept.2⟩)
    ⟨h, fun _ ht => ht⟩ done).2

end Compiled

/-- If every temporary fits, so does the text. -/
theorem fits_toProc (h : ∀ t ∈ g.temps, t.fits = true) : g.toProc.fits = true := by
  rw [Proc.fits, Bool.and_eq_true, List.all_eq_true, List.all_eq_true]
  refine ⟨fun t ht => ?_, fun i hi => ?_⟩
  · cases sink : t.isSink with
    | false => exact h t (mem_temps_of_param ht sink)
    | true => rw [Temp.isSink_iff.1 sink]; rfl
  · obtain ⟨b, hb, hi⟩ := List.mem_flatMap.1 hi
    rcases List.mem_cons.1 hi with rfl | hi
    · rfl
    · exact List.all_eq_true.2 fun t ht => h t (mem_temps_of_mem_temps hb hi ht)

end FlowGraph

namespace Proc

variable {q : Proc} {t : Temp} {o : CompileOptions} {c : CompiledProc}

/-- The temporaries of a procedure that fits do so. -/
theorem fits_of_mem_temps (fits : q.fits = true) (ht : t ∈ q.cut.temps) : t.fits = true := by
  rw [Proc.fits, Bool.and_eq_true, List.all_eq_true, List.all_eq_true] at fits
  rw [FlowGraph.temps, SortedSet.mem_ofList, List.mem_append] at ht
  rcases ht with param | inner
  · exact fits.1 t (List.mem_filter.1 param).1
  · obtain ⟨b, hb, inner⟩ := List.mem_flatMap.1 inner
    obtain ⟨i, hi, ht⟩ := List.mem_flatMap.1 inner
    have mem : i ∈ q.body :=
      q.instrs_cut ▸ List.mem_flatMap.2 ⟨b, hb, List.mem_append_right _ hi⟩
    exact List.all_eq_true.1 (fits.2 i mem) t ht

/-- The temporaries of a compiled procedure. -/
theorem counted_of_compile (proper : q.isProper = true) (h : q.compile o = .ok c) :
    q.cut.Counted c.graph.temps := by
  obtain ⟨g, names, prepared, rounds, live, allocation, built, prepare, optimize, -⟩ :=
    exists_of_compile h
  obtain ⟨next, used⟩ := FlowGraph.names_of_ofProc built
  have writable := FlowGraph.writable_of_ofProc proper built
  have wf := (FlowGraph.builtFrom_of_ofProc built).wellFormed
  rw [← cut_of_ofProc built]
  exact (FlowGraph.counted_of_prepare wf writable next used prepare).subset
    ((writable.prepare prepare).temps_optimize optimize)

end Proc

/-- No version of a compiled program is too great if none of the program is, and its procedures are
not too large. -/
theorem Program.fits_of_compile {p : Program} {o : CompileOptions} {c : CompiledProgram}
    (proper : p.isProper = true) (fits : p.fits = true)
    (few : ∀ q ∈ p.procs, q.cut.mostTemps ≤ Temp.maxVersion) (h : p.compile o = .ok c) :
    c.tac.fits = true := by
  rw [Program.fits, CompiledProgram.tac, List.all_map, List.all_eq_true]
  intro d hd
  obtain ⟨q, hq, compiled⟩ := exists_proc_of_compile h hd
  refine FlowGraph.fits_toProc fun t ht => ?_
  rcases (q.counted_of_compile (isProper_of_mem proper hq) compiled).numbers t ht with
    old | ⟨n, le, number⟩
  · exact q.fits_of_mem_temps (List.all_eq_true.1 fits q hq) old
  · simpa [Temp.fits, number] using Nat.le_trans le (few q hq)

end ThreeAddress
