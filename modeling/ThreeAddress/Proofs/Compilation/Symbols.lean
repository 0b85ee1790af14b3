import ThreeAddress.Proofs.Compilation.Stages
import ThreeAddress.Proofs.Compilation.Text
import ThreeAddress.Proofs.Lowering.Targets
/-!
# Symbols of compiled programs

The names of places in a function are put together from the name of its procedure and a label or a
number. Labels may contain points, but the names of procedures and variables do not, so the name of
a place tells what procedure it belongs to, and is not the name of anything else.

* `Global.Marks` : the names of places in a function;
* `Global.Marks.unique`, `Global.Marks.ne_name` : they belong to one procedure, and name a place;
* `Proc.lowered_of_compile` : what a function is the code of, whatever phis its procedure has;
* `Target.Assembly.names` : the names that a program of the target machine defines;
* `Program.names_resolve` : the names of a compiled program are different, and its jumps go to them.
-/

namespace ThreeAddress

open Target

/-! ## Names of places -/

namespace Global

variable {g g' : Global} {name : String}

theorem dot_not_mem (written : g.isWritten = true) : '.' ∉ g.name.toList := by
  rw [isWritten] at written
  generalize g.name.toList = text at written
  cases text with
  | nil => exact List.not_mem_nil
  | cons c rest =>
    simp only [Token.isWordText, Bool.and_eq_true, List.all_eq_true] at written
    intro point
    rcases List.mem_cons.1 point with rfl | point
    · exact absurd written.1 (by decide)
    · exact absurd (written.2 _ point) (by decide)

/-- The name of a global is what stands in front of the first point behind it. -/
theorem takeWhile_append (written : g.isWritten = true) (rest : List Char) :
    (g.name.toList ++ '.' :: rest).takeWhile (· != '.') = g.name.toList := by
  have other : ∀ c ∈ g.name.toList, (c != '.') = true := fun c hc =>
    bne_iff_ne.2 fun point => dot_not_mem written (point ▸ hc)
  rw [List.takeWhile_append_of_pos other, List.takeWhile_cons_of_neg (by decide), List.append_nil]

/-- The name marks a place in the function of a procedure. -/
def Marks (g : Global) (name : String) : Prop :=
  ∃ rest, name.toList = '.' :: 'L' :: (g.name.toList ++ '.' :: rest)

namespace Marks

/-- A place is in one procedure only. -/
theorem unique (h : g.Marks name) (h' : g'.Marks name) (written : g.isWritten = true)
    (written' : g'.isWritten = true) : g = g' := by
  obtain ⟨rest, text⟩ := h
  obtain ⟨rest', text'⟩ := h'
  have same := (List.cons.inj (List.cons.inj (text.symm.trans text')).2).2
  have same := congrArg (List.takeWhile (· != '.')) same
  rw [takeWhile_append written, takeWhile_append written'] at same
  cases g
  cases g'
  exact congrArg Global.mk (String.toList_inj.1 same)

/-- No procedure and no variable has the name of a place. -/
theorem ne_name (h : g.Marks name) (written : g'.isWritten = true) : g'.name ≠ name := by
  obtain ⟨rest, text⟩ := h
  intro same
  refine dot_not_mem written ?_
  rw [same, text]
  exact List.mem_cons_self

end Marks

theorem marks_blockName (layout : Layout) (l : Label) : layout.proc.Marks (layout.blockName l) :=
  ⟨'L' :: l.suffix.toList, by simp [Layout.blockName, Label.text]⟩

theorem marks_detourName (layout : Layout) (n : Nat) : layout.proc.Marks (layout.detourName n) :=
  ⟨'T' :: (decimalText n).toList, by simp [Layout.detourName]⟩

end Global

/-- All names in a function mark places in its procedure. -/
theorem FlowGraph.marks_of_lower {g : FlowGraph} {live : Liveness} {a : Assignment} {f : Function}
    (h : g.lower live a = .ok f) : ∀ name ∈ labelsOf f.instrs, g.name.Marks name := by
  obtain ⟨detours, all⟩ := labelsOf_lower h
  intro name hn
  rw [all, List.mem_append] at hn
  rcases hn with block | detour
  · obtain ⟨l, -, rfl⟩ := List.mem_map.1 block
    exact Global.marks_blockName _ l
  · obtain ⟨n, -, rfl⟩ := List.mem_map.1 detour
    exact Global.marks_detourName _ n

/-! ## Compiled procedures -/

/-- Preparation keeps a graph well-formed, whatever phis it has. -/
theorem FlowGraph.WellFormed.prepare {name : Global} {g : FlowGraph} {names : FreshNames}
    {o : CompileOptions} {prepared : Prepared} (wf : g.WellFormed) (writable : g.Writable name)
    (avoids : ∀ t ∈ g.temps, t ∈ names.temps) (done : g.prepare names o = .ok prepared) :
    prepared.graph.WellFormed := by
  cases phis : g.hasPhis with
  | true =>
    rw [FlowGraph.prepare, if_pos phis] at done
    cases done
    exact wf
  | false =>
    obtain ⟨-, same⟩ | ⟨-, -, c, converted, graph⟩ := prepare_cases done
    · exact same ▸ wf
    · obtain ⟨live, V, -, versioned, -⟩ :=
        versioned_of_convert wf (writable.bare phis) avoids converted
      have accepted : c.graph.Accepted :=
        versioned.accepted wf (writable.convert converted).1.sink_not_mem_defs
      rw [graph]
      split
      · exact (of_minimize (fun _ kept => kept.minimizeRound) accepted).wellFormed
      · exact accepted.wellFormed

/-- So does the optimizer. -/
theorem FlowGraph.WellFormed.optimize {g last : FlowGraph} {o : OptimizerOptions} {everywhere : Bool}
    {rounds : List OptimizerRound} (wf : g.WellFormed)
    (done : g.optimize o everywhere = .ok (last, rounds)) : last.WellFormed :=
  of_optimize_of_prune (P := FlowGraph.WellFormed) (fun _ h => h) (fun _ _ h pruned => h.prune pruned)
    wf done

/-- The function of a procedure that can be written is the code of a well-formed graph. -/
theorem Proc.lowered_of_compile {q : Proc} {o : CompileOptions} {c : CompiledProc}
    (proper : q.isProper = true) (h : q.compile o = .ok c) :
    c.graph.WellFormed ∧ ∃ live, c.graph.lower live c.assignment = .ok c.function := by
  obtain ⟨g, names, prepared, rounds, live, allocation, built, prepare, optimize, -, -, -, lowered⟩ :=
    exists_of_compile h
  have wf := (FlowGraph.builtFrom_of_ofProc built).wellFormed.prepare
    (FlowGraph.writable_of_ofProc proper built) (FlowGraph.avoids_of_ofProc built) prepare
  exact ⟨wf.optimize optimize, live, lowered⟩

/-- A function of the compiler: the code of a well-formed graph, under a name that can be written. -/
structure CompiledProc.Sound (d : CompiledProc) : Prop where
  written : d.graph.name.isWritten = true
  wellFormed : d.graph.WellFormed
  lowered : ∃ live, d.graph.lower live d.assignment = .ok d.function

theorem Proc.sound_of_compile {q : Proc} {o : CompileOptions} {d : CompiledProc}
    (proper : q.isProper = true) (h : q.compile o = .ok d) : d.Sound := by
  have writable := writable_of_compile proper h
  obtain ⟨wf, lowered⟩ := lowered_of_compile proper h
  exact ⟨writable.same ▸ writable.written, wf, lowered⟩

namespace CompiledProc.Sound

variable {d e : CompiledProc}

theorem name (h : d.Sound) : d.function.name = d.graph.name.name := by
  obtain ⟨live, lowered⟩ := h.lowered
  exact FlowGraph.name_of_lower lowered

theorem nodup (h : d.Sound) : (labelsOf d.function.instrs).Nodup := by
  obtain ⟨live, lowered⟩ := h.lowered
  exact FlowGraph.nodup_labelsOf_lower h.wellFormed.nodup lowered

theorem marks (h : d.Sound) : ∀ name ∈ labelsOf d.function.instrs, d.graph.name.Marks name := by
  obtain ⟨live, lowered⟩ := h.lowered
  exact FlowGraph.marks_of_lower lowered

theorem targets (h : d.Sound) : targetsOf d.function.instrs ⊆ labelsOf d.function.instrs := by
  obtain ⟨live, lowered⟩ := h.lowered
  exact FlowGraph.targetsOf_lower_subset h.wellFormed lowered

/-- Different procedures have no names in common. -/
theorem disjoint (h : d.Sound) (h' : e.Sound) (other : d.graph.name ≠ e.graph.name) :
    (labelsOf d.function.instrs).Disjoint (labelsOf e.function.instrs) :=
  fun name hd he => other ((h.marks name hd).unique (h'.marks name he) h.written h'.written)

end CompiledProc.Sound

/-! ## Compiled programs -/

namespace Target

/-- The names that a program defines: those of its data and of its functions, and those of the
places in the functions. -/
def Assembly.names (a : Assembly) : List String :=
  a.data.map Datum.name ++ a.functions.map Function.name ++
    a.functions.flatMap fun f => labelsOf f.instrs

end Target

namespace Program

variable {p : Program} {o : CompileOptions} {c : CompiledProgram}

/-- The data and the functions have the names that the program declares. -/
theorem symbols_assembly (sound : ∀ d ∈ c.procs, d.Sound) :
    c.assembly.data.map Datum.name ++ c.assembly.functions.map Function.name =
      (c.tac.declared.map Declared.name).map Global.name := by
  have functions : c.procs.map (fun d => d.function.name) = c.procs.map fun d => d.graph.name.name :=
    List.map_congr_left fun d hd => (sound d hd).name
  simp only [CompiledProgram.assembly, CompiledProgram.tac, declared, List.map_append, List.map_map]
  exact congrArg (_ ++ ·) functions

/-- Whatever a program declares has a name that can be written, if the program can be. -/
theorem isWritten_of_mem_declared (proper : p.isProper = true) :
    ∀ g ∈ p.declared.map Declared.name, g.isWritten = true := by
  simp only [isProper, Bool.and_eq_true, List.all_eq_true] at proper
  intro g hg
  rw [declared, List.map_append, List.map_map, List.map_map, List.mem_append] at hg
  rcases hg with var | proc
  · obtain ⟨v, hv, rfl⟩ := List.mem_map.1 var
    exact proper.1.1 v hv
  · obtain ⟨q, hq, rfl⟩ := List.mem_map.1 proc
    have written := proper.1.2 q hq
    rw [Proc.isProper, Bool.and_eq_true, Bool.and_eq_true] at written
    exact written.1.1

/-- No name is defined twice in a compiled program that can be written. -/
theorem nodup_names (proper : c.tac.isProper = true) (sound : ∀ d ∈ c.procs, d.Sound) :
    c.assembly.names.Nodup := by
  have written := isWritten_of_mem_declared proper
  simp only [isProper, Bool.and_eq_true, decide_eq_true_eq] at proper
  have once := proper.2
  have apart : c.procs.Pairwise fun d e => d.graph.name ≠ e.graph.name := by
    rw [declared, List.map_append, List.nodup_append] at once
    have procs := once.2.1
    rw [CompiledProgram.tac, List.map_map, List.map_map] at procs
    exact List.pairwise_map.1 procs
  rw [Target.Assembly.names, symbols_assembly sound, List.nodup_append]
  refine ⟨once.map fun g g' same => ?_, ?_, ?_⟩
  · cases g
    cases g'
    exact congrArg Global.mk same
  · rw [CompiledProgram.assembly, List.flatMap_map, List.nodup_flatMap]
    refine ⟨fun d hd => (sound d hd).nodup, ?_⟩
    exact apart.imp_of_mem fun hd he other => (sound _ hd).disjoint (sound _ he) other
  · rintro _ hs name hn rfl
    obtain ⟨g, hg, rfl⟩ := List.mem_map.1 hs
    obtain ⟨f, hf, hn⟩ := List.mem_flatMap.1 hn
    obtain ⟨d, hd, rfl⟩ := List.mem_map.1 hf
    exact ((sound d hd).marks _ hn).ne_name (written g hg) rfl

/-- In a program that was read and compiled, no name is defined twice, whether it is the name of a
variable or a function, or that of a block or a detour of any function. A jump goes to a name that
its own function defines. -/
theorem names_resolve {source : String} (parsed : parse source = .ok p)
    (compiled : p.compile o = .ok c) :
    c.assembly.names.Nodup ∧ ∀ f ∈ c.assembly.functions,
      (∀ name, .jmp name ∈ f.instrs → .label name ∈ f.instrs) ∧
      ∀ condition name, .jcc condition name ∈ f.instrs → .label name ∈ f.instrs := by
  have proper := (of_parse parsed).1
  have sound : ∀ d ∈ c.procs, d.Sound := fun d hd => by
    obtain ⟨q, hq, made⟩ := exists_proc_of_compile compiled hd
    exact Proc.sound_of_compile (isProper_of_mem proper hq) made
  refine ⟨nodup_names (isProper_of_compile proper compiled) sound, fun f hf => ?_⟩
  obtain ⟨d, hd, rfl⟩ := List.mem_map.1 hf
  have targets := fun {i name} (hi : i ∈ d.function.instrs) (goes : i.target? = some name) =>
    mem_labelsOf.1 ((sound d hd).targets (List.mem_filterMap.2 ⟨i, hi, goes⟩))
  exact ⟨fun name hi => targets hi rfl, fun condition name hi => targets hi rfl⟩

/-- A procedure that exchanges two values in a loop, which needs a detour. The label of the loop
looks like the name of one. -/
def swapLoop (name : Global) : Proc :=
  let a : Var := .temp ⟨"a", none⟩
  let b : Var := .temp ⟨"b", none⟩
  let n : Var := .temp ⟨"n", none⟩
  let t : Var := .temp ⟨"t", none⟩
  ⟨name, [⟨"a", none⟩, ⟨"b", none⟩, ⟨"n", none⟩], [
    .label ⟨".T0"⟩,
    .copy t a,
    .copy a b,
    .copy b t,
    .const t 1,
    .binary .sub n n t,
    .branch .nonzero n ⟨".T0"⟩,
    .ret a]⟩

/-- The same code under two names, and a variable. -/
def swaps : Program := ⟨[⟨⟨"L"⟩, 0⟩], [swapLoop ⟨"swap"⟩, swapLoop ⟨"swap_"⟩]⟩

/-- All names of the compiled program. -/
theorem names_resolve_swaps : ∃ c, parse swaps.text = .ok swaps ∧
    swaps.compile .standard = .ok c ∧ c.assembly.names =
      ["L", "swap", "swap_", ".Lswap.L.T0", ".Lswap.L_bb0", ".Lswap.T0", ".Lswap_.L.T0",
        ".Lswap_.L_bb0", ".Lswap_.T0"] ∧
    c.assembly.names.Nodup ∧ ∀ f ∈ c.assembly.functions,
      (∀ name, .jmp name ∈ f.instrs → .label name ∈ f.instrs) ∧
      ∀ condition name, .jcc condition name ∈ f.instrs → .label name ∈ f.instrs := by
  have reads : parse swaps.text = .ok swaps := parse_text (by decide) (by decide)
  have compiles : (swaps.compile .standard).toOption.map (fun c => c.assembly.names) =
      some ["L", "swap", "swap_", ".Lswap.L.T0", ".Lswap.L_bb0", ".Lswap.T0", ".Lswap_.L.T0",
        ".Lswap_.L_bb0", ".Lswap_.T0"] := by decide +kernel
  obtain ⟨c, made, names⟩ := Option.map_eq_some_iff.1 compiles
  have compiled := toOption_eq_some_iff.1 made
  exact ⟨c, reads, compiled, names, names_resolve reads compiled⟩

end Program

end ThreeAddress
