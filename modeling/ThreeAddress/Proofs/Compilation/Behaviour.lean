import ThreeAddress.Proofs.Compilation.Prepare
/-!
# What a compiled program does

A program that finishes also finishes when it is compiled, prints the same and has the same result,
if those of its procedures that begin with a loop are careful with copies. The code is that in which
the allocator gives homes to temporaries.

* `Program.exists_of_compile` : the procedures of a compiled program;
* `Program.endsWith_compile` : the compiled program ends in the same way;
* `Program.compile_reads_staleCopy` : a program that is not careful, and prints something else.
-/

namespace ThreeAddress

open Execution

theorem collect_eq_ok {ε α : Type} {l : List (Except ε α)} {as : List α} (h : collect l = .ok as) :
    l = as.map .ok := by
  induction l generalizing as with
  | nil =>
    cases h
    rfl
  | cons r rest ih =>
    cases more : collect rest with
    | error e => cases r <;> simp [collect, more] at h
    | ok found =>
      cases r with
      | error e => simp [collect, more] at h
      | ok a =>
        simp only [collect, more, Except.ok.injEq] at h
        subst h
        rw [ih more, List.map_cons]

namespace Program

variable {p : Program} {o : CompileOptions} {c : CompiledProgram}

/-- A compiled program has the globals of the program, and its procedures, compiled. -/
theorem exists_of_compile (h : p.compile o = .ok c) :
    c.globals = p.globals ∧ List.Forall₂ (fun q d => q.compile o = .ok d) p.procs c.procs := by
  rw [compile] at h
  cases collected : collect (p.compileProcs o) with
  | error e => simp [collected, Except.map] at h
  | ok procs =>
    simp only [collected, Except.map, Except.ok.injEq] at h
    subst h
    refine ⟨rfl, ?_⟩
    have same : p.procs.map (fun q => q.compile o) = procs.map .ok := collect_eq_ok collected
    rw [← List.forall₂_eq_eq_eq, List.forall₂_map_left_iff, List.forall₂_map_right_iff] at same
    exact same

/-- Every procedure of a compiled program is one of the program, compiled. -/
theorem exists_proc_of_compile (h : p.compile o = .ok c) {d : CompiledProc} (hd : d ∈ c.procs) :
    ∃ q ∈ p.procs, q.compile o = .ok d := by
  obtain ⟨-, procs⟩ := exists_of_compile h
  generalize p.procs = qs, c.procs = ds at procs hd
  induction procs with
  | nil => cases hd
  | @cons q _ _ _ first _ ih =>
    rcases List.mem_cons.1 hd with rfl | hd
    · exact ⟨q, List.mem_cons_self, first⟩
    · obtain ⟨q, hq, compiled⟩ := ih hd
      exact ⟨q, List.mem_cons_of_mem _ hq, compiled⟩

/-- Programs match if their procedures do, one by one. -/
theorem matches_of_forall₂ {R : Proc → Proc → Prop} {p p' : Program}
    (h : List.Forall₂ (fun q q' => q'.name = q.name ∧ q'.params = q.params ∧ R q q')
      p.procs p'.procs) : p.Matches R p' := by
  intro name
  simp only [proc?]
  generalize p.procs = procs, p'.procs = procs' at h
  induction h with
  | nil => rfl
  | @cons q q' _ _ related _ ih =>
    by_cases same : q.name = name
    · rw [List.find?_cons_of_pos (by simpa using same),
        List.find?_cons_of_pos (by simpa [related.1] using same)]
      exact ⟨q', rfl, related.2⟩
    · rw [List.find?_cons_of_neg (by simpa using same),
        List.find?_cons_of_neg (by simpa [related.1] using same)]
      exact ih

/-- The text of a compiled procedure does what the procedure does. -/
theorem carriedBy_of_compile {q : Proc} {d : CompiledProc} (free : q.PhiFree) (careful : o.Careful q)
    (h : q.compile o = .ok d) :
    d.tac.name = q.name ∧ d.tac.params = q.params ∧ q.CarriedBy d.tac := by
  obtain ⟨mode, ready, carried⟩ := Proc.carriedTo_of_compile free careful h
  refine ⟨carried.name, carried.params, fun args globals t v _ runs => ?_⟩
  obtain ⟨t', fewer, runs'⟩ := carried.runs runs
  exact ⟨t', fewer, (FlowGraph.runs_toProc_iff ready.wellFormed).2
    (runs'.byName ready.wellFormed ready.phisFirst)⟩

/-- A program that finishes also finishes when it is compiled, with the same output and the same
result. -/
theorem endsWith_compile (free : ∀ q ∈ p.procs, q.PhiFree) (careful : ∀ q ∈ p.procs, o.Careful q)
    (compiled : p.compile o = .ok c) {limit : Nat} {printed : Array Printed} {w : Word}
    (run : p.run limit = ⟨printed, .ok w⟩) : c.tac.EndsWith ⟨printed, .ok w⟩ := by
  obtain ⟨globals, procs⟩ := exists_of_compile compiled
  have related : p.Matches Proc.CarriedBy c.tac := by
    refine matches_of_forall₂ ?_
    rw [CompiledProgram.tac, List.forall₂_map_right_iff]
    refine (List.forall₂_and_left _ _).2 ⟨fun q hq => hq, procs⟩ |>.imp fun q d h => ?_
    exact carriedBy_of_compile (free q h.1) (careful q h.1) h.2
  have ends := finishes_iff.2 (endsWith_of_run run (by simp))
  exact finishes_iff.1 (finishes_ok related globals ends)

/-- A procedure that counts down with a copy. -/
def echo : Proc :=
  let n : Temp := ⟨"n", none⟩
  let m : Temp := ⟨"m", none⟩
  ⟨⟨"main"⟩, [], [
    .const (.temp n) 2,
    .label ⟨"loop"⟩,
    .copy (.temp m) (.temp n),
    .print (.temp m),
    .const (.temp ⟨"one", none⟩) 1,
    .binary .sub (.temp n) (.temp m) (.temp ⟨"one", none⟩),
    .branch .nonzero (.temp n) ⟨"loop"⟩,
    .ret (.temp m)]⟩

/-- Counting down with a copy, compiled. -/
theorem endsWith_compile_echo : ∃ c, compile ⟨[], [echo]⟩ .standard = .ok c ∧
    c.tac.EndsWith ⟨#[.word 2, .word 1], .ok 1⟩ := by
  have compiles : (compile ⟨[], [echo]⟩ .standard).toOption.isSome = true := by decide +kernel
  cases compiled : compile ⟨[], [echo]⟩ .standard with
  | error e => simp [compiled, Except.toOption] at compiles
  | ok c =>
    have run : (⟨[], [echo]⟩ : Program).run 30 = ⟨#[.word 2, .word 1], .ok 1⟩ := rfl
    have free : ∀ q ∈ [echo], q.PhiFree := by decide
    have initialized : echo.CopiesInitialized := by decide +kernel
    refine ⟨c, rfl, endsWith_compile free (fun q hq _ _ _ => ?_) compiled run⟩
    obtain rfl := List.mem_singleton.1 hq
    exact .inr initialized

/-- A procedure that reads the destination of a copy in a round in which it was not assigned. -/
def staleCopy : Proc :=
  let x : Temp := ⟨"x", none⟩
  let y : Temp := ⟨"y", none⟩
  ⟨⟨"main"⟩, [], [
    .label ⟨"L0"⟩,
    .copy (.temp x) (.global ⟨"i"⟩),
    .branch .nonzero (.global ⟨"i"⟩) ⟨"L1"⟩,
    .copy (.temp y) (.temp x),
    .const (.global ⟨"i"⟩) 1,
    .jump ⟨"L0"⟩,
    .label ⟨"L1"⟩,
    .print (.temp y)]⟩

/-- In the second round the copy has the value of the first round, but the compiled program prints
that of the second. -/
theorem compile_reads_staleCopy : staleCopy.PhiFree ∧
    (⟨[⟨⟨"i"⟩, 0⟩], [staleCopy]⟩ : Program).EndsWith ⟨#[.word 0], .ok 0⟩ ∧
    ∃ c, compile ⟨[⟨⟨"i"⟩, 0⟩], [staleCopy]⟩ .standard = .ok c ∧
      c.tac.EndsWith ⟨#[.word 1], .ok 0⟩ := by
  refine ⟨by decide, @endsWith_of_run _ _ 100 rfl (by simp), ?_⟩
  have found : ((compile ⟨[⟨⟨"i"⟩, 0⟩], [staleCopy]⟩ .standard).toOption.map fun c =>
      ((c.tac.run 100).printed, (c.tac.run 100).result.toOption)) = some (#[.word 1], some 0) := by
    decide +kernel
  cases compiled : compile ⟨[⟨⟨"i"⟩, 0⟩], [staleCopy]⟩ .standard with
  | error e => simp [compiled, Except.toOption] at found
  | ok c =>
    simp only [compiled, Except.toOption, Option.map_some, Option.some.injEq, Prod.mk.injEq] at found
    obtain ⟨printed, result⟩ := found
    exact ⟨c, rfl, endsWith_of_printed printed result⟩

end Program

end ThreeAddress
