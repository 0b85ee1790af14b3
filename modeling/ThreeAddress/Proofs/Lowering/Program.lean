import ThreeAddress.Proofs.Activation.Adequacy
import ThreeAddress.Proofs.Compilation.Behaviour
import ThreeAddress.Proofs.Compilation.Frames
import ThreeAddress.Proofs.Compilation.Names
import ThreeAddress.Proofs.Lowering.Activation
import ThreeAddress.Proofs.Source.Reading
/-!
# Programs on the machine

The code of a program is started at the function `main`, as if something outside of the program
called it. If the program finishes, so does its code: it prints the same lines and returns the
result. The procedures of a program answer each other's calls, so this is shown for all calls at
once, by the number of calls that are open.

* `Proc.LoweredTo` : a function is the code of a procedure;
* `Program.answered_of_calls` : the functions of a program answer the calls of its procedures;
* `Target.Assembly.Finishes` : the code of a program finishes;
* `Program.finishes_assembly` : it does if the program finishes.
-/

namespace ThreeAddress

open Execution Target

/-! ## Procedures -/

/-- A function is the code of a procedure. -/
structure Proc.LoweredTo (q : Proc) (f : Function) : Prop where
  name : f.name = q.name.name
  code : ∃ g live layout, q.CarriedTo g ∧ Implements f g live layout

/-- The code of a compiled procedure, if the procedure can be written and its frame is not too
large. -/
theorem Proc.loweredTo_of_compile {q : Proc} {o : CompileOptions} {d : CompiledProc}
    (free : q.PhiFree) (params : q.params.Nodup) (proper : q.isProper = true)
    (off : o.optimizer.copyPropagation = false) (h : q.compile o = .ok d)
    (small : d.function.frame.bytes < 2147483648) : q.LoweredTo d.function := by
  have careful : o.Careful q := fun _ _ on => by simp [off] at on
  obtain ⟨mode, ready, carried⟩ := carriedTo_of_compile free careful h
  have writable := writable_of_compile proper h
  obtain ⟨g, names, prepared, rounds, live, a, -, -, -, found, allocated, assignment, lowered⟩ :=
    exists_of_compile h
  have solved := FlowGraph.solved_of_liveness ready.wellFormed.nodup found
  obtain ⟨lowers, name, frame⟩ := FlowGraph.lowers_of_lower ready.wellFormed.nodup solved lowered
  refine ⟨name.trans (congrArg Global.name carried.name), d.graph, live,
    .ofAssignment d.graph d.assignment, carried, ?_⟩
  exact {
    toLowers := lowers
    wf := ready.wellFormed
    first := ready.phisFirst
    named := ready.phisNamed
    once := fun _ => ready.phiDefs_nodup
    params := carried.params ▸ params
    staged := fun b hb index arg mem => by
      have code := FlowGraph.mem_code.2 ⟨b, hb, mem⟩
      exact ⟨Instr.pos_of_isProper (writable.code _ code),
        Layout.le_arguments code⟩
    solved := solved
    housed := by
      rw [assignment]
      exact Allocation.housed ready.wellFormed found allocated
    sound := by
      have fits := InterferenceGraph.fits_of_allocate allocated
      exact Layout.sound_ofAssignment (assignment ▸ fits) (frame ▸ small) }

/-! ## Calls -/

namespace Program

variable {p : Program} {functions : List Function} {litter : Litter}

/-- The function with the name of a procedure is its code. -/
theorem exists_function (lowered : List.Forall₂ Proc.LoweredTo p.procs functions) {name : Global}
    {q : Proc} (hq : p.proc? name = some q) :
    ∃ f, functions.find? (fun f => f.name == name.name) = some f ∧ q.LoweredTo f := by
  rw [proc?] at hq
  generalize p.procs = procs at lowered hq
  induction lowered with
  | nil => cases hq
  | @cons q' f _ _ first _ ih =>
    by_cases same : q'.name = name
    · rw [List.find?_cons_of_pos (by simpa using same)] at hq
      cases hq
      exact ⟨f, List.find?_cons_of_pos (by simp [first.name, same]), first⟩
    · have other : f.name ≠ name.name := fun h => same (congrArg Global.mk (first.name.symm.trans h))
      rw [List.find?_cons_of_neg (by simpa using same)] at hq
      rw [List.find?_cons_of_neg (by simpa using other)]
      exact ih hq

/-- No function has the name of a printing routine, if no procedure has. -/
theorem find?_builtIn (lowered : List.Forall₂ Proc.LoweredTo p.procs functions)
    (unshadowed : ∀ q ∈ p.procs, ¬ q.name.isBuiltIn) {name : Global} (builtIn : name.isBuiltIn) :
    functions.find? (fun f => f.name == name.name) = none := by
  generalize p.procs = procs at lowered unshadowed
  induction lowered with
  | nil => rfl
  | @cons q f _ _ first _ ih =>
    have other : f.name ≠ name.name := fun h => by
      have same : q.name = name := congrArg Global.mk (first.name.symm.trans h)
      exact unshadowed q List.mem_cons_self (same ▸ builtIn)
    rw [List.find?_cons_of_neg (by simpa using other)]
    exact ih fun q hq => unshadowed q (List.mem_cons_of_mem _ hq)

/-- A function does what its procedure does, if calls are answered that are nested less deeply. -/
theorem serves_of_answered (lowered : List.Forall₂ Proc.LoweredTo p.procs functions)
    (unshadowed : ∀ q ∈ p.procs, ¬ q.name.isBuiltIn) {depth : Nat}
    (answered : ∀ callee args globals out r, p.Calls depth callee args globals out r →
      Entrance.Answered functions litter callee args globals out r)
    {q : Proc} {f : Function} (code : q.LoweredTo f) {args : List Word} (length : q.params.length = args.length)
    {globals globals' : Store Global} {t : List Effect} {out : List Printed} {w : Word}
    (runs : q.Runs .byName (.enter .byName Store.empty q.params args globals) t (.ok (w, globals')))
    (heard : Heard (p.Calls depth) t out) : Serves functions litter f args globals out w globals' := by
  obtain ⟨g, live, layout, carried, valid⟩ := code.code
  obtain ⟨t', fewer, runs'⟩ := carried.runs runs
  refine valid.serves (find?_builtIn lowered unshadowed (.inl rfl)) (by rw [carried.params, length]) runs' ?_
  exact (heard.fewer fewer).mono fun callee args globals answer _ out => answered _ _ _ _ _

/-- The functions of a program answer the calls of its procedures. -/
theorem answered_of_calls (lowered : List.Forall₂ Proc.LoweredTo p.procs functions)
    (unshadowed : ∀ q ∈ p.procs, ¬ q.name.isBuiltIn) {depth : Nat} :
    ∀ callee args globals out r, p.Calls depth callee args globals out r →
      Entrance.Answered functions litter callee args globals out r := by
  induction depth with
  | zero =>
    rintro callee args globals out r ⟨-, rfl⟩ w globals' ok
    cases ok
  | succ depth ih =>
    rintro callee args globals out r calls w globals' rfl
    rw [Calls] at calls
    split at calls
    · next builtIn =>
      unfold Global.BuiltInCall at calls
      split at calls
      · obtain ⟨rfl, ok⟩ := calls
        cases ok
        exact answers_builtIn builtIn (find?_builtIn lowered unshadowed builtIn) _ _
      · cases calls.2
    · split at calls
      · cases calls.2
      · next q hq =>
        split at calls
        · next length =>
          obtain ⟨t, runs, heard⟩ := calls
          obtain ⟨f, found, code⟩ := exists_function lowered hq
          exact (serves_of_answered lowered unshadowed ih code length runs heard).answers found
        · cases calls.2

end Program

/-! ## Programs -/

namespace Target

/-- The machine at the beginning: something outside of the program has called, with `rsp` at a
multiple of 16 in front of the call. -/
structure Assembly.Starts (a : Assembly) (m : Machine) : Prop where
  stack : ∃ top : Int, top % 16 = 8 ∧ m.registers .rsp = .stack top ∧ m.stack top = .back none
  data : m.data = a.initial
  printed : m.printed = #[]

/-- However the machine is started, the code of a program comes to its end in the function `main`,
after so many lines and with this result in `rax`. -/
def Assembly.Finishes (a : Assembly) (litter : Litter) (printed : Array Printed) (w : Word) : Prop :=
  ∃ main, a.functions.find? (fun f => f.name == "main") = some main ∧
    ∀ m, a.Starts m → ∃ m', Steps a.functions litter ⟨some ⟨main, main.instrs⟩, m⟩ ⟨none, m'⟩ ∧
      m'.printed = printed ∧ m'.registers .rax = .word w

end Target

namespace Program

variable {p : Program} {o : CompileOptions} {c : CompiledProgram}

/-- The data of a program are its global variables. -/
theorem initial_assembly (globals : c.globals = p.globals) :
    c.assembly.initial = globalData p.initial := by
  have all : ∀ (vars : List GlobalVar) (store : Store Global),
      (vars.map fun g => (⟨g.name.name, g.value⟩ : Datum)).foldl (fun data d name =>
        if name = d.name then some (.word d.value) else data name) (globalData store) =
      globalData (store.setAll (vars.map fun g => (g.name, g.value))) := by
    intro vars
    induction vars with
    | nil => exact fun _ => rfl
    | cons g vars ih =>
      intro store
      have set : (fun name => if name = g.name.name then some (Value.word g.value)
          else globalData store name) = globalData (store.set g.name g.value) := by
        funext name
        rw [globalData, globalData, Store.get?_set]
        by_cases same : name = g.name.name
        · rw [if_pos same, if_pos (congrArg Global.mk same)]
          rfl
        · rw [if_neg same, if_neg fun h => same (congrArg Global.name h)]
      rw [List.map_cons, List.foldl_cons, set, ih]
      rfl
  have data : c.assembly.data = p.globals.map fun g => ⟨g.name.name, g.value⟩ := by
    rw [← globals]
    rfl
  rw [Assembly.initial, data]
  exact all p.globals Store.empty

/-- A program that finishes also finishes as code, with the same output and the same result. Its
procedures are compiled without copy propagation, and no frame takes 2 ^ 31 bytes or more, whose
size would wrap; `bytes_lt_of_compile` says which programs have no such frames. -/
theorem finishes_assembly {text : String} (parsed : parse text = .ok p)
    (free : ∀ q ∈ p.procs, q.PhiFree) (params : ∀ q ∈ p.procs, q.params.Nodup)
    (unshadowed : ∀ q ∈ p.procs, ¬ q.name.isBuiltIn) (off : o.optimizer.copyPropagation = false)
    (compiled : p.compile o = .ok c) (small : ∀ d ∈ c.procs, d.function.frame.bytes < 2147483648)
    {limit : Nat} {printed : Array Printed} {w : Word} (run : p.run limit = ⟨printed, .ok w⟩)
    (litter : Litter) : c.assembly.Finishes litter printed w := by
  obtain ⟨globals, procs⟩ := exists_of_compile compiled
  have lowered : List.Forall₂ Proc.LoweredTo p.procs c.assembly.functions := by
    rw [CompiledProgram.assembly, List.forall₂_map_right_iff]
    refine List.forall₂_iff_zip.2 ⟨procs.length_eq, fun {q d} mem => ?_⟩
    obtain ⟨hq, hd⟩ := List.of_mem_zip mem
    exact Proc.loweredTo_of_compile (free q hq) (params q hq)
      (isProper_of_mem (of_parse parsed).1 hq) off ((List.forall₂_iff_zip.1 procs).2 mem) (small d hd)
  have finishes := finishes_of_run run (by simp)
  cases hq : p.proc? ⟨"main"⟩ with
  | none =>
    simp only [Finishes, hq] at finishes
    cases finishes
  | some q =>
    simp only [Finishes, hq, calls_main hq, Ending.mk.injEq] at finishes
    obtain ⟨out, r, calls, rfl, result⟩ := finishes
    split at calls
    · next length =>
      obtain ⟨t, runs, heard⟩ := calls
      cases r with
      | error f => cases result
      | ok v =>
        cases result
        obtain ⟨f, found, code⟩ := exists_function lowered hq
        have serves : Serves c.assembly.functions litter f [] p.initial out v.1 v.2 :=
          serves_of_answered lowered unshadowed (answered_of_calls lowered unshadowed) code length runs
            heard
        refine ⟨f, found, fun m starts => ?_⟩
        obtain ⟨top, aligned, rsp, back⟩ := starts.stack
        have down : top + 8 - 8 = top := by omega
        obtain ⟨m', steps, returns⟩ := serves (top + 8) none m
          ⟨by omega, by simp, by simp, starts.data.trans (initial_assembly globals)⟩
          (down.symm ▸ rsp) (down.symm ▸ back)
        refine ⟨m', steps, ?_, returns.result⟩
        rw [returns.printed, starts.printed, Array.empty_append]
    · rw [calls.2] at result
      cases result

/-- A program that prints on the way back from recursive calls. -/
def descentText : String :=
  "proc @down(%n):jz %n,.L0;%o=const 1;%m=sub %n,%o;param 1,%m;call @down,1;.L0:print %n;ret %n;" ++
  "proc @main():%n=const 2;param 1,%n;%s=call @down,1;ret %s;"

/-- Without registers for temporaries, the program prints on the way back all the same. -/
theorem finishes_assembly_descent : ∃ p c, parse descentText = .ok p ∧
    p.compile ⟨true, true, ⟨false, true, 10⟩, 0, true⟩ = .ok c ∧
    (∀ d ∈ c.procs, d.assignment.spilled ≠ []) ∧ (∃ m, c.assembly.Starts m) ∧
    ∀ litter, c.assembly.Finishes litter #[.word 0, .word 1, .word 2] 2 := by
  have value : ((parse descentText).toOption.bind fun p =>
      (p.compile ⟨true, true, ⟨false, true, 10⟩, 0, true⟩).toOption.map fun c =>
        (decide (∀ q ∈ p.procs, q.PhiFree ∧ q.params.Nodup ∧ ¬ q.name.isBuiltIn ∧
            (∀ i ∈ q.body, i.count < 2 ^ 20) ∧ q.cut.mostTemps < 2 ^ 27),
          decide (∀ d ∈ c.procs, d.assignment.spilled ≠ []),
          (p.run 40).printed, (p.run 40).result.toOption)) =
      some (true, true, #[.word 0, .word 1, .word 2], some 2) := by
    decide +kernel
  cases parsed : parse descentText with
  | error e => simp [parsed, Except.toOption] at value
  | ok p =>
    cases compiled : p.compile ⟨true, true, ⟨false, true, 10⟩, 0, true⟩ with
    | error e => simp [parsed, compiled, Except.toOption] at value
    | ok c =>
      simp only [parsed, compiled, Except.toOption, Option.bind_some, Option.map_some,
        Option.some.injEq, Prod.mk.injEq, decide_eq_true_eq] at value
      obtain ⟨procs, spilled, printed, result⟩ := value
      have small := bytes_lt_of_compile (of_parse parsed).1 (fun q hq => (procs q hq).2.2.2.1)
        (fun q hq => (procs q hq).2.2.2.2) compiled
      refine ⟨p, c, rfl, compiled, spilled, ⟨⟨fun _ => .stack 8, none, fun _ => .back none,
        c.assembly.initial, #[]⟩, ⟨8, rfl, rfl, rfl⟩, rfl, rfl⟩, fun litter => ?_⟩
      exact finishes_assembly parsed (fun q hq => (procs q hq).1) (fun q hq => (procs q hq).2.1)
        (fun q hq => (procs q hq).2.2.1) rfl compiled small (run_eq_of_printed printed result) litter

end Program

end ThreeAddress
