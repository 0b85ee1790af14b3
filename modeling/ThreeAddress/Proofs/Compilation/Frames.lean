import ThreeAddress.Proofs.Compilation.Versions
import ThreeAddress.Proofs.Interference.Build
import ThreeAddress.Proofs.Lowering.Code
import ThreeAddress.Proofs.Lowering.Slots
/-!
# How large frames are

The frame of a compiled procedure has slots for the temporaries that are spilled, for registers, of
which there are sixteen, and for the arguments of calls. So the procedure that is compiled bounds
the bytes of the frame, and they are a number of 32 bits if the procedure is not too large.

* `FlowGraph.length_spilled_le` : the slots of temporaries;
* `Layout.count_ofAssignment_lt` : the slots of a frame;
* `Proc.bytes_lt_of_compile`, `Program.bytes_lt_of_compile` : the bytes of the frames of a compiled
  program.
-/

namespace ThreeAddress

open Target

/-- No temporary is spilled twice. -/
theorem FlowGraph.length_spilled_le {g : FlowGraph} {live : Liveness} {registers : Nat}
    {a : Allocation} (nodup : g.labels.Nodup) (found : g.liveness = .ok live)
    (done : (g.interference live).allocate registers = .ok a) :
    a.assignment.spilled.length ≤ g.temps.size := by
  obtain ⟨once, nodes⟩ := InterferenceGraph.spilled_of_allocate done
  refine (List.subperm_of_subset once fun t ht => ?_).length_le
  exact ((mem_nodes_interference_iff nodup found).1 (nodes t ht)).1

theorem Target.Register.length_le {l : List Register} (nodup : l.Nodup) : l.length ≤ 16 := by
  have all : l ⊆ Register.all := fun r _ => by cases r <;> decide
  exact (List.subperm_of_subset nodup all).length_le

/-- Registers and few arguments take few slots beside those of spilled temporaries. -/
theorem Layout.count_ofAssignment_lt {g : FlowGraph} (a : Assignment) {n : Nat} (positive : 0 < n)
    (few : ∀ i ∈ g.code, i.count < n) :
    (ofAssignment g a).frame.count < a.spilled.length + 16 + n := by
  have saved := Register.length_le (nodup_saved_ofAssignment g a)
  rw [List.length_append] at saved
  have most : (g.code.map Instr.argumentSlots).foldl max 0 < n := by
    rcases foldl_max_mem (g.code.map Instr.argumentSlots) 0 with none | mem
    · rwa [none]
    · obtain ⟨i, hi, same⟩ := List.mem_map.1 mem
      have slots : i.argumentSlots ≤ i.count := by
        cases i <;> first | exact Nat.le_refl _ | exact Nat.zero_le _
      rw [← same]
      exact Nat.lt_of_le_of_lt slots (few i hi)
  have spills : (ofAssignment g a).frame.spills = a.spilled.length := rfl
  have arguments : (ofAssignment g a).frame.arguments =
      (g.code.map Instr.argumentSlots).foldl max 0 := rfl
  simp only [Frame.count]
  omega

/-- The frame of a procedure with few arguments that is not too large. -/
theorem Proc.bytes_lt_of_compile {q : Proc} {o : CompileOptions} {c : CompiledProc}
    (proper : q.isProper = true) (small : ∀ i ∈ q.body, i.count < 2 ^ 20)
    (few : q.cut.mostTemps < 2 ^ 27) (h : q.compile o = .ok c) :
    c.function.frame.bytes < 2147483648 := by
  have compilable := compilable_of_compile proper small h
  have temps := (q.counted_of_compile proper h).few
  obtain ⟨g, names, prepared, rounds, live, allocation, -, -, -, found, allocated, assignment,
    lowered⟩ := exists_of_compile h
  have spilled := FlowGraph.length_spilled_le compilable.wellFormed.nodup found allocated
  have slots := Layout.count_ofAssignment_lt allocation.assignment (by decide) compilable.small
  rw [FlowGraph.frame_of_lower lowered, assignment]
  have bytes := Frame.bytes_le (Layout.ofAssignment c.graph allocation.assignment).frame
  omega

/-- The frames of a program whose procedures have few arguments and are not too large. -/
theorem Program.bytes_lt_of_compile {p : Program} {o : CompileOptions} {c : CompiledProgram}
    (proper : p.isProper = true) (small : ∀ q ∈ p.procs, ∀ i ∈ q.body, i.count < 2 ^ 20)
    (few : ∀ q ∈ p.procs, q.cut.mostTemps < 2 ^ 27) (h : p.compile o = .ok c) :
    ∀ d ∈ c.procs, d.function.frame.bytes < 2147483648 := by
  intro d hd
  obtain ⟨q, hq, compiled⟩ := exists_proc_of_compile h hd
  exact q.bytes_lt_of_compile (isProper_of_mem proper hq) (small q hq) (few q hq) compiled

end ThreeAddress
