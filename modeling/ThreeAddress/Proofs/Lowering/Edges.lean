import ThreeAddress.Proofs.Compilation.Prepare
import ThreeAddress.Proofs.Lowering.Activation
import ThreeAddress.Proofs.SingleAssignment.Passes
/-!
# The moves of phis

A phi has no code where it stands. Control that comes to its block along an edge runs the moves of
the edge first, and they bring the argument of the phi home. That is so for the phis at the head of
a block, and if a procedure has no others when it is cut into blocks, it has no others when it is
lowered. A phi behind another instruction is passed over.

* `Crosses` : the code of an edge makes certain moves;
* `Lowers.crosses` : the code of every edge makes the moves of the phis;
* `Proc.phisFirst_of_compile` : no pass moves a phi away from the head of its block;
* `Proc.compile_realizes_phis` : every phi at the head of its block is realized on every edge;
* `Proc.compile_drops_phi` : a phi that is not at the head of its block, and is lost.
-/

namespace ThreeAddress

open Target

/-! ## The code of an edge -/

/-- The code that is run from an origin on: all of the function, or what is behind the name of a
block. -/
def Target.Function.codeBehind? (f : Function) (layout : Layout) :
    Origin → Option (List Target.Instr)
  | .entry => some f.instrs
  | .block l => (f.codeFrom? (layout.blockName l)).map List.tail

/-- From code of a block, or from the beginning, control comes to another block by making certain
moves. On the way no other block begins. -/
inductive Crosses (f : Function) (layout : Layout) (moves : List Move) (target : Label) :
    List Target.Instr → Prop where
  /-- The other block is behind the moves. -/
  | falls {front code : List Target.Instr} (plain : labelsOf front = [])
      (found : f.codeFrom? (layout.blockName target) = some code) :
      Crosses f layout moves target (front ++ (moveAll moves ++ code))
  /-- A jump is behind the moves. -/
  | jumps {front code : List Target.Instr} (plain : labelsOf front = []) :
      Crosses f layout moves target
        (front ++ (moveAll moves ++ .jmp (layout.blockName target) :: code))
  /-- A branch has no moves to make. -/
  | branches {front code : List Target.Instr} {condition : Condition} (plain : labelsOf front = [])
      (none : moves = []) :
      Crosses f layout moves target (front ++ .jcc condition (layout.blockName target) :: code)
  /-- A branch goes to a detour, which makes the moves and jumps. -/
  | detours {front code more : List Target.Instr} {condition : Condition} {name : String}
      (plain : labelsOf front = [])
      (found : f.codeFrom? name =
        some (Detour.code ⟨name, moves, layout.blockName target⟩ ++ more)) :
      Crosses f layout moves target (front ++ .jcc condition name :: code)

section Edges

variable {f : Function} {g : FlowGraph} {live : Liveness} {layout : Layout} {b : Block}
  {front rest : List Instr} {code : List Target.Instr} {l : Label}

/-- The code of the first instructions, and the code behind it. -/
theorem CodeAt.append (h : CodeAt f g live layout b (front ++ rest) code) :
    ∃ here later, labelsOf here = [] ∧ CodeAt f g live layout b rest later ∧
      code = here ++ later := by
  induction front generalizing code with
  | nil => exact ⟨[], code, rfl, h, rfl⟩
  | cons i front ih =>
    obtain ⟨n, first, more, lowered, -, codeAt, rfl⟩ := CodeAt.cons h
    obtain ⟨here, later, plain, codeAt', rfl⟩ := ih codeAt
    have alone : labelsOf first.instrs = [] := (FlowGraph.defines_lowerInstr lowered).1
    refine ⟨first.instrs ++ here, later, ?_, codeAt', (List.append_assoc ..).symm⟩
    rw [labelsOf_append, alone, plain, List.append_nil]

/-- A block with a target ends with a jump or a branch to it, behind the phis. -/
theorem Block.exists_code_of_target {b : Block} {l : Label} (h : b.target? = some l) :
    ∃ front i, b.code = front ++ [i] ∧ i.target? = some l := by
  obtain ⟨i, last, target⟩ := Option.bind_eq_some_iff.1 h
  have late : i ∉ b.phis := fun phi => by
    have transfer := Instr.isTransfer_of_target target
    rw [Instr.isTransfer_of_isPhi (Block.isPhi_of_mem_phis phi)] at transfer
    cases transfer
  obtain ⟨front, body⟩ := List.getLast?_eq_some_iff.1 last
  rw [← b.phis_append_code] at body
  rcases List.eq_nil_or_concat' b.code with none | ⟨front', j, split⟩
  · rw [none, List.append_nil] at body
    exact absurd (body ▸ List.mem_append_right _ List.mem_cons_self) late
  · rw [split, ← List.append_assoc] at body
    obtain ⟨-, same⟩ := List.append_inj' body rfl
    exact ⟨front', i, by rw [split, (List.cons.inj same).1], target⟩

/-- Control leaves a block by the moves of the edge that it takes. -/
theorem CodeAt.crosses (edge : l ∈ b.succs (g.next? b.label))
    (h : CodeAt f g live layout b b.code code) :
    ∃ moves, g.edgeMoves layout (.block b.label) l = .ok moves ∧ Crosses f layout moves l code := by
  rcases Block.mem_succs.1 edge with target | ⟨falls, next⟩
  · obtain ⟨front, i, split, target⟩ := Block.exists_code_of_target target
    rw [split] at h
    obtain ⟨here, later, plain, codeAt, rfl⟩ := h.append
    obtain ⟨n, last, behind, lowered, detours, -, rfl⟩ := codeAt.cons
    cases i with
    | jump target' =>
      cases target
      obtain ⟨moves, found, rfl⟩ := FlowGraph.lowerInstr_jump lowered
      refine ⟨moves, found, ?_⟩
      simp only [Code.instrs_straight, List.append_assoc, List.cons_append, List.nil_append]
      exact .jumps plain
    | branch test arg target' =>
      cases target
      obtain ⟨src, moves, -, found, ⟨none, rfl⟩ | rfl⟩ := FlowGraph.lowerInstr_branch lowered
      · refine ⟨moves, found, ?_⟩
        simp only [Code.instrs_straight, List.append_assoc, List.cons_append, List.nil_append]
        rw [← List.append_assoc]
        refine .branches ?_ none
        rw [labelsOf_append, plain, FlowGraph.labelsOf_compareCode, List.append_nil]
      · refine ⟨moves, found, ?_⟩
        obtain ⟨more, detour⟩ := detours _ List.mem_cons_self
        simp only [List.append_assoc, List.cons_append, List.nil_append]
        rw [← List.append_assoc]
        refine .detours ?_ detour
        rw [labelsOf_append, plain, FlowGraph.labelsOf_compareCode, List.append_nil]
    | _ => cases target
  · -- control runs past the end
    rw [← List.append_nil b.code] at h
    obtain ⟨here, later, plain, ⟨n, body, falling, behind, lowered, -, fallen, found, rfl⟩, rfl⟩ :=
      h.append
    cases lowered
    have fallen := fallen falls
    rw [next] at fallen
    obtain ⟨moves, edgeMoves, made⟩ := bind_eq_ok_iff.1 fallen
    cases made
    exact ⟨moves, edgeMoves, .falls plain (found l next)⟩

/-- The code of every edge makes the moves of the edge. -/
theorem Lowers.crosses (h : Lowers f g live layout) (nodup : g.labels.Nodup) {origin : Origin}
    (arrives : g.Arrives origin l) : ∃ moves code, g.edgeMoves layout origin l = .ok moves ∧
      f.codeBehind? layout origin = some code ∧ Crosses f layout moves l code := by
  cases origin with
  | entry =>
    obtain ⟨entering, entered, first⟩ := h.entry
    obtain ⟨code, found, instrs⟩ := first l arrives.2
    have plain := Layout.labelsOf_enter entered
    obtain ⟨inRegisters, onStack, moves, -, -, edge, -, rfl⟩ := Layout.enter_eq_ok entered
    refine ⟨moves, f.instrs, edge l arrives.2, rfl, ?_⟩
    rw [labelsOf_append, List.append_eq_nil_iff] at plain
    rw [instrs, List.append_assoc]
    exact .falls plain.1 found
  | block p =>
    obtain ⟨b, hb, rfl, edge⟩ := (FlowGraph.mem_preds nodup).1 arrives.2
    obtain ⟨code, found, codeAt⟩ := h.blocks b hb
    obtain ⟨moves, made, crosses⟩ := codeAt.crosses edge
    exact ⟨moves, code, made, by rw [Function.codeBehind?, found]; rfl, crosses⟩

end Edges

/-! ## Compiled procedures -/

namespace FlowGraph

variable {g : FlowGraph} {names : FreshNames} {o : CompileOptions} {prepared : Prepared}

theorem PhisFirst.phiFree (first : g.PhisFirst) (none : g.hasPhis = false) : g.PhiFree := by
  intro b hb i hi
  have head : b.phis = [] := by simpa using List.any_eq_false.1 none b hb
  rw [← b.phis_append_code, head, List.nil_append] at hi
  exact first b hb i hi

/-- Preparation leaves phis at the heads of blocks, and puts new ones there. -/
theorem PhisFirst.prepare (first : g.PhisFirst) (wf : g.WellFormed)
    (avoids : ∀ t ∈ g.temps, t ∈ names.temps) (h : g.prepare names o = .ok prepared) :
    prepared.graph.WellFormed ∧ prepared.graph.PhisFirst := by
  cases phis : g.hasPhis with
  | true =>
    rw [FlowGraph.prepare, if_pos phis] at h
    cases h
    exact ⟨wf, first⟩
  | false =>
    have free := first.phiFree phis
    obtain ⟨-, same⟩ | ⟨live, V, -, -, -, versioned, -⟩ := versioned_of_prepare wf free avoids h
    · rw [same]
      exact ⟨wf, first⟩
    · exact ⟨versioned.wellFormed wf, versioned.phisFirst free⟩

end FlowGraph

namespace Proc

variable {q : Proc} {g : FlowGraph} {names : FreshNames} {o : CompileOptions} {c : CompiledProc}

/-- What is lowered has the blocks that the procedure is cut into. -/
theorem labels_of_compile (built : FlowGraph.ofProc q = .ok (g, names)) (h : q.compile o = .ok c) :
    c.graph.labels = g.labels := by
  have nodup := (FlowGraph.builtFrom_of_ofProc built).wellFormed.nodup
  obtain ⟨g', names', prepared, rounds, live, allocation, built', prepare, optimize, -⟩ :=
    exists_of_compile h
  cases built.symm.trans built'
  refine FlowGraph.of_optimize (P := fun g' => g'.labels = g.labels) (fun g' same => same ▸ nodup)
    (fun g' live same _ => FlowGraph.labels_sweep.trans same) (fun _ g' same => ?_)
    (FlowGraph.labels_prepare nodup prepare) optimize
  rw [FlowGraph.propagateCopies]
  split
  · exact FlowGraph.labels_propagateGlobally.trans same
  · exact FlowGraph.labels_propagateLocally.trans same

/-- If the procedure has its phis at the heads of blocks, they are there when it is lowered. -/
theorem phisFirst_of_compile (built : FlowGraph.ofProc q = .ok (g, names)) (first : g.PhisFirst)
    (h : q.compile o = .ok c) : c.graph.PhisFirst := by
  obtain ⟨g', names', prepared, rounds, live, allocation, built', prepare, optimize, -⟩ :=
    exists_of_compile h
  cases built.symm.trans built'
  have kept := first.prepare (FlowGraph.builtFrom_of_ofProc built).wellFormed
    (FlowGraph.avoids_of_ofProc built) prepare
  exact (FlowGraph.of_optimize_of_prune
    (P := fun g => g.WellFormed ∧ g.PhisFirst) (fun _ h => h.1)
    (fun _ _ h pruned => ⟨h.1.prune pruned, h.2.prune pruned⟩) kept optimize).2

/-- No phi at the head of a block is lost, whatever is done on the way: on every edge the code brings
its argument home. If a procedure has all its phis at the heads of blocks, it has them there when it
is lowered. -/
theorem compile_realizes_phis (built : FlowGraph.ofProc q = .ok (g, names))
    (h : q.compile o = .ok c) :
    let layout := Layout.ofAssignment c.graph c.assignment
    (g.PhisFirst → c.graph.PhisFirst) ∧
    (c.graph.PhisFirst → ∀ b ∈ c.graph.blocks, ∀ i ∈ b.body, i.isPhi = true → i ∈ b.phis) ∧
    ∀ b ∈ c.graph.blocks, ∀ origin, c.graph.Arrives origin b.label →
      ∃ moves code, c.graph.edgeMoves layout origin b.label = .ok moves ∧
        c.function.codeBehind? layout origin = some code ∧
        Crosses c.function layout moves b.label code ∧
        ∀ dest args, .phi dest args ∈ b.phis → ∀ arg, args.get? origin = some arg →
          ∃ dst src, c.assignment.locations.get? dest = some dst ∧
            c.assignment.locations.get? arg = some src ∧
            (Layout.place dst = Layout.place src ∨
              ⟨Layout.place dst, Layout.place src⟩ ∈ moves) ∧
            (c.function.frame.bytes < 2147483648 → Layout.place dst = Layout.place src →
              dst = src) := by
  intro layout
  have nodup : c.graph.labels.Nodup :=
    labels_of_compile built h ▸ (FlowGraph.builtFrom_of_ofProc built).wellFormed.nodup
  obtain ⟨-, -, -, -, live, allocation, -, -, -, found, allocated, assignment, lowered⟩ :=
    exists_of_compile h
  refine ⟨fun first => phisFirst_of_compile built first h, fun first b hb i hi phi => ?_,
    fun b hb origin arrives => ?_⟩
  · rw [← b.phis_append_code, List.mem_append] at hi
    exact hi.resolve_right fun late => by cases (first b hb i late).symm.trans phi
  obtain ⟨lowers, -, frame⟩ := FlowGraph.lowers_of_lower nodup
    (FlowGraph.solved_of_liveness nodup found) lowered
  obtain ⟨moves, code, edge, behind, crosses⟩ := lowers.crosses nodup arrives
  refine ⟨moves, code, edge, behind, crosses, fun dest args phi arg taken => ?_⟩
  have here : c.graph.block? b.label = some b := (FlowGraph.block?_eq_some nodup).2 ⟨hb, rfl⟩
  simp only [FlowGraph.edgeMoves, here] at edge
  obtain ⟨dst, src, home, home', moved⟩ := Layout.exists_of_phiMoves edge phi taken
  refine ⟨dst, src, home, home', moved, fun small same => ?_⟩
  have sound : layout.Sound := Layout.sound_ofAssignment
    (assignment ▸ InterferenceGraph.fits_of_allocate allocated) (frame ▸ small)
  exact (Layout.place_inj sound.small (sound.homes _ _ home) (sound.homes _ _ home')).1 same

/-- A procedure that counts down in a loop, with a phi for the counter. -/
def phiCountdown : Proc :=
  let n : Temp := ⟨"n", none⟩
  let i : Temp := ⟨"i", none⟩
  let next : Temp := ⟨"next", none⟩
  let one : Temp := ⟨"one", none⟩
  let head : Label := ⟨"head"⟩
  ⟨⟨"down"⟩, [n], [
    .label head,
    .phi i ((SortedMap.insert ∅ .entry n).insert (.block head) next),
    .const (.temp one) 1,
    .binary .sub (.temp next) (.temp i) (.temp one),
    .branch .nonzero (.temp next) head,
    .ret (.temp i)]⟩

/-- The counter is brought home on the edge that closes the loop. -/
theorem compile_realizes_phis_phiCountdown : ∃ g names c,
    FlowGraph.ofProc phiCountdown = .ok (g, names) ∧ g.PhisFirst ∧
      phiCountdown.compile .standard = .ok c ∧ c.graph.PhisFirst ∧
      ∃ moves code,
        c.graph.edgeMoves (.ofAssignment c.graph c.assignment) (.block ⟨"head"⟩) ⟨"head"⟩ =
          .ok moves ∧
        c.function.codeBehind? (.ofAssignment c.graph c.assignment) (.block ⟨"head"⟩) = some code ∧
        Crosses c.function (.ofAssignment c.graph c.assignment) moves ⟨"head"⟩ code := by
  obtain ⟨⟨g, names⟩, built, first⟩ :
      ∃ made, FlowGraph.ofProc phiCountdown = .ok made ∧ made.1.PhisFirst := ⟨_, rfl, by decide⟩
  obtain ⟨c, compiled, arrives⟩ : ∃ c, phiCountdown.compile .standard = .ok c ∧
      c.graph.Arrives (.block ⟨"head"⟩) ⟨"head"⟩ := ⟨_, rfl, by decide, by decide⟩
  obtain ⟨kept, -, realized⟩ := compile_realizes_phis built compiled
  obtain ⟨b, hb, label⟩ := FlowGraph.mem_labels.1 arrives.1
  rw [← label] at arrives
  obtain ⟨moves, code, edge, behind, crosses, -⟩ := realized b hb _ arrives
  rw [label] at edge behind crosses
  exact ⟨g, names, c, built, first, compiled, kept first, moves, code, edge, behind, crosses⟩

/-- A procedure with a phi behind another instruction. -/
def latePhi : Proc :=
  let a : Temp := ⟨"a", none⟩
  let x : Temp := ⟨"x", none⟩
  ⟨⟨"late"⟩, [a], [
    .label ⟨"L0"⟩,
    .print (.temp a),
    .phi x (SortedMap.insert ∅ .entry a),
    .ret (.temp x)]⟩

/-- The phi is passed over, and nothing is moved to the home of its temporary. -/
theorem compile_drops_phi : ∃ c, latePhi.compile .standard = .ok c ∧ ¬ c.graph.PhisFirst ∧
    c.graph.edgeMoves (.ofAssignment c.graph c.assignment) .entry ⟨"L0"⟩ = .ok [] := by
  refine ⟨_, rfl, ?_, rfl⟩
  decide

end Proc

end ThreeAddress
