import ThreeAddress.Proofs.Activation.Adequacy
import ThreeAddress.Proofs.Execution.PhiGroups
import ThreeAddress.Proofs.FlowGraph.Points
import ThreeAddress.Proofs.SingleAssignment.Consistency
import ThreeAddress.Proofs.SingleAssignment.Dominance
/-!
# Runs along the edges of a graph

A machine walks down a list of instructions, and knows nothing of the graph that the list is the text
of. An activation of that text is nevertheless always at a position of the graph: what is in front of
it is the rest of a block and the blocks behind, and the labels that it takes for the block before
and the current one belong to an edge.

* `Frame.InText` : the activation is at a position of the graph;
* `moves_of_exec` : an instruction leaves it at one, whether it goes on, calls or returns;
* `Trace.inText` : it is at one whenever it executes an instruction, the calls that it waits for in
  between;
* `FlowGraph.Foremost` : what control may be in front of, a label or an instruction of the block;
* `FlowGraph.Course`, `FlowGraph.Chooses` : labels along the edges, from the entry on, and the
  edge that a phi behind them chooses by;
* `Trace.goes_along` : the labels that an activation passes are a course, and its phis choose by it;
* `Trace.exists_entered` : every activation of a run began when its procedure was entered;
* `FlowGraph.runs_along_edges` : so every activation of the text of a graph that was built goes along
  the edges, whatever passes were made over it.
-/

namespace ThreeAddress

open Execution

variable {g : FlowGraph}

namespace Execution

/-! ## Positions of an activation -/

/-- The activation is one of the text of a graph, and at a position of the graph. -/
def Frame.InText (g : FlowGraph) (f : Frame) : Prop :=
  f.proc = g.toProc ∧ ∃ point, Placed g (fun _ => true) ⟨f.code, f.previous, f.current⟩ point

/-- The frame with instructions put back in front of its code. -/
def Frame.before (f : Frame) (front : List Instr) : Frame := { f with code := front ++ f.code }

/-- An activation begins at a position. -/
theorem Frame.inText_enter (wf : g.WellFormed) (args : List Word) :
    (Frame.enter g.toProc args).InText g := by
  obtain ⟨l, entry⟩ := wf.exists_entry
  exact ⟨rfl, _, .first entry⟩

/-- What an instruction does to the activations, if the running one is at a position of the graph. -/
inductive Moves (g : FlowGraph) (s u : State) : Prop
  /-- It goes on, at a position. -/
  | stays (callers : u.callers = s.callers) (inText : u.frame.InText g)
  /-- It waits for a call, at a position. -/
  | calls (w : Waiting) (callers : u.callers = w :: s.callers) (inText : w.frame.InText g)
  /-- It is over, and the innermost waiting one goes on. -/
  | returns (waiting : Waiting) (waits : s.callers = waiting :: u.callers)
      (frame : ∃ temps, u.frame = { waiting.frame with temps })

variable {p : Program} {s t u v : State} {i : Instr}

/-- A call leaves the activation that it is made from where it is. -/
theorem moves_of_call {dest : Var} {callee : Global} {args : List Word}
    (callers : t.callers = s.callers) (inText : t.frame.InText g)
    (h : call p t dest callee args = .running u) : Moves g s u := by
  rcases call_eq_running h with ⟨same, temps, frame, -⟩ | ⟨q, -, same⟩
  · exact .stays (same.trans callers) (frame ▸ inText)
  · exact .calls _ (same.trans (congrArg _ callers)) inText

end Execution

/-- Two activations that go on alike after a call are at the same place, whatever it returns. -/
theorem Alike.samePlace {pos : Spot} {point : Point} {temps temps' : Store Temp}
    {staged : Store Nat} {dest dest' : Var}
    (h : ∀ w G, Alike .byName .byName (SamePlace (Store Temp) g fun _ => true)
      (.afterFailure Point (Store Temp)) (Keeping.byName.write pos ⟨temps, staged, G⟩ dest w)
      (Keeping.byName.write point ⟨temps', staged, G⟩ dest' w)) :
    ∃ point, Placed g (fun _ => true) pos point := by
  cases dest with
  | temp t =>
    have alike := h 0 Store.empty
    rw [Keeping.write] at alike
    split at alike
    · generalize Keeping.write .byName point _ _ _ = y at alike
      cases alike with
      | going same => exact ⟨_, same.2⟩
    · generalize Keeping.write .byName point _ _ _ = y at alike
      cases alike with
      | going same => exact ⟨_, same.2⟩
  | global x =>
    -- the variable has to be declared for the write to succeed
    have alike := h 0 (Store.empty.set x 0)
    rw [Keeping.write] at alike
    simp only [Store.get?_set, if_true] at alike
    generalize Keeping.write .byName point _ _ _ = y at alike
    cases alike with
    | writes same => exact ⟨_, same.2⟩
    | hidden _ same => exact ⟨_, same.2⟩

namespace Execution

variable {p : Program} {s t u v : State} {i : Instr}

/-- An instruction leaves an activation at a position of the graph. -/
theorem moves_of_exec (wf : g.WellFormed) (inText : (u.frame.before [i]).InText g)
    (h : exec p u i = .running v) : Moves g u v := by
  obtain ⟨globals, printed, ⟨q, rest, temps, staged, previous, current⟩, callers⟩ := u
  obtain ⟨rfl, point, placed⟩ := inText
  have all : g.AllKept fun _ => true := fun _ _ => rfl
  obtain ⟨y, -, alike⟩ := follows_layout (K := Keeping.byName) (E := .afterFailure Point (Store Temp))
    wf (all.phisTold wf) (fun _ => trivial) (.inl fun _ _ => trivial)
    ⟨i :: rest, previous, current⟩ temps point temps staged globals ⟨rfl, placed⟩
  have made : resume p g.toProc printed callers
      ((Control.ofBody g.name (layout (fun _ => true) g.blocks)).step .byName
        ⟨i :: rest, previous, current⟩ ⟨temps, staged, globals⟩) = .running v :=
    (exec_eq (p := p) g.toProc printed callers i rest previous current _).symm.trans h
  generalize Control.step _ _ _ _ = stage at made alike
  cases alike with
  | going same =>
    cases made
    exact .stays rfl ⟨rfl, _, same.2⟩
  | prints same =>
    cases made
    exact .stays rfl ⟨rfl, _, same.2⟩
  | writes same =>
    cases made
    exact .stays rfl ⟨rfl, _, same.2⟩
  | hidden _ same =>
    cases made
    exact .stays rfl ⟨rfl, _, same.2⟩
  | @asks _ _ _ _ pos _ temps _ staged globals next =>
    have there : (State.at g.toProc printed callers pos ⟨temps, staged, globals⟩).frame.InText g :=
      ⟨rfl, Alike.samePlace next⟩
    refine moves_of_call ?_ there made
    rfl
  | @ends w =>
    rw [resume, State.leave] at made
    split at made
    · cases made
    · next waiting callers waits =>
      obtain ⟨same, temps, frame, -⟩ := write_eq_running made
      exact .returns waiting (waits.trans (congrArg _ same.symm)) ⟨temps, frame⟩
  | fails => cases made

/-! ## Where an activation is -/

/-- An activation above the waiting ones `base` is at a position of the graph, some instructions
having been taken off its code if it is running. -/
inductive Located (g : FlowGraph) (base : List Waiting) (front : List Instr) (s : State) : Prop
  /-- It is running. -/
  | runs (callers : s.callers = base) (inText : (s.frame.before front).InText g)
  /-- It waits for a call. -/
  | waits (inner : List Waiting) (w : Waiting) (callers : s.callers = inner ++ w :: base)
      (inText : w.frame.InText g)
  /-- It is over. -/
  | gone (below : s.callers.length < base.length)

namespace Located

variable {base : List Waiting} {front : List Instr}

/-- The innermost activation is over, and the one that waits for it goes on where it was. -/
theorem leave {waiting : Waiting} (h : Located g base front s)
    (waits : s.callers = waiting :: u.callers)
    (frame : ∃ temps, u.frame = { waiting.frame with temps }) : Located g base [] u := by
  obtain ⟨temps, frame⟩ := frame
  cases h with
  | runs callers inText =>
    refine .gone ?_
    rw [← callers, waits]
    exact Nat.lt_succ_self _
  | gone below =>
    refine .gone ?_
    rw [waits] at below
    exact Nat.lt_of_succ_lt below
  | waits inner w callers inText =>
    rw [waits] at callers
    cases inner with
    | nil =>
      obtain ⟨rfl, same⟩ := List.cons.inj callers
      refine .runs same ?_
      rw [frame]
      exact inText
    | cons first inner => exact .waits inner w (List.cons.inj callers).2 inText

/-- Returning from activations whose end is reached, and taking an instruction off. -/
theorem settle (h : Located g base [] s) (next : s.settle = .ready i u) :
    Located g base [i] u := by
  have ready : Located g base [] { u with frame := { u.frame with code := i :: u.frame.code } } := by
    refine settle_ready (fun before waits written => ?_) h next
    obtain ⟨same, temps, frame, -⟩ := write_eq_running written
    exact before.leave (waits.trans (congrArg _ same.symm)) ⟨temps, frame⟩
  cases ready with
  | runs callers inText => exact .runs callers inText
  | waits inner w callers inText => exact .waits inner w callers inText
  | gone below => exact .gone below

/-- One step of this activation or of an activation above it. -/
theorem exec (wf : g.WellFormed) (h : Located g base [i] u)
    (above : base.length ≤ u.callers.length) (executed : exec p u i = .running v) :
    Located g base [] v := by
  cases h with
  | gone below => omega
  | runs callers inText =>
    cases moves_of_exec wf inText executed with
    | stays same inText => exact .runs (same.trans callers) inText
    | calls w same inText => exact .waits [] w (by rw [same, callers]; rfl) inText
    | returns waiting waits frame => exact leave (.runs callers inText) waits frame
  | waits inner w callers inText =>
    cases step_of_exec executed with
    | stays same => exact .waits inner w (same.trans callers) inText
    | calls dest frame same =>
      exact .waits (⟨frame, dest⟩ :: inner) w (by rw [same, callers]; rfl) inText
    | returns waiting rest value waits written =>
      obtain ⟨same, temps, frame, -⟩ := write_eq_running written
      have here : Located g base [i] u := .waits inner w callers inText
      exact here.leave (waits.trans (congrArg _ same.symm)) ⟨temps, frame⟩

end Located

/-- The state at the end of a trace in which nothing is executed below an activation. -/
theorem Trace.located (wf : g.WellFormed) (first : s.frame.InText g) {done : List (Nat × Instr)}
    (trace : Trace p s done t) (above : ∀ e ∈ done, s.callers.length ≤ e.1) :
    Located g s.callers [] t := by
  induction trace with
  | refl => exact .runs rfl first
  | @step done t u v i before next executed ih =>
    have here := State.le_callers fun e he => above e (List.mem_append_right _ he)
    have earlier := ih fun e he => above e (List.mem_append_left _ he)
    exact (earlier.settle next).exec wf here executed

/-- An activation that executes an instruction is at a position of the graph in front of it. -/
theorem Trace.inText (wf : g.WellFormed) (first : s.frame.InText g) {done : List (Nat × Instr)}
    (trace : Trace p s done t) (above : ∀ e ∈ done, s.callers.length ≤ e.1)
    (next : t.settle = .ready i u) (own : u.callers.length = s.callers.length) :
    (u.frame.before [i]).InText g := by
  cases (trace.located wf first above).settle next with
  | runs callers inText => exact inText
  | waits inner w callers =>
    rw [callers, List.length_append, List.length_cons] at own
    omega
  | gone below => omega

end Execution

/-! ## Positions and edges -/

/-- Control comes along an edge to a block that the labels mark. -/
theorem FlowGraph.Marked.arrives {keep : Block → Bool} {origin : Origin} {b : Block} {marks : Marks}
    (wf : g.WellFormed) (h : g.Marked keep origin b marks) : g.Arrives origin b.label := by
  refine ⟨FlowGraph.mem_labels.2 ⟨b, h.mem, rfl⟩, ?_⟩
  cases h with
  | entry first => rw [FlowGraph.entry?, FlowGraph.labels, List.head?_map, first, Option.map_some]
  | edge h _ succ => exact (FlowGraph.mem_preds wf.nodup).2 ⟨_, h.mem, rfl, succ⟩

/-- An instruction that control may be in front of, with the block before and the current one. -/
inductive FlowGraph.Foremost (g : FlowGraph) (marks : Marks) (i : Instr) : Prop
  /-- The label of a block that control comes to. -/
  | label (l : Label) (same : i = .label l) (arrives : g.Arrives marks.current l)
  /-- An instruction of the current block. -/
  | inside (b : Block) (mem : b ∈ g.blocks) (body : i ∈ b.body)
      (current : marks.current = .block b.label) (arrives : g.Arrives marks.previous b.label)

theorem FlowGraph.marks_eq {origin : Origin} {b : Block} {marks : Marks} (wf : g.WellFormed)
    (h : g.Marked (fun _ => true) origin b marks) : marks = ⟨origin, .block b.label⟩ :=
  have all : g.AllKept fun _ => true := fun _ _ => rfl
  all.marks_eq wf h

/-- Behind the label of a block there is the rest of it, or the label of the next block. -/
theorem FlowGraph.Marked.foremost {origin : Origin} {before later : List Block} {b : Block}
    {marks : Marks} {i : Instr} {front tail rest : List Instr} (wf : g.WellFormed)
    (marked : g.Marked (fun _ => true) origin b marks) (split : g.blocks = before ++ b :: later)
    (body : b.body = front ++ tail) (falls : tail = [] → b.fallsThrough = true)
    (code : i :: rest = tail ++ layout (fun _ => true) later) : g.Foremost marks i := by
  obtain rfl := marks_eq wf marked
  cases tail with
  | cons j tail =>
    obtain ⟨rfl, -⟩ := List.cons.inj code
    exact .inside b marked.mem (body ▸ List.mem_append_right _ List.mem_cons_self) rfl
      (marked.arrives wf)
  | nil =>
    cases later with
    | nil => cases code
    | cons c later =>
      rw [List.nil_append, layout_cons, Block.mark, if_pos rfl] at code
      exact .label c.label (List.cons.inj code).1 ((marked.next wf split (falls rfl)).arrives wf)

theorem Placed.foremost {pos : Spot} {point : Point} {i : Instr} {rest : List Instr}
    (wf : g.WellFormed) (placed : Placed g (fun _ => true) pos point) (code : pos.code = i :: rest) :
    g.Foremost pos.marks i := by
  cases placed with
  | @enter _ _ b origin _ _ _ there marked =>
    refine .label b.label (List.cons.inj (code.symm.trans there)).1 ?_
    have current : pos.marks.current = origin :=
      congrArg Marks.previous (FlowGraph.marks_eq wf marked)
    exact current ▸ marked.arrives wf
  | @entered _ _ b _ _ split there marked =>
    have whole : b.body = [] ++ b.body := rfl
    refine marked.foremost wf split whole (fun none => ?_) (code.symm.trans there)
    rw [Block.fallsThrough, none]
    rfl
  | within split body there falls marked =>
    exact marked.foremost wf split body falls (code.symm.trans there)

/-! ## The labels that are passed -/

namespace Execution

variable {s : State} {i : Instr}

/-- Behind a label, control came from the entry, or from the block of the label before. -/
theorem current_eq_block {own : List Instr} {m : Label} (h : current own = .block m) :
    (edge own = .entry ∧ labelsIn own = [m]) ∨
      ∃ before l, edge own = .block l ∧ labelsIn own = before ++ [l, m] := by
  have back := (labelsIn own).reverse_reverse
  rw [current] at h
  rw [edge]
  cases labels : (labelsIn own).reverse with
  | nil =>
    rw [labels] at h
    cases h
  | cons k rest =>
    rw [labels] at h back
    cases h
    cases rest with
    | nil => exact .inl ⟨rfl, back.symm⟩
    | cons l rest =>
      refine .inr ⟨rest.reverse, l, rfl, ?_⟩
      rw [← back, List.reverse_cons, List.reverse_cons, List.append_assoc]
      rfl

theorem labelsIn_group (inner : ∀ l, i ≠ .label l) : labelsIn (s.group i) = [] := by
  cases i with
  | label l => exact absurd rfl (inner l)
  | phi dest args => exact labelsIn_of_isPhi fun _ => State.isPhi_of_mem_group
  | _ => rfl

theorem current_eq_entry {own : List Instr} (h : current own = .entry) : labelsIn own = [] := by
  rw [current] at h
  split at h
  · cases h
  · next none => exact List.reverse_eq_nil_iff.1 none

end Execution

namespace FlowGraph

/-- Labels that follow the edges of a graph, the first one being its entry. -/
structure Course (g : FlowGraph) (labels : List Label) : Prop where
  first : ∀ l, labels.head? = some l → g.entry? = some l
  edges : labels.IsChain fun l m => m ∈ g.succs l

/-- A phi that stands in the block of the last of some labels chooses its argument for the entry if
that label is the only one, and for the block of the label before otherwise. -/
inductive Chooses (g : FlowGraph) (labels : List Label) (i : Instr) : Origin → Prop
  /-- Control came from the entry of the procedure. -/
  | entry (b : Block) (mem : b ∈ g.blocks) (body : i ∈ b.body) (passed : labels = [b.label])
      (first : g.entry? = some b.label) : Chooses g labels i .entry
  /-- Control came from a predecessor. -/
  | edge (b : Block) (mem : b ∈ g.blocks) (body : i ∈ b.body) (before : List Label) (l : Label)
      (passed : labels = before ++ [l, b.label]) (pred : l ∈ g.preds b.label) :
      Chooses g labels i (.block l)

theorem mem_succs_of_mem_preds (nodup : g.labels.Nodup) {l m : Label} (h : l ∈ g.preds m) :
    m ∈ g.succs l := by
  obtain ⟨b, hb, rfl, succ⟩ := (mem_preds nodup).1 h
  rwa [succs_eq nodup hb]

/-- A course goes on with a label that control comes to from the last one. -/
theorem Course.concat {own : List Instr} {l : Label} (nodup : g.labels.Nodup)
    (h : g.Course (labelsIn own)) (arrives : g.Arrives (current own) l) :
    g.Course (labelsIn own ++ [l]) := by
  obtain ⟨-, arrives⟩ := arrives
  cases origin : current own with
  | entry =>
    rw [origin] at arrives
    rw [current_eq_entry origin]
    exact ⟨fun m head => Option.some.inj head ▸ arrives, .singleton l⟩
  | block m =>
    rw [origin] at arrives
    have last : (labelsIn own).getLast? = some m := by
      rcases current_eq_block origin with ⟨-, labels⟩ | ⟨before, k, -, labels⟩
      · rw [labels]
        rfl
      · rw [labels, List.getLast?_append]
        rfl
    have nonempty : labelsIn own ≠ [] := fun none => by simp [none] at last
    refine ⟨fun k head => h.first k ?_, List.isChain_append.2 ⟨h.edges, .singleton l, ?_⟩⟩
    · rwa [List.head?_append_of_ne_nil _ nonempty] at head
    · intro x hx y hy
      obtain rfl : m = x := Option.some.inj (last.symm.trans hx)
      obtain rfl : l = y := Option.some.inj hy
      exact mem_succs_of_mem_preds nodup arrives

end FlowGraph

namespace Execution

variable {p : Program} {s t u v : State} {i : Instr} {args : List Word} {done : List (Nat × Instr)}

/-- The instruction that an activation of the text of a graph executes, and the edge that it takes
control to have come on. -/
theorem Trace.foremost (wf : g.WellFormed) (enters : s.frame = .enter g.toProc args)
    (trace : Trace p s done t) (above : ∀ e ∈ done, s.callers.length ≤ e.1)
    (next : t.settle = .ready i u) (own : u.callers.length = s.callers.length) :
    u.frame.previous = edge (ownAt s.callers.length done) ∧
      g.Foremost ⟨edge (ownAt s.callers.length done), current (ownAt s.callers.length done)⟩ i := by
  obtain ⟨-, point, placed⟩ :=
    trace.inText wf (enters ▸ Frame.inText_enter wf args) above next own
  have origins := (trace.follows above next own).origins
  rw [enters] at origins
  obtain ⟨previous, current⟩ := Prod.mk.inj (origins.trans (passLabels_labelsIn _))
  refine ⟨previous, ?_⟩
  rw [← previous, ← current]
  exact placed.foremost wf rfl

/-- The labels that an activation of the text of a graph passes are a course. -/
theorem Trace.course (wf : g.WellFormed) (enters : s.frame = .enter g.toProc args)
    (trace : Trace p s done t) (above : ∀ e ∈ done, s.callers.length ≤ e.1) :
    g.Course (labelsIn (ownAt s.callers.length done)) := by
  induction trace with
  | refl => exact ⟨fun _ h => (nomatch h), List.isChain_nil⟩
  | @step done t u v i before next executed ih =>
    have earlier := fun e he => above e (List.mem_append_left _ he)
    have ih := ih earlier
    rw [ownAt_append, ownAt_map, labelsIn_append]
    by_cases own : u.callers.length = s.callers.length
    · rw [if_pos own]
      obtain ⟨-, ⟨l, rfl, arrives⟩ | ⟨b, hb, body⟩⟩ := before.foremost wf enters earlier next own
      · exact ih.concat wf.nodup arrives
      · -- within a block no label is passed
        have inner : ∀ l, i ≠ .label l := fun l e => (wf.straight b hb).not_mem_label l (e ▸ body)
        rwa [labelsIn_group inner, List.append_nil]
    · rw [if_neg own, show labelsIn [] = [] from rfl, List.append_nil]
      exact ih

/-- An activation of the text of a graph goes along the edges, and a phi that it comes to chooses by
the edge that control came on. -/
theorem Trace.goes_along (wf : g.WellFormed) (enters : s.frame = .enter g.toProc args)
    (trace : Trace p s done t) (above : ∀ e ∈ done, s.callers.length ≤ e.1) :
    g.Course (labelsIn (ownAt s.callers.length done)) ∧
      ∀ dest choices u, t.settle = .ready (.phi dest choices) u →
        u.callers.length = s.callers.length →
        g.Chooses (labelsIn (ownAt s.callers.length done)) (.phi dest choices) u.frame.previous := by
  refine ⟨trace.course wf enters above, fun dest choices u next own => ?_⟩
  obtain ⟨previous, ⟨l, same⟩ | ⟨b, hb, body, current, -, arrives⟩⟩ :=
    trace.foremost wf enters above next own
  · cases same
  rw [previous]
  rcases current_eq_block current with ⟨origin, labels⟩ | ⟨before, l, origin, labels⟩
  · rw [origin] at arrives ⊢
    exact .entry b hb body labels arrives
  · rw [origin] at arrives ⊢
    exact .edge b hb body before l labels arrives

/-! ## Beginnings of activations -/

/-- An instruction calls at most one procedure, which is entered then. -/
theorem entered_of_exec (h : exec p u i = .running v) : v.callers.length ≤ u.callers.length ∨
    ∃ q args w, v.frame = .enter q args ∧ v.callers = w :: u.callers := by
  obtain ⟨globals, printed, ⟨q, rest, temps, staged, previous, current⟩, callers⟩ := u
  have made : resume p q printed callers ((Control.ofBody q.name q.body).step .byName
      ⟨i :: rest, previous, current⟩ ⟨temps, staged, globals⟩) = .running v :=
    (exec_eq (p := p) q printed callers i rest previous current _).symm.trans h
  generalize Control.step _ _ _ _ = stage at made
  cases stage with
  | going =>
    cases made
    exact .inl (Nat.le_refl _)
  | prints =>
    cases made
    exact .inl (Nat.le_refl _)
  | writes =>
    cases made
    exact .inl (Nat.le_refl _)
  | asks dest callee args =>
    rcases call_eq_running made with ⟨same, -⟩ | ⟨q', frame, same⟩
    · exact .inl (Nat.le_of_eq (congrArg List.length same))
    · exact .inr ⟨q', args, _, frame, same⟩
  | ends r =>
    cases r with
    | error => cases made
    | ok w =>
      rw [resume, State.leave] at made
      split at made
      · cases made
      · next waiting rest waits =>
        obtain ⟨same, -⟩ := write_eq_running made
        have waits : callers = waiting :: rest := waits
        left
        rw [waits, same]
        exact Nat.le_succ _

/-- At the next instruction there are no more calls open. -/
theorem callers_of_settle (next : t.settle = .ready i u) : u.callers.length ≤ t.callers.length := by
  refine settle_ready (P := fun s => s.callers.length ≤ t.callers.length) ?_ (Nat.le_refl _) next
  intro s u waiting callers w le waits written
  obtain ⟨same, -⟩ := write_eq_running written
  rw [waits] at le
  exact same ▸ Nat.le_of_succ_le le

/-- Every activation that is open at some point of a run began when its procedure was entered, and
nothing was executed below it since. -/
theorem Trace.exists_entered {q : Proc} {n : Nat} (trace : Trace p s done t) (alone : s.callers = [])
    (enters : s.frame = .enter q args) (le : n ≤ t.callers.length) :
    ∃ before since u q args, done = before ++ since ∧ Trace p s before u ∧
      u.frame = .enter q args ∧ u.callers.length = n ∧ Trace p u since t ∧ ∀ e ∈ since, n ≤ e.1 := by
  induction trace generalizing n with
  | refl =>
    rw [alone] at le
    obtain rfl : n = 0 := Nat.le_zero.1 le
    exact ⟨[], [], s, q, args, rfl, .refl, enters, by rw [alone]; rfl, .refl, nofun⟩
  | @step done t u v i trace next executed ih =>
    -- an activation that was open before the step
    have older : n ≤ u.callers.length → ∃ before since u' q args,
        done ++ (u.group i).map (u.callers.length, ·) = before ++ since ∧ Trace p s before u' ∧
        u'.frame = .enter q args ∧ u'.callers.length = n ∧ Trace p u' since v ∧
        ∀ e ∈ since, n ≤ e.1 := by
      intro open_
      obtain ⟨before, since, u', q, args, rfl, first, enters, depth, later, above⟩ :=
        ih (Nat.le_trans open_ (callers_of_settle next))
      refine ⟨before, _, u', q, args, List.append_assoc .., first, enters, depth,
        later.step next executed, fun e he => ?_⟩
      rcases List.mem_append.1 he with he | he
      · exact above e he
      · obtain ⟨j, -, rfl⟩ := List.mem_map.1 he
        exact open_
    rcases entered_of_exec executed with fewer | ⟨q', args', w, frame, callers⟩
    · exact older (Nat.le_trans le fewer)
    · rcases Nat.lt_or_ge u.callers.length n with new | open_
      · have depth : v.callers.length = n := by
          rw [callers, List.length_cons] at le ⊢
          omega
        exact ⟨_, [], v, q', args', (List.append_nil _).symm, trace.step next executed, frame, depth,
          .refl, nofun⟩
      · exact older open_

end Execution

namespace FlowGraph

variable {q : Proc} {names left : FreshNames}

/-- Whatever passes are made over a graph that was built, there is a result, which has the edges of
the graph. In every run of a program, every activation began when its procedure was entered, and an
activation of the text of the result passes the entry first and then goes along edges from block to
block. A phi that it comes to chooses its argument for the edge that control came on. -/
theorem runs_along_edges (avoids : ∀ l ∈ q.labels, l ∈ names.labels)
    (built : build q names = .ok (g, left)) (fresh : FreshNames) (steps : List Transformation) :
    ∃ last left', g.transform fresh steps = .ok (last, left') ∧ g.Overlies last ∧
      ∀ (p : Program) (main : Proc) (done : List (Nat × Instr)) (t : State),
        Trace p (begins p main) done t → ∀ n ≤ t.callers.length,
        ∃ before since s r args, done = before ++ since ∧ Trace p (begins p main) before s ∧
          s.frame = .enter r args ∧ s.callers.length = n ∧ Trace p s since t ∧
          (∀ e ∈ since, n ≤ e.1) ∧
          (r = last.toProc →
            last.Course (labelsIn (ownAt n since)) ∧
            ∀ dest choices u, t.settle = .ready (.phi dest choices) u → u.callers.length = n →
              last.Chooses (labelsIn (ownAt n since)) (.phi dest choices) u.frame.previous) := by
  obtain ⟨last, left', made, kept⟩ := exists_transform avoids built fresh steps
  refine ⟨last, left', made, .of_exits kept.exits, fun p main done t trace n le => ?_⟩
  obtain ⟨before, since, s, r, args, split, first, enters, rfl, later, above⟩ :=
    trace.exists_entered rfl rfl le
  refine ⟨before, since, s, r, args, split, first, enters, rfl, later, above, ?_⟩
  rintro rfl
  exact later.goes_along kept.wellFormed enters above

/-- The loop that counts down a parameter, in single assignment. -/
def countdownVersions : Proc :=
  let n (version : Option Nat) : Temp := ⟨"n", version⟩
  let one : Temp := ⟨"one", some 2⟩
  ⟨⟨"count"⟩, [n none], [
    .label ⟨"loop"⟩,
    .phi (n (some 1)) (.ofList [(.entry, n none), (.block ⟨"loop"⟩, n (some 3))]),
    .const (.temp one) 1,
    .binary .sub (.temp (n (some 3))) (.temp (n (some 1))) (.temp one),
    .branch .nonzero (.temp (n (some 3))) ⟨"loop"⟩,
    .label ⟨"_bb0"⟩,
    .ret (.temp (n (some 3)))]⟩

/-- A main procedure that counts down from three. -/
def countdownMain : Proc :=
  let x : Var := .temp ⟨"x", none⟩
  ⟨⟨"main"⟩, [], [.const x 3, .param 1 x, .call x ⟨"count"⟩ 1, .ret x]⟩

/-- In the second round of a loop that is called, control comes to the entry from the loop itself. -/
theorem runs_along_edges_countdown : ∃ g left last left',
    build countdownFrom (.avoiding countdownFrom.labels) = .ok (g, left) ∧
    g.transform left [.convert, .pass .minimize] = .ok (last, left') ∧
    last.toProc = countdownVersions ∧
    ∃ p done t dest choices u, p = ⟨[], [countdownMain, last.toProc]⟩ ∧
      Trace p (begins p countdownMain) done t ∧ t.settle = .ready (.phi dest choices) u ∧
      u.callers.length = 1 ∧ u.frame.previous = .block ⟨"loop"⟩ ∧
      ∃ before since, done = before ++ since ∧ last.Course (labelsIn (ownAt 1 since)) ∧
        last.Chooses (labelsIn (ownAt 1 since)) (.phi dest choices) (.block ⟨"loop"⟩) := by
  obtain ⟨g, left, built⟩ : ∃ g left,
      build countdownFrom (.avoiding countdownFrom.labels) = .ok (g, left) := ⟨_, _, rfl⟩
  obtain ⟨last, left', made, -, runs⟩ := runs_along_edges (fun _ hl => SortedSet.mem_ofList.2 hl)
    built left [.convert, .pass .minimize]
  have found : (build countdownFrom (.avoiding countdownFrom.labels)).toOption.bind (fun made =>
      (made.1.transform made.2 [.convert, .pass .minimize]).toOption.map fun e => e.1.toProc) =
      some countdownVersions := by decide +kernel
  have text : last.toProc = countdownVersions := by
    simpa only [built, made, Except.toOption, Option.bind_some, Option.map_some,
      Option.some.injEq] using found
  let p : Program := ⟨[], [countdownMain, countdownVersions]⟩
  obtain ⟨done, t, dest, choices, u, trace, le, next, callers, previous, proc⟩ :
      ∃ done t dest choices u, Trace p (begins p countdownMain) done t ∧ 1 ≤ t.callers.length ∧
        t.settle = .ready (.phi dest choices) u ∧ u.callers.length = 1 ∧
        u.frame.previous = .block ⟨"loop"⟩ ∧ u.frame.proc = countdownVersions :=
    ⟨_, _, _, _, _, .step (.step (.step (.step (.step (.step (.step (.step (.step .refl
      rfl rfl) rfl rfl) rfl rfl) rfl rfl) rfl rfl) rfl rfl) rfl rfl) rfl rfl) rfl rfl,
      Nat.le_refl _, rfl, rfl, rfl, rfl⟩
  obtain ⟨before, since, s, r, args, split, -, enters, depth, later, above, along⟩ :=
    runs p countdownMain done t trace 1 le
  have same : r = last.toProc := by
    have kept := (later.follows (depth ▸ above) next (callers.trans depth.symm)).proc
    rw [enters] at kept
    exact kept.symm.trans (proc.trans text.symm)
  obtain ⟨course, chooses⟩ := along same
  exact ⟨g, left, last, left', built, made, text, p, done, t, dest, choices, u, by rw [text], trace,
    next, callers, previous, before, since, split, course,
    previous ▸ chooses dest choices u next callers⟩

end FlowGraph

end ThreeAddress
