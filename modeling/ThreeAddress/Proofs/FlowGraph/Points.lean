import ThreeAddress.Proofs.Activation.Renaming
import ThreeAddress.Proofs.FlowGraph.Layout
/-!
# Points of a graph and simulations between graphs

An activation that runs in a graph is always at a point that control can be at: in front of a block
that it came to along an edge, or within a block, at the rest of its code.

* `FlowGraph.Arrives`, `FlowGraph.At` : control comes to a block, and is within it;
* `At.pass`, `At.jump`, `At.next` : where control goes from there;
* `Between` : two graphs with the same labels, at the same block;
* `follows_graph`, `lockstep_graph` : what has to be shown for one graph to follow another, and for
  both to go side by side.
-/

namespace ThreeAddress

open Execution

namespace FlowGraph

/-- No phi at the head of a block defines or reads the sink. -/
def PhisNamed (g : FlowGraph) : Prop :=
  ∀ b ∈ g.blocks, ∀ d args, .phi d args ∈ b.phis →
    d.isSink = false ∧ ∀ v ∈ args.values, v.isSink = false

theorem PhiFree.phisNamed {g : FlowGraph} (h : g.PhiFree) : g.PhisNamed := by
  intro b hb d args mem
  rw [Block.phis_of_phiFree (h b hb)] at mem
  cases mem

/-- Control may come to a block from `origin`. -/
def Arrives (g : FlowGraph) (origin : Origin) (l : Label) : Prop :=
  l ∈ g.labels ∧
    match origin with
    | .entry => g.entry? = some l
    | .block p => p ∈ g.preds l

/-- Control may be within a block, in front of some instructions. -/
structure At (g : FlowGraph) (origin : Origin) (b : Block) (rest : List Instr) : Prop where
  mem : b ∈ g.blocks
  arrives : g.Arrives origin b.label
  /-- What is executed already. -/
  front : ∃ front, b.code = front ++ rest
  /-- The end is only reached if control runs past it. -/
  falls : rest = [] → b.fallsThrough = true

variable {g : FlowGraph} {origin : Origin} {b : Block} {rest : List Instr} {i : Instr}

theorem Arrives.entry {l : Label} (h : g.entry? = some l) : g.Arrives .entry l :=
  ⟨List.mem_of_mem_head? h, h⟩

/-- Control is in front of the code of a block once the phis are executed. -/
theorem At.first (hb : b ∈ g.blocks) (h : g.Arrives origin b.label) : g.At origin b b.code :=
  ⟨hb, h, ⟨[], rfl⟩, Block.fallsThrough_of_code_nil⟩

theorem At.mem_code (h : g.At origin b (i :: rest)) : i ∈ b.code := by
  obtain ⟨front, code⟩ := h.front
  rw [code]
  exact List.mem_append_right _ List.mem_cons_self

theorem At.mem_body (h : g.At origin b (i :: rest)) : i ∈ b.body :=
  Block.mem_body_of_mem_code h.mem_code

/-- The last instruction of a block, when it is next. -/
theorem At.getLast (h : g.At origin b [i]) : b.body.getLast? = some i := by
  obtain ⟨front, code⟩ := h.front
  rw [← b.phis_append_code, code, ← List.append_assoc, List.getLast?_concat]

/-- Control passes an instruction. -/
theorem At.pass (h : g.At origin b (i :: rest)) (falls : i.fallsThrough = true) :
    g.At origin b rest := by
  obtain ⟨front, code⟩ := h.front
  refine ⟨h.mem, h.arrives, ⟨front ++ [i], ?_⟩, ?_⟩
  · rw [code, List.append_assoc]
    rfl
  · rintro rfl
    rw [Block.fallsThrough, h.getLast]
    exact falls

theorem At.target (wf : g.WellFormed) (h : g.At origin b (i :: rest)) {l : Label}
    (target : i.target? = some l) : b.target? = some l ∧ l ∈ g.labels := by
  have transfer := Instr.isTransfer_of_target target
  have last : b.target? = some l := by
    rw [Block.target?, (wf.straight b h.mem).last_of_transfer h.mem_body transfer]
    exact target
  exact ⟨last, wf.targets b h.mem l last⟩

/-- Control jumps to another block. -/
theorem At.jump (wf : g.WellFormed) (h : g.At origin b (i :: rest)) {l : Label}
    (target : i.target? = some l) : g.Arrives (.block b.label) l := by
  obtain ⟨last, mem⟩ := h.target wf target
  exact ⟨mem, (mem_preds wf.nodup).2 ⟨b, h.mem, rfl, Block.mem_succs.2 (.inl last)⟩⟩

/-- Control goes on with the next block. -/
theorem At.next (wf : g.WellFormed) (h : g.At origin b []) {l : Label}
    (next : g.next? b.label = some l) : g.Arrives (.block b.label) l := by
  have mem := mem_labels_of_next? wf.nodup (mem_labels.2 ⟨b, h.mem, rfl⟩) next
  exact ⟨mem, (mem_preds wf.nodup).2
    ⟨b, h.mem, rfl, Block.mem_succs.2 (.inr ⟨h.falls rfl, next⟩)⟩⟩

/-- The instructions behind a transfer of control are none. -/
theorem At.rest_nil (wf : g.WellFormed) (h : g.At origin b (i :: rest))
    (transfer : i.isTransfer = true) : rest = [] := by
  obtain ⟨front, code⟩ := h.front
  have straight := wf.straight b h.mem
  rw [← b.phis_append_code, code, ← List.append_assoc] at straight
  exact straight.append.2.1 transfer

end FlowGraph

/-! ## One graph follows another -/

section Graphs

variable {σ σ' : Type}

/-- Two graphs at the same block: in front of it, with temporaries in the relation `Enter`, or
within it, at code and with temporaries in the relation `Within`. -/
def Between (g : FlowGraph) (Enter : Origin → Label → σ → σ' → Prop)
    (Within : Origin → Block → List Instr → σ → List Instr → σ' → Prop) :
    Point → σ → Point → σ' → Prop
  | .enter origin l, s, point, s' =>
    point = .enter origin l ∧ g.Arrives origin l ∧ Enter origin l s s'
  | .within origin l rest, s, point, s' =>
    ∃ b rest', b.label = l ∧ point = .within origin l rest' ∧ g.At origin b rest ∧
      Within origin b rest s rest' s'

variable {g g' : FlowGraph} {K : Keeping σ} {K' : Keeping σ'} {E : Leeway Point σ'}
  {Enter : Origin → Label → σ → σ' → Prop}
  {Within : Origin → Block → List Instr → σ → List Instr → σ' → Prop}

theorem next?_of_labels (labels : g'.labels = g.labels) (l : Label) : g'.next? l = g.next? l := by
  rw [FlowGraph.next?, labels, FlowGraph.next?]

theorem entry?_of_labels (labels : g'.labels = g.labels) : g'.entry? = g.entry? := by
  rw [FlowGraph.entry?, labels, FlowGraph.entry?]

/-- A jump goes to the same block in both graphs. -/
theorem alike_graph_goto (wf : g.WellFormed) (labels : g'.labels = g.labels) {origin : Origin}
    {b : Block} {i : Instr} {rest rest' : List Instr} (at_ : g.At origin b (i :: rest)) {l : Label}
    (target : i.target? = some l) {s : σ} {s' : σ'} (enter : Enter (.block b.label) l s s')
    (staged : Store Nat) (globals : Store Global) :
    Alike K K' (Between g Enter Within) E
      ((Control.ofGraph g).goto (.within origin b.label rest) ⟨s, staged, globals⟩ l)
      ((Control.ofGraph g').goto (.within origin b.label rest') ⟨s', staged, globals⟩ l) := by
  have mem := (at_.target wf target).2
  have mem' : l ∈ g'.labels := labels ▸ mem
  rw [Control.goto, Control.goto]
  simp only [Control.ofGraph, mem, mem', if_true]
  exact .going ⟨rfl, at_.jump wf target, enter⟩

/-- What has to be shown of the entry into a block. -/
def EnterKept (g g' : FlowGraph) (K : Keeping σ) (K' : Keeping σ')
    (Enter : Origin → Label → σ → σ' → Prop)
    (Within : Origin → Block → List Instr → σ → List Instr → σ' → Prop) : Prop :=
  ∀ origin b b' s s', b ∈ g.blocks → b' ∈ g'.blocks → b'.label = b.label →
    g.Arrives origin b.label → Enter origin b.label s s' →
    Within origin b b.code (K.assign origin b.phis s) b'.code (K'.assign origin b'.phis s')

/-- What has to be shown of the end of a block. -/
def LeaveKept (g : FlowGraph) (Enter : Origin → Label → σ → σ' → Prop)
    (Within : Origin → Block → List Instr → σ → List Instr → σ' → Prop) : Prop :=
  ∀ origin b s rest' s', g.At origin b [] → Within origin b [] s rest' s' →
    rest' = [] ∧ ∀ l, g.next? b.label = some l → Enter (.block b.label) l s s'

/-- Both graphs enter a block. -/
theorem alike_graph_enter (wf : g.WellFormed) (nodup : g'.labels.Nodup)
    (labels : g'.labels = g.labels) (enter : EnterKept g g' K K' Enter Within) {origin : Origin}
    {l : Label} {s : σ} {s' : σ'} (arrives : g.Arrives origin l) (rel : Enter origin l s s')
    (staged : Store Nat) (globals : Store Global) :
    Alike K K' (Between g Enter Within) E
      ((Control.ofGraph g).step K (.enter origin l) ⟨s, staged, globals⟩)
      ((Control.ofGraph g').step K' (.enter origin l) ⟨s', staged, globals⟩) := by
  obtain ⟨b, hb, rfl⟩ := FlowGraph.mem_labels.1 arrives.1
  obtain ⟨b', hb', label⟩ := FlowGraph.mem_labels.1 (labels ▸ arrives.1)
  obtain ⟨before, later, split⟩ := List.append_of_mem hb
  obtain ⟨before', later', split'⟩ := List.append_of_mem hb'
  rw [ofGraph_step_enter wf.nodup split, ← label, ofGraph_step_enter nodup split']
  refine .going ⟨b, b'.code, label.symm, rfl, .first hb arrives, ?_⟩
  exact enter origin b b' s s' hb hb' label arrives rel

/-- Both graphs leave a block at its end. -/
theorem alike_graph_leave (wf : g.WellFormed) (labels : g'.labels = g.labels)
    (leave : LeaveKept g Enter Within) {origin : Origin} {b : Block} {rest' : List Instr} {s : σ}
    {s' : σ'} (at_ : g.At origin b []) (rel : Within origin b [] s rest' s') (staged : Store Nat)
    (globals : Store Global) :
    Alike K K' (Between g Enter Within) E
      ((Control.ofGraph g).step K (.within origin b.label []) ⟨s, staged, globals⟩)
      ((Control.ofGraph g').step K' (.within origin b.label rest') ⟨s', staged, globals⟩) := by
  obtain ⟨rfl, rel'⟩ := leave origin b s rest' s' at_ rel
  rw [Control.step, Control.step]
  simp only [Control.ofGraph, next?_of_labels labels]
  cases next : g.next? b.label with
  | none => exact .ends
  | some l => exact .going ⟨rfl, at_.next wf next, rel' l next⟩

/-- For one graph to follow another, temporaries have to stay in the relations when a block is
entered, when its end is reached, and when one of its instructions is executed. -/
theorem follows_graph (wf : g.WellFormed) (first : g.PhisFirst) (nodup : g'.labels.Nodup)
    (labels : g'.labels = g.labels) (enter : EnterKept g g' K K' Enter Within)
    (leave : LeaveKept g Enter Within)
    (instr : ∀ origin b i rest s rest' s' staged globals, g.At origin b (i :: rest) →
      i.isPhi = false → Within origin b (i :: rest) s rest' s' →
      ∃ y, (Control.ofGraph g').Quiet K'
          (.going (.within origin b.label rest') ⟨s', staged, globals⟩) y ∧
        Alike K K' (Between g Enter Within) E
          ((Control.ofGraph g).perform K (.within origin b.label rest) ⟨s, staged, globals⟩ i) y) :
    Follows (Control.ofGraph g) K (Control.ofGraph g') K' (Between g Enter Within) E := by
  intro pos s pos' s' staged globals q
  cases pos with
  | enter origin l =>
    obtain ⟨rfl, arrives, rel⟩ := q
    exact ⟨_, .step _ _, alike_graph_enter wf nodup labels enter arrives rel staged globals⟩
  | within origin l rest =>
    obtain ⟨b, rest', rfl, rfl, at_, rel⟩ := q
    cases rest with
    | nil => exact ⟨_, .step _ _, alike_graph_leave wf labels leave at_ rel staged globals⟩
    | cons i rest =>
      have plain := first b at_.mem i at_.mem_code
      rw [ofGraph_step_plain plain]
      exact instr origin b i rest s rest' s' staged globals at_ plain rel

/-- What has to be shown of an instruction, if both graphs execute one at the same time. -/
def InstrKept (g g' : FlowGraph) (K : Keeping σ) (K' : Keeping σ') (E : Leeway Point σ')
    (Enter : Origin → Label → σ → σ' → Prop)
    (Within : Origin → Block → List Instr → σ → List Instr → σ' → Prop) : Prop :=
  ∀ origin b i rest s rest' s' staged globals, g.At origin b (i :: rest) → i.isPhi = false →
    Within origin b (i :: rest) s rest' s' →
    ∃ i' more, rest' = i' :: more ∧ i'.isPhi = false ∧
      Alike K K' (Between g Enter Within) E
        ((Control.ofGraph g).perform K (.within origin b.label rest) ⟨s, staged, globals⟩ i)
        ((Control.ofGraph g').perform K' (.within origin b.label more) ⟨s', staged, globals⟩ i')

/-- Two graphs that execute one instruction each at a time go side by side. -/
theorem lockstep_graph (wf : g.WellFormed) (first : g.PhisFirst) (nodup : g'.labels.Nodup)
    (labels : g'.labels = g.labels) (enter : EnterKept g g' K K' Enter Within)
    (leave : LeaveKept g Enter Within) (instr : InstrKept g g' K K' E Enter Within) {pos pos' : Point}
    {s : σ} {s' : σ'} (q : Between g Enter Within pos s pos' s') (staged : Store Nat)
    (globals : Store Global) :
    Alike K K' (Between g Enter Within) E ((Control.ofGraph g).step K pos ⟨s, staged, globals⟩)
      ((Control.ofGraph g').step K' pos' ⟨s', staged, globals⟩) := by
  cases pos with
  | enter origin l =>
    obtain ⟨rfl, arrives, rel⟩ := q
    exact alike_graph_enter wf nodup labels enter arrives rel staged globals
  | within origin l rest =>
    obtain ⟨b, rest', rfl, rfl, at_, rel⟩ := q
    cases rest with
    | nil => exact alike_graph_leave wf labels leave at_ rel staged globals
    | cons i rest =>
      have plain := first b at_.mem i at_.mem_code
      obtain ⟨i', more, rfl, plain', alike⟩ := instr origin b i rest s rest' s' staged globals at_ plain rel
      rw [ofGraph_step_plain plain, ofGraph_step_plain plain']
      exact alike

/-- A run is carried over to a graph that follows, if the failure that it may end with is answered by
nothing but itself. -/
theorem FlowGraph.Runs.carry_kept
    (follows : Follows (Control.ofGraph g) K (Control.ofGraph g') K' (Between g Enter Within) E)
    (labels : g'.labels = g.labels) (wf : g.WellFormed) {s : σ} {s' : σ'}
    (enter : ∀ l, g.entry? = some l → Enter .entry l s s') {staged : Store Nat}
    {globals : Store Global} {t : List Effect} {r : Result} (h : g.Runs K ⟨s, staged, globals⟩ t r)
    (exact : ∀ f y, r = .error f → E.failure f y → y = .ends (.error f)) :
    ∃ t', Fewer E.hides t t' ∧ g'.Runs K' ⟨s', staged, globals⟩ t' r := by
  obtain ⟨l, entry⟩ := wf.exists_entry
  have entry' : g'.entry? = some l := (entry?_of_labels labels).trans entry
  obtain ⟨t', fewer, yields⟩ := ((FlowGraph.runs_iff_yields entry).1 h).carry_kept follows exact
    (.going ⟨rfl, .entry entry, enter l entry⟩)
  exact ⟨t', fewer, (FlowGraph.runs_iff_yields entry').2 yields⟩

/-- A run that succeeds is carried over with all its effects, if none may be left out. -/
theorem FlowGraph.Runs.carry_ok
    (follows : Follows (Control.ofGraph g) K (Control.ofGraph g') K' (Between g Enter Within) E)
    (none : ¬ E.hides) (labels : g'.labels = g.labels) (wf : g.WellFormed) {s : σ} {s' : σ'}
    (enter : ∀ l, g.entry? = some l → Enter .entry l s s') {staged : Store Nat}
    {globals : Store Global} {t : List Effect} {v : Word × Store Global}
    (h : g.Runs K ⟨s, staged, globals⟩ t (.ok v)) : g'.Runs K' ⟨s', staged, globals⟩ t (.ok v) := by
  obtain ⟨t', fewer, runs⟩ := h.carry_kept follows labels wf enter fun _ _ e => nomatch e
  rwa [← fewer.eq none]

end Graphs

end ThreeAddress
