import ThreeAddress.Proofs.Lowering.Entry
import ThreeAddress.Proofs.Lowering.Instr
/-!
# Activations of functions

The function of a procedure is executed along with an activation of the procedure. In front of every
instruction, what is live is at home and what the caller finds again is held; what control does in
between is found in the code.

* `Implements` : what is relied on about the function of a procedure;
* `Entrance.Reached` : the machine is where the activation is;
* `Entrance.comes_step` : the machine does what the activation does next;
* `Entrance.returns_of_yields` : so it returns what the activation does;
* `Implements.serves` : a function prints and returns what its procedure does.
-/

namespace ThreeAddress

open Execution Target

/-- What is relied on about the function of a procedure. -/
structure Implements (f : Function) (g : FlowGraph) (live : Liveness) (layout : Layout) : Prop extends
    Lowers f g live layout where
  wf : g.WellFormed
  first : g.PhisFirst
  named : g.PhisNamed
  once : ∀ b ∈ g.blocks, b.phiDefs.Nodup
  params : g.params.Nodup
  staged : ∀ b ∈ g.blocks, ∀ index arg, .param index arg ∈ b.body →
    1 ≤ index ∧ index ≤ layout.frame.arguments
  solved : Solved g live
  housed : Housed g live layout.locations
  sound : layout.Sound

/-- Arguments that are gathered were laid ready. -/
theorem gather_eq_ok {staged : Store Nat} {callee : Global} {index n : Nat} {args : List Word}
    (h : gather staged callee index n = .ok args) :
    n = args.length ∧ ∀ k w, args[k]? = some w → staged.get? (index + k) = some w := by
  induction n generalizing index args with
  | zero =>
    cases h
    exact ⟨rfl, fun _ _ hk => by cases hk⟩
  | succ n ih =>
    rw [gather] at h
    cases found : staged.get? index with
    | none => simp [found] at h
    | some w =>
      cases more : gather staged callee (index + 1) n with
      | error f => simp [found, more, Except.map] at h
      | ok rest =>
        obtain rfl : w :: rest = args := by simpa [found, more, Except.map] using h
        obtain ⟨rfl, laid⟩ := ih more
        refine ⟨rfl, fun k w' hk => ?_⟩
        cases k with
        | zero =>
          cases hk
          exact found
        | succ k =>
          have := laid k w' hk
          rwa [Nat.add_right_comm] at this

/-- An activation of a function, with the state in which it was entered and where it returns to. -/
structure Entrance where
  functions : List Function
  litter : Litter
  function : Function
  graph : FlowGraph
  live : Liveness
  layout : Layout
  base : Int
  state : Machine
  place : Option Target.Place

namespace Entrance

variable {e : Entrance} {out : List Printed} {b : Block} {i : Instr} {rest : List Instr}
  {a : Local (Temp → Option Word)} {code : List Target.Instr} {m m' : Machine} {c c' : Config}
  {pos : Point} {origin : Origin}

/-! ## Where the machine is -/

/-- Steps of the machine. -/
abbrev Steps (e : Entrance) : Config → Config → Prop := Target.Steps e.functions e.litter

/-- A configuration in the code of the function. -/
abbrev within (e : Entrance) (code : List Target.Instr) (m : Machine) : Config :=
  ⟨some ⟨e.function, code⟩, m⟩

/-- The machine is within a block, and values are at home. -/
structure Inside (e : Entrance) (out : List Printed) (b : Block) (rest : List Instr)
    (a : Local (Temp → Option Word)) (code : List Target.Instr) (m : Machine) : Prop where
  code : CodeAt e.function e.graph e.live e.layout b rest code
  held : e.layout.Held e.base e.state m
  holds : e.layout.Holds e.base (· ∈ liveFrom (e.live.after e.graph b.label) rest) a m
  printed : m.printed = e.state.printed ++ out.toArray

/-- The machine is where the activation is. In front of a block, it has made the moves of the
phis. -/
def Reached (e : Entrance) (out : List Printed) :
    Point → Local (Temp → Option Word) → Config → Prop
  | .within origin l rest, a, c => ∃ b code m, c = e.within code m ∧ b.label = l ∧
      e.graph.At origin b rest ∧ e.Inside out b rest a code m
  | .enter origin l, a, c => ∃ b code m, c = e.within code m ∧ b.label = l ∧ b ∈ e.graph.blocks ∧
      e.graph.Arrives origin l ∧ e.Inside out b b.code
        { a with temps := Keeping.strict.assign origin b.phis a.temps } code m

/-- The machine does what the activation does next. -/
def Comes (e : Entrance) (out : List Printed) :
    Stage Point (Temp → Option Word) → Config → Prop
  | .going pos a, c | .writes _ _ pos a, c => ∃ c', e.Steps c c' ∧ e.Reached out pos a c'
  | .prints line pos a, c => ∃ c', e.Steps c c' ∧ e.Reached (out ++ [line]) pos a c'
  | .asks dest callee args pos a, c => ∀ more w globals,
      Answers e.functions e.litter callee args a.globals more w globals →
      ∀ pos' a', (Keeping.strict.write pos { a with globals } dest w).next? = some (pos', a') →
        ∃ c', e.Steps c c' ∧ e.Reached (out ++ more) pos' a' c'
  | .ends (.ok (w, globals)), c => ∃ m', e.Steps c ⟨e.place, m'⟩ ∧
      Returns (e.base + 16) out w globals e.state m'
  | .ends (.error _), _ => True

theorem Comes.write {v : Var} {w : Word}
    (h : ∀ pos' a', (Keeping.strict.write pos a v w).next? = some (pos', a') →
      ∃ c', e.Steps c c' ∧ e.Reached out pos' a' c') :
    e.Comes out (Keeping.strict.write pos a v w) c := by
  cases v with
  | temp t =>
    simp only [Keeping.write] at h ⊢
    split at h
    · next sink =>
      rw [if_pos sink]
      exact h _ _ rfl
    · next named =>
      rw [if_neg named]
      exact h _ _ rfl
  | global x =>
    simp only [Keeping.write] at h ⊢
    cases found : a.globals.get? x with
    | none => trivial
    | some old =>
      simp only [found] at h
      exact h _ _ rfl

/-- Control goes to a block. -/
theorem Comes.goto {l target : Label}
    (h : ∃ c', e.Steps c c' ∧ e.Reached out (.enter (.block l) target) a c') :
    e.Comes out ((Control.ofGraph e.graph).goto (.within origin l rest) a target) c := by
  by_cases mem : target ∈ e.graph.labels
  · simp only [Control.goto, Control.ofGraph, if_pos mem]
    exact h
  · simp only [Control.goto, Control.ofGraph, if_neg mem]
    trivial

/-- Reading comes first. -/
theorem Comes.reading {v : Var} {next : Word → Stage Point (Temp → Option Word)}
    (h : ∀ w, (Control.ofGraph e.graph).read .strict a v = .ok w → e.Comes out (next w) c) :
    e.Comes out ((Control.ofGraph e.graph).reading .strict a v next) c := by
  rw [Control.reading]
  cases read : (Control.ofGraph e.graph).read .strict a v with
  | error f => trivial
  | ok w => exact h w read

end Entrance

/-! ## Code of blocks -/

section CodeAt

variable {f : Function} {g : FlowGraph} {live : Liveness} {layout : Layout} {b : Block} {i : Instr}
  {rest : List Instr} {code : List Target.Instr}

/-- The code of the next instruction, and the code behind it. -/
theorem CodeAt.cons (h : CodeAt f g live layout b (i :: rest) code) :
    ∃ n here later, g.lowerInstr layout b.label n (liveFrom (live.after g b.label) rest) i = .ok here ∧
      (∀ d ∈ here.detours, ∃ more, f.codeFrom? d.name = some (d.code ++ more)) ∧
      CodeAt f g live layout b rest later ∧ code = here.instrs ++ later := by
  obtain ⟨n, body, falling, later, lowered, detours, falls, next, rfl⟩ := h
  obtain ⟨here, more, found, found', rfl⟩ := FlowGraph.lowerBody_cons lowered
  refine ⟨n, here, more.instrs ++ (falling ++ later), found, fun d hd => detours d ?_,
    ⟨_, more, falling, later, found', fun d hd => detours d ?_, falls, next, rfl⟩, ?_⟩
  · exact List.mem_append_left _ hd
  · exact List.mem_append_right _ hd
  · rw [Code.instrs_append, List.append_assoc]

/-- The code of an instruction that does not jump. -/
theorem CodeAt.cons_of_target? (stays : i.target? = none)
    (h : CodeAt f g live layout b (i :: rest) code) :
    ∃ instrs later, layout.lower (liveFrom (live.after g b.label) rest) i = .ok instrs ∧
      CodeAt f g live layout b rest later ∧ code = instrs ++ later := by
  obtain ⟨n, here, later, lowered, -, codeAt, rfl⟩ := h.cons
  obtain ⟨instrs, found, rfl⟩ := FlowGraph.lowerInstr_of_target? stays lowered
  exact ⟨instrs, later, found, codeAt, rfl⟩

end CodeAt

namespace Entrance

variable {e : Entrance} {out more : List Printed} {b : Block} {i : Instr} {rest : List Instr}
  {a a' : Local (Temp → Option Word)} {code instrs later : List Target.Instr} {m m' : Machine}
  {c c' : Config} {pos pos' : Point} {origin : Origin} {v : Var} {w : Word}

/-! ## Edges -/

/-- The machine comes to a block along an edge. -/
theorem exists_enter (valid : Implements e.function e.graph e.live e.layout) (hb : b ∈ e.graph.blocks)
    (arrives : e.graph.Arrives origin b.label) {moves : List Move}
    (found : e.graph.edgeMoves e.layout origin b.label = .ok moves)
    (held : e.layout.Held e.base e.state m)
    (holds : e.layout.Holds e.base (fun t => e.live.Has e.graph t (.enter origin b.label)) a m)
    (printed : m.printed = e.state.printed ++ out.toArray) {tail : List Target.Instr}
    (goes : ∀ m code, e.function.codeFrom? (e.layout.blockName b.label) = some code →
      e.Steps (e.within tail m) (e.within code m)) :
    ∃ c', e.Steps (e.within (moveAll moves ++ tail) m) c' ∧
      e.Reached out (.enter origin b.label) a c' := by
  obtain ⟨m', moved, holds', changes⟩ := Layout.executes_edgeMoves valid.wf valid.solved valid.housed
    valid.named (valid.once b hb) valid.sound held.toStands hb holds found
  obtain ⟨code, named, codeAt⟩ := valid.blocks b hb
  have label : e.Steps (e.within (.label (e.layout.blockName b.label) :: code) m') (e.within code m') :=
    .single (step?_of_apply (Machine.apply_label ..))
  refine ⟨e.within code m', .trans (steps_of_applyAll moved) (.trans (goes m' _ named) label),
    b, code, m', rfl, rfl, hb, arrives, codeAt, ?_, holds', changes.printed.trans printed⟩
  exact held.of_changes changes fun c => Layout.own_edgeCells

/-- What is live in front of a jump is live behind the edge. -/
theorem holds_edge (valid : Implements e.function e.graph e.live e.layout) {l : Label}
    (at_ : b ∈ e.graph.blocks) (edge : l ∈ b.succs (e.graph.next? b.label))
    (undefined : ∀ i ∈ rest, i.def? = none)
    (holds : e.layout.Holds e.base (· ∈ liveFrom (e.live.after e.graph b.label) rest) a m) :
    e.layout.Holds e.base (fun t => e.live.Has e.graph t (.enter (.block b.label) l)) a m := by
  induction rest with
  | nil => exact holds.mono fun t has => Liveness.mem_after valid.wf.nodup at_ edge has
  | cons i rest ih =>
    exact ih (fun j hj => undefined j (List.mem_cons_of_mem _ hj))
      (holds.pass (undefined i List.mem_cons_self))

/-! ## Steps of an activation -/

theorem comes_enter (valid : Implements e.function e.graph e.live e.layout) {l : Label}
    (h : e.Reached out (.enter origin l) a c) :
    e.Comes out ((Control.ofGraph e.graph).step .strict (.enter origin l) a) c := by
  obtain ⟨b, code, m, rfl, rfl, hb, arrives, inside⟩ := h
  obtain ⟨before, later, split⟩ := List.append_of_mem hb
  rw [ofGraph_step_enter valid.wf.nodup split]
  exact ⟨_, .refl _, b, code, m, rfl, rfl, .first hb arrives, inside⟩

/-- Zero is returned. -/
theorem exists_leave (valid : Implements e.function e.graph e.live e.layout)
    (back : e.state.stack (e.base + 8) = .back e.place) (held : e.layout.Held e.base e.state m)
    {globals : Store Global} (data : m.data = globalData globals)
    (printed : m.printed = e.state.printed ++ out.toArray) {o : Target.Operand}
    (read : m.get o = some (.word w)) (later : List Target.Instr) :
    ∃ m', e.Steps (e.within ((if o = .immediate 0 then [Layout.zeroResult]
        else move (.register .rax) o) ++ e.layout.leave ++ later) m) ⟨e.place, m'⟩ ∧
      Returns (e.base + 16) out w globals e.state m' := by
  obtain ⟨m₁, loaded, rax, changes⟩ := Layout.executes_loadResult read
  have held₁ := held.of_changes changes fun c => Layout.own_scratch
  have data₁ : m₁.data = globalData globals :=
    (funext fun name => changes.data fun ⟨_, _, same⟩ => by cases same).trans data
  obtain ⟨m', left, returns⟩ : ∃ m', e.Steps (e.within (e.layout.leave ++ later) m₁) ⟨e.place, m'⟩ ∧
      Returns (e.base + 16) out w globals e.state m' :=
    Layout.steps_leave valid.sound held₁ back rax data₁ (changes.printed.trans printed)
  refine ⟨m', .trans ?_ left, returns⟩
  rw [List.append_assoc]
  exact steps_of_applyAll loaded

theorem comes_end (valid : Implements e.function e.graph e.live e.layout)
    (back : e.state.stack (e.base + 8) = .back e.place) {l : Label}
    (h : e.Reached out (.within origin l []) a c) :
    e.Comes out ((Control.ofGraph e.graph).step .strict (.within origin l []) a) c := by
  obtain ⟨b, code, m, rfl, rfl, at_, inside⟩ := h
  obtain ⟨n, body, falling, later, lowered, -, falls, next, rfl⟩ := inside.code
  cases lowered
  have falls := falls (at_.falls rfl)
  rw [Control.step]
  cases found : e.graph.next? b.label with
  | none =>
    simp only [Control.ofGraph, found]
    rw [found] at falls
    cases falls
    exact exists_leave valid back inside.held inside.holds.data inside.printed
      (Machine.get_immediate m 0) later
  | some l =>
    simp only [Control.ofGraph, found]
    rw [found] at falls
    obtain ⟨moves, edge, falls⟩ := bind_eq_ok_iff.1 falls
    cases falls
    have arrives := at_.next valid.wf found
    obtain ⟨b', hb', rfl⟩ := FlowGraph.mem_labels.1 arrives.1
    have succ : b'.label ∈ b.succs (e.graph.next? b.label) :=
      Block.mem_succs.2 (.inr ⟨at_.falls rfl, found⟩)
    refine exists_enter valid hb' arrives edge inside.held
      (holds_edge valid at_.mem succ (by simp) inside.holds) inside.printed fun m' code named => ?_
    obtain rfl := Option.some.inj ((next _ found).symm.trans named)
    exact .refl _

/-- An operand of the next instruction is read from where it is. -/
theorem Inside.read (valid : Implements e.function e.graph e.live e.layout)
    (h : e.Inside out b (i :: rest) a code m) (mem : v ∈ i.operands)
    (read : (Control.ofGraph e.graph).read .strict a v = .ok w) :
    ∀ o, e.layout.source v = .ok o → m.get o = some (.word w) ∧ o.Steady := fun _ source =>
  h.holds.read valid.sound h.held.toStands
    (fun _ ht => mem_liveBefore.2 (.inl (List.mem_filterMap.2 ⟨v, mem, ht⟩))) source read

/-- A global variable that is written is among the data. -/
theorem Inside.writable (h : e.Inside out b (i :: rest) a code m)
    (next : (Keeping.strict.write pos a v w).next? = some (pos', a')) : Layout.Writable v m := by
  rintro x rfl
  cases found : a.globals.get? x with
  | none =>
    simp only [Keeping.write, found] at next
    cases next
  | some old =>
    refine ⟨.word old, ?_⟩
    rw [h.holds.data, globalData, found]
    rfl

/-- The machine is behind an instruction. -/
theorem reached_behind (more : List Printed) (at_ : e.graph.At origin b (i :: rest)) (falls : i.fallsThrough = true)
    (inside : e.Inside out b (i :: rest) a code m)
    (codeAt : CodeAt e.function e.graph e.live e.layout b rest later)
    (kept : ∀ c, ¬ e.layout.Own e.base c → m'.value? c = m.value? c)
    (holds : e.layout.Holds e.base (· ∈ liveFrom (e.live.after e.graph b.label) rest) a' m')
    (printed : m'.printed = m.printed ++ more.toArray) :
    e.Reached (out ++ more) (.within origin b.label rest) a' (e.within later m') := by
  refine ⟨b, later, m', rfl, rfl, at_.pass falls, codeAt, inside.held.of_kept kept, holds, ?_⟩
  rw [printed, inside.printed, ← List.append_toArray, Array.append_assoc]

/-- The machine is behind an instruction that prints nothing. -/
theorem reached_next (at_ : e.graph.At origin b (i :: rest)) (falls : i.fallsThrough = true)
    (inside : e.Inside out b (i :: rest) a code m)
    (codeAt : CodeAt e.function e.graph e.live e.layout b rest later)
    (kept : ∀ c, ¬ e.layout.Own e.base c → m'.value? c = m.value? c)
    (holds : e.layout.Holds e.base (· ∈ liveFrom (e.live.after e.graph b.label) rest) a' m')
    (printed : m'.printed = m.printed) :
    e.Reached out (.within origin b.label rest) a' (e.within later m') := by
  have reached := reached_behind [] at_ falls inside codeAt kept holds (by simpa using printed)
  rwa [List.append_nil] at reached

/-- The machine is behind an instruction that writes its destination. -/
theorem exists_wrote (valid : Implements e.function e.graph e.live e.layout)
    (at_ : e.graph.At origin b (i :: rest)) (dest : i.dest? = some v)
    (inside : e.Inside out b (i :: rest) a code m)
    (codeAt : CodeAt e.function e.graph e.live e.layout b rest later)
    (next : (Keeping.strict.write (.within origin b.label rest) a v w).next? = some (pos', a'))
    (run : Layout.Writable v m → m.Executes instrs (e.layout.Wrote e.base v (.word w) m)) :
    ∃ c', e.Steps (e.within (instrs ++ later) m) c' ∧ e.Reached out pos' a' c' := by
  obtain ⟨m', done, wrote⟩ := run (inside.writable next)
  obtain ⟨front, split⟩ := at_.front
  obtain ⟨rfl, holds⟩ := inside.holds.wrote valid.housed valid.sound at_.mem split
    (valid.first b at_.mem i at_.mem_code) dest wrote next
  have falls : i.fallsThrough = true := by
    cases i <;> simp_all [Instr.dest?, Instr.fallsThrough]
  exact ⟨_, steps_of_applyAll done, reached_next at_ falls inside codeAt
    (fun c hc => wrote.changes.kept c fun hc' => hc (Layout.Wrote.own valid.sound hc')) holds
    wrote.changes.printed⟩

/-- An argument is laid ready. -/
theorem exists_param (valid : Implements e.function e.graph e.live e.layout) {index : Nat} {arg : Var}
    (at_ : e.graph.At origin b (.param index arg :: rest))
    (inside : e.Inside out b (.param index arg :: rest) a code m)
    (codeAt : CodeAt e.function e.graph e.live e.layout b rest later)
    (lowered : e.layout.lower (liveFrom (e.live.after e.graph b.label) rest) (.param index arg) =
      .ok instrs)
    (read : ∀ o, e.layout.source arg = .ok o → m.get o = some (.word w)) :
    ∃ c', e.Steps (e.within (instrs ++ later) m) c' ∧
      e.Reached out (.within origin b.label rest) { a with staged := a.staged.set index w } c' := by
  obtain ⟨first, last⟩ := valid.staged b at_.mem index arg at_.mem_body
  obtain ⟨m', done, value, changes⟩ :=
    Layout.executes_param valid.sound inside.held.toStands lowered first last read
  have home : ∀ l, e.layout.Has l → ¬ ((l.cell e.base).Scratch ∨ l.cell e.base =
      .stack (Frame.address e.base (e.layout.frame.argumentSlot index))) := by
    rintro l has (scratch | same)
    · exact Layout.not_scratch_cell has scratch
    · cases l with
      | register r => cases same
      | slot n =>
        have lt : n < e.layout.frame.spills := has
        have := Frame.address_inj.1 (Cell.stack.inj same)
        simp only [Frame.argumentSlot] at this
        omega
  have holds : e.layout.Holds e.base (· ∈ liveFrom (e.live.after e.graph b.label) rest)
      { a with staged := a.staged.set index w } m' := by
    refine ⟨inside.holds.homes.pass rfl fun t _ l stored => Layout.word?_congr (changes.kept _ (home l
      (valid.sound.homes t l stored))), fun k w' hk => ?_, ?_⟩
    · rw [Store.get?_set] at hk
      by_cases same : k = index
      · subst same
        rw [if_pos rfl] at hk
        exact ⟨first, last, Option.some.inj hk ▸ value⟩
      · rw [if_neg same] at hk
        obtain ⟨first', last', value'⟩ := inside.holds.staged k w' hk
        refine ⟨first', last', (changes.stack ?_).trans value'⟩
        rintro (⟨r, -, same'⟩ | same')
        · cases same'
        · exact same ((Layout.argumentSlot_inj first' first).1
            (Frame.address_inj.1 (Cell.stack.inj same')))
    · refine (funext fun name => changes.data ?_).trans inside.holds.data
      rintro (⟨r, -, same⟩ | same) <;> cases same
  refine ⟨_, steps_of_applyAll done, reached_next at_ rfl inside codeAt
    (fun c hc => changes.kept c ?_) holds changes.printed⟩
  rintro (scratch | rfl)
  · exact hc (Layout.own_scratch scratch)
  · exact hc (Layout.own_argument index)

/-- The machine goes along an edge. -/
theorem exists_jump (valid : Implements e.function e.graph e.live e.layout) {target : Label}
    (at_ : e.graph.At origin b (i :: rest)) (goes : i.target? = some target)
    (inside : e.Inside out b (i :: rest) a code m) {moves : List Move}
    (edge : e.graph.edgeMoves e.layout (.block b.label) target = .ok moves)
    (held : e.layout.Held e.base e.state m')
    (changes : Changes m m' Cell.Scratch) {tail : List Target.Instr}
    (jumps : ∀ m code, e.function.codeFrom? (e.layout.blockName target) = some code →
      e.Steps (e.within tail m) (e.within code m)) :
    ∃ c', e.Steps (e.within (moveAll moves ++ tail) m') c' ∧
      e.Reached out (.enter (.block b.label) target) a c' := by
  obtain rfl := at_.rest_nil valid.wf (Instr.isTransfer_of_target goes)
  obtain ⟨last, mem⟩ := at_.target valid.wf goes
  obtain ⟨b', hb', rfl⟩ := FlowGraph.mem_labels.1 mem
  have undefined : i.def? = none := by
    cases i <;> simp_all [Instr.target?, Instr.def?, Instr.dest?]
  refine exists_enter valid hb' (at_.jump valid.wf goes) edge held (holds_edge valid at_.mem
    (Block.mem_succs.2 (.inl last)) (fun j hj => ?_) (inside.holds.of_scratch changes))
    (changes.printed.trans inside.printed) jumps
  rw [List.mem_singleton.1 hj]
  exact undefined

/-- The machine jumps. -/
theorem comes_jump (valid : Implements e.function e.graph e.live e.layout) {target : Label}
    (at_ : e.graph.At origin b (.jump target :: rest))
    (inside : e.Inside out b (.jump target :: rest) a code m) :
    e.Comes out ((Control.ofGraph e.graph).goto (.within origin b.label rest) a target)
      (e.within code m) := by
  obtain ⟨n, here, later, lowered, -, -, rfl⟩ := inside.code.cons
  obtain ⟨moves, edge, rfl⟩ := FlowGraph.lowerInstr_jump lowered
  rw [Code.instrs_straight, List.append_assoc]
  exact .goto (exists_jump valid at_ rfl inside edge inside.held (.refl m _)
    fun m code named => .single (step?_jmp named))

/-- The machine branches. -/
theorem comes_branch (valid : Implements e.function e.graph e.live e.layout) {test : Test} {arg : Var}
    {target : Label} (at_ : e.graph.At origin b (.branch test arg target :: rest))
    (inside : e.Inside out b (.branch test arg target :: rest) a code m)
    (read : (Control.ofGraph e.graph).read .strict a arg = .ok w) :
    e.Comes out (if test.holds w then (Control.ofGraph e.graph).goto (.within origin b.label rest) a target
      else .going (.within origin b.label rest) a) (e.within code m) := by
  obtain ⟨n, here, later, lowered, detours, codeAt, rfl⟩ := inside.code.cons
  obtain ⟨src, moves, source, edge, shape⟩ := FlowGraph.lowerInstr_branch lowered
  obtain ⟨value, steady⟩ := inside.read valid List.mem_cons_self read src source
  obtain ⟨m₁, compared, flags, changes⟩ := executes_compareCode value steady
  have held : e.layout.Held e.base e.state m₁ :=
    inside.held.of_changes changes fun c => Layout.own_scratch
  -- the branch goes to a name whose code comes to the block
  have branch : ∀ (name : String) (there : List Target.Instr),
      e.function.codeFrom? name = some there →
      (∃ c', e.Steps (e.within there m₁) c' ∧ e.Reached out (.enter (.block b.label) target) a c') →
      e.Comes out (if test.holds w then
          (Control.ofGraph e.graph).goto (.within origin b.label rest) a target
        else .going (.within origin b.label rest) a)
        (e.within (FlowGraph.compareCode src ++ [.jcc (.ofTest test) name] ++ later) m) := by
    intro name there named ⟨c', steps, reached⟩
    have jcc : Config.step? e.functions e.litter (e.within (.jcc (.ofTest test) name :: later) m₁) =
        some (e.within (if (Condition.ofTest test).holds (.compare w 0) then there else later) m₁) :=
      step?_jcc flags named
    rw [Condition.holds_ofTest] at jcc
    rw [List.append_assoc]
    have first := Relation.ReflTransGen.tail (steps_of_applyAll compared) jcc
    split
    · next taken =>
      rw [if_pos taken] at first
      exact .goto ⟨c', .trans first steps, reached⟩
    · next falls =>
      rw [if_neg falls] at first
      exact ⟨_, first, reached_next at_ rfl inside codeAt
        (fun c hc => changes.kept c fun scratch => hc (Layout.own_scratch scratch))
        ((inside.holds.of_scratch changes).pass rfl) changes.printed⟩
  rcases shape with ⟨rfl, rfl⟩ | rfl
  · obtain ⟨-, mem⟩ := at_.target valid.wf rfl
    obtain ⟨b', hb', rfl⟩ := FlowGraph.mem_labels.1 mem
    obtain ⟨there, named, -⟩ := valid.blocks b' hb'
    refine branch _ _ named (exists_jump valid at_ rfl inside edge held changes fun m code found => ?_)
    obtain rfl := Option.some.inj (named.symm.trans found)
    exact .refl _
  · obtain ⟨more, named⟩ := detours _ (List.mem_singleton.2 rfl)
    refine branch _ _ named ?_
    obtain ⟨c', steps, reached⟩ : ∃ c', e.Steps (e.within (moveAll moves ++
          .jmp (e.layout.blockName target) :: more) m₁) c' ∧
        e.Reached out (.enter (.block b.label) target) a c' :=
      exists_jump valid at_ rfl inside edge held changes fun m code found => .single (step?_jmp found)
    have code : Detour.code ⟨e.layout.detourName n, moves, e.layout.blockName target⟩ ++ more =
        .label (e.layout.detourName n) ::
          (moveAll moves ++ .jmp (e.layout.blockName target) :: more) := by simp [Detour.code]
    rw [code]
    exact ⟨c', .head (step?_of_apply (Machine.apply_label ..)) steps, reached⟩

/-- The machine calls. -/
theorem comes_call (valid : Implements e.function e.graph e.live e.layout) {dest : Var}
    {callee : Global} {args : List Word} (at_ : e.graph.At origin b (.call dest callee args.length :: rest))
    (inside : e.Inside out b (.call dest callee args.length :: rest) a code m)
    (staged : ∀ k w, args[k]? = some w → a.staged.get? (k + 1) = some w) :
    e.Comes out (.asks dest callee args (.within origin b.label rest) { a with staged := Store.empty })
      (e.within code m) := by
  obtain ⟨instrs, later, lowered, codeAt, rfl⟩ := inside.code.cons_of_target? rfl
  intro more w globals answers pos' a' next
  have few : args.length ≤ e.layout.frame.arguments := by
    cases last : args.getLast? with
    | none => simp [List.getLast?_eq_none_iff.1 last]
    | some w' =>
      rw [List.getLast?_eq_getElem?] at last
      have bound := (List.getElem?_eq_some_iff.1 last).1
      have := (inside.holds.staged _ _ (staged _ _ last)).2.1
      omega
  have writable : ∀ x, dest = .global x → ∃ old, globals.get? x = some old := by
    rintro x rfl
    cases found : globals.get? x with
    | some old => exact ⟨old, rfl⟩
    | none => simp [Keeping.write, found, Stage.next?] at next
  obtain ⟨dst, m₁, m', destination, steps, resumes, wrote⟩ := Layout.steps_call e.function
    later valid.housed valid.sound inside.held.toStands lowered answers few
    (fun k w hk => (inside.holds.staged _ _ (staged k w hk)).2.2) inside.holds.data writable
  obtain ⟨front, split⟩ := at_.front
  obtain ⟨rfl, holds⟩ := inside.holds.resumed valid.housed valid.sound at_.mem split rfl rfl destination
    resumes wrote next
  refine ⟨_, steps, reached_behind more at_ rfl inside codeAt (fun c hc => ?_) holds
    (wrote.changes.printed.trans resumes.printed)⟩
  rw [wrote.changes.kept c fun hc' => hc (Layout.Wrote.own valid.sound hc'), resumes.others c hc]

/-- The machine prints. -/
theorem comes_print (valid : Implements e.function e.graph e.live e.layout)
    (missing : e.functions.find? (fun f => f.name == Global.printWord.name) = none) {arg : Var}
    (at_ : e.graph.At origin b (.print arg :: rest))
    (inside : e.Inside out b (.print arg :: rest) a code m)
    (read : (Control.ofGraph e.graph).read .strict a arg = .ok w) :
    e.Comes out (.prints (.word w) (.within origin b.label rest) a) (e.within code m) := by
  obtain ⟨instrs, later, lowered, codeAt, rfl⟩ := inside.code.cons_of_target? rfl
  have answers : Answers e.functions e.litter .printWord [w] a.globals [.word w] 0 a.globals :=
    answers_builtIn (.inl rfl) missing w a.globals
  obtain ⟨m', steps, resumes⟩ := Layout.steps_print e.function later valid.sound
    inside.held.toStands lowered answers inside.holds.data fun m₁ registers changes o source => by
      have stands := inside.held.toStands.of_changes changes (by simp [Layout.SaveCells])
        (by simp [Layout.SaveCells])
      have holds := inside.holds.of_changes changes (fun _ has => Layout.not_saveCells_home has)
        Layout.not_saveCells_argument (by simp [Layout.SaveCells])
      exact (holds.read valid.sound stands
        (fun t ht => mem_liveBefore.2 (.inl (List.mem_filterMap.2 ⟨arg, List.mem_cons_self, ht⟩)))
        source read).1
  exact ⟨_, steps, reached_behind _ at_ rfl inside codeAt (fun c hc => resumes.others c hc)
    (inside.holds.printed valid.sound rfl resumes) resumes.printed⟩

/-- The machine does nothing. -/
theorem comes_skip (at_ : e.graph.At origin b (i :: rest)) (falls : i.fallsThrough = true)
    (stays : i.target? = none) (undefined : i.def? = none)
    (inside : e.Inside out b (i :: rest) a code m)
    (skips : e.layout.lower (liveFrom (e.live.after e.graph b.label) rest) i = .ok []) :
    e.Comes out (.going (.within origin b.label rest) a) (e.within code m) := by
  obtain ⟨instrs, later, lowered, codeAt, rfl⟩ := inside.code.cons_of_target? stays
  obtain rfl := Except.ok.inj (skips.symm.trans lowered)
  exact ⟨_, .refl _, reached_next at_ falls inside codeAt (fun _ _ => rfl)
    (inside.holds.pass undefined) rfl⟩

/-- An instruction is executed. -/
theorem comes_perform (valid : Implements e.function e.graph e.live e.layout)
    (back : e.state.stack (e.base + 8) = .back e.place)
    (missing : e.functions.find? (fun f => f.name == Global.printWord.name) = none)
    (at_ : e.graph.At origin b (i :: rest)) (inside : e.Inside out b (i :: rest) a code m) :
    e.Comes out ((Control.ofGraph e.graph).perform .strict (.within origin b.label rest) a i)
      (e.within code m) := by
  have stands := inside.held.toStands
  cases i with
  | nop => exact comes_skip at_ rfl rfl rfl inside rfl
  | label l => exact comes_skip at_ rfl rfl rfl inside rfl
  | phi d args => cases valid.first b at_.mem _ at_.mem_code
  | jump target => exact comes_jump valid at_ inside
  | branch test arg target => exact .reading fun w read => comes_branch valid at_ inside read
  | binary op dest lhs rhs =>
    obtain ⟨instrs, later, lowered, codeAt, rfl⟩ := inside.code.cons_of_target? rfl
    refine .reading fun u readl => .reading fun v readr => ?_
    cases value : op.eval? u v with
    | none => trivial
    | some w =>
      refine .write fun pos' a' next => exists_wrote valid at_ rfl inside codeAt next fun writable => ?_
      exact Layout.executes_binary valid.housed valid.sound stands lowered writable
        (inside.read valid (by simp [Instr.operands]) readl)
        (inside.read valid (by simp [Instr.operands]) readr) value
  | unary op dest arg =>
    obtain ⟨instrs, later, lowered, codeAt, rfl⟩ := inside.code.cons_of_target? rfl
    refine .reading fun w read => .write fun pos' a' next =>
      exists_wrote valid at_ rfl inside codeAt next fun writable => ?_
    exact Layout.executes_unary valid.housed valid.sound stands lowered writable fun o source =>
      (inside.read valid (by simp [Instr.operands]) read o source).1
  | const dest value =>
    obtain ⟨instrs, later, lowered, codeAt, rfl⟩ := inside.code.cons_of_target? rfl
    refine .write fun pos' a' next => exists_wrote valid at_ rfl inside codeAt next fun writable => ?_
    exact Layout.executes_const valid.housed valid.sound stands lowered writable
  | copy dest src =>
    obtain ⟨instrs, later, lowered, codeAt, rfl⟩ := inside.code.cons_of_target? rfl
    refine .reading fun w read => .write fun pos' a' next =>
      exists_wrote valid at_ rfl inside codeAt next fun writable => ?_
    exact Layout.executes_copy valid.housed valid.sound stands lowered writable fun o source =>
      (inside.read valid (by simp [Instr.operands]) read o source).1
  | param index arg =>
    obtain ⟨instrs, later, lowered, codeAt, rfl⟩ := inside.code.cons_of_target? rfl
    refine .reading fun w read => exists_param valid at_ inside codeAt lowered fun o source => ?_
    exact (inside.read valid (by simp [Instr.operands]) read o source).1
  | call dest callee argc =>
    rw [Control.perform]
    cases gathered : gather a.staged callee 1 argc with
    | error f => trivial
    | ok args =>
      obtain ⟨rfl, staged⟩ := gather_eq_ok gathered
      exact comes_call valid at_ inside fun k w hk => Nat.add_comm 1 k ▸ staged k w hk
  | ret arg =>
    obtain ⟨instrs, later, lowered, -, rfl⟩ := inside.code.cons_of_target? rfl
    obtain ⟨src, source, rfl⟩ := Layout.lower_ret lowered
    refine .reading fun w read => exists_leave valid back inside.held inside.holds.data inside.printed
      (inside.read valid (by simp [Instr.operands]) read src source).1 later
  | print arg => exact .reading fun w read => comes_print valid missing at_ inside read

/-- One step of an activation is carried over. -/
theorem comes_step (valid : Implements e.function e.graph e.live e.layout)
    (back : e.state.stack (e.base + 8) = .back e.place)
    (missing : e.functions.find? (fun f => f.name == Global.printWord.name) = none)
    (h : e.Reached out pos a c) : e.Comes out ((Control.ofGraph e.graph).step .strict pos a) c := by
  match pos, h with
  | .enter origin l, h => exact comes_enter valid h
  | .within origin l [], h => exact comes_end valid back h
  | .within origin l (i :: rest), h =>
    obtain ⟨b, code, m, rfl, rfl, at_, inside⟩ := h
    rw [ofGraph_step_plain (valid.first b at_.mem i at_.mem_code)]
    exact comes_perform valid back missing at_ inside

/-! ## Runs of an activation -/

/-- The calls that the code of a program answers. -/
def Answered (functions : List Function) (litter : Litter) (callee : Global) (args : List Word)
    (globals : Store Global) (out : List Printed) (r : Result) : Prop :=
  ∀ w globals', r = .ok (w, globals') → Answers functions litter callee args globals out w globals'

/-- What an activation prints and returns, the machine prints and returns. -/
theorem returns_of_yields (valid : Implements e.function e.graph e.live e.layout)
    (back : e.state.stack (e.base + 8) = .back e.place)
    (missing : e.functions.find? (fun f => f.name == Global.printWord.name) = none)
    {x : Stage Point (Temp → Option Word)} {t : List Effect} {r : Result}
    (h : (Control.ofGraph e.graph).Yields .strict x t r) {globals : Store Global}
    (result : r = .ok (w, globals))
    (heard : Heard (Answered e.functions e.litter) t more) (comes : e.Comes out x c) :
    ∃ m', e.Steps c ⟨e.place, m'⟩ ∧ Returns (e.base + 16) (out ++ more) w globals e.state m' := by
  induction h generalizing out more c with
  | ends =>
    obtain rfl : more = [] := heard
    subst result
    rw [List.append_nil]
    exact comes
  | going _ ih =>
    obtain ⟨c', steps, reached⟩ := comes
    exact (ih result heard (comes_step valid back missing reached)).imp
      fun m' h => ⟨.trans steps h.1, h.2⟩
  | writes _ ih =>
    obtain ⟨c', steps, reached⟩ := comes
    exact (ih result heard (comes_step valid back missing reached)).imp
      fun m' h => ⟨.trans steps h.1, h.2⟩
  | prints _ ih =>
    obtain ⟨c', steps, reached⟩ := comes
    obtain ⟨rest, rfl, heard⟩ := heard
    rw [List.append_cons]
    exact (ih result heard (comes_step valid back missing reached)).imp
      fun m' h => ⟨.trans steps h.1, h.2⟩
  | answered _ ih =>
    obtain ⟨first, rest, rfl, answered, heard⟩ := heard
    rw [← List.append_assoc]
    exact ih result heard (.write fun pos' a' next => comes _ _ _ (answered _ _ rfl) pos' a' next)
  | failed => cases result

end Entrance

/-! ## Functions -/

/-- A function prints and returns what its procedure does, if the calls in it are answered. -/
theorem Implements.serves {f : Function} {g : FlowGraph} {live : Liveness} {layout : Layout}
    (valid : Implements f g live layout) {functions : List Function} {litter : Litter}
    (missing : functions.find? (fun f => f.name == Global.printWord.name) = none) {args : List Word}
    (length : g.params.length = args.length) {globals globals' : Store Global} {t : List Effect}
    {w : Word} {out : List Printed}
    (runs : g.Runs .strict (.enter .strict (fun _ => none) g.params args globals) t (.ok (w, globals')))
    (heard : Heard (Entrance.Answered functions litter) t out) :
    Serves functions litter f args globals out w globals' := by
  intro top place m passes rsp back
  let e : Entrance := ⟨functions, litter, f, g, live, layout, top - 16, m, place⟩
  obtain ⟨l, entry⟩ := valid.wf.exists_entry
  obtain ⟨b, hb, rfl⟩ := FlowGraph.mem_labels.1 (FlowGraph.Arrives.entry entry).1
  obtain ⟨entering, entered, starts⟩ := valid.entry
  obtain ⟨code, named, instrs⟩ := starts _ entry
  obtain ⟨code', named', codeAt⟩ := valid.blocks b hb
  obtain rfl := Option.some.inj (named.symm.trans named')
  have base : top - 16 + 16 = top := by omega
  have above : top - 16 + 8 = top - 8 := by omega
  have aligned : (top - 16) % 16 = 0 := by
    have := passes.aligned
    omega
  obtain ⟨m₁, applied, held, holds, printed⟩ := Layout.executes_enter valid.wf valid.solved
    valid.housed valid.named (valid.once b hb) valid.sound valid.params hb entry length aligned
    (base.symm ▸ passes) (above.symm ▸ rsp) entered
  have reached : e.Reached [] (.enter .entry b.label)
      (.enter .strict (fun _ => none) g.params args globals) (e.within code' m₁) :=
    ⟨b, code', m₁, rfl, rfl, hb, .entry entry, codeAt, held, holds, by simp [printed, e]⟩
  have steps : e.Steps ⟨some ⟨f, f.instrs⟩, m⟩ (e.within code' m₁) := by
    rw [instrs]
    exact .tail (steps_of_applyAll applied) (step?_of_apply (Machine.apply_label ..))
  have returns := Entrance.returns_of_yields (e := e) valid (above.symm ▸ back) missing
    ((FlowGraph.runs_iff_yields entry).1 runs) rfl heard ⟨_, steps, reached⟩
  exact base ▸ returns

end ThreeAddress
