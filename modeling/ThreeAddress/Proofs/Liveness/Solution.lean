import ThreeAddress.Liveness
import ThreeAddress.Proofs.Sorted
import ThreeAddress.Proofs.FlowGraph.Points
/-!
# What is live

A temporary is live at a point if some path from there reads it before defining it. The live sets
that the rounds end with contain everything that is.

* `FlowGraph.Live` : liveness as paths;
* `Solved` : live sets that agree with each other across all blocks;
* `Solved.mem_of_live` : what is live is in the live set;
* `Solved.zip_instrs` : the live sets around the instructions of a block.
-/

namespace ThreeAddress

/-! ## Members of live sets -/

theorem mem_liveBefore {i : Instr} {after : SortedSet Temp} {t : Temp} :
    t ∈ liveBefore i after ↔ t ∈ i.uses ∨ i.def? ≠ some t ∧ t ∈ after := by
  rw [liveBefore, SortedSet.mem_foldl_insert, SortedSet.mem_foldl_erase, Option.mem_toList]

theorem mem_liveBefore_of_undefined {i : Instr} {after : SortedSet Temp} {t : Temp}
    (undefined : i.def? = none) (ht : t ∈ after) : t ∈ liveBefore i after :=
  mem_liveBefore.2 (.inr ⟨by simp [undefined], ht⟩)

theorem mem_liveBefore_of_ne {i : Instr} {after : SortedSet Temp} {d t : Temp} (hd : i.def? = some d)
    (other : t ≠ d) (ht : t ∈ after) : t ∈ liveBefore i after :=
  mem_liveBefore.2 (.inr ⟨fun same => other (Option.some.inj (hd.symm.trans same)).symm, ht⟩)

/-- What is live before some instructions, from what is live after them. -/
def liveFrom (after : SortedSet Temp) (code : List Instr) : SortedSet Temp :=
  (liveThrough after code).2

@[simp] theorem liveFrom_nil (after : SortedSet Temp) : liveFrom after [] = after := rfl

@[simp] theorem liveFrom_cons (after : SortedSet Temp) (i : Instr) (rest : List Instr) :
    liveFrom after (i :: rest) = liveBefore i (liveFrom after rest) := rfl

theorem liveFrom_append (after : SortedSet Temp) (code rest : List Instr) :
    liveFrom after (code ++ rest) = liveFrom (liveFrom after rest) code := by
  induction code with
  | nil => rfl
  | cons i code ih => rw [List.cons_append, liveFrom_cons, liveFrom_cons, ih]

/-- The instructions, each with the live sets around it. -/
def livePoints (after : SortedSet Temp) (code : List Instr) : List (Instr × InstrLive) :=
  code.zip (liveThrough after code).1

@[simp] theorem livePoints_nil (after : SortedSet Temp) : livePoints after [] = [] := rfl

@[simp] theorem livePoints_cons (after : SortedSet Temp) (i : Instr) (rest : List Instr) :
    livePoints after (i :: rest) =
      (i, ⟨liveFrom after (i :: rest), liveFrom after rest⟩) :: livePoints after rest := rfl

/-- What is live after an instruction is found from the instructions behind it. -/
theorem exists_of_mem_livePoints {after : SortedSet Temp} {code : List Instr} {e : Instr × InstrLive}
    (he : e ∈ livePoints after code) :
    ∃ front rest, code = front ++ e.1 :: rest ∧ e.2.after = liveFrom after rest := by
  induction code with
  | nil => cases he
  | cons i rest ih =>
    rw [livePoints_cons] at he
    rcases List.mem_cons.1 he with rfl | he
    · exact ⟨[], rest, rfl, rfl⟩
    · obtain ⟨front, rest, rfl, same⟩ := ih he
      exact ⟨i :: front, rest, rfl, same⟩

namespace Block

/-- The temporaries that the phis at the head define. -/
def phiDefs (b : Block) : List Temp := b.phis.filterMap Instr.def?

variable {b : Block} {after : SortedSet Temp} {t : Temp}

theorem mem_liveness_before :
    t ∈ (b.liveness after).before ↔ t ∉ b.phiDefs ∧ t ∈ liveFrom after b.code :=
  SortedSet.mem_foldl_erase

theorem mem_phiDefs :
    t ∈ b.phiDefs ↔ ∃ args, .phi t args ∈ b.phis := by
  rw [phiDefs, List.mem_filterMap]
  constructor
  · rintro ⟨i, hi, hd⟩
    have phi := isPhi_of_mem_phis hi
    cases i with
    | phi dest args =>
      cases hd
      exact ⟨args, hi⟩
    | _ => cases phi
  · rintro ⟨args, h⟩
    exact ⟨_, h, rfl⟩

theorem phiDefs_nodup {g : FlowGraph} (once : g.defs.Nodup) (hb : b ∈ g.blocks) : b.phiDefs.Nodup := by
  refine once.sublist (List.Sublist.trans ?_ (FlowGraph.defs_sublist hb))
  exact (List.takeWhile_sublist _).filterMap _

theorem mem_phiArgsFrom {origin : Origin} :
    t ∈ b.phiArgsFrom origin ↔
      ∃ dest args, .phi dest args ∈ b.phis ∧ args.get? origin = some t := by
  rw [phiArgsFrom, List.mem_filterMap]
  constructor
  · rintro ⟨i, hi, h⟩
    cases i with
    | phi dest args => exact ⟨dest, args, hi, h⟩
    | _ => cases h
  · rintro ⟨dest, args, hi, h⟩
    exact ⟨_, hi, h⟩

/-- The live sets around the instructions of a block. -/
theorem zip_instrs :
    b.body.zip (b.liveness after).instrs =
      b.phis.map (fun i => (i, ⟨(b.liveness after).before, liveFrom after b.code⟩)) ++
        livePoints after b.code := by
  have same : ∀ (l : List Instr) (live : InstrLive),
      l.zip (l.map fun _ => live) = l.map fun i => (i, live) := by
    intro l live
    induction l with
    | nil => rfl
    | cons i l ih => rw [List.map_cons, List.zip_cons_cons, ih, List.map_cons]
  have split : b.body.zip (b.liveness after).instrs = (b.phis ++ b.code).zip
      (b.phis.map (fun _ => ⟨(b.liveness after).before, liveFrom after b.code⟩) ++
        (liveThrough after b.code).1) := by
    rw [b.phis_append_code]
    rfl
  rw [split, List.zip_append (by rw [List.length_map]), same]
  rfl

end Block

namespace FlowGraph

variable {g : FlowGraph} {t : Temp}

/-- What is live after a block once one more of its successors is counted. -/
def joinSucc (g : FlowGraph) (table : LiveTable) (l : Label) (live : SortedSet Temp)
    (next : Label) : SortedSet Temp :=
  match g.block? next with
  | some b => (b.phiArgsFrom (.block l)).foldl SortedSet.insert
      (live.union (LiveTable.before table next))
  | none => live.union (LiveTable.before table next)

theorem liveAfter_eq (table : LiveTable) (l : Label) (succs : List Label) :
    g.liveAfter table l succs = succs.foldl (g.joinSucc table l) ∅ := rfl

theorem mem_joinSucc {table : LiveTable} {l next : Label} {live : SortedSet Temp} :
    t ∈ g.joinSucc table l live next ↔ t ∈ live ∨ t ∈ LiveTable.before table next ∨
      ∃ b, g.block? next = some b ∧ t ∈ b.phiArgsFrom (.block l) := by
  rw [joinSucc]
  cases hb : g.block? next with
  | none => simp
  | some b =>
    rw [SortedSet.mem_foldl_insert, SortedSet.mem_union]
    constructor
    · rintro (h | h | h)
      · exact .inr (.inr ⟨b, rfl, h⟩)
      · exact .inl h
      · exact .inr (.inl h)
    · rintro (h | h | ⟨c, hc, h⟩)
      · exact .inr (.inl h)
      · exact .inr (.inr h)
      · cases hc
        exact .inl h

/-- What is live after a block is live before one of its successors, or read by a phi there. -/
theorem mem_liveAfter {table : LiveTable} {l : Label} {succs : List Label} :
    t ∈ g.liveAfter table l succs ↔
      ∃ next ∈ succs, t ∈ LiveTable.before table next ∨
        ∃ b, g.block? next = some b ∧ t ∈ b.phiArgsFrom (.block l) := by
  have all : ∀ live : SortedSet Temp, t ∈ succs.foldl (g.joinSucc table l) live ↔
      t ∈ live ∨ ∃ next ∈ succs, t ∈ LiveTable.before table next ∨
        ∃ b, g.block? next = some b ∧ t ∈ b.phiArgsFrom (.block l) := by
    induction succs with
    | nil => simp
    | cons next rest ih =>
      intro live
      rw [List.foldl_cons, ih, mem_joinSucc]
      simp only [List.mem_cons, exists_eq_or_imp, or_assoc]
  rw [liveAfter_eq, all]
  simp

/-! ## Liveness as paths -/

/-- Some path from a point reads a temporary before defining it. -/
inductive Live (g : FlowGraph) (t : Temp) : Point → Prop where
  /-- The next instruction reads it. -/
  | read {origin : Origin} {l : Label} {i : Instr} {rest : List Instr} (h : t ∈ i.uses) :
      Live g t (.within origin l (i :: rest))
  /-- It is live behind the next instruction. -/
  | pass {origin : Origin} {l : Label} {i : Instr} {rest : List Instr}
      (falls : i.fallsThrough = true) (kept : i.def? ≠ some t)
      (h : Live g t (.within origin l rest)) : Live g t (.within origin l (i :: rest))
  /-- It is live where the next instruction jumps to. -/
  | jump {origin : Origin} {l target : Label} {i : Instr} {rest : List Instr}
      (ht : i.target? = some target) (h : Live g t (.enter (.block l) target)) :
      Live g t (.within origin l (i :: rest))
  /-- It is live at the next block. -/
  | next {origin : Origin} {l next : Label} (hn : g.next? l = some next)
      (h : Live g t (.enter (.block l) next)) : Live g t (.within origin l [])
  /-- A phi of the block reads it. -/
  | arg {origin : Origin} {b : Block} (hb : b ∈ g.blocks) (h : t ∈ b.phiArgsFrom origin) :
      Live g t (.enter origin b.label)
  /-- It is live behind the phis of the block. -/
  | enter {origin : Origin} {b : Block} (hb : b ∈ g.blocks) (kept : t ∉ b.phiDefs)
      (h : Live g t (.within origin b.label b.code)) : Live g t (.enter origin b.label)

/-- Control may be at a point. -/
def Proper (g : FlowGraph) : Point → Prop
  | .enter origin l => g.Arrives origin l
  | .within origin l rest => ∃ b, b.label = l ∧ g.At origin b rest

end FlowGraph

/-! ## Live sets that agree -/

namespace Liveness

/-- What is live after a block. -/
def after (live : Liveness) (g : FlowGraph) (l : Label) : SortedSet Temp :=
  g.liveAfter live.blocks l (g.succs l)

/-- What the live sets say about a point. -/
def Has (live : Liveness) (g : FlowGraph) (t : Temp) : Point → Prop
  | .enter origin l => t ∈ live.before l ∨ ∃ b ∈ g.blocks, b.label = l ∧ t ∈ b.phiArgsFrom origin
  | .within _ l rest => t ∈ liveFrom (live.after g l) rest

/-- What is live at the entry of a successor is live after a block. -/
theorem mem_after {live : Liveness} {g : FlowGraph} {t : Temp} {b : Block} (nodup : g.labels.Nodup)
    (hb : b ∈ g.blocks) {l : Label} (edge : l ∈ b.succs (g.next? b.label))
    (has : live.Has g t (.enter (.block b.label) l)) : t ∈ live.after g b.label := by
  rw [after, FlowGraph.succs_eq nodup hb, FlowGraph.mem_liveAfter]
  refine ⟨l, edge, ?_⟩
  rcases has with before | ⟨c, hc, rfl, arg⟩
  · exact .inl before
  · exact .inr ⟨c, (FlowGraph.block?_eq_some nodup).2 ⟨hc, rfl⟩, arg⟩

end Liveness

/-- The live sets of all blocks agree with each other. -/
structure Solved (g : FlowGraph) (live : Liveness) : Prop where
  blocks : ∀ b ∈ g.blocks, live.blocks.get? b.label = some (b.liveness (live.after g b.label))
  atEntry : live.atEntry = g.liveAtEntry live.blocks

namespace Solved

variable {g : FlowGraph} {live : Liveness} {t : Temp} {b : Block}

theorem mem_before (h : Solved g live) (hb : b ∈ g.blocks) :
    t ∈ live.before b.label ↔ t ∉ b.phiDefs ∧ t ∈ liveFrom (live.after g b.label) b.code := by
  rw [Liveness.before, LiveTable.before, h.blocks b hb]
  exact Block.mem_liveness_before

/-- What is live is in the live sets. -/
theorem mem_of_live (h : Solved g live) (wf : g.WellFormed) {p : Point} (path : g.Live t p) :
    g.Proper p → live.Has g t p := by
  induction path with
  | read use =>
    rintro -
    exact mem_liveBefore.2 (.inl use)
  | pass falls kept _ ih =>
    rintro ⟨b, rfl, at_⟩
    exact mem_liveBefore.2 (.inr ⟨kept, ih ⟨b, rfl, at_.pass falls⟩⟩)
  | @jump origin l target i rest ht _ ih =>
    rintro ⟨b, rfl, at_⟩
    have after := Liveness.mem_after wf.nodup at_.mem (Block.mem_succs.2 (.inl (at_.target wf ht).1))
      (ih (at_.jump wf ht))
    obtain rfl := at_.rest_nil wf (Instr.isTransfer_of_target ht)
    have undefined : i.def? ≠ some t := by
      cases i <;> simp_all [Instr.target?, Instr.def?, Instr.dest?]
    exact mem_liveBefore.2 (.inr ⟨undefined, after⟩)
  | next hn _ ih =>
    rintro ⟨b, rfl, at_⟩
    exact Liveness.mem_after wf.nodup at_.mem (Block.mem_succs.2 (.inr ⟨at_.falls rfl, hn⟩))
      (ih (at_.next wf hn))
  | arg hb arg =>
    rintro -
    exact .inr ⟨_, hb, rfl, arg⟩
  | enter hb kept _ ih =>
    intro arrives
    exact .inl ((h.mem_before hb).2 ⟨kept, ih ⟨_, rfl, .first hb arrives⟩⟩)

/-- What is live at the entry of a procedure. -/
theorem mem_atEntry (h : Solved g live) (nodup : g.labels.Nodup) {l : Label}
    (entry : g.entry? = some l) : t ∈ live.atEntry ↔ live.Has g t (.enter .entry l) := by
  rw [h.atEntry, FlowGraph.liveAtEntry]
  rw [FlowGraph.entry?, FlowGraph.labels] at entry
  cases hb : g.blocks with
  | nil => simp [hb] at entry
  | cons first later =>
    have label : first.label = l := by simpa [hb] using entry
    have mem : first ∈ g.blocks := by simp [hb]
    subst label
    simp only [SortedSet.mem_foldl_insert]
    constructor
    · rintro (arg | before)
      · exact .inr ⟨first, mem, rfl, arg⟩
      · exact .inl before
    · rintro (before | ⟨c, hc, label, arg⟩)
      · exact .inr before
      · obtain rfl := FlowGraph.eq_of_label nodup mem hc label
        exact .inl arg

/-- The live sets around the instructions of a block. -/
theorem zip_instrs (h : Solved g live) (hb : b ∈ g.blocks) :
    b.body.zip (live.instrs b.label) =
      b.phis.map (fun i => (i, ⟨live.before b.label, liveFrom (live.after g b.label) b.code⟩)) ++
        livePoints (live.after g b.label) b.code := by
  have block := h.blocks b hb
  rw [Liveness.instrs, Liveness.before, LiveTable.before, block]
  exact Block.zip_instrs

end Solved

end ThreeAddress
