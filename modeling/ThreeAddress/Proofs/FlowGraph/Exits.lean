import ThreeAddress.Proofs.FlowGraph.Shape
/-!
# How control leaves blocks

The edges of a graph hang on the labels of its blocks and on the transfers of control in them. What
keeps these keeps the edges, whatever else it does to the code.

* `Instr.exit?` : what an instruction does to control, if it transfers it;
* `Straight.getLast?_bind_target?`, `Straight.getLast?_all_fallsThrough` : what a block does to
  control can be told from its transfers alone;
* `FlowGraph.preds_of_exits`, `FlowGraph.succs_of_exits` : graphs with the same exits have the same
  edges.
-/

namespace ThreeAddress

/-- Where a transfer of control may go: to a label, and behind the instruction. -/
def Instr.exit? (i : Instr) : Option (Option Label × Bool) :=
  if i.isTransfer then some (i.target?, i.fallsThrough) else none

theorem Instr.target?_of_exit?_eq_none {i : Instr} (h : i.exit? = none) :
    i.target? = none ∧ i.fallsThrough = true := by
  cases i <;> simp_all [exit?, isTransfer, target?, fallsThrough]

/-- Control leaves straight code at its transfer, if it has one. -/
theorem Straight.exits_eq {code : List Instr} (h : Straight code) :
    code.filterMap Instr.exit? = (code.getLast?.bind Instr.exit?).toList := by
  induction code with
  | nil => rfl
  | cons i rest ih =>
    obtain ⟨ends, -, straight⟩ := h
    cases rest with
    | nil => cases exit : i.exit? <;> simp [exit]
    | cons j rest =>
      have stays : i.exit? = none := by
        cases transfer : i.isTransfer with
        | true => cases ends transfer
        | false => simp [Instr.exit?, transfer]
      rw [List.filterMap_cons_none stays, ih straight, List.getLast?_cons_cons]

/-- The target of straight code is that of its transfer. -/
theorem Straight.target?_eq {code : List Instr} (h : Straight code) :
    code.getLast?.bind Instr.target? = (code.filterMap Instr.exit?).head?.bind Prod.fst := by
  rw [h.exits_eq]
  cases code.getLast? with
  | none => rfl
  | some i =>
    cases exit : i.exit? with
    | none => simp [exit, (Instr.target?_of_exit?_eq_none exit).1]
    | some e =>
      simp only [Option.bind_some, exit, Option.toList_some, List.head?_cons]
      simp only [Instr.exit?, Option.ite_none_right_eq_some, Option.some.injEq] at exit
      rw [← exit.2]

/-- Control runs past straight code unless its transfer prevents it. -/
theorem Straight.fallsThrough_eq {code : List Instr} (h : Straight code) :
    code.getLast?.all Instr.fallsThrough = (code.filterMap Instr.exit?).head?.all Prod.snd := by
  rw [h.exits_eq]
  cases code.getLast? with
  | none => rfl
  | some i =>
    cases exit : i.exit? with
    | none => simp [exit, (Instr.target?_of_exit?_eq_none exit).2]
    | some e =>
      simp only [Option.bind_some, exit, Option.toList_some, List.head?_cons]
      simp only [Instr.exit?, Option.ite_none_right_eq_some, Option.some.injEq] at exit
      rw [← exit.2]
      rfl

/-- What matters of a block for the edges of its graph. -/
def Block.exit (b : Block) : Label × Option Label × Bool := (b.label, b.target?, b.fallsThrough)

/-- Straight blocks with the same label and the same transfers are left in the same way. -/
theorem Block.exit_congr {b b' : Block} (straight : Straight b.body) (straight' : Straight b'.body)
    (label : b'.label = b.label)
    (same : b'.body.filterMap Instr.exit? = b.body.filterMap Instr.exit?) : b'.exit = b.exit := by
  have target : b'.target? = b.target? := by
    rw [target?, target?, straight.target?_eq, straight'.target?_eq, same]
  have falls : b'.fallsThrough = b.fallsThrough := by
    rw [fallsThrough, fallsThrough, straight.fallsThrough_eq, straight'.fallsThrough_eq, same]
  rw [exit, exit, label, target, falls]

/-- Lists of blocks with the same labels are alike if blocks with the same label are. -/
theorem map_eq_of_labels {α : Type} {F G : Block → α} {bs bs' : List Block}
    (labels : bs'.map Block.label = bs.map Block.label)
    (same : ∀ b ∈ bs, ∀ b' ∈ bs', b'.label = b.label → F b' = G b) : bs'.map F = bs.map G := by
  induction bs generalizing bs' with
  | nil =>
    rw [List.map_nil, List.map_eq_nil_iff] at labels
    rw [labels, List.map_nil, List.map_nil]
  | cons b rest ih =>
    cases bs' with
    | nil => cases labels
    | cons b' rest' =>
      obtain ⟨first, others⟩ := List.cons.inj labels
      rw [List.map_cons, List.map_cons, same b List.mem_cons_self b' List.mem_cons_self first,
        ih others fun c hc c' hc' => same c (List.mem_cons_of_mem _ hc) c' (List.mem_cons_of_mem _ hc')]

/-- The edges that leave blocks hang on their exits. -/
theorem withSuccs_of_exits {bs bs' : List Block} (same : bs'.map Block.exit = bs.map Block.exit) :
    (withSuccs bs').map (fun e => (e.1.label, e.2)) = (withSuccs bs).map fun e => (e.1.label, e.2) := by
  induction bs generalizing bs' with
  | nil =>
    rw [List.map_nil, List.map_eq_nil_iff] at same
    rw [same]
  | cons b rest ih =>
    cases bs' with
    | nil => cases same
    | cons b' rest' =>
      obtain ⟨first, others⟩ := List.cons.inj same
      simp only [Block.exit, Prod.mk.injEq] at first
      obtain ⟨label, target, falls⟩ := first
      have next : rest'.head?.map Block.label = rest.head?.map Block.label := by
        have heads := congrArg (fun l => l.head?.map Prod.fst) others
        simpa [Block.exit, Function.comp_def] using heads
      simp only [withSuccs, List.map_cons, ih others, Block.succs, label, target, falls, next]

namespace FlowGraph

variable {g g' : FlowGraph}

theorem preds_eq (g : FlowGraph) (l : Label) : g.preds l =
    ((withSuccs g.blocks).map fun e => (e.1.label, e.2)).filterMap fun e =>
      if l ∈ e.2 then some e.1 else none := by
  rw [preds, List.filterMap_map]
  rfl

/-- Graphs whose blocks are left in the same ways have the same edges. -/
theorem preds_of_exits (same : g'.blocks.map Block.exit = g.blocks.map Block.exit) (l : Label) :
    g'.preds l = g.preds l := by
  rw [preds_eq, preds_eq, withSuccs_of_exits same]

theorem succs_eq_find (g : FlowGraph) (l : Label) : g.succs l =
    (((withSuccs g.blocks).map fun e => (e.1.label, e.2)).find? fun e => e.1 == l).elim []
      Prod.snd := by
  rw [succs, List.find?_map]
  simp only [Function.comp_def]
  cases (withSuccs g.blocks).find? fun e => e.1.label == l <;> rfl

theorem succs_of_exits (same : g'.blocks.map Block.exit = g.blocks.map Block.exit) (l : Label) :
    g'.succs l = g.succs l := by
  rw [succs_eq_find, succs_eq_find, withSuccs_of_exits same]

end FlowGraph

end ThreeAddress
