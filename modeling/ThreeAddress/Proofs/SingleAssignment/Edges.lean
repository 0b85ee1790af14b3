import ThreeAddress.Proofs.FlowGraph.Rebuilt
import ThreeAddress.Proofs.SingleAssignment.Passes
/-!
# Passes keep the edges

The edges of a graph are those that were there when it was built, whatever passes are made over it,
since no pass adds, drops or moves a transfer of control. It does not matter for that where the phis
of a procedure stand.

* `FlowGraph.minimize_of_prune` : what pruning keeps, and turning phis into copies, the removal of
  redundant phis keeps;
* `FlowGraph.SameExits` : graphs whose blocks are left in the same ways;
* `SameExits.prune`, `SameExits.minimize`, `SameExits.convert` : each pass keeps that.
-/

namespace ThreeAddress

/-! ## The removal of redundant phis -/

namespace FlowGraph

theorem pruned_dropNullChoices (g : FlowGraph) : g.Pruned g.dropNullChoices := by
  refine ⟨_, fun b _ => .filter fun i _ dropped => ?_, rfl⟩
  cases i with
  | phi => rfl
  | _ => cases dropped

end FlowGraph

/-- Taking a copy out of code prunes it. -/
theorem Prunes.takeCopy {dest : Temp} {code left : List Instr} {src? : Option Temp}
    (h : takeCopy dest code = some (src?, left)) : Prunes code left := by
  obtain ⟨front, src, back, rfl, rfl, -⟩ := exists_of_takeCopy h
  exact (Prunes.refl front).append (.drop rfl (.refl back))

namespace FlowGraph

variable {g : FlowGraph}

section Kept

variable {P : FlowGraph → Prop} (wf : ∀ g, P g → g.WellFormed)
  (prune : ∀ g g', P g → g.Pruned g' → P g')

include wf prune

/-- Undoing a copy prunes a graph, and then gives other names to what it reads. -/
theorem undoCopy_of_prune (h : P g) (l : Label) (dest : Temp) : P (g.undoCopy l dest) := by
  have nodup := (wf g h).nodup
  rw [FlowGraph.undoCopy]
  split
  · exact h
  · next src? body found =>
    obtain ⟨b, hb, taken⟩ := Option.bind_eq_some_iff.1 found
    obtain ⟨mem, rfl⟩ := (block?_eq_some nodup).1 hb
    have removed : P (g.mapBodies fun c => if c.label = b.label then body else c.body) := by
      refine prune _ _ h ⟨_, fun c hc => ?_, rfl⟩
      by_cases label : c.label = b.label
      · obtain rfl := eq_of_label nodup mem hc label
        rw [if_pos rfl]
        exact .takeCopy taken
      · rw [if_neg label]
        exact .refl c.body
    split
    · exact removed
    · split
      · exact removed
      · exact prune _ _ removed ⟨_, fun _ _ => .map (Instr.sameShape_mapReads _), rfl⟩

theorem undoCopies_of_prune (h : P g) (copies : List (Label × Temp)) : P (g.undoCopies copies) := by
  induction copies generalizing g with
  | nil => exact h
  | cons copy copies ih => exact ih (undoCopy_of_prune wf prune h copy.1 copy.2)

/-- What pruning keeps, and turning phis into copies, the removal of redundant phis keeps. -/
theorem minimize_of_prune (collapse : ∀ g, P g → P g.collapse) (h : P g) : P g.minimize.graph := by
  refine of_minimize (fun g h => ?_) h
  exact undoCopies_of_prune wf prune (collapse _ (prune _ _ h g.pruned_dropNullChoices)) _

end Kept

end FlowGraph

/-! ## Phis as copies -/

theorem Block.exits_collapse (b : Block) :
    b.collapse.filterMap Instr.exit? = b.body.filterMap Instr.exit? := by
  have phis : (b.phis.filter fun i => i.singleSource?.isNone).filterMap Instr.exit? = [] := by
    refine List.filterMap_eq_nil_iff.2 fun i hi => ?_
    rw [Instr.exit?, Instr.isTransfer_of_isPhi (isPhi_of_mem_phis (List.mem_filter.1 hi).1)]
    rfl
  have copies : (b.phis.filterMap fun i => i.singleSource?.map fun (e : Temp × Temp) =>
      Instr.copy (.temp e.1) (.temp e.2)).filterMap Instr.exit? = [] := by
    refine List.filterMap_eq_nil_iff.2 fun i hi => ?_
    obtain ⟨j, -, made⟩ := List.mem_filterMap.1 hi
    obtain ⟨e, -, rfl⟩ := Option.map_eq_some_iff.1 made
    rfl
  rw [b.exits_code, collapse, List.filterMap_append, List.filterMap_append, phis]
  rw [List.nil_append]
  exact congrArg (· ++ b.code.filterMap Instr.exit?) copies

theorem Block.straight_collapse {b : Block} (straight : Straight b.body) : Straight b.collapse := by
  rw [← b.phis_append_code] at straight
  refine straight.append.2.prepend fun i hi => ?_
  rcases List.mem_append.1 hi with phi | copy
  · have phi := isPhi_of_mem_phis (List.mem_filter.1 phi).1
    exact ⟨Instr.isTransfer_of_isPhi phi, Instr.ne_label_of_isPhi phi⟩
  · obtain ⟨j, -, made⟩ := List.mem_filterMap.1 copy
    obtain ⟨e, -, rfl⟩ := Option.map_eq_some_iff.1 made
    exact ⟨rfl, fun l same => by cases same⟩

namespace FlowGraph

variable {g g' g'' : FlowGraph}

/-! ## The same exits -/

/-- The second graph has code of its own, but its blocks are left as those of the first are. -/
structure SameExits (g g' : FlowGraph) : Prop where
  wellFormed : g'.WellFormed
  exits : g'.blocks.map Block.exit = g.blocks.map Block.exit

namespace SameExits

/-- Other straight code that transfers control as before keeps that. -/
theorem recode (h : g.SameExits g') (labels : g''.labels = g'.labels)
    (each : ∀ b'' ∈ g''.blocks, ∃ b ∈ g'.blocks, b''.label = b.label ∧ Straight b''.body ∧
      b''.body.filterMap Instr.exit? = b.body.filterMap Instr.exit?) : g.SameExits g'' := by
  have exit : ∀ b ∈ g'.blocks, ∀ b'' ∈ g''.blocks, b''.label = b.label → b''.exit = b.exit := by
    intro b hb b'' hb'' label
    obtain ⟨c, hc, label', straight, same⟩ := each b'' hb''
    obtain rfl := eq_of_label h.wellFormed.nodup hb hc (label'.symm.trans label)
    exact Block.exit_congr (h.wellFormed.straight c hc) straight label same
  refine ⟨⟨fun none => h.wellFormed.nonempty ?_, labels ▸ h.wellFormed.nodup, fun b'' hb'' => ?_,
    fun b'' hb'' l target => ?_⟩, (map_eq_of_labels labels exit).trans h.exits⟩
  · rw [FlowGraph.labels, none, FlowGraph.labels] at labels
    exact List.map_eq_nil_iff.1 labels.symm
  · obtain ⟨b, -, -, straight, -⟩ := each b'' hb''
    exact straight
  · obtain ⟨b, hb, label, -, -⟩ := each b'' hb''
    have same : b''.target? = b.target? := congrArg (fun e => e.2.1) (exit b hb b'' hb'' label)
    exact labels ▸ h.wellFormed.targets b hb l (same ▸ target)

theorem mapBodies (h : g.SameExits g') {f : Block → List Instr}
    (each : ∀ b ∈ g'.blocks, Straight (f b) ∧
      (f b).filterMap Instr.exit? = b.body.filterMap Instr.exit?) :
    g.SameExits (g'.mapBodies f) := by
  refine h.recode (labels_mapBodies f g') fun b' hb' => ?_
  obtain ⟨b, hb, rfl⟩ := mem_mapBodies.1 hb'
  exact ⟨b, hb, rfl, each b hb⟩

theorem prune (h : g.SameExits g') (pruned : g'.Pruned g'') : g.SameExits g'' := by
  obtain ⟨f, prunes, rfl⟩ := pruned
  exact h.mapBodies fun b hb =>
    ⟨(prunes b hb).straight (h.wellFormed.straight b hb), (prunes b hb).exits⟩

theorem minimize (h : g.SameExits g') : g.SameExits g'.minimize.graph :=
  minimize_of_prune (fun _ h => h.wellFormed) (fun _ _ h => h.prune)
    (fun _ h => h.mapBodies fun b hb =>
      ⟨Block.straight_collapse (h.wellFormed.straight b hb), b.exits_collapse⟩) h

/-- The phis that a conversion puts in do not transfer control. -/
theorem convert (h : g.SameExits g') (names : FreshNames) :
    ∃ c, g'.convert names = .ok c ∧ g.SameExits c.graph := by
  obtain ⟨c, converted, labels, live, root, rs, renamed⟩ :=
    exists_renamed_conversion h.wellFormed names
  refine ⟨c, converted, h.recode labels fun b' hb' => ?_⟩
  obtain ⟨b, hb, r, from_, rfl⟩ := renamed b' hb'
  have straight := from_.code.straight (h.wellFormed.straight b hb)
  refine ⟨b, hb, from_.label, straight.prepend fun i hi => ?_, ?_⟩
  · obtain ⟨e, -, rfl⟩ := List.mem_map.1 hi
    exact ⟨rfl, fun l same => by cases same⟩
  · rw [← from_.code.exits]
    refine (List.filterMap_append).trans ?_
    rw [List.filterMap_eq_nil_iff.2 fun i hi => ?_, List.nil_append]
    obtain ⟨e, -, rfl⟩ := List.mem_map.1 hi
    rfl

end SameExits

end FlowGraph

end ThreeAddress
