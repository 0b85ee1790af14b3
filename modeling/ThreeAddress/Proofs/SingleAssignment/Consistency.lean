import ThreeAddress.Proofs.SingleAssignment.Edges
/-!
# Passes keep graphs and their code consistent

A pass gives the blocks of a graph other code. The edges stay what they were when the graph was
built, so the code has to transfer control as it did then, and phis may only name blocks. Passes drop
instructions, rename what is read or defined, turn phis into copies and put phis at the heads of
blocks. None of this touches a transfer of control.

The graph need not be in single-assignment form. It is enough that its phis stand at the heads of
blocks.

* `Block.Fits`, `Block.Recoded` : the code of a block, and other code for it;
* `FlowGraph.Consistent` : what every pass keeps;
* `Consistent.prune`, `Consistent.minimize`, `Consistent.convert` : and that each of them does;
* `FlowGraph.exists_transform` : passes have a result, with the edges of the graph that was built;
* `FlowGraph.build_toProc_of_transform` : after any passes, the graph is that of its text.
-/

namespace ThreeAddress

/-! ## Other code for a block -/

theorem Instr.phiBlocks_eq (i : Instr) : i.phiBlocks = i.phiOrigins.filterMap Origin.label? := by
  cases i <;> rfl

theorem Instr.SameShape.phiBlocks {i i' : Instr} (same : i.SameShape i') :
    i'.phiBlocks = i.phiBlocks := by
  rw [phiBlocks_eq, phiBlocks_eq, same.origins]

/-- A block of a graph with these labels: phis that name blocks, and then straight code without
phis. -/
structure Block.Fits (labels : List Label) (b : Block) : Prop where
  edges : ∀ i ∈ b.phis, ∀ l ∈ i.phiBlocks, l ∈ labels
  plain : ∀ i ∈ b.code, i.isPhi = false
  straight : Straight b.code

/-- The second block is the first one with other code, which transfers control as before. -/
structure Block.Recoded (labels : List Label) (b b' : Block) : Prop extends b'.Fits labels where
  label : b'.label = b.label
  exits : b'.code.filterMap Instr.exit? = b.code.filterMap Instr.exit?

namespace Block.Fits

variable {labels : List Label} {b b' : Block}

/-- The phis at its head do not keep the code from being straight. -/
theorem straight_body (h : b.Fits labels) : Straight b.body := by
  rw [← b.phis_append_code]
  refine h.straight.prepend fun i hi => ?_
  have phi := Block.isPhi_of_mem_phis hi
  exact ⟨Instr.isTransfer_of_isPhi phi, Instr.ne_label_of_isPhi phi⟩

/-- Pruned code is other code. -/
theorem prune (h : b.Fits labels) {code : List Instr} (pruned : Prunes b.body code) :
    b.Recoded labels { b with body := code } := by
  obtain ⟨phis, rest⟩ := pruned.phis_and_code h.plain
  refine ⟨⟨fun i hi l hl => ?_, fun i hi => ?_, rest.straight h.straight⟩, rfl, rest.exits⟩
  · obtain ⟨j, hj, same⟩ := phis.exists_source hi
    exact h.edges j hj l (same.phiBlocks ▸ hl)
  · obtain ⟨j, hj, same⟩ := rest.exists_source hi
    exact same.phi.trans (h.plain j hj)

/-- So is code in which phis are copies behind the other phis. -/
theorem collapse (h : b.Fits labels) : b.Recoded labels { b with body := b.collapse } := by
  obtain ⟨phis, hphis⟩ : ∃ phis, phis = b.phis.filter fun i => i.singleSource?.isNone := ⟨_, rfl⟩
  obtain ⟨copies, hcopies⟩ : ∃ copies, copies = b.phis.filterMap fun i =>
    i.singleSource?.map fun (e : Temp × Temp) => Instr.copy (.temp e.1) (.temp e.2) := ⟨_, rfl⟩
  have body : b.collapse = phis ++ (copies ++ b.code) := by
    rw [Block.collapse, List.append_assoc, hphis, hcopies]
  have kept : ∀ i ∈ phis, i ∈ b.phis := fun i hi => (List.mem_filter.1 (hphis ▸ hi)).1
  have copy : ∀ i ∈ copies, ∃ dest src, i = .copy dest src := by
    intro i hi
    obtain ⟨j, -, made⟩ := List.mem_filterMap.1 (hcopies ▸ hi)
    obtain ⟨e, -, rfl⟩ := Option.map_eq_some_iff.1 made
    exact ⟨_, _, rfl⟩
  have plain : ∀ i ∈ copies ++ b.code, i.isPhi = false := by
    intro i hi
    rcases List.mem_append.1 hi with hi | hi
    · obtain ⟨dest, src, rfl⟩ := copy i hi
      rfl
    · exact h.plain i hi
  obtain ⟨samePhis, sameCode⟩ := Block.phis_and_code (b := { b with body := b.collapse }) body
    (fun i hi => Block.isPhi_of_mem_phis (kept i hi)) plain
  refine ⟨⟨fun i hi => h.edges i (kept i (samePhis ▸ hi)), sameCode ▸ plain, ?_⟩, rfl, ?_⟩
  · rw [sameCode]
    refine h.straight.prepend fun i hi => ?_
    obtain ⟨dest, src, rfl⟩ := copy i hi
    exact ⟨rfl, fun l e => by cases e⟩
  · rw [sameCode, List.filterMap_append, List.filterMap_eq_nil_iff.2, List.nil_append]
    intro i hi
    obtain ⟨dest, src, rfl⟩ := copy i hi
    rfl

end Block.Fits

/-- Control leaves a block with other code as before. -/
theorem Block.Recoded.exits_body {labels : List Label} {b b' : Block} (h : b.Recoded labels b') :
    b'.body.filterMap Instr.exit? = b.body.filterMap Instr.exit? := by
  rw [b'.exits_code, b.exits_code, h.exits]

/-! ## Versions in a block that has phis -/

section Renames

variable {root env last : Temp → Temp} {code code' : List Instr}

/-- Behind the phis at its head, renamed code is the renamed code behind the phis. -/
theorem Renames.exists_code (h : Renames root env code code' last) :
    ∃ mid, Renames root mid (code.dropWhile Instr.isPhi) (code'.dropWhile Instr.isPhi) last := by
  induction h with
  | nil env => exact ⟨env, .nil env⟩
  | @keeps env _ i _ _ hd h ih =>
    simp only [List.dropWhile_cons, Instr.isPhi_mapUses]
    cases i.isPhi with
    | true => exact ih
    | false => exact ⟨env, .keeps hd h⟩
  | @defines env _ i _ _ _ _ hd hn h ih =>
    simp only [List.dropWhile_cons, Instr.isPhi_setDef, Instr.isPhi_mapUses]
    cases i.isPhi with
    | true => exact ih
    | false => exact ⟨env, .defines hd hn h⟩

/-- Renaming makes no phis, and leaves the blocks that they name alone. -/
theorem Renames.forall₂_phiBlocks (h : Renames root env code code' last) :
    List.Forall₂ (fun i i' => i'.isPhi = i.isPhi ∧ i'.phiBlocks = i.phiBlocks) code code' := by
  induction h with
  | nil => exact .nil
  | @keeps _ _ i _ _ _ _ ih => exact .cons ⟨by simp, by cases i <;> rfl⟩ ih
  | @defines _ _ i _ _ _ _ _ _ _ ih => exact .cons ⟨by simp, by cases i <;> rfl⟩ ih

/-- The phis at its head have arguments for the same blocks as before. -/
theorem Renames.exists_phi (h : Renames root env code code' last) {i' : Instr}
    (hi : i' ∈ code'.takeWhile Instr.isPhi) :
    ∃ i ∈ code.takeWhile Instr.isPhi, i'.phiBlocks = i.phiBlocks := by
  have alike := h.forall₂_phiBlocks
  clear h
  induction alike with
  | nil => cases hi
  | @cons i j rest rest' same _ ih =>
    rw [List.takeWhile_cons, same.1] at hi
    rw [List.takeWhile_cons]
    cases phi : i.isPhi with
    | false => simp [phi] at hi
    | true =>
      rw [phi, if_pos rfl] at hi
      rcases List.mem_cons.1 hi with rfl | hi
      · exact ⟨i, List.mem_cons_self, same.2⟩
      · obtain ⟨k, hk, same⟩ := ih hi
        exact ⟨k, List.mem_cons_of_mem _ hk, same⟩

end Renames

section Convert

variable {g : FlowGraph} {live : Liveness} {root : Temp → Temp} {rs : List RenamedBlock}

/-- The phis that a conversion puts in have arguments for blocks that control comes from. -/
theorem mem_preds_of_phiBlocks {l p : Label} {t dest : Temp}
    (hp : p ∈ (Instr.phi dest (g.phiArgs rs l t)).phiBlocks) : p ∈ g.preds l := by
  obtain ⟨origin, key, block⟩ := List.mem_filterMap.1 hp
  obtain ⟨v, arg⟩ := SortedMap.mem_keys.1 key
  rw [FlowGraph.phiArgs] at arg
  rcases List.mem_append.1 (SortedMap.mem_of_get?_ofList arg) with onEdge | onEntry
  · obtain ⟨q, hq, found⟩ := List.mem_filterMap.1 onEdge
    obtain ⟨w, -, same⟩ := Option.map_eq_some_iff.1 found
    cases same
    cases block
    exact hq
  · split at onEntry
    · cases List.mem_singleton.1 onEntry
      cases block
    · cases onEntry

/-- The code that a conversion makes is other code. -/
theorem Block.Fits.toBlock {b : Block} {r : RenamedBlock} (h : b.Fits g.labels)
    (nodup : g.labels.Nodup) (renamed : RenamedFrom live root b r) :
    b.Recoded g.labels (r.toBlock g rs) := by
  obtain ⟨mid, code⟩ := renamed.code.exists_code
  have plain : ∀ i ∈ r.body.dropWhile Instr.isPhi, i.isPhi = false := by
    intro i hi
    obtain ⟨j, hj, -, same, -⟩ := code.exists_source hi
    exact same.trans (h.plain j hj)
  obtain ⟨added, hadded⟩ : ∃ added, added =
    r.phis.map fun e => Instr.phi e.2 (g.phiArgs rs r.label e.1) := ⟨_, rfl⟩
  have phis : ∀ i ∈ added ++ r.body.takeWhile Instr.isPhi, i.isPhi = true := by
    intro i hi
    rcases List.mem_append.1 hi with new | old
    · obtain ⟨e, -, rfl⟩ := List.mem_map.1 (hadded ▸ new)
      rfl
    · exact List.mem_takeWhile_imp old
  have body : (r.toBlock g rs).body =
      (added ++ r.body.takeWhile Instr.isPhi) ++ r.body.dropWhile Instr.isPhi := by
    rw [List.append_assoc, List.takeWhile_append_dropWhile, hadded]
    rfl
  obtain ⟨samePhis, sameCode⟩ := Block.phis_and_code body phis plain
  refine ⟨⟨fun i hi l hl => ?_, sameCode ▸ plain, sameCode ▸ code.straight h.straight⟩,
    renamed.label, sameCode ▸ code.exits⟩
  rw [samePhis] at hi
  rcases List.mem_append.1 hi with new | old
  · obtain ⟨e, -, rfl⟩ := List.mem_map.1 (hadded ▸ new)
    obtain ⟨c, hc, rfl, -⟩ := (FlowGraph.mem_preds nodup).1 (mem_preds_of_phiBlocks hl)
    exact FlowGraph.mem_labels.2 ⟨c, hc, rfl⟩
  · obtain ⟨j, hj, same⟩ := renamed.code.exists_phi old
    exact h.edges j hj l (same ▸ hl)

end Convert

/-! ## What every pass keeps -/

namespace FlowGraph

/-- The code of the second graph goes with the edges of the first one. -/
structure Consistent (g g' : FlowGraph) : Prop where
  wellFormed : g'.WellFormed
  phisFirst : g'.PhisFirst
  edges : g'.EdgesNamed
  exits : g'.blocks.map Block.exit = g.blocks.map Block.exit

variable {g g' g'' : FlowGraph}

namespace Consistent

theorem sameExits (h : g.Consistent g') : g.SameExits g' := ⟨h.wellFormed, h.exits⟩

theorem fits (h : g.Consistent g') {b : Block} (hb : b ∈ g'.blocks) : b.Fits g'.labels where
  edges := h.edges b hb
  plain := h.phisFirst b hb
  straight := by
    have straight := h.wellFormed.straight b hb
    rw [← b.phis_append_code] at straight
    exact straight.append.2

/-- Other code for every block keeps a graph consistent. -/
theorem recode (h : g.Consistent g') (labels : g''.labels = g'.labels)
    (each : ∀ b'' ∈ g''.blocks, ∃ b ∈ g'.blocks, b.Recoded g'.labels b'') : g.Consistent g'' := by
  have kept := h.sameExits.recode labels fun b'' hb'' => by
    obtain ⟨b, hb, recoded⟩ := each b'' hb''
    exact ⟨b, hb, recoded.label, recoded.straight_body, recoded.exits_body⟩
  refine ⟨kept.wellFormed, fun b'' hb'' => ?_, fun b'' hb'' => ?_, kept.exits⟩
  · obtain ⟨b, -, recoded⟩ := each b'' hb''
    exact recoded.plain
  · obtain ⟨b, -, recoded⟩ := each b'' hb''
    exact labels ▸ recoded.edges

/-- So do other bodies. -/
theorem mapBodies (h : g.Consistent g') {f : Block → List Instr}
    (each : ∀ b ∈ g'.blocks, b.Recoded g'.labels { b with body := f b }) :
    g.Consistent (g'.mapBodies f) := by
  refine h.recode (labels_mapBodies f g') fun b' hb' => ?_
  obtain ⟨b, hb, rfl⟩ := mem_mapBodies.1 hb'
  exact ⟨b, hb, each b hb⟩

theorem prune (h : g.Consistent g') (pruned : g'.Pruned g'') : g.Consistent g'' := by
  obtain ⟨f, prunes, rfl⟩ := pruned
  exact h.mapBodies fun b hb => (h.fits hb).prune (prunes b hb)

theorem minimize (h : g.Consistent g') : g.Consistent g'.minimize.graph :=
  minimize_of_prune (fun _ h => h.wellFormed) (fun _ _ h => h.prune)
    (fun _ h => h.mapBodies fun _ hb => (h.fits hb).collapse) h

/-- Every graph can be converted, and that keeps it consistent. -/
theorem convert (h : g.Consistent g') (names : FreshNames) :
    ∃ c, g'.convert names = .ok c ∧ g.Consistent c.graph := by
  obtain ⟨c, converted, labels, live, root, rs, renamed⟩ :=
    exists_renamed_conversion h.wellFormed names
  refine ⟨c, converted, h.recode labels fun b' hb' => ?_⟩
  obtain ⟨b, hb, r, from_, rfl⟩ := renamed b' hb'
  exact ⟨b, hb, (h.fits hb).toBlock h.wellFormed.nodup from_⟩

end Consistent

end FlowGraph

/-! ## Any passes, one after the other -/

/-- A pass over any procedure: the conversion to single assignment, or one of the other passes. -/
inductive Transformation where
  | convert
  | pass (pass : Pass)

/-- Make a pass, with fresh names for a conversion. -/
def Transformation.run (made : FlowGraph × FreshNames) :
    Transformation → Except Breach (FlowGraph × FreshNames)
  | convert => (made.1.convert made.2).map fun c => (c.graph, c.names)
  | pass p => (p.run made.1).map fun g => (g, made.2)

namespace FlowGraph

variable {q : Proc} {g g' : FlowGraph} {names : FreshNames}

/-- Make passes, one after the other. -/
def transform (g : FlowGraph) (names : FreshNames) (steps : List Transformation) :
    Except Breach (FlowGraph × FreshNames) := steps.foldlM Transformation.run (g, names)

section Kept

variable {P : FlowGraph → Prop} (wf : ∀ g, P g → g.WellFormed)
  (prune : ∀ g g', P g → g.Pruned g' → P g') (minimize : ∀ g, P g → P g.minimize.graph)
  (convert : ∀ g names, P g → ∃ c, g.convert names = .ok c ∧ P c.graph)

include wf prune minimize convert

/-- Every pass has a result, and what pruning, the removal of redundant phis and conversions keep
holds of it. -/
theorem exists_run_of_kept (h : P g) (names : FreshNames) (step : Transformation) :
    ∃ next left, step.run (g, names) = .ok (next, left) ∧ P next := by
  cases step with
  | convert =>
    obtain ⟨c, converted, kept⟩ := convert g names h
    exact ⟨c.graph, c.names, by rw [Transformation.run, converted]; rfl, kept⟩
  | pass p =>
    obtain ⟨next, made, kept⟩ := exists_run_of_prune wf prune minimize h p
    exact ⟨next, names, by rw [Transformation.run, made]; rfl, kept⟩

/-- And so do any number of passes. -/
theorem exists_transform_of_kept (h : P g) (names : FreshNames) (steps : List Transformation) :
    ∃ last left, g.transform names steps = .ok (last, left) ∧ P last := by
  induction steps generalizing g names with
  | nil => exact ⟨g, names, rfl, h⟩
  | cons step steps ih =>
    obtain ⟨next, left, made, kept⟩ :=
      exists_run_of_kept wf prune minimize convert h names step
    obtain ⟨last, left', done, kept⟩ := ih kept left
    refine ⟨last, left', ?_, kept⟩
    rw [FlowGraph.transform, List.foldlM_cons, made]
    exact done

end Kept

/-- Passes have a result, and keep a graph consistent. -/
theorem Consistent.transform (h : g.Consistent g') (names : FreshNames)
    (steps : List Transformation) :
    ∃ last left, g'.transform names steps = .ok (last, left) ∧ g.Consistent last :=
  exists_transform_of_kept (fun _ h => h.wellFormed) (fun _ _ h => h.prune) (fun _ h => h.minimize)
    (fun _ names h => h.convert names) h names steps

/-- Passes over a graph that was built have a result, which has the blocks and the edges that the
graph had. -/
theorem exists_transform {left : FreshNames} (avoids : ∀ l ∈ q.labels, l ∈ names.labels)
    (built : build q names = .ok (g, left)) (fresh : FreshNames) (steps : List Transformation) :
    ∃ last left', g.transform fresh steps = .ok (last, left') ∧ g.SameExits last :=
  exists_transform_of_kept (fun _ h => h.wellFormed) (fun _ _ h => h.prune) (fun _ h => h.minimize)
    (fun _ names h => h.convert names) ⟨(builtFrom_of_build avoids built).wellFormed, rfl⟩ fresh steps

/-- A graph that was built is consistent, if its phis stand at the heads of blocks. -/
theorem consistent_of_build {left : FreshNames} (first : g.PhisFirst)
    (built : build q (.avoiding q.labels) = .ok (g, left)) : g.Consistent g where
  wellFormed := (builtFrom_of_build (fun _ hl => SortedSet.mem_ofList.2 hl) built).wellFormed
  phisFirst := first
  edges := edgesNamed_of_build built
  exits := rfl

/-- Whatever passes are made over the graph of a procedure whose phis stand at the heads of blocks,
there is a result. Its blocks have no labels in them, transfer control at their ends only and have
their phis at their heads. It still has the edges that were there when the graph was built. And the
graph of its text has the same blocks and the same edges. -/
theorem build_toProc_of_transform {left : FreshNames} (first : g.PhisFirst)
    (built : build q (.avoiding q.labels) = .ok (g, left)) (names : FreshNames)
    (steps : List Transformation) : ∃ last left, g.transform names steps = .ok (last, left) ∧
      (∀ b ∈ last.blocks, Straight b.body) ∧ last.PhisFirst ∧ g.Overlies last ∧
      ∀ fresh, ∃ again, build last.toProc fresh = .ok (again, fresh) ∧ g.Overlies again ∧
        again.blocks.map Block.body = last.blocks.map Block.body := by
  obtain ⟨last, left, done, kept⟩ := (consistent_of_build first built).transform names steps
  refine ⟨last, left, done, kept.wellFormed.straight, kept.phisFirst, .of_exits kept.exits,
    fun fresh => ⟨last.allNamed, build_toProc kept.wellFormed kept.edges fresh, ?_,
      bodies_allNamed last⟩⟩
  exact .of_exits ((exits_allNamed last).trans kept.exits)

/-- A loop that has a phi and a block without a label. It is converted twice, and optimized before
and after. -/
theorem build_toProc_of_transform_phiLoop : ∃ g left, g.PhisFirst ∧
    build Program.phiLoop (.avoiding Program.phiLoop.labels) = .ok (g, left) ∧
    ∃ last left', g.transform left [.pass (.propagateCopies false), .convert, .pass .minimize,
        .pass (.propagateCopies true), .convert, .pass .removeDeadCode, .pass .minimize,
        .pass (.optimize .all true)] = .ok (last, left') ∧
      (∀ b ∈ last.blocks, Straight b.body) ∧ last.PhisFirst ∧ g.Overlies last ∧
      ∃ again, build last.toProc left' = .ok (again, left') ∧ g.Overlies again ∧
        again.blocks.map Block.body = last.blocks.map Block.body := by
  obtain ⟨g, left, built, first⟩ : ∃ g left,
      build Program.phiLoop (.avoiding Program.phiLoop.labels) = .ok (g, left) ∧ g.PhisFirst :=
    ⟨_, _, rfl, by decide +kernel⟩
  obtain ⟨last, left', done, straight, phisFirst, edges, rebuilt⟩ :=
    build_toProc_of_transform first built left [.pass (.propagateCopies false), .convert,
      .pass .minimize, .pass (.propagateCopies true), .convert, .pass .removeDeadCode,
      .pass .minimize, .pass (.optimize .all true)]
  exact ⟨g, left, first, built, last, left', done, straight, phisFirst, edges, rebuilt left'⟩

end FlowGraph

end ThreeAddress
