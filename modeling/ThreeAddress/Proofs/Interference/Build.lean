import ThreeAddress.Interference.Build
import ThreeAddress.Proofs.Liveness.Rounds
/-!
# What the interference graph of a procedure has

The graph is made by adding nodes and edges, so what was added stays. Behind a definition, it has an
edge between the temporary that is defined and everything else that is live there; the phis of a
block and the parameters also have edges between each other.

* `InterferenceGraph.PartOf` : a graph that another has all of;
* `FlowGraph.mem_neighbors_of_def?`, `FlowGraph.mem_neighbors_of_phi`,
  `FlowGraph.mem_neighbors_of_phis`, `FlowGraph.mem_neighbors_of_params` : the edges;
* `FlowGraph.mem_nodes_interference_iff` : the nodes.
-/

namespace ThreeAddress

theorem Instr.mem_temps_of_mem_exposed {i : Instr} {t : Temp} (ht : t ∈ i.exposed) : t ∈ i.temps := by
  refine List.mem_append_left _ ?_
  cases i with
  | copy dest src =>
    refine (List.mem_append.1 ht).elim (List.mem_append_left _) fun source => ?_
    exact List.mem_append_right _ (List.mem_filterMap.2 ⟨src, List.mem_singleton.2 rfl,
      Option.mem_toList.1 source⟩)
  | _ => exact List.mem_append_left _ ht

namespace InterferenceGraph

variable {g h : InterferenceGraph} {a b t u : Temp}

/-- The second graph has all nodes and edges of the first one. -/
structure PartOf (g h : InterferenceGraph) : Prop where
  nodes : ∀ t ∈ g.nodes, t ∈ h.nodes
  edges : ∀ t u, u ∈ g.neighbors t → u ∈ h.neighbors t

theorem PartOf.refl (g : InterferenceGraph) : g.PartOf g := ⟨fun _ h => h, fun _ _ h => h⟩

theorem PartOf.trans {g₁ g₂ g₃ : InterferenceGraph} (h₁ : g₁.PartOf g₂) (h₂ : g₂.PartOf g₃) :
    g₁.PartOf g₃ :=
  ⟨fun t ht => h₂.nodes t (h₁.nodes t ht), fun t u hu => h₂.edges t u (h₁.edges t u hu)⟩

/-! ## What was added stays -/

theorem mem_nodes_addNode (named : t.isSink = false) : t ∈ (g.addNode t).nodes := by
  simp only [nodes, addNode, named, Bool.false_eq_true, if_false]
  exact SortedMap.mem_keys.2 ⟨_, by rw [SortedMap.get?_insert, if_pos rfl]⟩

theorem partOf_addNode (g : InterferenceGraph) (t : Temp) : g.PartOf (g.addNode t) := by
  rw [addNode]
  split
  · exact .refl g
  · refine ⟨fun u hu => ?_, fun u v hv => ?_⟩
    · obtain ⟨s, hs⟩ := SortedMap.mem_keys.1 hu
      refine SortedMap.mem_keys.2 ?_
      rw [SortedMap.get?_insert]
      split
      · exact ⟨_, rfl⟩
      · exact ⟨s, hs⟩
    · rw [neighbors, entry_insert]
      split
      · next same => exact same ▸ hv
      · exact hv

theorem partOf_addEdge (g : InterferenceGraph) (a b : Temp) : g.PartOf (g.addEdge a b) := by
  by_cases none : a = b ∨ a.isSink ∨ b.isSink
  · rw [addEdge, dif_pos none]
    exact .refl g
  · refine ⟨fun t ht => ?_, fun t u hu => (mem_neighbors_addEdge none).2 (.inr (.inr hu))⟩
    obtain ⟨s, hs⟩ := SortedMap.mem_keys.1 ht
    rw [addEdge, dif_neg none]
    refine SortedMap.mem_keys.2 ?_
    simp only [connect, SortedMap.get?_insert]
    split
    · exact ⟨_, rfl⟩
    · split
      · exact ⟨_, rfl⟩
      · exact ⟨s, hs⟩

/-- Adding again and again keeps what a graph has. -/
theorem partOf_foldl {α : Type} {f : InterferenceGraph → α → InterferenceGraph}
    (grows : ∀ (g : InterferenceGraph) (x : α), g.PartOf (f g x)) (l : List α) (g : InterferenceGraph) :
    g.PartOf (l.foldl f g) := by
  induction l generalizing g with
  | nil => exact .refl g
  | cons x rest ih => exact (grows g x).trans (ih (f g x))

/-- What one addition gives, all of them together have. -/
theorem of_mem_foldl {α : Type} {f : InterferenceGraph → α → InterferenceGraph}
    (grows : ∀ (g : InterferenceGraph) (x : α), g.PartOf (f g x)) {P : InterferenceGraph → Prop}
    (keeps : ∀ g h : InterferenceGraph, g.PartOf h → P g → P h) {l : List α} {x : α} (hx : x ∈ l)
    (gives : ∀ g, P (f g x)) (g : InterferenceGraph) : P (l.foldl f g) := by
  induction l generalizing g with
  | nil => cases hx
  | cons y rest ih =>
    rcases List.mem_cons.1 hx with rfl | hx
    · exact keeps _ _ (partOf_foldl grows rest _) (gives g)
    · exact ih hx _

theorem partOf_addEdges (g : InterferenceGraph) (a : Temp) (others : List Temp) :
    g.PartOf (g.addEdges a others) :=
  partOf_foldl (fun g b => g.partOf_addEdge a b) others g

theorem mem_neighbors_addEdges {others : List Temp} (hb : b ∈ others) (ne : a ≠ b)
    (ha : a.isSink = false) (named : b.isSink = false) : b ∈ (g.addEdges a others).neighbors a := by
  refine of_mem_foldl (P := fun h => b ∈ h.neighbors a) (fun g b => g.partOf_addEdge a b)
    (fun g h le mem => le.edges a b mem) hb (fun g => ?_) g
  exact (mem_neighbors_addEdge (by simp [ne, ha, named])).2 (.inl ⟨rfl, rfl⟩)

theorem partOf_addClique (g : InterferenceGraph) (l : List Temp) : g.PartOf (g.addClique l) := by
  induction l generalizing g with
  | nil => exact .refl g
  | cons a rest ih => exact (g.partOf_addEdges a rest).trans (ih _)

theorem mem_neighbors_addClique {l : List Temp} (ha : a ∈ l) (hb : b ∈ l) (ne : a ≠ b)
    (named : a.isSink = false) (named' : b.isSink = false) : b ∈ (g.addClique l).neighbors a := by
  induction l generalizing g with
  | nil => cases ha
  | cons c rest ih =>
    rcases List.mem_cons.1 ha with rfl | ha'
    · rcases List.mem_cons.1 hb with rfl | hb'
      · exact absurd rfl ne
      · exact (partOf_addClique _ rest).edges _ _ (mem_neighbors_addEdges hb' ne named named')
    · rcases List.mem_cons.1 hb with rfl | hb'
      · exact (partOf_addClique _ rest).edges _ _
          (neighbors_symm (mem_neighbors_addEdges ha' (Ne.symm ne) named' named))
      · exact ih ha' hb'

theorem partOf_addInstr (g : InterferenceGraph) (i : Instr) (after : SortedSet Temp) :
    g.PartOf (g.addInstr i after) :=
  partOf_foldl (fun g t => g.partOf_addEdges t after.toList) i.exposed g

theorem mem_neighbors_addInstr {i : Instr} {after : SortedSet Temp} (hd : i.def? = some a)
    (hb : b ∈ after) (ne : a ≠ b) (named : a.isSink = false) (named' : b.isSink = false) :
    b ∈ (g.addInstr i after).neighbors a := by
  have exposed : a ∈ i.exposed := by
    cases i with
    | copy dest src => exact List.mem_append_left _ (Option.mem_toList.2 hd)
    | _ => exact Option.mem_toList.2 hd
  exact of_mem_foldl (P := fun h => b ∈ h.neighbors a) (fun g t => g.partOf_addEdges t after.toList)
    (fun g h le mem => le.edges a b mem) exposed
    (fun g => mem_neighbors_addEdges (SortedSet.mem_iff.1 hb) ne named named') g

theorem partOf_addPoint (g : InterferenceGraph) (e : Instr × InstrLive) :
    g.PartOf (g.addInstr e.1 e.2.after) := g.partOf_addInstr e.1 e.2.after

theorem partOf_addBlock (live : Liveness) (g : InterferenceGraph) (b : Block) :
    g.PartOf (g.addBlock live b) :=
  (partOf_foldl partOf_addPoint _ g).trans (partOf_addClique _ _)

/-! ## Nothing else is added -/

/-- No node is the sink, and all of them have a property. -/
def Among (g : InterferenceGraph) (P : Temp → Prop) : Prop := ∀ t ∈ g.nodes, t.isSink = false ∧ P t

variable {P : Temp → Prop}

theorem Among.addNode (h : g.Among P) (ht : t.isSink = false → P t) : (g.addNode t).Among P := by
  rw [InterferenceGraph.addNode]
  split
  · exact h
  · next named =>
    intro u hu
    obtain ⟨s, hs⟩ := SortedMap.mem_keys.1 hu
    rw [SortedMap.get?_insert] at hs
    by_cases same : u = t
    · have named : u.isSink = false := by simpa [same] using named
      exact ⟨named, same ▸ ht (same ▸ named)⟩
    · rw [if_neg same] at hs
      exact h u (SortedMap.mem_keys.2 ⟨s, hs⟩)

theorem Among.addEdge (h : g.Among P) (ha : a.isSink = false → P a) (hb : b.isSink = false → P b) :
    (g.addEdge a b).Among P := by
  by_cases none : a = b ∨ a.isSink ∨ b.isSink
  · rwa [InterferenceGraph.addEdge, dif_pos none]
  · rw [InterferenceGraph.addEdge, dif_neg none]
    intro u hu
    obtain ⟨s, hs⟩ := SortedMap.mem_keys.1 hu
    simp only [connect, SortedMap.get?_insert] at hs
    simp only [not_or, Bool.not_eq_true] at none
    by_cases isb : u = b
    · exact isb ▸ ⟨none.2.2, hb none.2.2⟩
    · by_cases isa : u = a
      · exact isa ▸ ⟨none.2.1, ha none.2.1⟩
      · rw [if_neg isb, if_neg isa] at hs
        exact h u (SortedMap.mem_keys.2 ⟨s, hs⟩)

/-- What all additions keep, all of them together keep. -/
theorem foldl_keeps {α : Type} {f : InterferenceGraph → α → InterferenceGraph}
    {Q : InterferenceGraph → Prop} {l : List α}
    (keeps : ∀ (g : InterferenceGraph), ∀ x ∈ l, Q g → Q (f g x)) {g : InterferenceGraph} (h : Q g) :
    Q (l.foldl f g) := by
  induction l generalizing g with
  | nil => exact h
  | cons x rest ih =>
    exact ih (fun g y hy => keeps g y (List.mem_cons_of_mem _ hy)) (keeps g x List.mem_cons_self h)

theorem Among.addEdges (h : g.Among P) (ha : a.isSink = false → P a) {others : List Temp}
    (all : ∀ b ∈ others, b.isSink = false → P b) : (g.addEdges a others).Among P :=
  foldl_keeps (Q := fun g => g.Among P) (fun _ b hb h => h.addEdge ha (all b hb)) h

theorem Among.addClique (h : g.Among P) {l : List Temp} (all : ∀ a ∈ l, a.isSink = false → P a) :
    (g.addClique l).Among P := by
  induction l generalizing g with
  | nil => exact h
  | cons a rest ih =>
    have later := fun b hb => all b (List.mem_cons_of_mem _ hb)
    exact ih (h.addEdges (all a List.mem_cons_self) later) later

theorem Among.addBlock (h : g.Among P) {live : Liveness} {b : Block}
    (temps : ∀ i ∈ b.body, ∀ t ∈ i.temps, P t)
    (after : ∀ e ∈ b.body.zip (live.instrs b.label), ∀ t ∈ e.2.after, P t) :
    (g.addBlock live b).Among P := by
  refine Among.addClique (foldl_keeps (Q := fun g => g.Among P) (fun g e he h => ?_) h)
    fun t ht _ => ?_
  · refine foldl_keeps (Q := fun g => g.Among P) (fun g t ht h => ?_) h
    refine h.addEdges (fun _ => temps e.1 (List.of_mem_zip he).1 t (e.1.mem_temps_of_mem_exposed ht))
      fun u hu _ => after e he u hu
  · obtain ⟨i, hi, hd⟩ := List.mem_filterMap.1 ht
    exact temps i (Block.mem_body_of_mem_phis hi) t
      (Instr.mem_temps.2 (.inl hd))

end InterferenceGraph

namespace FlowGraph

open InterferenceGraph

variable {g : FlowGraph} {live : Liveness} {b : Block} {d t : Temp}

/-- What the graph of a block has, the graph of the procedure has. -/
theorem of_addBlock {P : InterferenceGraph → Prop}
    (keeps : ∀ g h : InterferenceGraph, g.PartOf h → P g → P h) (hb : b ∈ g.blocks)
    (gives : ∀ h : InterferenceGraph, P (h.addBlock live b)) : P (g.interference live) := by
  refine keeps _ _ ?_ (of_mem_foldl (partOf_addBlock live) keeps hb gives
    (g.temps.toList.foldl addNode .empty))
  exact (partOf_addClique _ _).trans (partOf_foldl (fun h p => h.partOf_addEdges p _) _ _)

/-- What is defined at a point of a block interferes with what else is live behind it. -/
theorem mem_neighbors_of_point (hb : b ∈ g.blocks) {e : Instr × InstrLive}
    (point : e ∈ b.body.zip (live.instrs b.label)) (hd : e.1.def? = some d) (ht : t ∈ e.2.after)
    (ne : d ≠ t) (named : d.isSink = false) (named' : t.isSink = false) :
    t ∈ (g.interference live).neighbors d := by
  have keeps : ∀ h h' : InterferenceGraph, h.PartOf h' → t ∈ h.neighbors d → t ∈ h'.neighbors d :=
    fun h h' le mem => le.edges d t mem
  refine of_addBlock (P := fun h => t ∈ h.neighbors d) keeps hb fun h => ?_
  refine keeps _ _ (partOf_addClique _ _) ?_
  exact of_mem_foldl partOf_addPoint keeps point
    (fun h => mem_neighbors_addInstr hd ht ne named named') h

/-- A temporary that is defined interferes with what else is live behind its definition. -/
theorem mem_neighbors_of_def? (solved : Solved g live) (hb : b ∈ g.blocks)
    {front rest : List Instr} {i : Instr} (split : b.code = front ++ i :: rest)
    (hd : i.def? = some d) (ht : t ∈ liveFrom (live.after g b.label) rest) (ne : d ≠ t)
    (named : d.isSink = false) (named' : t.isSink = false) :
    t ∈ (g.interference live).neighbors d := by
  have point : (i, ⟨liveFrom (live.after g b.label) (i :: rest), liveFrom (live.after g b.label) rest⟩) ∈
      b.body.zip (live.instrs b.label) := by
    rw [solved.zip_instrs hb, split]
    refine List.mem_append_right _ ?_
    clear split
    induction front with
    | nil => exact List.mem_cons_self
    | cons j front ih => exact List.mem_cons_of_mem _ ih
  exact mem_neighbors_of_point hb point hd ht ne named named'

/-- A phi interferes with what else is live behind the phis. -/
theorem mem_neighbors_of_phi (solved : Solved g live) (hb : b ∈ g.blocks) (hd : d ∈ b.phiDefs)
    (ht : t ∈ liveFrom (live.after g b.label) b.code) (ne : d ≠ t)
    (named : d.isSink = false) (named' : t.isSink = false) :
    t ∈ (g.interference live).neighbors d := by
  obtain ⟨args, phi⟩ := Block.mem_phiDefs.1 hd
  have point : (Instr.phi d args, ⟨live.before b.label, liveFrom (live.after g b.label) b.code⟩) ∈
      b.body.zip (live.instrs b.label) := by
    rw [solved.zip_instrs hb]
    exact List.mem_append_left _ (List.mem_map.2 ⟨_, phi, rfl⟩)
  exact mem_neighbors_of_point hb point rfl ht ne named named'

/-- The phis of a block interfere with each other. -/
theorem mem_neighbors_of_phis (hb : b ∈ g.blocks) (hd : d ∈ b.phiDefs) (ht : t ∈ b.phiDefs)
    (ne : d ≠ t) (named : d.isSink = false) (named' : t.isSink = false) :
    t ∈ (g.interference live).neighbors d := by
  refine of_addBlock (P := fun h => t ∈ h.neighbors d) (fun h h' le mem => le.edges d t mem) hb
    fun h => ?_
  exact mem_neighbors_addClique hd ht ne named named'

/-- So do the parameters. -/
theorem mem_neighbors_of_params (hd : d ∈ g.params) (ht : t ∈ g.params) (ne : d ≠ t)
    (named : d.isSink = false) (named' : t.isSink = false) :
    t ∈ (g.interference live).neighbors d :=
  (partOf_foldl (fun h p => h.partOf_addEdges p live.atEntry.toList) g.params _).edges _ _
    (mem_neighbors_addClique hd ht ne named named')

/-- The temporaries of the procedure are nodes. -/
theorem mem_nodes_interference (ht : t ∈ g.temps) (named : t.isSink = false) :
    t ∈ (g.interference live).nodes := by
  have nodes : t ∈ (g.temps.toList.foldl addNode .empty).nodes :=
    of_mem_foldl (P := fun h => t ∈ h.nodes) partOf_addNode (fun h h' le mem => le.nodes t mem)
      (SortedSet.mem_iff.1 ht) (fun h => mem_nodes_addNode named) _
  have blocks := partOf_foldl (partOf_addBlock live) g.blocks (g.temps.toList.foldl addNode .empty)
  exact ((blocks.trans (partOf_addClique _ g.params)).trans
    (partOf_foldl (fun h p => h.partOf_addEdges p live.atEntry.toList) g.params _)).nodes t nodes

/-- Nothing else is a node: the temporaries of instructions and what is live around them and on
entry. -/
theorem interference_among {P : Temp → Prop} (temps : ∀ t ∈ g.temps, P t)
    (after : ∀ b ∈ g.blocks, ∀ e ∈ b.body.zip (live.instrs b.label), ∀ t ∈ e.2.after, P t)
    (entry : ∀ t ∈ live.atEntry, P t) : (g.interference live).Among P := by
  have empty : InterferenceGraph.empty.Among P := fun t ht => by cases ht
  have params : ∀ t ∈ g.params, t.isSink = false → P t := fun t ht named => by
    exact temps t (FlowGraph.mem_temps_of_param ht named)
  have nodes : (g.temps.toList.foldl addNode .empty).Among P :=
    foldl_keeps (Q := fun g => g.Among P) (fun _ t ht h => h.addNode fun _ => temps t ht) empty
  have blocks : (g.blocks.foldl (addBlock live) (g.temps.toList.foldl addNode .empty)).Among P :=
    foldl_keeps (Q := fun g => g.Among P) (fun _ b hb h => h.addBlock (fun i hi t ht =>
      temps t (mem_temps_of_mem_temps hb hi ht)) (after b hb)) nodes
  exact foldl_keeps (Q := fun g => g.Among P) (fun _ p hp h => h.addEdges (params p hp)
    fun t ht _ => entry t ht) (blocks.addClique params)

/-- What is live behind an instruction is a temporary of the procedure. -/
theorem mem_temps_of_mem_after (nodup : g.labels.Nodup) (found : g.liveness = .ok live) {b : Block}
    (hb : b ∈ g.blocks) {e : Instr × InstrLive} (he : e ∈ b.body.zip (live.instrs b.label))
    (ht : t ∈ e.2.after) : t ∈ g.temps := by
  have solved := solved_of_liveness nodup found
  have inside := inside_of_liveness nodup found
  have after : ∀ l, ∀ u ∈ live.after g l, u ∈ g.temps := fun l u =>
    mem_temps_of_mem_liveAfter nodup inside
  rw [solved.zip_instrs hb] at he
  rcases List.mem_append.1 he with phi | code
  · obtain ⟨i, -, rfl⟩ := List.mem_map.1 phi
    exact mem_temps_of_mem_liveFrom hb (after b.label) (fun i => Block.mem_body_of_mem_code) ht
  · obtain ⟨front, rest, split, same⟩ := exists_of_mem_livePoints code
    rw [same] at ht
    refine mem_temps_of_mem_liveFrom hb (after b.label) (fun i hi => ?_) ht
    refine Block.mem_body_of_mem_code ?_
    rw [split]
    exact List.mem_append_right _ (List.mem_cons_of_mem _ hi)

/-- The nodes are the temporaries of the procedure, but for the sink. -/
theorem mem_nodes_interference_iff (nodup : g.labels.Nodup) (found : g.liveness = .ok live) :
    t ∈ (g.interference live).nodes ↔ t ∈ g.temps ∧ t.isSink = false := by
  refine ⟨fun ht => ?_, fun h => mem_nodes_interference h.1 h.2⟩
  refine (interference_among (fun _ h => h)
    (fun b hb e he u hu => mem_temps_of_mem_after nodup found hb he hu) (fun u hu => ?_) t ht).symm
  rw [(solved_of_liveness nodup found).atEntry] at hu
  exact mem_temps_of_mem_liveAtEntry (inside_of_liveness nodup found) hu

end FlowGraph

end ThreeAddress
