import Mathlib.Data.List.Basic
import Mathlib.Data.List.Nodup
import Mathlib.Data.List.Perm.Basic
import Mathlib.Data.List.ProdSigma
import ThreeAddress.Proofs.Interference.Allocation
import ThreeAddress.Proofs.Interference.Build
import ThreeAddress.Proofs.Lists
/-!
# Graphs by their history

A graph is made by operations, in any order and any number of times. It has an edge where one of them
added it and none since then removed an end. An edge is stored at both of its ends, by separate
writes, and a node is taken out of the entries of its neighbors only: the two halves still agree,
which is why the number of edges is half the sum of the degrees.

* `Edit`, `ofEdits` : the operations, and the graph that a sequence of them makes;
* `Joined` : what a sequence of operations says about an edge;
* `Edit.write` : the operations as single writes to the entries;
* `Simple` : a graph without loops that stores every edge at both ends;
* `simple_ofEdits` : so are all graphs that operations make, and their edges are those of the history.
-/

namespace ThreeAddress

namespace InterferenceGraph

variable {g : InterferenceGraph} {table : SortedMap Temp (SortedSet Temp)} {a b t u x y : Temp}

/-! ## Operations -/

/-- An operation on a graph. -/
inductive Edit where
  | addNode (t : Temp)
  | addEdge (a b : Temp)
  | removeNode (t : Temp)
deriving DecidableEq

/-- The graph after an operation. -/
def edit (g : InterferenceGraph) : Edit → InterferenceGraph
  | .addNode t => g.addNode t
  | .addEdge a b => g.addEdge a b
  | .removeNode t => g.removeNode t

/-- The graph that operations make of the one without nodes. -/
def ofEdits (edits : List Edit) : InterferenceGraph := edits.foldl edit empty

theorem ofEdits_concat (edits : List Edit) (e : Edit) :
    ofEdits (edits ++ [e]) = (ofEdits edits).edit e :=
  List.foldl_concat ..

/-! ## Histories -/

/-- The two can have an edge: they are different, and neither is the sink. -/
def Joinable (a b : Temp) : Prop := ¬ (a = b ∨ a.isSink ∨ b.isSink)

theorem Joinable.symm (h : Joinable a b) : Joinable b a := fun
  | .inl same => h (.inl same.symm)
  | .inr (.inl sink) => h (.inr (.inr sink))
  | .inr (.inr sink) => h (.inr (.inl sink))

/-- The operation adds an edge between the two. -/
def Edit.Joins (e : Edit) (a b : Temp) : Prop := e = .addEdge a b ∨ e = .addEdge b a

/-- The operation removes one of the two. -/
def Edit.Parts (e : Edit) (a b : Temp) : Prop := e = .removeNode a ∨ e = .removeNode b

/-- One of the operations adds an edge between the two, and no later one removes either of them. -/
def Joined (edits : List Edit) (a b : Temp) : Prop :=
  Joinable a b ∧ ∃ before e after, edits = before ++ e :: after ∧ e.Joins a b ∧
    ∀ later ∈ after, ¬ later.Parts a b

theorem not_joined_nil : ¬ Joined [] a b := by
  rintro ⟨-, before, e, after, split, -⟩
  simp at split

theorem Joined.symm {edits : List Edit} (h : Joined edits a b) : Joined edits b a := by
  obtain ⟨joinable, before, e, after, split, joins, since⟩ := h
  exact ⟨joinable.symm, before, e, after, split, joins.symm,
    fun later mem parts => since later mem parts.symm⟩

/-- The last operation adds the edge, or it was there and its ends are not removed. -/
theorem joined_concat {edits : List Edit} {e : Edit} :
    Joined (edits ++ [e]) a b ↔ Joinable a b ∧ e.Joins a b ∨ ¬ e.Parts a b ∧ Joined edits a b := by
  constructor
  · rintro ⟨joinable, before, e', after, split, joins, since⟩
    rcases split_of_concat split with ⟨-, rfl, -⟩ | ⟨after', rfl, rfl⟩
    · exact .inl ⟨joinable, joins⟩
    · obtain ⟨since, last⟩ := List.forall_mem_append.1 since
      exact .inr ⟨last e List.mem_cons_self, joinable, before, e', after', rfl, joins, since⟩
  · rintro (⟨joinable, joins⟩ | ⟨kept, joinable, before, e', after, rfl, joins, since⟩)
    · exact ⟨joinable, edits, e, [], rfl, joins, List.forall_mem_nil _⟩
    · exact ⟨joinable, before, e', after ++ [e], by simp, joins,
        List.forall_mem_append.2 ⟨since, fun _ last => List.mem_singleton.1 last ▸ kept⟩⟩

/-! ## What an operation does to edges -/

theorem neighbors_addNode : (g.addNode t).neighbors x = g.neighbors x := by
  rw [addNode]
  split
  · rfl
  · simp only [neighbors, entry_insert]
    split
    · next same => rw [same]
    · rfl

/-- One operation adds the edge, or it was there and its ends are not removed. -/
theorem mem_neighbors_edit {e : Edit} :
    b ∈ (g.edit e).neighbors a ↔
      Joinable a b ∧ e.Joins a b ∨ ¬ e.Parts a b ∧ b ∈ g.neighbors a := by
  cases e with
  | addNode t => simp [edit, neighbors_addNode, Edit.Joins, Edit.Parts]
  | removeNode t =>
    simp only [edit, mem_neighbors_removeNode, Edit.Joins, Edit.Parts, Edit.removeNode.injEq,
      reduceCtorEq, or_self, and_false, false_or, not_or, and_assoc, eq_comm (a := t), ne_eq]
  | addEdge c d =>
    simp only [edit, Edit.Joins, Edit.Parts, Edit.addEdge.injEq, reduceCtorEq, or_self,
      not_false_eq_true, true_and]
    by_cases none : c = d ∨ c.isSink ∨ d.isSink
    · -- the ends of the edge that is not added are not joinable either
      rw [addEdge, dif_pos none, or_iff_right]
      rintro ⟨joinable, ⟨rfl, rfl⟩ | ⟨rfl, rfl⟩⟩
      · exact joinable none
      · exact joinable.symm none
    · rw [mem_neighbors_addEdge none]
      constructor
      · rintro (⟨rfl, rfl⟩ | ⟨rfl, rfl⟩ | edge)
        · exact .inl ⟨none, .inl ⟨rfl, rfl⟩⟩
        · exact .inl ⟨Joinable.symm none, .inr ⟨rfl, rfl⟩⟩
        · exact .inr edge
      · rintro (⟨-, ⟨rfl, rfl⟩ | ⟨rfl, rfl⟩⟩ | edge)
        · exact .inl ⟨rfl, rfl⟩
        · exact .inr (.inl ⟨rfl, rfl⟩)
        · exact .inr (.inr edge)

/-- The edges of a graph are those of its history. -/
theorem mem_neighbors_ofEdits {edits : List Edit} :
    b ∈ (ofEdits edits).neighbors a ↔ Joined edits a b := by
  induction edits using List.reverseRecOn with
  | nil => exact iff_of_false (SortedSet.not_mem_empty b) not_joined_nil
  | append_singleton edits e ih => rw [ofEdits_concat, mem_neighbors_edit, ih, joined_concat]

/-- No operation makes the sink a node. -/
theorem among_edit (h : g.Among fun _ => True) (e : Edit) : (g.edit e).Among fun _ => True := by
  cases e with
  | addNode t => exact h.addNode fun _ => trivial
  | addEdge a b => exact h.addEdge (fun _ => trivial) fun _ => trivial
  | removeNode t => exact fun u hu => h u (mem_nodes_removeNode.1 hu).2

theorem among_ofEdits (edits : List Edit) : (ofEdits edits).Among fun _ => True :=
  foldl_keeps (Q := fun g => g.Among fun _ => True) (fun _ e _ h => among_edit h e)
    fun _ ht => by cases ht

/-! ## Operations as writes -/

/-- Take a temporary out of the entry of another, if that has one. -/
def dropFrom (t : Temp) (table : SortedMap Temp (SortedSet Temp)) (u : Temp) :
    SortedMap Temp (SortedSet Temp) :=
  match table.get? u with
  | some s => table.insert u (s.erase t)
  | none => table

/-- Remove the entry of a temporary, and take it out of the entries of those that were in it. -/
def detach (table : SortedMap Temp (SortedSet Temp)) (t : Temp) : SortedMap Temp (SortedSet Temp) :=
  (entry table t).toList.foldl (dropFrom t) (table.erase t)

/-- An operation as writes to single entries. -/
def Edit.write (table : SortedMap Temp (SortedSet Temp)) : Edit → SortedMap Temp (SortedSet Temp)
  | addNode t => if t.isSink then table else table.insert t (entry table t)
  | addEdge a b => if a = b ∨ a.isSink ∨ b.isSink then table else connect table a b
  | removeNode t => detach table t

theorem get?_dropFrom :
    (dropFrom t table u).get? x = if x = u then (table.get? x).map (·.erase t) else table.get? x := by
  cases found : table.get? u with
  | none =>
    simp only [dropFrom, found]
    split
    · next same =>
      rw [same, found]
      rfl
    · rfl
  | some s =>
    simp only [dropFrom, found, SortedMap.get?_insert]
    split
    · next same =>
      rw [same, found]
      rfl
    · rfl

theorem get?_foldl_dropFrom {l : List Temp} (nodup : l.Nodup) :
    (l.foldl (dropFrom t) table).get? x =
      if x ∈ l then (table.get? x).map (·.erase t) else table.get? x := by
  induction l generalizing table with
  | nil => simp
  | cons u rest ih =>
    obtain ⟨fresh, nodup⟩ := List.nodup_cons.1 nodup
    rw [List.foldl_cons, ih nodup, get?_dropFrom]
    by_cases same : x = u
    · subst same
      rw [if_neg fresh, if_pos rfl, if_pos List.mem_cons_self]
    · rw [if_neg same]
      simp only [List.mem_cons, same, false_or]

/-- Nothing is left of a node when it is taken out of the entries of its neighbors. -/
theorem table_removeNode (g : InterferenceGraph) (t : Temp) : (g.removeNode t).table = detach g.table t := by
  refine SortedMap.ext fun x => ?_
  simp only [removeNode, detach, SortedMap.get?_map, SortedMap.get?_erase,
    get?_foldl_dropFrom (SortedSet.nodup_toList _)]
  by_cases mem : x ∈ (entry g.table t).toList
  · rw [if_pos mem]
  · rw [if_neg mem]
    by_cases same : x = t
    · rw [if_pos same]
      rfl
    · rw [if_neg same]
      cases found : g.table.get? x with
      | none => rfl
      | some s =>
        -- the node is not in the entry, as the other half of the edge would be in its own
        have other : t ∉ s := fun ht => mem (g.symm x t (by rwa [entry, found]))
        rw [Option.map_some, SortedSet.erase_of_not_mem other]

theorem table_edit (g : InterferenceGraph) (e : Edit) : (g.edit e).table = e.write g.table := by
  cases e with
  | addNode t =>
    simp only [edit, addNode, Edit.write]
    split <;> rfl
  | addEdge a b =>
    simp only [edit, addEdge, Edit.write]
    split <;> rfl
  | removeNode t => exact table_removeNode g t

/-- The writes of all operations make the table of the graph. -/
theorem table_ofEdits (edits : List Edit) : (ofEdits edits).table = edits.foldl Edit.write ∅ := by
  induction edits using List.reverseRecOn with
  | nil => rfl
  | append_singleton edits e ih => rw [ofEdits_concat, table_edit, ih, List.foldl_concat]

/-! ## Listing edges -/

/-- Every edge at both of its ends. -/
def arcs (g : InterferenceGraph) : List (Temp × Temp) :=
  g.nodes.flatMap fun a => (g.neighbors a).toList.map fun b => (a, b)

theorem mem_arcs : (a, b) ∈ g.arcs ↔ b ∈ g.neighbors a := by
  simp only [arcs, List.mem_flatMap, List.mem_map, Prod.mk.injEq]
  constructor
  · rintro ⟨_, -, _, mem, rfl, rfl⟩
    exact mem
  · exact fun mem => ⟨a, mem_nodes_of_mem_neighbors mem, b, mem, rfl, rfl⟩

theorem nodup_arcs (g : InterferenceGraph) : g.arcs.Nodup := by
  refine List.nodup_flatMap.2 ⟨fun a _ => ?_, g.nodup_nodes.imp fun ne => ?_⟩
  · exact (SortedSet.nodup_toList _).map fun _ _ same => (Prod.mk.inj same).2
  · refine List.disjoint_left.2 fun e he he' => ne ?_
    obtain ⟨_, -, rfl⟩ := List.mem_map.1 he
    obtain ⟨_, -, same⟩ := List.mem_map.1 he'
    exact (Prod.mk.inj same).1.symm

/-- The degrees count every edge at both of its ends. -/
theorem length_arcs (g : InterferenceGraph) :
    g.arcs.length = (g.table.values.map SortedSet.size).foldl (· + ·) 0 := by
  rw [← List.sum_eq_foldl]
  simp only [arcs, List.length_flatMap, List.length_map, nodes, SortedMap.keys, SortedMap.values,
    List.map_map]
  refine congrArg List.sum (List.map_congr_left fun e mem => ?_)
  have found : g.table.get? e.1 = some e.2 := SortedMap.get?_eq_some.2 mem
  simp only [Function.comp_apply, neighbors, entry, found, Option.getD_some, SortedSet.size]

theorem edges_eq (g : InterferenceGraph) :
    g.edges = g.arcs.filter fun e => compare e.1 e.2 == .lt := by
  simp only [edges, arcs, List.filter_flatMap, List.filter_map]
  rfl

/-- The smaller end comes first. -/
theorem mem_edges : (a, b) ∈ g.edges ↔ b ∈ g.neighbors a ∧ compare a b = .lt := by
  rw [edges_eq, List.mem_filter, mem_arcs, beq_iff_eq]

theorem nodup_edges (g : InterferenceGraph) : g.edges.Nodup := by
  rw [edges_eq]
  exact g.nodup_arcs.filter _

/-- At their greater ends the edges stand the other way round. -/
theorem perm_swap_edges (g : InterferenceGraph) :
    (g.arcs.filter fun e => !(compare e.1 e.2 == .lt)).Perm (g.edges.map Prod.swap) := by
  refine (List.perm_ext_iff_of_nodup (g.nodup_arcs.filter _)
    (g.nodup_edges.map Prod.swap_injective)).2 fun ⟨a, b⟩ => ?_
  rw [List.mem_map_swap, mem_edges, List.mem_filter, mem_arcs]
  constructor
  · rintro ⟨mem, upward⟩
    refine ⟨neighbors_symm mem, ?_⟩
    cases order : compare a b with
    | lt => simp [order] at upward
    | eq =>
      obtain rfl := Std.LawfulEqOrd.eq_of_compare order
      exact absurd mem (g.not_mem_neighbors_self a)
    | gt => exact Std.OrientedCmp.lt_of_gt order
  · rintro ⟨mem, downward⟩
    refine ⟨neighbors_symm mem, ?_⟩
    simp [Std.OrientedCmp.gt_of_lt downward]

/-- Half of the degrees is the number of edges. -/
theorem edgeCount_eq (g : InterferenceGraph) : g.edgeCount = g.edges.length := by
  have both := List.length_eq_length_filter_add (l := g.arcs) fun e => compare e.1 e.2 == .lt
  rw [← edges_eq, g.perm_swap_edges.length_eq, List.length_map] at both
  rw [edgeCount, ← length_arcs, both]
  omega

/-! ## Simple graphs -/

/-- A graph without loops that has every edge at both of its ends, and just the edges that it lists. -/
structure Simple (g : InterferenceGraph) : Prop where
  symmetric : ∀ a b, g.interferes a b = g.interferes b a
  loopless : ∀ a, g.interferes a a = false
  /-- Neighbors are nodes. -/
  closed : ∀ a, ∀ b ∈ g.neighbors a, b ∈ g.nodes
  sinkless : Temp.sink ∉ g.nodes
  /-- No edge is listed twice. -/
  once : g.edges.Nodup
  /-- The edges are listed with the smaller end first. -/
  listed : ∀ a b, (a, b) ∈ g.edges ↔ g.interferes a b = true ∧ compare a b = .lt
  counted : g.edgeCount = g.edges.length

theorem interferes_ofEdits {edits : List Edit} :
    (ofEdits edits).interferes a b = true ↔ Joined edits a b := by
  rw [interferes, SortedSet.contains_eq_true, mem_neighbors_ofEdits]

/-- Whatever operations are done on the graph without nodes, in any order and any number of times, the
graph is simple, and two nodes interfere if one of the operations added their edge and no later one
removed either of them. The operations write to the entry of one end after the other, and the entries
that they leave are those of the graph. -/
theorem simple_ofEdits (edits : List Edit) :
    (ofEdits edits).Simple ∧ (∀ a b, (ofEdits edits).interferes a b = true ↔ Joined edits a b) ∧
      (ofEdits edits).table = edits.foldl Edit.write ∅ := by
  refine ⟨⟨fun a b => ?_, fun a => ?_, fun a b mem => ?_, fun mem => ?_, nodup_edges _,
    fun a b => ?_, edgeCount_eq _⟩, fun a b => interferes_ofEdits, table_ofEdits edits⟩
  · exact Bool.eq_iff_iff.2
      (interferes_ofEdits.trans (Iff.trans ⟨Joined.symm, Joined.symm⟩ interferes_ofEdits.symm))
  · refine Bool.eq_false_iff.2 fun loop => ?_
    exact (interferes_ofEdits.1 loop).1 (.inl rfl)
  · exact mem_nodes_of_mem_neighbors
      (mem_neighbors_ofEdits.2 (mem_neighbors_ofEdits.1 mem).symm)
  · exact absurd (among_ofEdits edits _ mem).1 (by decide)
  · rw [mem_edges, interferes, SortedSet.contains_eq_true]

end InterferenceGraph

end ThreeAddress
