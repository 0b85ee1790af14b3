import Mathlib.Logic.Relation
import ThreeAddress.FlowGraph.Walk
import ThreeAddress.Proofs.FlowGraph.Cutting
import ThreeAddress.Proofs.Sorted
/-!
# Back edges

The blocks that control can get to are those with a path from the entry, and the back edges that a
depth-first walk finds are what has to be cut for these blocks to lie on no cycle.

* `FlowGraph.Connects` : paths along the edges;
* `FlowGraph.mem_reachable` : growing the entry by successors finds every block with a path from it;
* `FlowGraph.Explored` : what a walk knows about the blocks that it came to;
* `FlowGraph.Taken.visit`, `FlowGraph.Taken.foldl` : one edge of a block, and all that are left;
* `FlowGraph.Explored.walk` : a walk from a block leaves the block;
* `FlowGraph.backEdges_break_cycles` : back edges, as edges on cycles and as a cut.
-/

namespace ThreeAddress

open Relation

namespace FlowGraph

variable {g : FlowGraph} {l m root : Label} {s : SortedSet Label}

/-- There is a path along the edges from one block to another. -/
def Connects (g : FlowGraph) : Label → Label → Prop := ReflTransGen fun l m => m ∈ g.succs l

/-! ## Edges -/

theorem exists_of_mem_withSuccs {bs : List Block} {e : Block × List Label} (h : e ∈ withSuccs bs) :
    e.1 ∈ bs ∧ ∃ next, e.2 = e.1.succs next := by
  induction bs with
  | nil => cases h
  | cons b bs ih =>
    rcases List.mem_cons.1 h with rfl | h
    · exact ⟨List.mem_cons_self, _, rfl⟩
    · exact ⟨List.mem_cons_of_mem _ (ih h).1, (ih h).2⟩

/-- The edges that leave a block are those of the first block with its label. -/
theorem succs_cases (g : FlowGraph) (l : Label) :
    g.succs l = [] ∨ ∃ e ∈ withSuccs g.blocks, e.1.label = l ∧ g.succs l = e.2 := by
  rw [succs]
  cases found : (withSuccs g.blocks).find? fun e => e.1.label == l with
  | none => exact .inl rfl
  | some e =>
    have label : e.1.label = l := by simpa using List.find?_some found
    exact .inr ⟨e, List.mem_of_find?_eq_some found, label, rfl⟩

theorem mem_edges_of_mem_succs (edge : m ∈ g.succs l) : (l, m) ∈ g.edges := by
  rcases g.succs_cases l with none | ⟨e, he, rfl, exits⟩
  · rw [none] at edge
    cases edge
  · exact List.mem_flatMap.2 ⟨e, he, List.mem_map_of_mem (exits ▸ edge)⟩

theorem mem_labels_of_mem_succs (edge : m ∈ g.succs l) : l ∈ g.labels := by
  obtain ⟨e, he, mem⟩ := List.mem_flatMap.1 (mem_edges_of_mem_succs edge)
  obtain ⟨_, _, same⟩ := List.mem_map.1 mem
  obtain ⟨rfl, -⟩ := Prod.mk.inj same
  exact List.mem_map_of_mem (exists_of_mem_withSuccs he).1

/-! ## Reachable blocks -/

/-- No edge leaves the set. -/
def Sealed (g : FlowGraph) (s : SortedSet Label) : Prop := ∀ l ∈ s, ∀ m ∈ g.succs l, m ∈ s

theorem Sealed.mem_of_path (h : g.Sealed s) (hl : l ∈ s) (path : g.Connects l m) : m ∈ s := by
  induction path with
  | refl => exact hl
  | tail _ edge ih => exact h _ ih _ edge

/-- One round: the successors of every block of a set are added. -/
def widen (g : FlowGraph) (s : SortedSet Label) : SortedSet Label :=
  s.toList.foldl (fun t l => (g.succs l).foldl SortedSet.insert t) s

theorem grow_succ (g : FlowGraph) (rounds : Nat) (s : SortedSet Label) :
    g.grow (rounds + 1) s = if g.widen s = s then s else g.grow rounds (g.widen s) := rfl

theorem mem_widen : m ∈ g.widen s ↔ m ∈ s ∨ ∃ l ∈ s, m ∈ g.succs l := by
  have all : ∀ (ls : List Label) (t : SortedSet Label),
      m ∈ ls.foldl (fun t l => (g.succs l).foldl SortedSet.insert t) t ↔
        m ∈ t ∨ ∃ l ∈ ls, m ∈ g.succs l := by
    intro ls
    induction ls with
    | nil => simp
    | cons l ls ih =>
      intro t
      rw [List.foldl_cons, ih, SortedSet.mem_foldl_insert]
      simp only [List.mem_cons, exists_eq_or_imp]
      tauto
  exact all s.toList s

theorem widen_eq_self_iff : g.widen s = s ↔ g.Sealed s := by
  constructor
  · intro same l hl m edge
    rw [← same, mem_widen]
    exact .inr ⟨l, hl, edge⟩
  · intro full
    apply SortedSet.ext
    intro m
    rw [mem_widen, or_iff_left_iff_imp]
    rintro ⟨l, hl, edge⟩
    exact full l hl m edge

theorem grow_of_sealed (h : g.Sealed s) (rounds : Nat) : g.grow rounds s = s := by
  cases rounds with
  | zero => rfl
  | succ rounds => rw [grow_succ, if_pos (widen_eq_self_iff.2 h)]

theorem subset_grow (rounds : Nat) (hl : l ∈ s) : l ∈ g.grow rounds s := by
  induction rounds generalizing s with
  | zero => exact hl
  | succ rounds ih =>
    rw [grow_succ]
    split
    · exact hl
    · exact ih (mem_widen.2 (.inl hl))

/-- Only what has a path from the set is added. -/
theorem path_of_mem_grow (paths : ∀ m ∈ s, g.Connects root m) (rounds : Nat) :
    ∀ m ∈ g.grow rounds s, g.Connects root m := by
  induction rounds generalizing s with
  | zero => exact paths
  | succ rounds ih =>
    rw [grow_succ]
    split
    · exact paths
    · apply ih
      intro m hm
      rcases mem_widen.1 hm with hm | ⟨l, hl, edge⟩
      · exact paths m hm
      · exact (paths l hl).tail edge

/-- A set of blocks has no more of them than the graph. -/
theorem size_blocks_le (g : FlowGraph) (s : SortedSet Label) :
    (s.filter (· ∈ g.labels)).size ≤ g.blocks.length := by
  have sub : (s.filter (· ∈ g.labels)).toList ⊆ g.labels := by
    intro l hl
    exact of_decide_eq_true (SortedSet.mem_filter.1 hl).2
  have bound := (List.subperm_of_subset (SortedSet.nodup_toList _) sub).length_le
  rwa [labels, List.length_map] at bound

/-- A round that adds no block is the last but one, so the rounds need not be more than the blocks
that are missing. -/
theorem sealed_grow {rounds : Nat}
    (enough : g.blocks.length < rounds + (s.filter (· ∈ g.labels)).size) :
    g.Sealed (g.grow rounds s) := by
  induction rounds generalizing s with
  | zero =>
    have := g.size_blocks_le s
    omega
  | succ rounds ih =>
    rw [grow_succ]
    split
    · next same => exact widen_eq_self_iff.1 same
    · by_cases same : s.filter (· ∈ g.labels) = (g.widen s).filter (· ∈ g.labels)
      · -- what was added is no block, so no edge leaves it
        have full : g.Sealed (g.widen s) := by
          intro l hl m edge
          have block : l ∈ (g.widen s).filter (· ∈ g.labels) :=
            SortedSet.mem_filter.2 ⟨hl, decide_eq_true (mem_labels_of_mem_succs edge)⟩
          rw [← same] at block
          exact mem_widen.2 (.inr ⟨l, (SortedSet.mem_filter.1 block).1, edge⟩)
        rwa [grow_of_sealed full]
      · have more := SortedSet.size_lt (fun l hl => by
          obtain ⟨hl, block⟩ := SortedSet.mem_filter.1 hl
          exact SortedSet.mem_filter.2 ⟨mem_widen.2 (.inl hl), block⟩) same
        apply ih
        omega

/-- The blocks that control can get to are those with a path from the entry. -/
theorem mem_reachable : l ∈ g.reachable ↔ ∃ entry, g.entry? = some entry ∧ g.Connects entry l := by
  rw [reachable]
  cases first : g.entry? with
  | none =>
    have empty : g.blocks = [] := by
      simpa [labels, entry?] using first
    simp [empty, grow]
  | some entry =>
    simp only [Option.toList_some, Option.some.injEq, exists_eq_left']
    have mem : ∀ {m}, m ∈ SortedSet.ofList [entry] ↔ m = entry := by simp
    constructor
    · apply path_of_mem_grow
      intro m hm
      rw [mem.1 hm]
      exact .refl
    · have block : entry ∈ (SortedSet.ofList [entry]).filter (· ∈ g.labels) :=
        SortedSet.mem_filter.2 ⟨mem.2 rfl, decide_eq_true (List.mem_of_head? first)⟩
      have one : 0 < ((SortedSet.ofList [entry]).filter (· ∈ g.labels)).size :=
        List.length_pos_of_mem block
      apply (sealed_grow (by omega)).mem_of_path
      exact subset_grow _ (mem.2 rfl)

/-! ## The path of a walk -/

variable {path : List Label} {next : Label} {visited : SortedSet Label} {back : List Edge}

/-- The walk went along a path without repetition to a block, from the last of the list on. -/
structure Trail (g : FlowGraph) (path : List Label) (l : Label) : Prop where
  nodup : (l :: path).Nodup
  blocks : ∀ m ∈ path, m ∈ g.labels
  path : ∀ m ∈ l :: path, g.Connects m l

theorem Trail.start (g : FlowGraph) (l : Label) : g.Trail [] l where
  nodup := List.nodup_singleton l
  blocks := by simp
  path := by
    intro m hm
    rw [List.mem_singleton.1 hm]
    exact .refl

theorem Trail.go (h : g.Trail path l) (edge : next ∈ g.succs l) (fresh : next ∉ l :: path) :
    g.Trail (l :: path) next where
  nodup := List.nodup_cons.2 ⟨fresh, h.nodup⟩
  blocks := List.forall_mem_cons.2 ⟨mem_labels_of_mem_succs edge, h.blocks⟩
  path := List.forall_mem_cons.2 ⟨.refl, fun m hm => (h.path m hm).tail edge⟩

/-- A path as long as there are blocks goes through all of them, so it cannot go on. -/
theorem Trail.succs_eq_nil (h : g.Trail path l) (long : g.blocks.length ≤ path.length) :
    g.succs l = [] := by
  rw [List.eq_nil_iff_forall_not_mem]
  intro m edge
  have sub : l :: path ⊆ g.labels :=
    List.forall_mem_cons.2 ⟨mem_labels_of_mem_succs edge, h.blocks⟩
  have bound := (List.subperm_of_subset h.nodup sub).length_le
  rw [labels, List.length_map, List.length_cons] at bound
  omega

/-! ## The walk -/

/-- An edge that is not cut leads from the second block to the first. -/
def Under (g : FlowGraph) (cut : List Edge) (m l : Label) : Prop := m ∈ g.succs l ∧ (l, m) ∉ cut

theorem Under.acc_mono {cut cut' : List Edge} (sub : cut ⊆ cut') (h : Acc (g.Under cut) l) :
    Acc (g.Under cut') l :=
  Subrelation.accessible (fun below => ⟨below.1, fun mem => below.2 (sub mem)⟩) h

/-- What a depth-first walk from a block knows when it stands at the end of a path: which blocks it
came to and which edges led back. -/
structure Explored (g : FlowGraph) (root : Label) (path : List Label) (visited : SortedSet Label)
    (back : List Edge) : Prop where
  onPath : ∀ l ∈ path, l ∈ visited
  reached : ∀ l ∈ visited, g.Connects root l
  /-- The walk has come to all blocks behind a block that it has left. -/
  left : ∀ l ∈ visited, l ∉ path → ∀ m ∈ g.succs l, m ∈ visited
  /-- Without the back edges, no path goes on and on from a block that the walk has left. -/
  settled : ∀ l ∈ visited, l ∉ path → Acc (g.Under back) l
  source : ∀ e ∈ back, e.1 ∈ visited
  cycle : ∀ e ∈ back, e.2 ∈ g.succs e.1 ∧ g.Connects e.2 e.1
  nodup : back.Nodup

/-- One successor of a block, in a walk that stands there. -/
def visit (g : FlowGraph) (path : List Label) (l : Label) (depth : Nat) :
    SortedSet Label × List Edge → Label → SortedSet Label × List Edge :=
  fun (visited, back) next =>
    if next ∈ l :: path then (visited, back ++ [(l, next)])
    else if visited.contains next then (visited, back)
    else
      let (visited, more) := g.walk (l :: path) next depth (visited.insert next)
      (visited, back ++ more)

theorem walk_succ (g : FlowGraph) (path : List Label) (l : Label) (depth : Nat)
    (visited : SortedSet Label) :
    g.walk path l (depth + 1) visited =
      (g.succs l).foldl (g.visit path l depth) (visited, []) := rfl

namespace Explored

theorem start (g : FlowGraph) (root : Label) :
    g.Explored root [root] (SortedSet.insert ∅ root) [] where
  onPath := by simp
  reached := by
    intro l hl
    obtain rfl : l = root := by simpa using hl
    exact .refl
  left := by simp
  settled := by simp
  source := by simp
  cycle := by simp
  nodup := List.nodup_nil

/-- The walk comes to another block. -/
theorem go (h : g.Explored root (l :: path) visited back) (edge : next ∈ g.succs l) :
    g.Explored root (next :: l :: path) (visited.insert next) back := by
  have kept : ∀ {m}, m ∈ visited → m ∈ visited.insert next := fun hm =>
    SortedSet.mem_insert.2 (.inr hm)
  have old : ∀ m ∈ visited.insert next, m ∉ next :: l :: path →
      m ∈ visited ∧ m ∉ l :: path := by
    intro m hm off
    obtain ⟨ne, off⟩ := not_or.1 (mt List.mem_cons.2 off)
    exact ⟨(SortedSet.mem_insert.1 hm).resolve_left ne, off⟩
  refine ⟨?_, ?_, ?_, ?_, fun e he => kept (h.source e he), h.cycle, h.nodup⟩
  · intro m hm
    rcases List.mem_cons.1 hm with rfl | hm
    · exact SortedSet.mem_insert.2 (.inl rfl)
    · exact kept (h.onPath m hm)
  · intro m hm
    rcases SortedSet.mem_insert.1 hm with rfl | hm
    · exact (h.reached l (h.onPath l List.mem_cons_self)).tail edge
    · exact h.reached m hm
  · intro m hm off k hk
    obtain ⟨hm, off⟩ := old m hm off
    exact kept (h.left m hm off k hk)
  · intro m hm off
    obtain ⟨hm, off⟩ := old m hm off
    exact h.settled m hm off

/-- The walk finds an edge back to its path. -/
theorem turn (h : g.Explored root (l :: path) visited back) (trail : g.Trail path l)
    (edge : next ∈ g.succs l) (again : next ∈ l :: path) (new : (l, next) ∉ back) :
    g.Explored root (l :: path) visited (back ++ [(l, next)]) where
  onPath := h.onPath
  reached := h.reached
  left := h.left
  settled m hm off := Under.acc_mono (List.subset_append_left _ _) (h.settled m hm off)
  source := by
    simp only [List.forall_mem_append, List.forall_mem_singleton]
    exact ⟨h.source, h.onPath l List.mem_cons_self⟩
  cycle := by
    simp only [List.forall_mem_append, List.forall_mem_singleton]
    exact ⟨h.cycle, edge, trail.path next again⟩
  nodup := List.nodup_append.2 ⟨h.nodup, List.nodup_singleton _, by grind⟩

/-- The walk leaves a block, of which each edge leads back to its path or to a block that it has
left. -/
theorem leave (h : g.Explored root (l :: path) visited back)
    (all : ∀ m ∈ g.succs l, m ∈ visited ∧ ((l, m) ∈ back ∨ m ∉ l :: path)) :
    g.Explored root path visited back where
  onPath m hm := h.onPath m (List.mem_cons_of_mem l hm)
  reached := h.reached
  left := by
    intro m hm off k hk
    by_cases same : m = l
    · exact (all k (same ▸ hk)).1
    · exact h.left m hm (by simp [same, off]) k hk
  settled := by
    intro m hm off
    by_cases same : m = l
    · rw [same]
      constructor
      rintro k ⟨edge, kept⟩
      obtain ⟨hk, cut | off⟩ := all k edge
      · exact absurd cut kept
      · exact h.settled k hk off
    · exact h.settled m hm (by simp [same, off])
  source := h.source
  cycle := h.cycle
  nodup := h.nodup

end Explored

/-- What a walk from a block brings back: it has left the block, and the edges that it found begin
there or at blocks that it came to. -/
structure Returned (g : FlowGraph) (root : Label) (path : List Label) (l : Label)
    (visited : SortedSet Label) (back : List Edge) (result : SortedSet Label × List Edge) :
    Prop where
  explored : g.Explored root path result.1 (back ++ result.2)
  grows : ∀ m ∈ visited, m ∈ result.1
  source : ∀ e ∈ result.2, e.1 = l ∨ e.1 ∉ visited

/-- What a walk that stands at a block knows when it has taken some of the edges. -/
structure Taken (g : FlowGraph) (root : Label) (path : List Label) (l : Label)
    (visited : SortedSet Label) (back : List Edge) (taken : List Label)
    (result : SortedSet Label × List Edge) : Prop where
  explored : g.Explored root (l :: path) result.1 (back ++ result.2)
  grows : ∀ m ∈ visited, m ∈ result.1
  behind : ∀ m ∈ taken, m ∈ result.1 ∧ ((l, m) ∈ back ++ result.2 ∨ m ∉ l :: path)
  source : ∀ e ∈ result.2, e.1 = l ∧ e.2 ∈ taken ∨ e.1 ∉ visited

namespace Taken

variable {taken : List Label} {result : SortedSet Label × List Edge}

theorem start (h : g.Explored root (l :: path) visited back) :
    g.Taken root path l visited back [] (visited, []) where
  explored := by simpa using h
  grows _ hm := hm
  behind := by simp
  source := by simp

theorem returned (h : g.Taken root path l visited back (g.succs l) result) :
    g.Returned root path l visited back result where
  explored := h.explored.leave h.behind
  grows := h.grows
  source e he := (h.source e he).imp_left And.left

/-- One more edge was taken. -/
theorem more {seen seen' : SortedSet Label} {found extra : List Edge}
    (h : g.Taken root path l visited back taken (seen, found))
    (explored : g.Explored root (l :: path) seen' (back ++ (found ++ extra)))
    (grows : ∀ m ∈ seen, m ∈ seen')
    (behind : next ∈ seen' ∧ ((l, next) ∈ extra ∨ next ∉ l :: path))
    (source : ∀ e ∈ extra, e = (l, next) ∨ e.1 ∉ visited) :
    g.Taken root path l visited back (taken ++ [next]) (seen', found ++ extra) where
  explored := explored
  grows m hm := grows m (h.grows m hm)
  behind := by
    simp only [← List.append_assoc]
    refine List.forall_mem_append.2 ⟨?_, List.forall_mem_singleton.2 ?_⟩
    · intro m hm
      obtain ⟨old, edge⟩ := h.behind m hm
      exact ⟨grows m old, edge.imp_left (List.mem_append_left extra)⟩
    · exact ⟨behind.1, behind.2.imp_left (List.mem_append_right _)⟩
  source := by
    refine List.forall_mem_append.2 ⟨?_, ?_⟩
    · intro e he
      exact (h.source e he).imp_left fun ⟨here, mem⟩ => ⟨here, List.mem_append_left _ mem⟩
    · intro e he
      refine (source e he).imp_left ?_
      rintro rfl
      exact ⟨rfl, List.mem_append_right _ List.mem_cons_self⟩

/-- The next edge is taken as it should be, if a walk from its end is. -/
theorem visit {depth : Nat} (h : g.Taken root path l visited back taken result)
    (trail : g.Trail path l) (here : l ∈ visited) (unseen : ∀ e ∈ back, e.1 ≠ l)
    (edge : next ∈ g.succs l) (fresh : next ∉ taken)
    (walk : ∀ {visited back}, g.Explored root (next :: l :: path) visited back →
      g.Trail (l :: path) next → (∀ e ∈ back, e.1 ≠ next) →
      g.Returned root (l :: path) next visited back (g.walk (l :: path) next depth visited)) :
    g.Taken root path l visited back (taken ++ [next]) (g.visit path l depth result next) := by
  obtain ⟨seen, found⟩ := result
  rw [FlowGraph.visit]
  split
  · next again =>
    -- an edge that was found before begins at another block, or is another edge of this one
    have new : (l, next) ∉ back ++ found := by
      intro mem
      rcases List.mem_append.1 mem with mem | mem
      · exact unseen _ mem rfl
      · rcases h.source _ mem with ⟨-, mem⟩ | off
        · exact fresh mem
        · exact off here
    have turned := h.explored.turn trail edge again new
    rw [List.append_assoc] at turned
    exact h.more turned (fun m hm => hm) ⟨turned.onPath next again, .inl List.mem_cons_self⟩
      (by simp)
  · next off =>
    split
    · next again =>
      have explored := h.explored
      rw [← List.append_nil found] at explored ⊢
      exact h.more explored (fun m hm => hm) ⟨SortedSet.contains_eq_true.1 again, .inr off⟩
        (by simp)
    · next new =>
      have new : next ∉ seen := by simpa using new
      have result := walk (h.explored.go edge) (trail.go edge off) (by
        rintro e he rfl
        exact new (h.explored.source e he))
      have explored := result.explored
      rw [List.append_assoc] at explored
      refine h.more explored (fun m hm => ?_) ⟨?_, .inr off⟩ fun e he => .inr fun old => ?_
      · exact result.grows m (SortedSet.mem_insert.2 (.inr hm))
      · exact result.grows next (SortedSet.mem_insert.2 (.inl rfl))
      · rcases result.source e he with rfl | off
        · exact new (h.grows _ old)
        · exact off (SortedSet.mem_insert.2 (.inr (h.grows _ old)))

/-- All edges that are left are taken one by one, so none is taken twice. -/
theorem foldl {depth : Nat} {rest : List Label} (nodup : (g.succs l).Nodup)
    (trail : g.Trail path l) (here : l ∈ visited) (unseen : ∀ e ∈ back, e.1 ≠ l)
    (walk : ∀ {next visited back}, g.Explored root (next :: l :: path) visited back →
      g.Trail (l :: path) next → (∀ e ∈ back, e.1 ≠ next) →
      g.Returned root (l :: path) next visited back (g.walk (l :: path) next depth visited))
    (h : g.Taken root path l visited back taken result) (split : g.succs l = taken ++ rest) :
    g.Taken root path l visited back (g.succs l) (rest.foldl (g.visit path l depth) result) := by
  induction rest generalizing taken result with
  | nil =>
    rw [split, List.append_nil]
    exact h
  | cons next rest ih =>
    have fresh : next ∉ taken := by
      rw [split] at nodup
      exact fun mem => List.disjoint_of_nodup_append nodup mem List.mem_cons_self
    apply ih (h.visit trail here unseen (by simp [split]) fresh walk)
    rw [split, List.append_assoc]
    rfl

end Taken

/-- A walk from the end of a path leaves the block there. The induction is on the number of blocks
that the path may still get longer by; at zero no edge can leave it. -/
theorem Explored.walk {depth : Nat} (h : g.Explored root (l :: path) visited back)
    (trail : g.Trail path l) (unseen : ∀ e ∈ back, e.1 ≠ l)
    (deep : g.blocks.length ≤ depth + path.length) :
    g.Returned root path l visited back (g.walk path l depth visited) := by
  induction depth generalizing path l visited back with
  | zero =>
    have none := trail.succs_eq_nil (by simpa using deep)
    have start := Taken.start h
    rw [← none] at start
    exact start.returned
  | succ depth ih =>
    rw [walk_succ]
    have nodup : (g.succs l).Nodup := by
      rcases g.succs_cases l with none | ⟨e, he, -, exits⟩
      · exact none ▸ List.nodup_nil
      · obtain ⟨-, next, same⟩ := exists_of_mem_withSuccs he
        exact exits ▸ same ▸ e.1.nodup_succs next
    have taken := (Taken.start h).foldl nodup trail (h.onPath l List.mem_cons_self) unseen
      (fun h trail unseen => ih h trail unseen (by rw [List.length_cons]; omega)) rfl
    exact taken.returned

/-! ## Back edges -/

/-- An edge between two blocks that control can get to, and not one of those that are cut. -/
def Remains (g : FlowGraph) (cut : List Edge) (l m : Label) : Prop :=
  (l ∈ g.reachable ∧ m ∈ g.reachable) ∧ m ∈ g.succs l ∧ (l, m) ∉ cut

/-- Without the edges that are cut, no block that control can get to lies on a cycle. -/
def Acyclic (g : FlowGraph) (cut : List Edge) : Prop := ∀ l, ¬ TransGen (g.Remains cut) l l

theorem mem_reachable_of_mem_succs (hl : l ∈ g.reachable) (edge : m ∈ g.succs l) :
    m ∈ g.reachable := by
  obtain ⟨entry, first, path⟩ := mem_reachable.1 hl
  exact mem_reachable.2 ⟨entry, first, path.tail edge⟩

/-- A path from a block that control can get to stays in the part of the graph that is reachable. -/
theorem Connects.remains (h : g.Connects l m) (hl : l ∈ g.reachable) :
    ReflTransGen (g.Remains []) l m := by
  induction h using ReflTransGen.head_induction_on with
  | refl => exact .refl
  | head edge _ ih =>
    have next := mem_reachable_of_mem_succs hl edge
    exact .head ⟨⟨hl, next⟩, edge, List.not_mem_nil⟩ (ih next)

/-- When the walk from the entry is over, it came to the blocks that control can get to, and to no
others. -/
theorem exists_explored (g : FlowGraph) : ∃ root, g.Explored root [] g.reachable g.backEdges := by
  cases first : g.entry? with
  | none =>
    have empty : g.reachable = ∅ := by
      apply SortedSet.ext
      simp [mem_reachable, first]
    have none : g.backEdges = [] := by rw [backEdges, first]
    rw [empty, none]
    exact ⟨default, by constructor <;> simp⟩
  | some root =>
    obtain ⟨visited, explored, start⟩ : ∃ visited, g.Explored root [] visited g.backEdges ∧
        root ∈ visited := by
      have walked := (Explored.start g root).walk (Trail.start g root) (by simp)
        (Nat.le_add_right _ _)
      refine ⟨_, ?_, walked.grows root (SortedSet.mem_insert.2 (.inl rfl))⟩
      rw [backEdges, first]
      exact walked.explored
    have same : visited = g.reachable := by
      apply SortedSet.ext
      intro l
      rw [mem_reachable]
      constructor
      · intro hl
        exact ⟨root, first, explored.reached l hl⟩
      · rintro ⟨entry, again, path⟩
        obtain rfl : root = entry := Option.some.inj (first.symm.trans again)
        have full : g.Sealed visited := fun l hl => explored.left l hl List.not_mem_nil
        exact full.mem_of_path start path
    exact ⟨root, same ▸ explored⟩

/-- What has only finitely long paths below it lies on no cycle. -/
theorem Explored.acyclic (h : g.Explored root [] g.reachable back) : g.Acyclic back := by
  intro l cycle
  have reached : l ∈ g.reachable := by
    obtain ⟨m, first, -⟩ := TransGen.head'_iff.1 cycle
    exact first.1.1
  have below : TransGen (g.Under back) l l :=
    transGen_swap.1 (TransGen.mono (fun l m kept => kept.2) l l cycle)
  have acc := (h.settled l reached List.not_mem_nil).transGen
  induction acc with
  | intro l _ ih => exact ih l below cycle reached below

/-- A back edge is an edge of the part of the graph that is reachable, and lies on a cycle there. -/
theorem cycle_of_mem_backEdges {e : Edge} (he : e ∈ g.backEdges) :
    e ∈ g.edges ∧ (e.1 ∈ g.reachable ∧ e.2 ∈ g.reachable) ∧
      e.2 ∈ g.succs e.1 ∧ g.Connects e.2 e.1 := by
  obtain ⟨root, explored⟩ := g.exists_explored
  obtain ⟨edge, path⟩ := explored.cycle e he
  have reached := explored.source e he
  have next := mem_reachable_of_mem_succs reached edge
  exact ⟨mem_edges_of_mem_succs edge, ⟨reached, next⟩, edge, path⟩

/-- The blocks that control can get to are those with a path from the entry. Each back edge is an
edge between two of them and lies on a cycle, and none is listed twice. Without the back edges these
blocks lie on no cycle; so there are none exactly if no cycle is there. -/
theorem backEdges_break_cycles (g : FlowGraph) :
    (∀ l, l ∈ g.reachable ↔ ∃ entry, g.entry? = some entry ∧ g.Connects entry l) ∧
    (∀ e ∈ g.backEdges, e ∈ g.edges ∧ (e.1 ∈ g.reachable ∧ e.2 ∈ g.reachable) ∧
      e.2 ∈ g.succs e.1 ∧ g.Connects e.2 e.1) ∧
    g.backEdges.Nodup ∧ g.Acyclic g.backEdges ∧ (g.backEdges = [] ↔ g.Acyclic []) := by
  obtain ⟨root, explored⟩ := g.exists_explored
  have acyclic := explored.acyclic
  refine ⟨fun l => mem_reachable, fun e => cycle_of_mem_backEdges, explored.nodup, acyclic, ?_⟩
  constructor
  · intro none
    exact none ▸ acyclic
  · intro acyclic
    rw [List.eq_nil_iff_forall_not_mem]
    intro e he
    obtain ⟨-, reached, edge, path⟩ := cycle_of_mem_backEdges he
    have first : g.Remains [] e.1 e.2 := ⟨reached, edge, List.not_mem_nil⟩
    exact acyclic e.1 (TransGen.head' first (path.remains reached.2))

/-- The entry leads into a loop at two places: the edge back to the block that the walk comes to
first is found. The last block cannot be reached, and its edge to the entry is no back edge. -/
example :
    let x : Var := .temp ⟨"x", none⟩
    let g : FlowGraph := ⟨⟨"main"⟩, [], [
      ⟨⟨"a"⟩, true, [.branch .zero x ⟨"c"⟩]⟩,
      ⟨⟨"b"⟩, true, []⟩,
      ⟨⟨"c"⟩, true, [.jump ⟨"b"⟩]⟩,
      ⟨⟨"d"⟩, true, [.jump ⟨"a"⟩]⟩]⟩
    g.backEdges = [(⟨"b"⟩, ⟨"c"⟩)] := by decide

end FlowGraph

end ThreeAddress
