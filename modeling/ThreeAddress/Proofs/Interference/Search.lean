import Mathlib.Data.List.Perm.Basic
import ThreeAddress.Proofs.Interference.Allocation
/-!
# The order of the search

The order takes every node once, and each time one with most neighbors before it. Everything that is
proved of the order elsewhere follows from these two facts.

* `InterferenceGraph.joins` : how many of a list are neighbors of a temporary;
* `InterferenceGraph.MostJoined` : orders that go on with a node that has most neighbors so far;
* `InterferenceGraph.perm_cardinalityOrder`, `InterferenceGraph.mostJoined_cardinalityOrder` : the
  order is one of them, and takes every node once.
-/

namespace ThreeAddress

/-- What the measure finds is greatest. -/
theorem le_of_firstGreatest? {α : Type} {f : α → Nat} {l : List α} {a : α}
    (h : firstGreatest? f l = some a) : ∀ b ∈ l, f b ≤ f a := by
  induction l generalizing a with
  | nil => cases h
  | cons c rest ih =>
    rw [firstGreatest?] at h
    cases found : firstGreatest? f rest with
    | none =>
      obtain rfl := firstGreatest?_eq_none.1 found
      simp only [found, Option.some.injEq] at h
      subst h
      exact fun b hb => Nat.le_of_eq (congrArg f (List.mem_singleton.1 hb))
    | some d =>
      have rest_le := ih found
      simp only [found] at h
      by_cases less : f c < f d
      · simp only [if_pos less, Option.some.injEq] at h
        subst h
        exact List.forall_mem_cons.2 ⟨Nat.le_of_lt less, rest_le⟩
      · simp only [if_neg less, Option.some.injEq] at h
        subst h
        exact List.forall_mem_cons.2
          ⟨Nat.le_refl _, fun b hb => Nat.le_trans (rest_le b hb) (Nat.le_of_not_lt less)⟩

namespace InterferenceGraph

variable {g : InterferenceGraph} {before mid after order : List Temp} {t u next : Temp}

/-! ## Neighbors before -/

/-- How many of a list are neighbors of a temporary. -/
def joins (g : InterferenceGraph) (before : List Temp) (t : Temp) : Nat :=
  before.countP fun u => (g.neighbors t).contains u

theorem joins_concat :
    g.joins (before ++ [next]) t =
      if (g.neighbors next).contains t then g.joins before t + 1 else g.joins before t := by
  have same : (g.neighbors t).contains next = (g.neighbors next).contains t :=
    Bool.eq_iff_iff.2 (by simp only [SortedSet.contains_eq_true]; exact ⟨neighbors_symm, neighbors_symm⟩)
  rw [joins, List.countP_append, List.countP_singleton, same]
  split <;> rfl

/-- If one temporary has all the neighbors of another in a list and one more, it has more. -/
theorem joins_lt (every : ∀ d ∈ before, d ∈ g.neighbors t → d ∈ g.neighbors u) {a : Temp}
    (mem : a ∈ before) (more : a ∈ g.neighbors u) (less : a ∉ g.neighbors t) :
    g.joins before t < g.joins before u := by
  obtain ⟨front, back, rfl⟩ := List.append_of_mem mem
  have part : ∀ l : List Temp, (∀ d ∈ l, d ∈ front ++ a :: back) → g.joins l t ≤ g.joins l u :=
    fun l sub => List.countP_mono_left fun d hd => by
      simp only [SortedSet.contains_eq_true]
      exact every d (sub d hd)
  have le₁ := part front (by simp +contextual)
  have le₂ := part back (by simp +contextual)
  have no : (g.neighbors t).contains a = false :=
    Bool.eq_false_iff.2 fun h => less (SortedSet.contains_eq_true.1 h)
  have yes : (g.neighbors u).contains a = true := SortedSet.contains_eq_true.2 more
  simp only [joins, List.countP_append, List.countP_cons, no, yes] at le₁ le₂ ⊢
  simp
  omega

/-- At every place stands a node that has as many neighbors before it as any of the later ones. -/
def MostJoined (g : InterferenceGraph) (order : List Temp) : Prop :=
  ∀ before t after, order = before ++ t :: after → ∀ u ∈ after, g.joins before u ≤ g.joins before t

/-! ## The search -/

/-- One step of the search counts the neighbors before the nodes that are left, so every later step
takes a node that has most of them. -/
theorem joins_le_of_continueOrder {left : Nat} {weights : List (Temp × Nat)}
    (enough : weights.length ≤ left) (counted : ∀ e ∈ weights, e.2 = g.joins before e.1)
    (split : g.continueOrder left weights = mid ++ t :: after) (hu : u ∈ after) :
    g.joins (before ++ mid) u ≤ g.joins (before ++ mid) t := by
  induction left generalizing weights before mid with
  | zero => simp [continueOrder] at split
  | succ left ih =>
    cases found : firstGreatest? Prod.snd weights with
    | none => simp [continueOrder, found] at split
    | some e =>
      obtain ⟨next, w⟩ := e
      have mem := mem_of_firstGreatest? found
      have fewer := length_reweigh_le (g := g) enough mem
      rw [continueOrder_of_firstGreatest? found] at split
      cases mid with
      | nil =>
        obtain ⟨rfl, rfl⟩ := List.cons.inj split
        have left_ := (mem_keys_reweigh.1 ((mem_continueOrder fewer).1 hu)).2
        obtain ⟨⟨v, x⟩, he, rfl⟩ := List.mem_map.1 left_
        rw [List.append_nil, ← counted _ he, ← counted _ mem]
        exact le_of_firstGreatest? found _ he
      | cons m mid =>
        obtain ⟨rfl, split'⟩ := List.cons.inj split
        have counted' : ∀ e ∈ g.reweigh next weights, e.2 = g.joins (before ++ [next]) e.1 := by
          intro e he
          obtain ⟨x, hx, -, same⟩ := mem_reweigh.1 he
          rw [joins_concat, ← counted _ hx]
          exact same
        have := ih fewer counted' split'
        rwa [List.append_assoc, List.singleton_append] at this

theorem nodup_continueOrder {left : Nat} {weights : List (Temp × Nat)}
    (enough : weights.length ≤ left) : (g.continueOrder left weights).Nodup := by
  induction left generalizing weights with
  | zero => exact List.nodup_nil
  | succ left ih =>
    cases found : firstGreatest? Prod.snd weights with
    | none =>
      simp only [continueOrder, found]
      exact List.nodup_nil
    | some e =>
      obtain ⟨next, w⟩ := e
      have fewer := length_reweigh_le (g := g) enough (mem_of_firstGreatest? found)
      rw [continueOrder_of_firstGreatest? found]
      refine List.nodup_cons.2 ⟨fun again => ?_, ih fewer⟩
      exact (mem_keys_reweigh.1 ((mem_continueOrder fewer).1 again)).1 rfl

theorem length_weights (g : InterferenceGraph) : (g.nodes.map fun t => (t, 0)).length ≤ g.size :=
  Nat.le_of_eq ((List.length_map _).trans g.size_eq.symm)

theorem nodup_cardinalityOrder (g : InterferenceGraph) : g.cardinalityOrder.Nodup :=
  nodup_continueOrder g.length_weights

/-- The order takes every node once. -/
theorem perm_cardinalityOrder (g : InterferenceGraph) : g.cardinalityOrder.Perm g.nodes :=
  (List.perm_ext_iff_of_nodup g.nodup_cardinalityOrder g.nodup_nodes).2 fun _ => mem_cardinalityOrder

/-- The order always goes on with a node that has most neighbors before it. -/
theorem mostJoined_cardinalityOrder (g : InterferenceGraph) : g.MostJoined g.cardinalityOrder := by
  intro before t after split u hu
  have none : ∀ e ∈ g.nodes.map fun t => (t, 0), e.2 = g.joins [] e.1 := by simp [joins]
  exact joins_le_of_continueOrder g.length_weights none split hu

end InterferenceGraph

end ThreeAddress
