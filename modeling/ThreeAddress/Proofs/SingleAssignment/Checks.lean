import ThreeAddress.Proofs.FlowGraph.Build
import ThreeAddress.Proofs.Results
import ThreeAddress.SingleAssignment.Check
/-!
# What the checks of single assignment say

The checks look for one offence after the other. They find none if every temporary has one
definition, no parameter has any, and every phi has arguments for the edges into its block.

* `FlowGraph.checkDefinitions_eq_ok` : definitions pass if they are not repeated;
* `FlowGraph.checkPhis_eq_ok` : phis pass if the arguments of each match its block;
* `FlowGraph.phiMatches_iff` : the arguments match if there is one for each edge, and no other.
-/

namespace ThreeAddress

namespace FlowGraph

variable {g : FlowGraph}

/-- Definitions pass if no temporary has two, and no parameter has one. -/
theorem checkDefinitions_eq_ok :
    g.checkDefinitions = .ok () ↔ g.defs.Nodup ∧ ∀ d ∈ g.defs, d ∉ g.params := by
  rw [← firstRepeated?_eq_none, checkDefinitions]
  cases firstRepeated? g.params g.defs <;> simp

/-- Phis pass if each matches its block. -/
theorem checkPhis_eq_ok : g.checkPhis = .ok () ↔
    ∀ b ∈ g.blocks, ∀ dest args, .phi dest args ∈ b.phis → g.phiMatches b.label args = true := by
  rw [checkPhis, forM_eq_ok]
  refine forall₂_congr fun b _ => ?_
  rw [forM_eq_ok]
  constructor
  · intro all dest args mem
    simpa using all _ mem
  · intro all i mem
    cases i with
    | phi dest args => simp [all dest args mem]
    | _ => rfl

/-- The arguments of a phi match a block if there is one for each edge into it, and none for other
edges; only in the first block there may be one for the entry. -/
theorem phiMatches_iff {l : Label} {args : SortedMap Origin Temp} : g.phiMatches l args = true ↔
    (∀ p, (∃ t, args.get? (.block p) = some t) ↔ p ∈ g.preds l) ∧
      (g.entry? ≠ some l → args.get? .entry = none) := by
  have key : ∀ o, o ∈ args.keys ↔ ∃ t, args.get? o = some t := fun o => SortedMap.mem_keys
  have edge : ∀ o, o ∈ g.phiEdges l ↔ ∃ p ∈ g.preds l, .block p = o := fun o => by
    rw [phiEdges, SortedSet.mem_ofList, List.mem_map]
  have found : ∀ o, o ∈ (if g.entry? = some l then (SortedSet.ofList args.keys).erase .entry
      else .ofList args.keys) ↔ (o = .entry → g.entry? ≠ some l) ∧ ∃ t, args.get? o = some t := by
    intro o
    by_cases first : g.entry? = some l
    · simp [first, key]
    · simp [first, key]
  rw [phiMatches, beq_iff_eq]
  constructor
  · intro same
    have same : ∀ o, (o = .entry → g.entry? ≠ some l) ∧ (∃ t, args.get? o = some t) ↔
        ∃ p ∈ g.preds l, .block p = o := fun o => by rw [← found, ← edge, same]
    refine ⟨fun p => by simpa using same (.block p), fun other => ?_⟩
    cases value : args.get? .entry with
    | none => rfl
    | some t =>
      obtain ⟨p, -, e⟩ := (same .entry).1 ⟨fun _ => other, t, value⟩
      cases e
  · rintro ⟨blocks, entry⟩
    refine SortedSet.ext fun o => ?_
    rw [found, edge]
    cases o with
    | entry =>
      constructor
      · rintro ⟨other, t, value⟩
        rw [entry (other rfl)] at value
        cases value
      · rintro ⟨p, -, e⟩
        cases e
    | block p => simp [blocks]

end FlowGraph

end ThreeAddress
