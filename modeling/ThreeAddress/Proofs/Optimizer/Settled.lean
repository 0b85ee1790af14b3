import ThreeAddress.Compilation.Basic
import ThreeAddress.Proofs.Optimizer.Circles
/-!
# Propagating copies once is enough

Within blocks, propagation leaves nothing for a second one to do: what is known to be a copy is read
by the name of a temporary that is none. In the whole procedure the same holds unless copies go
round in a circle. There every propagation may give each of them another source on the circle, and
the optimizer goes on until its rounds are used up.

* `Copies.Flat` : no source is a copy;
* `propagateBody_again` : propagation within a block;
* `FlowGraph.propagateGlobally_again_iff` : propagation in the whole procedure;
* `FlowGraph.propagateCopies_settles` : both, and what they mean for the optimizer;
* `FlowGraph.propagateCopies_rotates` : three copies that go round in a circle.
-/

namespace ThreeAddress

open Function

/-! ## Renamings that change nothing -/

theorem Var.rename_eq_self {f : Temp → Temp} {v : Var} (h : ∀ t, v.named? = some t → f t = t) :
    v.rename f = v := by
  rcases v.cases_named with ⟨t, rfl, -, hn⟩ | ⟨rfl, hn⟩ | ⟨g, rfl, hn⟩
  · simp [rename, hn, h t hn]
  · simp [rename, hn]
  · simp [rename, hn]

namespace Instr

theorem mapUses_eq_self {f : Temp → Temp} {i : Instr} (h : ∀ t ∈ i.uses, f t = t) :
    i.mapUses f = i := by
  have operand : ∀ v ∈ i.operands, v.rename f = v := by
    intro v hv
    apply Var.rename_eq_self
    intro t named
    exact h t (List.mem_filterMap.2 ⟨v, hv, named⟩)
  cases i with
  | branch test arg target => simp [mapUses, operand arg (by simp [operands])]
  | binary op dest lhs rhs =>
    simp [mapUses, operand lhs (by simp [operands]), operand rhs (by simp [operands])]
  | unary op dest arg => simp [mapUses, operand arg (by simp [operands])]
  | copy dest src => simp [mapUses, operand src (by simp [operands])]
  | param index arg => simp [mapUses, operand arg (by simp [operands])]
  | ret arg => simp [mapUses, operand arg (by simp [operands])]
  | print arg => simp [mapUses, operand arg (by simp [operands])]
  | _ => rfl

/-- If an instruction is the same, so is everything that it reads. -/
theorem eq_of_mapUses_eq_self {f : Temp → Temp} {i : Instr} (same : i.mapUses f = i) {t : Temp}
    (ht : t ∈ i.uses) : f t = t := by
  obtain ⟨v, hv, named⟩ := List.mem_filterMap.1 ht
  have operands : i.operands.map (Var.rename f) = i.operands := by
    rw [← operands_mapUses, same]
  have operand := List.map_inj_left.1 (operands.trans (List.map_id _).symm) v hv
  obtain ⟨rfl, -⟩ := Var.not_isSink_of_named named
  simpa [Var.rename, named] using operand

theorem mapReads_eq_self {f : Temp → Temp} {i : Instr} (uses : ∀ t ∈ i.uses, f t = t)
    (args : ∀ t ∈ i.phiArgs, f t = t) : i.mapReads f = i := by
  rw [mapReads, mapUses_eq_self uses]
  cases i with
  | phi dest choices =>
    refine congrArg (phi dest) (SortedMap.ext fun k => ?_)
    rw [SortedMap.get?_map]
    cases arg : choices.get? k with
    | none => rfl
    | some t =>
      have mem : t ∈ choices.values :=
        List.mem_map.2 ⟨(k, t), SortedMap.get?_eq_some.1 arg, rfl⟩
      simp [args t mem]
  | _ => rfl

end Instr

theorem FlowGraph.mapInstrs_eq_self_iff {g : FlowGraph} {f : Instr → Instr} :
    g.mapInstrs f = g ↔ ∀ i ∈ g.code, f i = i := by
  obtain ⟨name, params, blocks⟩ := g
  simp only [mapInstrs, mapBodies, mk.injEq, true_and, code, List.mem_flatMap]
  constructor
  · rintro same i ⟨b, hb, hi⟩
    have block := List.map_inj_left.1 (same.trans (List.map_id _).symm) b hb
    have body : b.body.map f = b.body := congrArg Block.body block
    exact List.map_inj_left.1 (body.trans (List.map_id _).symm) i hi
  · intro same
    refine (List.map_congr_left fun b hb => ?_).trans (List.map_id blocks)
    have body : b.body.map f = b.body :=
      (List.map_congr_left fun i hi => same i ⟨b, hb, hi⟩).trans (List.map_id b.body)
    rw [body]
    rfl

/-! ## Within a block -/

namespace Copies

variable {copies : Copies} {i : Instr}

/-- No source is a copy of anything. -/
def Flat (copies : Copies) : Prop :=
  ∀ t s, SortedMap.get? copies t = some s → SortedMap.get? copies s = none

theorem flat_empty : Flat ∅ := by
  intro t s h
  rw [SortedMap.get?_empty] at h
  cases h

/-- What is read instead of a copy is no copy. -/
theorem Flat.get?_resolve (h : copies.Flat) (t : Temp) :
    SortedMap.get? copies (copies.resolve t) = none := by
  rw [resolve_eq]
  cases found : SortedMap.get? copies t with
  | none => rwa [iterate_of_none found]
  | some s =>
    rw [iterate_succ_apply, source_of_some found, iterate_of_none (h t s found)]
    exact h t s found

theorem Flat.resolve_resolve (h : copies.Flat) (t : Temp) :
    copies.resolve (copies.resolve t) = copies.resolve t := by
  rw [resolve_eq copies (copies.resolve t), iterate_of_none (h.get?_resolve t)]

/-- Behind an instruction that was propagated to, still no source is a copy. -/
theorem Flat.after (h : copies.Flat) : (copies.after (i.mapUses copies.resolve)).Flat := by
  intro t s found
  rw [Option.eq_none_iff_forall_ne_some]
  intro r found'
  rcases get?_after found with copy | ⟨old, -, kept⟩
  · obtain ⟨dest, v, u, rfl, -, -, rfl, ne⟩ := Instr.exists_of_tempCopy?_mapUses copy
    rcases get?_after found' with copy' | ⟨old', -, -⟩
    · rw [copy] at copy'
      cases copy'
      exact ne rfl
    · rw [h.get?_resolve] at old'
      cases old'
  · rcases get?_after found' with copy' | ⟨old', -, -⟩
    · exact kept (Instr.def?_of_tempCopy? copy').1
    · rw [h t s old] at old'
      cases old'

end Copies

/-- The second propagation through a block knows the same copies as the first, and reads nothing
that is a copy. -/
theorem propagateBody_again {copies : Copies} (flat : copies.Flat) (code : List Instr) :
    propagateBody copies (propagateBody copies code) = propagateBody copies code := by
  induction code generalizing copies with
  | nil => rfl
  | cons i rest ih =>
    have same : (i.mapUses copies.resolve).mapUses copies.resolve = i.mapUses copies.resolve := by
      apply Instr.mapUses_eq_self
      intro t ht
      obtain ⟨u, -, rfl⟩ := Instr.exists_of_mem_uses_mapUses ht
      exact flat.resolve_resolve u
    simp only [propagateBody, same]
    rw [ih flat.after]

namespace FlowGraph

variable {g : FlowGraph}

theorem propagateLocally_again (g : FlowGraph) :
    g.propagateLocally.propagateLocally = g.propagateLocally := by
  simp only [propagateLocally, mapBodies, List.map_map, mk.injEq, true_and]
  refine List.map_congr_left fun b _ => ?_
  simp only [comp_apply, propagateBody_again Copies.flat_empty]

/-! ## In the whole procedure -/

/-- What a second propagation reads for a temporary: so many steps along the copies in front of the
first. -/
theorem resolve_propagateGlobally (g : FlowGraph) (t : Temp) :
    g.propagateGlobally.copies.resolve t = g.copies.source^[(SortedMap.size g.copies + 2) *
      (SortedMap.size g.propagateGlobally.copies + 1)] t := by
  have step : g.propagateGlobally.copies.source =
      g.copies.source^[SortedMap.size g.copies + 2] := funext (source_propagateGlobally g)
  rw [Copies.resolve_eq, step, iterate_mul]

/-- Every temporary that is read behind the propagation is the end of the way of one that is read in
front of it. -/
theorem exists_of_read_propagateGlobally {i : Instr} {t : Temp} (hi : i ∈ g.propagateGlobally.code)
    (ht : t ∈ i.uses ∨ t ∈ i.phiArgs) : ∃ u, t = g.copies.resolve u := by
  rw [code_propagateGlobally] at hi
  obtain ⟨j, -, rfl⟩ := List.mem_map.1 hi
  rcases ht with ht | ht
  · have mapped : (j.mapReads g.copies.resolve).uses = (j.mapUses g.copies.resolve).uses := by
      cases j <;> rfl
    rw [mapped] at ht
    obtain ⟨u, -, same⟩ := Instr.exists_of_mem_uses_mapUses ht
    exact ⟨u, same⟩
  · cases j with
    | phi dest args =>
      have ht : t ∈ (args.map fun _ u => g.copies.resolve u).values := ht
      rw [SortedMap.values_map] at ht
      obtain ⟨u, -, same⟩ := List.mem_map.1 ht
      exact ⟨u, same.symm⟩
    | _ => cases ht

/-- A temporary on a circle of copies is read by one of them behind the propagation. -/
theorem exists_copy_of_mem_periodicPts {t : Temp} (circle : t ∈ periodicPts g.copies.source)
    (moves : g.copies.source t ≠ t) :
    ∃ dest, .copy dest (.temp t) ∈ g.propagateGlobally.code ∧ t.isSink = false := by
  -- the copy whose way to its new source ends there
  obtain ⟨d, -, there⟩ :=
    ((bijOn_periodicPts g.copies.source).iterate (SortedMap.size g.copies + 2)).surjOn circle
  cases found : SortedMap.get? g.copies d with
  | none =>
    rw [Copies.iterate_of_none found] at there
    rw [← there, Copies.source_of_none found] at moves
    exact absurd rfl moves
  | some s =>
    rw [iterate_succ_apply, Copies.source_of_some found, ← Copies.resolve_eq] at there
    obtain ⟨-, i, hi, copy⟩ := get?_copies.1 found
    obtain ⟨dest, src, rfl, -, hs, -⟩ := Instr.tempCopy?_eq_some.1 copy
    refine ⟨dest, ?_, ?_⟩
    · rw [code_propagateGlobally]
      refine List.mem_map.2 ⟨_, hi, ?_⟩
      simp [Instr.mapReads, Instr.mapUses, Instr.mapPhiArgs, Var.rename, hs, there]
    · rw [← there]
      rcases resolve_copies g s with same | chain
      · rw [same]
        exact (Var.not_isSink_of_named hs).2
      · exact chain.not_isSink

/-- A second propagation in the whole procedure changes nothing if and only if every circle of
copies comes round in the number of steps that both propagations make together. -/
theorem propagateGlobally_again_iff (g : FlowGraph) :
    g.propagateGlobally.propagateGlobally = g.propagateGlobally ↔
      ∀ t ∈ periodicPts g.copies.source, IsPeriodicPt g.copies.source
        ((SortedMap.size g.copies + 2) * (SortedMap.size g.propagateGlobally.copies + 1)) t := by
  have again : g.propagateGlobally.propagateGlobally = g.propagateGlobally ↔
      ∀ i ∈ g.propagateGlobally.code, i.mapReads g.propagateGlobally.copies.resolve = i :=
    mapInstrs_eq_self_iff
  rw [again]
  constructor
  · intro same t circle
    by_cases moves : g.copies.source t = t
    · exact IsFixedPt.isPeriodicPt moves _
    · obtain ⟨dest, hi, named⟩ := exists_copy_of_mem_periodicPts circle moves
      have use : t ∈ (Instr.copy dest (.temp t)).uses := by
        simp [Instr.uses, Instr.operands, Var.named?, named]
      have copy := same _ hi
      rw [Instr.mapReads_of_plain rfl] at copy
      have stays := Instr.eq_of_mapUses_eq_self copy use
      rwa [resolve_propagateGlobally] at stays
  · intro comes i hi
    have stays : ∀ t, t ∈ i.uses ∨ t ∈ i.phiArgs →
        g.propagateGlobally.copies.resolve t = t := by
      intro t ht
      obtain ⟨u, rfl⟩ := exists_of_read_propagateGlobally hi ht
      rw [resolve_propagateGlobally, Copies.resolve_eq]
      exact comes _ (g.copies.iterate_mem_periodicPts u (Nat.le_succ _))
    exact Instr.mapReads_eq_self (fun t ht => stays t (.inl ht)) fun t ht => stays t (.inr ht)

/-- Circles of two copies at most, which a second propagation leaves alone. -/
def ShortCircles (g : FlowGraph) : Prop :=
  ∀ t ∈ periodicPts g.copies.source, IsPeriodicPt g.copies.source 2 t

/-- The copies are the temporaries that one step leads away from. -/
theorem mem_keys_copies {t : Temp} : t ∈ SortedMap.keys g.copies ↔ g.copies.source t ≠ t := by
  rw [SortedMap.mem_keys]
  constructor
  · rintro ⟨s, found⟩
    obtain ⟨-, i, -, copy⟩ := get?_copies.1 found
    obtain ⟨_, _, -, -, -, ne⟩ := Instr.tempCopy?_eq_some.1 copy
    rw [Copies.source_of_some found]
    exact ne.symm
  · intro moves
    cases found : SortedMap.get? g.copies t with
    | none => exact absurd (Copies.source_of_none found) moves
    | some s => exact ⟨s, rfl⟩

/-- If circles are short, an odd number of steps does not bring a copy back to itself. -/
theorem size_copies_propagateGlobally (short : g.ShortCircles)
    (odd : ¬ 2 ∣ SortedMap.size g.copies) :
    SortedMap.size g.propagateGlobally.copies = SortedMap.size g.copies := by
  have same : ∀ t, t ∈ SortedMap.keys g.propagateGlobally.copies ↔ t ∈ SortedMap.keys g.copies := by
    intro t
    rw [mem_keys_copies, mem_keys_copies, source_propagateGlobally, not_iff_not]
    constructor
    · intro back
      have once : (SortedMap.size g.copies + 2).gcd 2 = 1 := by
        have rest : (SortedMap.size g.copies + 2) % 2 = 1 := by omega
        rw [Nat.gcd_comm, Nat.gcd_rec, rest, Nat.gcd_one_left]
      have period := IsPeriodicPt.gcd back (short t (mk_mem_periodicPts (Nat.succ_pos _) back))
      rw [once] at period
      exact period
    · intro stays
      exact iterate_fixed stays _
  have perm := (List.perm_ext_iff_of_nodup (SortedMap.nodup_keys _) (SortedMap.nodup_keys _)).2 same
  have length := perm.length_eq
  rwa [SortedMap.keys, SortedMap.keys, List.length_map, List.length_map] at length

theorem propagateGlobally_again_of_short (short : g.ShortCircles) :
    g.propagateGlobally.propagateGlobally = g.propagateGlobally := by
  refine (propagateGlobally_again_iff g).2 fun t circle => ?_
  have even : 2 ∣ (SortedMap.size g.copies + 2) *
      (SortedMap.size g.propagateGlobally.copies + 1) := by
    by_cases even : 2 ∣ SortedMap.size g.copies
    · exact Dvd.dvd.mul_right (by omega) _
    · rw [size_copies_propagateGlobally short even]
      exact Dvd.dvd.mul_left (by omega) _
  exact (short t circle).trans_dvd even

/-! ## In the optimizer -/

variable {o : OptimizerOptions} {singleAssignment : Bool}

/-- If propagation is settled behind a round in which no dead code was removed, the optimizer ends
with the next round at the latest. -/
theorem optimizeRounds_of_settled (used : o.copyPropagation = true)
    (settled : (g.propagateCopies singleAssignment).propagateCopies singleAssignment =
      g.propagateCopies singleAssignment) {round : OptimizerRound}
    (made : g.optimizeRound o singleAssignment = .ok (g.propagateCopies singleAssignment, round))
    (left : Nat) : ∃ rounds, g.optimizeRounds o singleAssignment (left + 2) =
      .ok (g.propagateCopies singleAssignment, rounds) ∧ rounds.length ≤ 2 := by
  have again : (g.propagateCopies singleAssignment).optimizeRound o singleAssignment =
      .ok (g.propagateCopies singleAssignment, round) := by
    rw [← made]
    simp only [optimizeRound, used, if_true, settled]
  by_cases same : g.propagateCopies singleAssignment = g
  · refine ⟨[round], ?_, by simp⟩
    simp only [optimizeRounds, made, bind, Except.bind, if_pos same]
    rfl
  · refine ⟨[round, round], ?_, by simp⟩
    simp only [optimizeRounds, made, again, bind, Except.bind, if_neg same, if_true]
    rfl

/-- Within blocks, a second propagation of copies changes nothing. In the whole procedure it changes
nothing if and only if every circle of copies comes round in the number of steps that both
propagations make together; so it is unless copies of more than two temporaries go round in a
circle. Wherever a second propagation changes nothing, the optimizer does not go on for the sake of
copies: if no dead code was removed in a round, there is one round more at most. -/
theorem propagateCopies_settles (g : FlowGraph) (singleAssignment : Bool) :
    let once := g.propagateCopies singleAssignment
    let settled : Prop := once.propagateCopies singleAssignment = once
    (settled ↔ (singleAssignment = true → ∀ t ∈ periodicPts g.copies.source,
      IsPeriodicPt g.copies.source
        ((SortedMap.size g.copies + 2) * (SortedMap.size once.copies + 1)) t)) ∧
    (g.ShortCircles → settled) ∧
    (settled → ∀ (o : OptimizerOptions) (round : OptimizerRound) (left : Nat),
      o.copyPropagation = true → g.optimizeRound o singleAssignment = .ok (once, round) →
      ∃ rounds, g.optimizeRounds o singleAssignment (left + 2) = .ok (once, rounds) ∧
        rounds.length ≤ 2) := by
  intro once settled
  refine ⟨?_, fun short => ?_, fun still o round left used made => ?_⟩
  · cases singleAssignment with
    | false => exact ⟨fun _ mode => Bool.noConfusion mode, fun _ => propagateLocally_again g⟩
    | true => exact (propagateGlobally_again_iff g).trans ⟨fun h _ => h, fun h => h rfl⟩
  · cases singleAssignment with
    | false => exact propagateLocally_again g
    | true => exact propagateGlobally_again_of_short short
  · exact optimizeRounds_of_settled used still made left

/-- A loop in which so many copies go round in a circle: each is a copy of the next, and the last
one of the first. -/
def roundabout (copies : Nat) : FlowGraph :=
  let x (k : Nat) : Temp := ⟨"x", some k⟩
  let head : Label := ⟨"head"⟩
  ⟨⟨"main"⟩, [], [⟨head, true, [.phi ⟨"y", none⟩ (SortedMap.insert ∅ (.block head) (x 0))] ++
    (List.range copies).map (fun k => .copy (.temp (x k)) (.temp (x ((k + 1) % copies)))) ++
    [.jump head]⟩]⟩

/-- Two copies of each other are settled at once, and the optimizer ends with its second round. -/
theorem propagateCopies_settles_roundabout : (roundabout 2).ShortCircles ∧
    ((roundabout 2).propagateCopies true).propagateCopies true =
      (roundabout 2).propagateCopies true ∧
    (roundabout 2).propagateCopies true ≠ roundabout 2 ∧
    ∃ rounds, (roundabout 2).optimizeRounds ⟨true, false, 10⟩ true 10 =
      .ok ((roundabout 2).propagateCopies true, rounds) ∧ rounds.length ≤ 2 := by
  have short : (roundabout 2).ShortCircles := by
    intro t _
    by_cases copy : t ∈ SortedMap.keys (roundabout 2).copies
    · have swaps : ∀ t ∈ SortedMap.keys (roundabout 2).copies,
          (roundabout 2).copies.source ((roundabout 2).copies.source t) = t := by decide +kernel
      exact swaps t copy
    · rw [mem_keys_copies, not_not] at copy
      exact IsFixedPt.isPeriodicPt copy 2
  obtain ⟨-, settles, ends⟩ := propagateCopies_settles (roundabout 2) true
  refine ⟨short, settles short, by decide +kernel, ?_⟩
  exact ends (settles short) ⟨true, false, 10⟩ [] 8 rfl rfl

/-- Three copies in a circle, which the compiler takes for single-assignment form: every propagation
gives each copy another source, and the optimizer goes on until its rounds are used up. -/
theorem propagateCopies_rotates :
    (∃ names, ofProc (roundabout 3).toProc = .ok (roundabout 3, names) ∧
      (roundabout 3).prepare names .standard = .ok ⟨roundabout 3, true, []⟩) ∧
    ((roundabout 3).propagateCopies true).propagateCopies true ≠
      (roundabout 3).propagateCopies true ∧
    ((roundabout 3).optimize .all true).toOption.map (fun r => r.2.length) = some 10 := by
  refine ⟨⟨_, rfl, rfl⟩, ?_, ?_⟩ <;> decide +kernel

end FlowGraph

end ThreeAddress
