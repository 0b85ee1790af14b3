import ThreeAddress.Proofs.Activation.Calls
import ThreeAddress.Proofs.Execution.Trace
/-!
# Groups of phis

A group of phis is one assignment. Every phi reads the argument for the edge that control came on,
all of them before any of them writes. A phi without an argument for the edge, or whose argument has
no value, writes nothing: its destination keeps the value of an earlier round, and only without one
is it uninitialized.

* `Trace.reads_after` : a temporary has its value until its own activation writes it;
* `Trace.assigns_phis` : what a group of phis does, whenever an activation comes to it;
* `assigns_phis_keepsStale` : a destination that keeps its value in a round without an argument.
-/

namespace ThreeAddress

namespace Execution

variable {p : Program} {s t u : State} {q : Proc} {i : Instr}

/-- An activation that executes an instruction at its depth is the running one. -/
theorem Trace.follows {done : List (Nat × Instr)} (trace : Trace p s done t)
    (above : ∀ e ∈ done, s.callers.length ≤ e.1) (next : t.settle = .ready i u)
    (own : u.callers.length = s.callers.length) :
    s.frame.Follows (ownAt s.callers.length done) u.frame := by
  cases (trace.since above).settle next with
  | runs callers follows => exact follows
  | waits inner w callers follows dest =>
    rw [callers, List.length_append, List.length_cons] at own
    omega
  | gone below => omega

/-- What an activation reads in a temporary is the value that the temporary had, as long as the
activation has not executed an instruction that defines it. -/
theorem Trace.reads_after {later : List (Nat × Instr)} {x : Temp} (trace : Trace p s later t)
    (above : ∀ e ∈ later, s.callers.length ≤ e.1) (next : t.settle = .ready i u)
    (own : u.callers.length = s.callers.length)
    (kept : x ∉ (ownAt s.callers.length later).filterMap Instr.def?) (named : x.isSink = false) :
    u.read (.temp x) =
      match s.frame.temps.get? x with
      | some w => .ok w
      | none => .error (.uninitialized s.frame.proc.name x) := by
  have follows := trace.follows above next own
  rw [State.read, named, if_neg Bool.false_ne_true, follows.temps x kept]
  cases s.frame.temps.get? x with
  | none =>
    exact congrArg (fun q : Proc => Except.error (Failure.uninitialized q.name x)) follows.proc
  | some w => rfl

/-- The block that an activation came from is the one that its labels tell. -/
theorem Trace.previous_eq {done : List (Nat × Instr)} {args : List Word}
    (enters : s.frame = .enter q args) (trace : Trace p s done t)
    (above : ∀ e ∈ done, s.callers.length ≤ e.1) (next : t.settle = .ready i u)
    (own : u.callers.length = s.callers.length) :
    u.frame.proc = q ∧ u.frame.previous = edge (ownAt s.callers.length done) := by
  have follows := trace.follows above next own
  have origins := follows.origins
  rw [enters] at origins
  refine ⟨by rw [follows.proc, enters]; rfl, ?_⟩
  exact congrArg Prod.fst (origins.trans (passLabels_labelsIn _))

/-- A group of phis is one assignment. Of the phis of a temporary, the last one whose argument for
the edge had a value before the group writes it; a temporary without such a phi keeps the value it
had, or has none. From then on the temporary is read so until the activation writes it. -/
theorem Trace.assigns_phis {args : List Word} {done : List (Nat × Instr)} {dest : Temp}
    {choices : SortedMap Origin Temp} (enters : s.frame = .enter q args) (trace : Trace p s done t)
    (above : ∀ e ∈ done, s.callers.length ≤ e.1) (next : t.settle = .ready (.phi dest choices) u)
    (own : u.callers.length = s.callers.length) :
    let e := edge (ownAt s.callers.length done)
    let phis := u.group (.phi dest choices)
    ∃ v temps, exec p u (.phi dest choices) = .running v ∧
      v = { u with frame := { u.frame with temps, code := u.frame.code.dropWhile Instr.isPhi } } ∧
      (∀ x, temps.get? x =
        (incoming u.frame.temps e x phis).getLast?.or (u.frame.temps.get? x)) ∧
      (∀ x, x ∉ phis.filterMap Instr.def? → temps.get? x = u.frame.temps.get? x) ∧
      ((phis.filterMap Instr.def?).Nodup → ∀ x as, .phi x as ∈ phis →
        temps.get? x = ((as.get? e).bind u.frame.temps.get?).or (u.frame.temps.get? x)) ∧
      ∀ later v' w j x, Trace p v later v' → (∀ e ∈ later, s.callers.length ≤ e.1) →
        v'.settle = .ready j w → w.callers.length = s.callers.length →
        x ∉ (ownAt s.callers.length later).filterMap Instr.def? → x.isSink = false →
        w.read (.temp x) =
          match temps.get? x with
          | some value => .ok value
          | none => .error (.uninitialized q.name x) := by
  intro e phis
  obtain ⟨proc, previous⟩ := trace.previous_eq enters above next own
  have assigned : ∀ x, (u.frame.assignPhis phis).temps.get? x =
      (incoming u.frame.temps e x phis).getLast?.or (u.frame.temps.get? x) := by
    intro x
    rw [get?_assignPhis, previous]
  refine ⟨_, (u.frame.assignPhis phis).temps, rfl, rfl, assigned, ?_, ?_, ?_⟩
  · intro x hx
    rw [assigned, incoming_eq_nil hx]
    rfl
  · intro nodup x as hx
    rw [assigned, incoming_of_nodup nodup hx]
    cases (as.get? e).bind u.frame.temps.get? <;> rfl
  · intro later v' w j x after inside next' own' kept named
    rw [← own] at inside own' kept
    rw [after.reads_after inside next' own' kept named, ← proc]
    rfl

/-- Two temporaries that are exchanged in every round, and a third that comes from the entry. -/
def exchange : Proc :=
  let a : Temp := ⟨"a", none⟩
  let b : Temp := ⟨"b", none⟩
  let x : Temp := ⟨"x", none⟩
  let y : Temp := ⟨"y", none⟩
  let z : Temp := ⟨"z", none⟩
  ⟨⟨"main"⟩, [], [
    .const (.temp a) 1,
    .const (.temp b) 2,
    .label ⟨"L0"⟩,
    .phi x (.ofList [(.entry, a), (.block ⟨"L0"⟩, y)]),
    .phi y (.ofList [(.entry, b), (.block ⟨"L0"⟩, x)]),
    .phi z (.ofList [(.entry, a)]),
    .jump ⟨"L0"⟩]⟩

/-- The state of a program at the beginning of `@main`. -/
def begins (p : Program) (main : Proc) : State := ⟨p.initial, #[], .enter main [], []⟩

/-- In the second round the two are exchanged, and the third, which has no argument for the edge,
keeps its value. -/
theorem assigns_phis_exchange : ∃ done t u dest choices v temps,
    Trace ⟨[], [exchange]⟩ (begins ⟨[], [exchange]⟩ exchange) done t ∧
    t.settle = .ready (.phi dest choices) u ∧ u.callers.length = 0 ∧
    edge (ownAt 0 done) = .block ⟨"L0"⟩ ∧
    exec ⟨[], [exchange]⟩ u (.phi dest choices) = .running v ∧ v.frame.temps = temps ∧
    temps.get? ⟨"x", none⟩ = some 2 ∧ temps.get? ⟨"y", none⟩ = some 1 ∧
    temps.get? ⟨"z", none⟩ = some 1 := by
  have rounds : Trace ⟨[], [exchange]⟩ (begins ⟨[], [exchange]⟩ exchange) _ _ :=
    .step (.step (.step (.step (.step (.step .refl rfl rfl) rfl rfl) rfl rfl) rfl rfl) rfl rfl)
      rfl rfl
  obtain ⟨v, temps, executed, rfl, written, -, -, -⟩ :=
    rounds.assigns_phis rfl (fun _ _ => Nat.zero_le _) rfl rfl
  exact ⟨_, _, _, _, _, _, temps, rounds, rfl, rfl, rfl, executed, rfl, written _, written _,
    written _⟩

/-- A loop with a phi that has no argument for the way back. -/
def staleChoice : Proc :=
  let a : Temp := ⟨"a", none⟩
  let x : Temp := ⟨"x", none⟩
  ⟨⟨"main"⟩, [], [
    .const (.temp a) 7,
    .label ⟨"L0"⟩,
    .phi x (.ofList [(.entry, a)]),
    .branch .nonzero (.global ⟨"i"⟩) ⟨"L1"⟩,
    .const (.global ⟨"i"⟩) 1,
    .jump ⟨"L0"⟩,
    .label ⟨"L1"⟩,
    .print (.temp x)]⟩

/-- In the second round the phi has no argument for the edge, but its destination has the value of
the first round behind it, which is printed. -/
theorem assigns_phis_keepsStale : ∃ p done t u x choices v,
    p = (⟨[⟨⟨"i"⟩, 0⟩], [staleChoice]⟩ : Program) ∧
    Trace p (begins p staleChoice) done t ∧
    t.settle = .ready (.phi x choices) u ∧ u.callers.length = 0 ∧
    edge (ownAt 0 done) = .block ⟨"L0"⟩ ∧ choices.get? (.block ⟨"L0"⟩) = none ∧
    exec p u (.phi x choices) = .running v ∧ v.frame.temps.get? x = some 7 ∧
    p.run 1000 = ⟨#[.word 7], .ok 0⟩ := by
  have rounds : Trace ⟨[⟨⟨"i"⟩, 0⟩], [staleChoice]⟩
      (begins ⟨[⟨⟨"i"⟩, 0⟩], [staleChoice]⟩ staleChoice)
      _ _ :=
    .step (.step (.step (.step (.step (.step (.step .refl rfl rfl) rfl rfl) rfl rfl) rfl rfl)
      rfl rfl) rfl rfl) rfl rfl
  exact ⟨_, _, _, _, _, _, _, rfl, rounds, rfl, rfl, rfl, rfl, rfl, rfl, rfl⟩

end Execution

end ThreeAddress
