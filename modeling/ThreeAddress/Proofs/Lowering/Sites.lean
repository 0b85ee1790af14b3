import ThreeAddress.Proofs.Lowering.Discipline
/-!
# Where an instruction is

The code of an instruction is found behind the name of its block and the code of the instructions in
front of it. Paths come there with the whole frame, since both the code in front of it and the code
from there on keep to the rules of `Stance.Step`.

* `MetBehind` : code that is met behind some instructions of a block;
* `FlowGraph.exists_met` : the code of every instruction is;
* `Path.framed_of_openAt` : how a function stands where the code of an instruction begins.
-/

namespace ThreeAddress

open Target

/-- In a function, the code is met behind those instructions of the block. -/
def MetBehind (f : Function) (g : FlowGraph) (layout : Layout) (b : Block)
    (before : List (Instr × InstrLive)) (code : List Target.Instr) : Prop :=
  ∃ n front, g.lowerBody layout b.label n before = .ok front ∧
    f.codeFrom? (layout.blockName b.label) =
      some (.label (layout.blockName b.label) :: (front.instrs ++ code))

namespace Target

/-- From its beginning on, a function keeps to the rules, and in front of this code its stance may
be in front of a label. -/
def Function.OpenAt (f : Function) (stages : Nat → Prop) (code : List Target.Instr) : Prop :=
  ∃ front s s', f.instrs = front ++ code ∧ f.frame.Open s ∧
    Leads f.frame stages .entered front s ∧ Leads f.frame stages s code s'

variable {f : Function} {stages : Nat → Prop} {code : List Instr} {base : Int} {m₀ m : Machine}
  {done : List (Instr × Machine)}

/-- On every path, the whole frame is there in front of such code. -/
theorem Path.framed_of_openAt (small : f.frame.bytes < 2147483648) (h : f.OpenAt stages code)
    (entry : m₀.registers .rsp = .stack (base + 8))
    (path : Path f m₀ done code m) :
    Framed f.frame m₀ base f.frame.bytes f.frame.calleeSaved m := by
  obtain ⟨front, s, s', split, here, leads, more⟩ := h
  have rules := leads.disciplined more here
  rw [← split] at rules
  obtain ⟨t, holds, keeps⟩ := path.holds small (fun _ _ _ => .inl rfl) rules entry
  rcases keeps.here rfl with rfl | rfl
  · exact holds
  · exact holds.elim

end Target

variable {layout : Layout} {g : FlowGraph} {live : Liveness} {a : Assignment} {f : Function}
  {b : Block}
  {before later : List (Instr × InstrLive)} {i : Instr} {point : InstrLive} {stages : Nat → Prop}

/-- The code of an instruction is met behind the instructions in front of it. -/
theorem FlowGraph.exists_met (nodup : g.labels.Nodup) (placed : (Layout.ofAssignment g a).Placed)
    (allowed : ∀ i ∈ g.code, i.Allowed (Layout.ofAssignment g a).frame stages)
    (h : g.lower live a = .ok f) (hb : b ∈ g.blocks)
    (split : b.body.zip (live.instrs b.label) = before ++ (i, point) :: later) :
    ∃ n here rest,
      g.lowerInstr (Layout.ofAssignment g a) b.label n point.after i = .ok here ∧
      MetBehind f g (Layout.ofAssignment g a) b before (here.instrs ++ rest) ∧
      f.OpenAt stages (here.instrs ++ rest) := by
  have unique := nodup_labelsOf_lower nodup h
  obtain ⟨entering, code, entered, lowered, rfl⟩ := lower_eq_ok h
  have allowedIn : ∀ c ∈ g.blocks, ∀ i ∈ c.body, i.Allowed (Layout.ofAssignment g a).frame stages :=
    fun c hc i hi => allowed i (mem_code.2 ⟨c, hc, hi⟩)
  obtain ⟨front, last, blocks⟩ := List.append_of_mem hb
  rw [blocks] at lowered allowedIn
  have keeps := placed.keeps_lowerBlocks allowedIn lowered
  obtain ⟨n, frontCode, block, n', lastCode, frontKeeps, found, found', rfl⟩ :=
    exists_of_lowerBlocks (P := fun c => c.Keeps (Layout.ofAssignment g a).frame stages)
      (Code.keeps_straight Frame.keeps_nil)
      (fun c hc n next first more lowered keeps => (placed.keeps_lowerBlock
        (allowedIn c (List.mem_append_left _ hc)) lowered).append keeps) lowered
  obtain ⟨body, falling, bodies, falls, stays, unmarked, rfl⟩ := lowerBlock_eq_ok found
  rw [split] at bodies
  have allowedHere : ∀ e ∈ before ++ (i, point) :: later,
      e.1.Allowed (Layout.ofAssignment g a).frame stages := fun e he =>
    allowedIn b (List.mem_append_right _ List.mem_cons_self) _ (List.of_mem_zip (split ▸ he)).1
  obtain ⟨allowedFront, allowedBack⟩ := List.forall_mem_append.1 allowedHere
  obtain ⟨allowedInstr, allowedLater⟩ := List.forall_mem_cons.1 allowedBack
  obtain ⟨frontBody, rest, inFront, inBack, rfl⟩ := lowerBody_append bodies
  obtain ⟨here, moreBody, lowered', behind, rfl⟩ := lowerBody_cons inBack
  -- the function falls into the code in front of the instruction and the code from there on
  have keepsFront := frontKeeps.instrs.append ((Frame.keeps_label
    ((Layout.ofAssignment g a).blockName b.label)).append
      (placed.keeps_lowerBody allowedFront inFront).instrs)
  have keepsBack := (placed.keeps_lowerInstr allowedInstr lowered').instrs.append
    ((placed.keeps_lowerBody allowedLater behind).instrs.append
      ((placed.keeps_falling falls stays unmarked).append
        ((placed.keeps_lowerBlocks (fun c hc => allowedIn c (List.mem_append_right _
          (List.mem_cons_of_mem _ hc))) found').instrs.append (Frame.keeps_detours keeps.detours))))
  obtain ⟨s, here', leads⟩ := keepsFront _ (.inl rfl)
  obtain ⟨s', -, more⟩ := keepsBack s here'
  refine ⟨_, here, _, lowered', ⟨n, frontBody, inFront, ?_⟩, _, s, s', ?_, here',
    (placed.leads_enter entered).append leads, more⟩
  · refine @Function.codeFrom?_of_split _ (entering ++ frontCode.instrs) _ _ unique ?_
    simp
  · simp

end ThreeAddress
