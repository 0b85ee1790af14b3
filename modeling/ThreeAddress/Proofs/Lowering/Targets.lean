import ThreeAddress.Proofs.Lowering.Code
/-!
# Where jumps go

The code of an instruction that stays within its block does not jump. The other instructions go to
the name of a block, or to that of a detour, which goes on to the name of a block. So if a procedure
has all blocks that it jumps to, its function has all names.

* `targetsOf` : the names that code jumps to;
* `Code.Reaches`, `FlowGraph.reaches_lowerBlocks` : the code of blocks jumps to blocks and detours;
* `FlowGraph.targetsOf_lower_subset` : it jumps to no others.
-/

namespace ThreeAddress

open Target

/-! ## Targets -/

namespace Target

/-- The name that an instruction jumps to. -/
@[simp] def Instr.target? : Instr → Option String
  | jmp name | jcc _ name => some name
  | _ => none

/-- The names that code jumps to. -/
def targetsOf (code : List Instr) : List String := code.filterMap Instr.target?

@[simp] theorem targetsOf_nil : targetsOf [] = [] := rfl

@[simp] theorem targetsOf_append (code rest : List Instr) :
    targetsOf (code ++ rest) = targetsOf code ++ targetsOf rest := List.filterMap_append

@[simp] theorem targetsOf_cons (i : Instr) (rest : List Instr) :
    targetsOf (i :: rest) = i.target?.toList ++ targetsOf rest := by
  rw [targetsOf, List.filterMap_cons]
  cases i.target? <;> rfl

end Target

theorem Target.mem_labelsOf {code : List Target.Instr} {name : String} :
    name ∈ labelsOf code ↔ .label name ∈ code := by
  rw [labelsOf, List.mem_filterMap]
  constructor
  · rintro ⟨i, hi, label⟩
    cases i with
    | label =>
      cases label
      exact hi
    | _ => cases label
  · exact fun h => ⟨_, h, rfl⟩

theorem Nameless.targetsOf_eq_nil {code : List Target.Instr} (h : Nameless code) :
    targetsOf code = [] := by
  refine List.filterMap_eq_nil_iff.2 fun i hi => ?_
  have nameless := h i hi
  cases i <;> first | rfl | cases nameless

@[simp] theorem targetsOf_moveAll (moves : List Move) : targetsOf (moveAll moves) = [] :=
  (nameless_moveAll moves).targetsOf_eq_nil

@[simp] theorem FlowGraph.targetsOf_compareCode (src : Target.Operand) :
    targetsOf (compareCode src) = [] := (nameless_compareCode src).targetsOf_eq_nil

/-! ## Code that jumps -/

/-- Every detour goes on to its target. -/
theorem mem_targetsOf_detours {name : String} (detours : List Detour) :
    name ∈ targetsOf (detours.flatMap Detour.code) ↔ ∃ d ∈ detours, d.target = name := by
  induction detours with
  | nil => simp
  | cons d rest ih =>
    rw [List.flatMap_cons, targetsOf_append, List.mem_append, ih, List.exists_mem_cons_iff]
    simp [Detour.code, eq_comm]

/-- The code jumps to some names and to its own detours, and the detours go on to the names. -/
structure Code.Reaches (c : Code) (names : List String) : Prop where
  instrs : ∀ name ∈ targetsOf c.instrs, name ∈ names ∨ name ∈ c.detours.map Detour.name
  detours : ∀ d ∈ c.detours, d.target ∈ names

namespace Code

variable {c d : Code} {names : List String}

theorem reaches_straight {instrs : List Target.Instr} (h : targetsOf instrs = []) :
    (straight instrs).Reaches names :=
  ⟨fun _ hn => by simp [h] at hn, List.forall_mem_nil _⟩

theorem reaches_nameless {instrs : List Target.Instr} (h : Nameless instrs) :
    (straight instrs).Reaches names := reaches_straight h.targetsOf_eq_nil

theorem Reaches.append (h : c.Reaches names) (h' : d.Reaches names) : (c ++ d).Reaches names := by
  refine ⟨fun name hn => ?_, List.forall_mem_append.2 ⟨h.detours, h'.detours⟩⟩
  rw [detours_append, List.map_append, List.mem_append]
  rw [instrs_append, targetsOf_append, List.mem_append] at hn
  rcases hn with hn | hn
  · exact (h.instrs name hn).imp_right .inl
  · exact (h'.instrs name hn).imp_right .inr

end Code

namespace FlowGraph

variable {g : FlowGraph} {live : Liveness} {layout : Layout} {b : Block} {l : Label} {code : Code}
  {n : Nat}

theorem reaches_lowerInstr {after : SortedSet Temp} {i : Instr}
    (target : ∀ l', i.target? = some l' → l' ∈ g.labels)
    (h : g.lowerInstr layout l n after i = .ok code) : code.Reaches (g.blockNames layout) := by
  cases i with
  | jump l' =>
    obtain ⟨moves, -, rfl⟩ := lowerInstr_jump h
    refine ⟨fun name hn => .inl ?_, List.forall_mem_nil _⟩
    obtain rfl : name = layout.blockName l' := by simpa using hn
    exact List.mem_map_of_mem (target l' rfl)
  | branch test arg l' =>
    have there : layout.blockName l' ∈ g.blockNames layout := List.mem_map_of_mem (target l' rfl)
    obtain ⟨src, moves, -, -, ⟨-, rfl⟩ | rfl⟩ := lowerInstr_branch h
    · refine ⟨fun name hn => .inl ?_, List.forall_mem_nil _⟩
      obtain rfl : name = layout.blockName l' := by simpa using hn
      exact there
    · refine ⟨fun name hn => .inr ?_, List.forall_mem_singleton.2 there⟩
      simpa using hn
  | _ =>
    obtain ⟨instrs, lowered, rfl⟩ := lowerInstr_of_target? rfl h
    exact Code.reaches_nameless (Layout.nameless_lower lowered)

theorem reaches_lowerBody {points : List (Instr × InstrLive)}
    (targets : ∀ e ∈ points, ∀ l', e.1.target? = some l' → l' ∈ g.labels)
    (h : g.lowerBody layout l n points = .ok code) : code.Reaches (g.blockNames layout) := by
  induction points generalizing n code with
  | nil =>
    cases h
    exact Code.reaches_straight rfl
  | cons point rest ih =>
    obtain ⟨first, more, found, found', rfl⟩ := lowerBody_cons h
    exact (reaches_lowerInstr (targets point List.mem_cons_self) found).append
      (ih (fun e he => targets e (List.mem_cons_of_mem _ he)) found')

theorem reaches_lowerBlock {next : Option Label}
    (targets : ∀ i ∈ b.body, ∀ l', i.target? = some l' → l' ∈ g.labels)
    (h : g.lowerBlock live layout n b next = .ok code) : code.Reaches (g.blockNames layout) := by
  obtain ⟨body, falling, found, falls, stays, -, rfl⟩ := lowerBlock_eq_ok h
  have behind : Nameless falling := by
    cases through : b.fallsThrough with
    | true => exact nameless_lowerFallThrough (falls through)
    | false => exact stays through ▸ nameless_nil
  exact ((Code.reaches_straight rfl).append
    (reaches_lowerBody (fun e he => targets e.1 (List.of_mem_zip he).1) found)).append
      (Code.reaches_nameless behind)

theorem reaches_lowerBlocks {bs : List Block}
    (targets : ∀ b ∈ bs, ∀ i ∈ b.body, ∀ l', i.target? = some l' → l' ∈ g.labels)
    (h : g.lowerBlocks live layout n bs = .ok code) : code.Reaches (g.blockNames layout) := by
  induction bs generalizing n code with
  | nil =>
    cases h
    exact Code.reaches_straight rfl
  | cons b bs ih =>
    obtain ⟨first, more, found, found', rfl⟩ := lowerBlocks_cons h
    exact (reaches_lowerBlock (targets b List.mem_cons_self) found).append
      (ih (fun c hc => targets c (List.mem_cons_of_mem _ hc)) found')

/-! ## Functions -/

variable {a : Assignment} {f : Function}

theorem name_of_lower (h : g.lower live a = .ok f) : f.name = g.name.name := by
  obtain ⟨entering, code, -, -, rfl⟩ := lower_eq_ok h
  rfl

/-- A function jumps only to names that it has, if the procedure has the blocks that it jumps to. -/
theorem targetsOf_lower_subset (wf : g.WellFormed) (h : g.lower live a = .ok f) :
    targetsOf f.instrs ⊆ labelsOf f.instrs := by
  obtain ⟨entering, code, entered, lowered, rfl⟩ := lower_eq_ok h
  obtain ⟨instrs, detours⟩ := reaches_lowerBlocks
    (fun b hb i hi l' => wf.mem_labels_of_target hb hi) lowered
  intro name hn
  simp only [targetsOf_append, (Layout.nameless_enter entered).targetsOf_eq_nil, List.nil_append,
    List.mem_append] at hn
  simp only [labelsOf_append, labelsOf_lowerBlocks lowered, labelsOf_detours, List.mem_append]
  rcases hn with hn | hn
  · rcases instrs name hn with block | detour
    · exact .inl (.inr block)
    · exact .inr detour
  · obtain ⟨d, hd, rfl⟩ := (mem_targetsOf_detours code.detours).1 hn
    exact .inl (.inr (detours d hd))

end FlowGraph

end ThreeAddress
