import ThreeAddress.Proofs.Lowering.Moves
import ThreeAddress.Proofs.Target.Path
/-!
# Moves at once

Moves between places of a function may overlap in any way: values are exchanged, go around in a
circle, or one of them goes to many places. As long as no place gets two values, every one of them
gets the value that its source had before all moves, and nothing else is different afterwards but
`rax` and the stack below its end.

* `Operand.Spot` : the places that moves are made between;
* `Machine.movable_of_spot`, `Machine.eq_spot` : each of them has a cell of its own;
* `Machine.flags_applyAll` : code that computes nothing leaves the flags alone;
* `Machine.moveAll_at_once` : what the code of moves does.
-/

namespace ThreeAddress

namespace Target

/-- A place between which moves are made: a register that is not used for moves or to find the
frame, or eight bytes of a frame, which reaches from its base down to the end of the stack. -/
inductive Operand.Spot (base top : Int) : Operand → Prop
  | register {r : Register} (rax : r ≠ .rax) (rsp : r ≠ .rsp) (rbp : r ≠ .rbp) :
    Spot base top (.register r)
  | slot {offset : Int} (below : offset < 0) (whole : offset % 8 = 0)
    (above : top ≤ base + offset) (reaches : Machine.Reaches offset) :
    Spot base top (.memory ⟨.register .rbp, offset⟩)

/-- The machine is in a function whose frame has this base, and the stack ends at `top`. Both are
multiples of eight, as all places on the stack are that can be read or written. -/
structure Machine.InFrame (m : Machine) (base top : Int) : Prop where
  rbp : m.registers .rbp = .stack base
  rsp : m.registers .rsp = .stack top
  aligned : base % 8 = 0
  aligned' : top % 8 = 0

/-- The operand for a cell, as seen from the base of the frame. -/
def Cell.spot (base : Int) : Cell → Operand
  | .register r => .register r
  | .stack a => .memory ⟨.register .rbp, a - base⟩
  | .datum name => .symbol name

namespace Machine

variable {m m' : Machine} {base top : Int} {o : Operand} {c : Cell} {code : List Instr}

/-! ## Places -/

/-- Every place has a cell that can be moved to and from. -/
theorem movable_of_spot (frame : m.InFrame base top) (spot : o.Spot base top) :
    ∃ c, m.Movable top o c := by
  cases spot with
  | @register r rax rsp rbp =>
    exact ⟨.register r, rfl, ⟨_, rfl⟩, List.forall_mem_nil _, rsp, rbp⟩
  | @slot offset below whole above reaches =>
    have aligned := frame.aligned
    refine ⟨.stack (base + offset), cell?_memory frame.rbp reaches (by omega), ⟨_, rfl⟩,
      fun r hr => List.mem_singleton.1 hr, above⟩

/-- A place can be told from its cell. -/
theorem eq_spot (frame : m.InFrame base top) (spot : o.Spot base top) (cell : m.cell? o = some c) :
    o = c.spot base := by
  cases spot with
  | register => cases cell; rfl
  | @slot offset below whole above reaches =>
    have aligned := frame.aligned
    obtain rfl := Option.some.inj ((cell?_memory frame.rbp reaches (by omega)).symm.trans cell)
    have offset_eq : base + offset - base = offset := by omega
    rw [Cell.spot, offset_eq]

/-! ## Flags -/

/-- Code that computes nothing leaves the flags alone. -/
theorem flags_applyAll (h : m.applyAll code = some m') (none : ∀ i ∈ code, i.computes = false) :
    m'.flags = m.flags := by
  induction code generalizing m with
  | nil =>
    cases h
    rfl
  | cons i code ih =>
    obtain ⟨next, first, more⟩ := Option.bind_eq_some_iff.1 h
    have other := none i List.mem_cons_self
    rw [ih more fun j hj => none j (List.mem_cons_of_mem _ hj)]
    have first : m.Does i next := .applies first
    cases i with
    | mov dst src =>
      obtain ⟨v, c, -, -, rfl⟩ := first.mov
      exact flags_put m c v
    | push src =>
      obtain ⟨v, a, -, -, rfl⟩ := first.push
      simp
    | pop dst =>
      obtain ⟨a, c, -, -, rfl⟩ := first.pop
      simp
    | label name =>
      cases (first.effect rfl).2
      rfl
    | jmp | jcc | call | ret => cases (first.effect rfl).2
    | _ => cases other

end Machine

end Target

/-! ## Moves -/

open Target

theorem computes_moveAll (moves : List Move) : ∀ i ∈ moveAll moves, i.computes = false := by
  have single : ∀ dst src, ∀ i ∈ move dst src, i.computes = false := by
    intro dst src i hi
    rw [move] at hi
    split at hi
    · cases hi
    · split at hi
      · rcases List.mem_cons.1 hi with rfl | hi
        · rfl
        · rw [List.mem_singleton.1 hi]
          rfl
      · rw [List.mem_singleton.1 hi]
        rfl
  rcases moves with _ | ⟨m, _ | ⟨m', rest⟩⟩
  · exact List.forall_mem_nil _
  · exact single m.dst m.src
  · intro i hi
    rw [moveAll_cons_cons] at hi
    rcases List.mem_append.1 hi with hi | hi <;> obtain ⟨o, -, rfl⟩ := List.mem_map.1 hi <;> rfl

namespace Target.Machine

variable {m : Machine} {base top : Int} {moves : List Move}

/-- What moves leave alone: all cells but `rax`, the stack below its end, and the destinations. -/
theorem kept_of_makesMoves {m' : Machine} {c : Cell} (frame : m.InFrame base top)
    (dsts : ∀ mv ∈ moves, mv.dst.Spot base top) (changes : Changes m m' (m.MoveCells top moves))
    (rax : c ≠ .register .rax) (above : ∀ a, c = .stack a → top ≤ a)
    (other : ∀ mv ∈ moves, mv.dst ≠ c.spot base) : m'.value? c = m.value? c := by
  refine changes.kept c ?_
  rintro (h | ⟨b, lt, h⟩ | ⟨mv, hmv, cell⟩)
  · exact rax h
  · exact absurd (above b h) (Int.not_le.2 lt)
  · exact other mv hmv (eq_spot frame (dsts mv hmv) cell)

/-- Moves whose destinations are different places are made at once: every destination has the value
that its source had before. The stack ends where it did, no other register is changed but `rax`, and
no other place on the stack but those below its end. -/
theorem moveAll_at_once (frame : m.InFrame base top) (distinct : (moves.map Move.dst).Nodup)
    (dsts : ∀ mv ∈ moves, mv.dst.Spot base top) (srcs : ∀ mv ∈ moves, mv.src.Spot base top) :
    ∃ m', m.applyAll (moveAll moves) = some m' ∧
      (∀ mv ∈ moves, ∃ v, m.get mv.src = some v ∧ m'.get mv.dst = some v) ∧
      m'.registers .rsp = .stack top ∧
      (∀ r, r ≠ .rax → (∀ mv ∈ moves, mv.dst ≠ .register r) → m'.registers r = m.registers r) ∧
      (∀ a, top ≤ a → (∀ mv ∈ moves, mv.dst ≠ .memory ⟨.register .rbp, a - base⟩) →
        m'.stack a = m.stack a) ∧
      m'.data = m.data ∧ m'.flags = m.flags ∧ m'.printed = m.printed := by
  obtain ⟨m', done, moved, changes⟩ := applyAll_moveAll moves frame.rsp frame.aligned'
    (fun mv hmv => movable_of_spot frame (srcs mv hmv))
    (fun mv hmv => movable_of_spot frame (dsts mv hmv))
  have kept := fun {c} => @kept_of_makesMoves m base top moves m' c frame dsts changes
  have register : ∀ r, r ≠ .rax → (∀ mv ∈ moves, mv.dst ≠ .register r) →
      m'.registers r = m.registers r := fun r rax other =>
    registers_eq_of_value? (kept (fun e => rax (Cell.register.inj e)) (fun a e => by cases e) other)
  have never : ∀ mv ∈ moves, ∀ r, r = .rsp ∨ r = .rbp → mv.dst ≠ .register r := by
    intro mv hmv r special same
    have spot := same ▸ dsts mv hmv
    cases spot with
    | register _ rsp rbp => exact special.elim rsp rbp
  have rbp := register .rbp (by decide) fun mv hmv => never mv hmv _ (.inr rfl)
  have rsp := register .rsp (by decide) fun mv hmv => never mv hmv _ (.inl rfl)
  refine ⟨m', done, fun mv hmv => ?_, rsp.trans frame.rsp, register, fun a above other => ?_, ?_,
    flags_applyAll done (computes_moveAll moves), changes.printed⟩
  · obtain ⟨c, write⟩ := movable_of_spot frame (dsts mv hmv)
    obtain ⟨c', read⟩ := movable_of_spot frame (srcs mv hmv)
    obtain ⟨v, value⟩ := read.there
    have value := read.get.trans value
    -- no other move has this cell as its destination
    have only : ∀ mv' ∈ moves, m.cell? mv'.dst = some c → m.get mv'.src = some v := by
      intro mv' hmv' cell
      have same : mv'.dst = mv.dst := (eq_spot frame (dsts mv' hmv') cell).trans
        (eq_spot frame (dsts mv hmv) write.cell).symm
      rwa [List.inj_on_of_nodup_map distinct hmv' hmv same]
    have cell : m'.cell? mv.dst = some c :=
      (cell?_congr fun r hr => write.framed r hr ▸ rbp).trans write.cell
    exact ⟨v, value, (get_of_cell? cell).trans (moved c v ⟨mv, hmv, write.cell⟩ only)⟩
  · exact stack_eq_of_value? (kept (fun e => by cases e)
      (fun b e => Cell.stack.inj e ▸ above) other)
  · funext name
    refine kept (c := .datum name) (fun e => by cases e) (fun a e => by cases e) fun mv hmv same => ?_
    have spot := same ▸ dsts mv hmv
    cases spot

/-- A machine in a function with four slots in its frame, the first of which holds a three. -/
def amidst : Machine where
  registers
    | .rbp => .stack 64
    | .rsp => .stack 32
    | .rsi => .word 1
    | .rdi => .word 2
    | _ => .word 0
  flags := none
  stack a := if a = 56 then .word 3 else .word 0
  data _ := none
  printed := #[]

/-- Three values that go around, and one of them that goes to another slot as well. -/
def roundabout : List Move :=
  let slot (n : Nat) : Operand := Frame.spill n
  [⟨.register .rsi, slot 0⟩, ⟨slot 0, .register .rdi⟩, ⟨.register .rdi, .register .rsi⟩,
    ⟨slot 1, .register .rsi⟩]

/-- The values go around. -/
theorem moveAll_at_once_roundabout : amidst.InFrame 64 32 ∧ (roundabout.map Move.dst).Nodup ∧
    ∃ m', amidst.applyAll (moveAll roundabout) = some m' ∧
      m'.get (.register .rsi) = some (.word 3) ∧ m'.get (Frame.spill 0) = some (.word 2) ∧
      m'.get (.register .rdi) = some (.word 1) ∧ m'.get (Frame.spill 1) = some (.word 1) ∧
      m'.registers .rsp = .stack 32 := by
  have frame : amidst.InFrame 64 32 := ⟨rfl, rfl, rfl, rfl⟩
  have distinct : (roundabout.map Move.dst).Nodup := by decide
  have slot : ∀ n, n < 4 → (Frame.spill n).Spot 64 32 := fun n lt => by
    rw [Frame.spill, Frame.slot_eq (by omega)]
    refine .slot ?_ ?_ ?_ ⟨?_, ?_⟩ <;> omega
  have rsi : (Operand.register .rsi).Spot 64 32 := .register (by decide) (by decide) (by decide)
  have rdi : (Operand.register .rdi).Spot 64 32 := .register (by decide) (by decide) (by decide)
  have spots : ∀ mv ∈ roundabout, mv.dst.Spot 64 32 ∧ mv.src.Spot 64 32 := by
    simp [roundabout, rsi, rdi, slot]
  obtain ⟨m', done, moved, rsp, -⟩ := moveAll_at_once frame distinct (fun mv hmv => (spots mv hmv).1)
    fun mv hmv => (spots mv hmv).2
  have value : ∀ mv ∈ roundabout, m'.get mv.dst = amidst.get mv.src := fun mv hmv => by
    obtain ⟨v, read, written⟩ := moved mv hmv
    rw [written, read]
  simp only [roundabout, List.forall_mem_cons] at value
  obtain ⟨first, second, third, fourth, -⟩ := value
  exact ⟨frame, distinct, m', done, first, second, third, fourth, rsp⟩

end Target.Machine

end ThreeAddress
