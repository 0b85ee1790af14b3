import Mathlib.Data.List.Nodup
import ThreeAddress.Lowering.Move
import ThreeAddress.Proofs.Target.Cells
/-!
# What moves do

A move goes through `rax` at most, and moves that are made together use the stack below the frame.

* `Machine.applyAll_move` : one move;
* `Machine.applyAll_pushes`, `Machine.applyAll_pops` : what is pushed can be popped;
* `Machine.applyAll_moveAll` : every destination gets what its sources had before, if they agree.
-/

namespace ThreeAddress

theorem moveAll_cons_cons (mv mv' : Move) (rest : List Move) :
    moveAll (mv :: mv' :: rest) = ((mv :: mv' :: rest).map Move.src).map .push ++
      ((mv :: mv' :: rest).reverse.map Move.dst).map .pop := by
  rw [List.map_map, List.map_map]
  rfl

namespace Target

/-- A move that does not go through a register exists, unless it is one to an immediate. -/
theorem Instr.badOperands?_of_direct {dst src : Operand} (place : ∀ w, dst ≠ .immediate w)
    (direct : indirect dst src = false) : (Instr.mov dst src).badOperands? = none := by
  cases dst with
  | register r => exact badOperands?_mov_register r src
  | immediate value => exact absurd rfl (place value)
  | memory address =>
    cases src with
    | register r => exact badOperands?_mov (.inr rfl) rfl rfl
    | memory address' => cases direct
    | immediate value =>
      have fits : Operand.fits value = true := by simpa [indirect, Operand.isMemory] using direct
      exact badOperands?_mov (.inr rfl) rfl (by simp [Operand.wide?, fits])

namespace Machine

variable {m : Machine} {dst src : Operand} {c : Cell} {v w : Value} {a : Int}

/-! ## One move -/

/-- A move writes its destination, and `rax` if it cannot be made directly. -/
theorem applyAll_move (cell : m.cell? dst = some c) (there : m.value? c = some w)
    (away : .rax ∉ dst.addressing) (read : m.get src = some v) :
    ∃ m', m.applyAll (move dst src) = some m' ∧ m'.value? c = some v ∧
      Changes m m' fun x => x = c ∨ indirect dst src = true ∧ x = .register .rax := by
  have narrow := wide?_of_cell? cell
  rw [move]
  split
  · next same =>
    subst same
    exact ⟨m, rfl, (get_of_cell? cell).symm.trans read, .refl m _⟩
  · split
    · next through =>
      have write : (m.put (.register .rax) v).set dst v =
          some ((m.put (.register .rax) v).put c v) := by
        have cell' : (m.put (.register .rax) v).cell? dst = some c := by
          refine (cell?_congr fun r hr => ?_).trans cell
          rw [registers_put, if_neg]
          rintro ⟨⟩
          exact away hr
        refine set_of_cell? (w := if c = .register .rax then v else w) cell' ?_
        rw [value?_put]
        split
        · rfl
        · exact there
      refine ⟨(m.put (.register .rax) v).put c v, ?_, ?_, ?_⟩
      · rw [applyAll_cons
            (apply_mov (Instr.badOperands?_mov_register _ _) read (set_register m .rax v)),
          applyAll_cons (apply_mov (Instr.badOperands?_mov (.inr rfl) narrow rfl) ?_ write)]
        · rfl
        · rw [get_register, registers_put, if_pos rfl]
      · rw [value?_put, if_pos rfl]
      · exact ((Changes.put m (.register .rax) v).mono fun x hx => .inr ⟨through, hx⟩).trans
          ((Changes.put _ c v).mono fun x hx => .inl hx)
    · next direct =>
      refine ⟨m.put c v, ?_, ?_, (Changes.put m c v).mono fun x hx => .inl hx⟩
      · have place : ∀ w, dst ≠ .immediate w := by
          rintro w rfl
          cases cell
        rw [applyAll_cons (apply_mov (Instr.badOperands?_of_direct place
          (Bool.eq_false_iff.2 direct)) read (set_of_cell? cell there))]
        rfl
      · rw [value?_put, if_pos rfl]

/-- A move to a register writes nothing else. -/
theorem applyAll_move_register {r : Register} (read : m.get src = some v) :
    ∃ m', m.applyAll (move (.register r) src) = some m' ∧ m'.registers r = v ∧
      Changes m m' (· = .register r) := by
  obtain ⟨m', done, value, changes⟩ :=
    applyAll_move (cell?_register m r) (value?_register m r) List.not_mem_nil read
  refine ⟨m', done, Option.some.inj value,
    changes.mono fun x hx => hx.resolve_right fun through => ?_⟩
  have never : indirect (.register r) src = false := by cases src <;> rfl
  cases never.symm.trans through.1

end Machine

/-! ## The stack -/

/-- A cell that is not used to find the frame, and that does not lie below an address of the
stack. -/
def Cell.Free (a : Int) : Cell → Prop
  | .register r => r ≠ .rsp ∧ r ≠ .rbp
  | .stack b => a ≤ b
  | .datum _ => True

namespace Cell.Free

variable {a b : Int} {c : Cell}

theorem mono (h : c.Free a) (le : b ≤ a) : c.Free b := by
  cases c with
  | stack d => exact Int.le_trans le h
  | _ => exact h

theorem ne_rsp (h : c.Free a) : c ≠ .register .rsp := by
  rintro rfl
  exact h.1 rfl

theorem ne_rbp (h : c.Free a) : c ≠ .register .rbp := by
  rintro rfl
  exact h.2 rfl

theorem ne_below (h : c.Free a) (lt : b < a) : c ≠ .stack b := by
  rintro rfl
  exact absurd h (Int.not_le.2 lt)

end Cell.Free

/-- The operand is found from the base of the frame, if it is in memory. -/
def Operand.Framed (o : Operand) : Prop := ∀ r ∈ o.addressing, r = .rbp

namespace Machine

variable {m m' : Machine} {a b : Int} {o : Operand} {c : Cell} {cells : Cell → Prop}

/-- The operand has a cell that is found from the base of the frame, and that the stack below an
address does not overlap. -/
structure Movable (m : Machine) (a : Int) (o : Operand) (c : Cell) : Prop where
  cell : m.cell? o = some c
  there : ∃ v, m.value? c = some v
  framed : o.Framed
  free : c.Free a

theorem Movable.get (h : m.Movable a o c) : m.get o = m.value? c := get_of_cell? h.cell

theorem cell?_of_framed (framed : o.Framed) (changes : Changes m m' cells)
    (rbp : ¬ cells (.register .rbp)) : m'.cell? o = m.cell? o :=
  changes.cell? fun _ hr => framed _ hr ▸ rbp

theorem Movable.of_changes (h : m.Movable a o c) (changes : Changes m m' cells)
    (rbp : ¬ cells (.register .rbp))
    (defined : ∀ x, (∃ v, m.value? x = some v) → ∃ v, m'.value? x = some v) (le : b ≤ a) :
    m'.Movable b o c :=
  ⟨(cell?_of_framed h.framed changes rbp).trans h.cell, defined c h.there, h.framed, h.free.mono le⟩

/-- The cells that have values have values behind a write. -/
theorem exists_value?_put (m : Machine) (c : Cell) (v : Value) {x : Cell}
    (h : ∃ w, m.value? x = some w) : ∃ w, (m.put c v).value? x = some w := by
  rw [value?_put]
  split
  · exact ⟨v, rfl⟩
  · exact h

/-- The stack below an address, and the register that points to it. -/
def Below (a : Int) (c : Cell) : Prop := c = .register .rsp ∨ ∃ b < a, c = .stack b

theorem Below.not_free (h : Below a c) : ¬ c.Free a := by
  rintro free
  rcases h with rfl | ⟨b, lt, rfl⟩
  · exact free.ne_rsp rfl
  · exact free.ne_below lt rfl

theorem Below.not_rbp : ¬ Below a (.register .rbp) := by simp [Below]

/-- Operands are pushed one by one, and lie on the stack from the last one on. -/
theorem applyAll_pushes (srcs : List Operand) (rsp : m.registers .rsp = .stack a)
    (aligned : a % 8 = 0) (read : ∀ o ∈ srcs, ∃ c, m.Movable a o c) :
    ∃ m', m.applyAll (srcs.map .push) = some m' ∧
      m'.registers .rsp = .stack (a - 8 * srcs.length) ∧
      (∀ (k : Nat) o, srcs[k]? = some o → some (m'.stack (a - 8 * ((k : Int) + 1))) = m.get o) ∧
      (∀ x, (∃ v, m.value? x = some v) → ∃ v, m'.value? x = some v) ∧
      Changes m m' (Below a) := by
  induction srcs generalizing m a with
  | nil => exact ⟨m, rfl, by simpa using rsp, by simp, fun _ h => h, .refl m _⟩
  | cons o rest ih =>
    obtain ⟨c, movable⟩ := read o List.mem_cons_self
    obtain ⟨v, value⟩ := movable.there
    have value := movable.get.trans value
    let first := (m.put (.stack (a - 8)) v).put (.register .rsp) (.stack (a - 8))
    have changes : Changes m first (Below a) :=
      ((Changes.put m _ v).mono fun x hx => .inr ⟨a - 8, by omega, hx⟩).trans
        ((Changes.put _ _ _).mono fun x hx => .inl hx)
    have defined : ∀ x, (∃ v, m.value? x = some v) → ∃ v, first.value? x = some v :=
      fun x hx => exists_value?_put _ _ _ (exists_value?_put _ _ _ hx)
    obtain ⟨m', done, top, values, defined', changes'⟩ := ih (m := first) (a := a - 8)
      (by simp [first]) (by omega) fun o ho => (read o (List.mem_cons_of_mem _ ho)).imp fun c h =>
        h.of_changes changes Below.not_rbp defined (by omega)
    refine ⟨m', ?_, ?_, fun k o' hk => ?_, fun x hx => defined' x (defined x hx), ?_⟩
    · rw [List.map_cons, applyAll_cons (apply_push rsp aligned (wide?_of_cell? movable.cell) value)]
      exact done
    · rw [top, List.length_cons]
      congr 1
      omega
    · cases k with
      | zero =>
        obtain rfl : o = o' := by simpa using hk
        have kept : m'.stack (a - 8) = first.stack (a - 8) := changes'.stack (by simp [Below])
        simp [kept, first, value]
      | succ k =>
        have hk : rest[k]? = some o' := by simpa using hk
        obtain ⟨c', movable'⟩ := read o' (List.mem_cons_of_mem _ (List.mem_of_getElem? hk))
        have same : first.get o' = m.get o' := by
          rw [movable'.get, (movable'.of_changes changes Below.not_rbp defined (Int.le_refl a)).get]
          exact changes.kept c' fun h => h.not_free movable'.free
        rw [← same, ← values k o' hk]
        congr 2
        push_cast
        omega
    · exact changes.trans (changes'.mono fun x hx => hx.imp id fun ⟨b, lt, hb⟩ => ⟨b, by omega, hb⟩)

/-- One operand is popped. -/
theorem apply_pop_movable (rsp : m.registers .rsp = .stack b) (aligned : b % 8 = 0)
    (h : m.Movable a o c) : m.apply (.pop o) =
      some ((m.put (.register .rsp) (.stack (b + 8))).put c (m.stack b)) := by
  refine apply_pop rsp aligned (wide?_of_cell? h.cell) ?_
  obtain ⟨w, there⟩ := exists_value?_put m (.register .rsp) (.stack (b + 8)) h.there
  refine set_of_cell? ((cell?_congr fun r hr => ?_).trans h.cell) there
  rw [registers_put, if_neg]
  rintro ⟨⟩
  cases h.framed _ hr

/-- Operands are popped one by one, and get what lies on the stack: a cell that is popped to more
than once has the value if all that is popped to it is this value. -/
theorem applyAll_pops (dsts : List Operand) (rsp : m.registers .rsp = .stack b)
    (aligned : b % 8 = 0) (write : ∀ o ∈ dsts, ∃ c, m.Movable (b + 8 * dsts.length) o c) :
    ∃ m', m.applyAll (dsts.map .pop) = some m' ∧
      m'.registers .rsp = .stack (b + 8 * dsts.length) ∧
      (∀ c v, (∃ o ∈ dsts, m.cell? o = some c) →
        (∀ (k : Nat) o, dsts[k]? = some o → m.cell? o = some c → m.stack (b + 8 * k) = v) →
        m'.value? c = some v) ∧
      Changes m m' fun x => x = .register .rsp ∨ ∃ o ∈ dsts, m.cell? o = some x := by
  induction dsts generalizing m b with
  | nil => exact ⟨m, rfl, by simpa using rsp, by simp, .refl m _⟩
  | cons o rest ih =>
    obtain ⟨c, movable⟩ := write o List.mem_cons_self
    have free := movable.free
    rw [List.length_cons] at write free
    let first := (m.put (.register .rsp) (.stack (b + 8))).put c (m.stack b)
    have changes : Changes m first fun x => x = .register .rsp ∨ x = c :=
      ((Changes.put m _ _).mono fun x hx => .inl hx).trans
        ((Changes.put _ c _).mono fun x hx => .inr hx)
    have rbp : ¬ (Cell.register .rbp = .register .rsp ∨ Cell.register .rbp = c) := by
      rintro (h | h)
      · cases h
      · exact free.ne_rbp h.symm
    have later : ∀ o ∈ rest, ∃ c, first.Movable (b + 8 + 8 * rest.length) o c := fun o ho => by
      obtain ⟨c', movable'⟩ := write o (List.mem_cons_of_mem _ ho)
      refine ⟨c', movable'.of_changes changes rbp (fun x hx => ?_) (by push_cast; omega)⟩
      exact exists_value?_put _ _ _ (exists_value?_put _ _ _ hx)
    have same : ∀ o ∈ rest, first.cell? o = m.cell? o := fun o ho => by
      obtain ⟨c', movable'⟩ := write o (List.mem_cons_of_mem _ ho)
      exact cell?_of_framed movable'.framed changes rbp
    obtain ⟨m', done, top, values, changes'⟩ := ih (m := first) (b := b + 8)
      (by rw [registers_put, if_neg free.ne_rsp.symm, registers_put, if_pos rfl]) (by omega) later
    refine ⟨m', ?_, ?_, fun c' v popped agree => ?_, ?_⟩
    · rw [List.map_cons, applyAll_cons (apply_pop_movable rsp aligned movable)]
      exact done
    · rw [top, List.length_cons]
      congr 1
      push_cast
      omega
    · by_cases again : ∃ o' ∈ rest, first.cell? o' = some c'
      · refine values c' v again fun k o' hk hc => ?_
        have lt : k < rest.length := (List.getElem?_eq_some_iff.1 hk).1
        have kept : first.stack (b + 8 + 8 * k) = m.stack (b + 8 + 8 * k) := by
          refine changes.stack fun h => ?_
          rcases h with h | h
          · cases h
          · exact free.ne_below (by push_cast; omega) h.symm
        have index : b + 8 + 8 * (k : Int) = b + 8 * ((k + 1 : Nat) : Int) := by omega
        rw [kept, index]
        exact agree (k + 1) o' (by simpa using hk)
          ((same o' (List.mem_of_getElem? hk)).symm.trans hc)
      · -- what is popped here stays
        have here : m.cell? o = some c' := by
          obtain ⟨o', ho', hc⟩ := popped
          rcases List.mem_cons.1 ho' with rfl | ho'
          · exact hc
          · exact absurd ⟨o', ho', (same o' ho').trans hc⟩ again
        obtain rfl : c = c' := Option.some.inj (movable.cell.symm.trans here)
        have kept := changes'.kept c fun h => h.elim free.ne_rsp again
        have value : m.stack b = v := by simpa using agree 0 o rfl here
        rw [kept, value?_put, if_pos rfl, value]
    · refine (changes.mono fun x hx => ?_).trans (changes'.mono fun x hx => ?_)
      · exact hx.imp id fun hx =>
          ⟨o, List.mem_cons_self, movable.cell.trans (congrArg some hx.symm)⟩
      · exact hx.imp id fun ⟨o', ho', h⟩ =>
          ⟨o', List.mem_cons_of_mem _ ho', (same o' ho').symm.trans h⟩

/-! ## Several moves -/

variable {moves : List Move}

/-- The cells that moves change. -/
def MoveCells (m : Machine) (a : Int) (moves : List Move) (x : Cell) : Prop :=
  x = .register .rax ∨ (∃ b < a, x = .stack b) ∨ ∃ mv ∈ moves, m.cell? mv.dst = some x

/-- What moves that are made together leave: all destinations have what their sources had before. A
cell that is the destination of several moves has it if all of their sources had the same. -/
def MakesMoves (m : Machine) (a : Int) (moves : List Move) (m' : Machine) : Prop :=
  (∀ c v, (∃ mv ∈ moves, m.cell? mv.dst = some c) →
    (∀ mv ∈ moves, m.cell? mv.dst = some c → m.get mv.src = some v) → m'.value? c = some v) ∧
  Changes m m' (m.MoveCells a moves)

/-- A single move is made at once. -/
theorem applyAll_moveAll_single {mv : Move} {c c' : Cell} (read : m.Movable a mv.src c')
    (write : m.Movable a mv.dst c) :
    ∃ m', m.applyAll (moveAll [mv]) = some m' ∧ m.MakesMoves a [mv] m' := by
  obtain ⟨v, there⟩ := write.there
  obtain ⟨v', there'⟩ := read.there
  have value := read.get.trans there'
  obtain ⟨m', done, written, changes⟩ := applyAll_move write.cell there
    (fun h => by cases write.framed _ h) value
  refine ⟨m', done, fun c'' w moved agree => ?_, changes.mono fun x hx => ?_⟩
  · obtain ⟨mv', hmv, hc⟩ := moved
    obtain rfl := List.mem_singleton.1 hmv
    obtain rfl := Option.some.inj (write.cell.symm.trans hc)
    rw [written, ← value, agree mv' hmv hc]
  · rcases hx with rfl | ⟨-, rfl⟩
    · exact .inr (.inr ⟨mv, List.mem_cons_self, write.cell⟩)
    · exact .inl rfl

/-- Moves are made together by the stack: all sources are pushed, and then popped to the
destinations in reverse. -/
theorem applyAll_pushPop (moves : List Move) (rsp : m.registers .rsp = .stack a)
    (aligned : a % 8 = 0) (read : ∀ mv ∈ moves, ∃ c, m.Movable a mv.src c)
    (write : ∀ mv ∈ moves, ∃ c, m.Movable a mv.dst c) :
    ∃ m', m.applyAll ((moves.map Move.src).map .push ++ (moves.reverse.map Move.dst).map .pop) =
      some m' ∧ m.MakesMoves a moves m' := by
  obtain ⟨low, pushed, top, values, defined, changes⟩ := applyAll_pushes (moves.map Move.src)
    rsp aligned fun o ho => by
      obtain ⟨mv, hmv, rfl⟩ := List.mem_map.1 ho
      exact read mv hmv
  rw [List.length_map] at top
  have cells : ∀ mv ∈ moves, low.cell? mv.dst = m.cell? mv.dst := fun mv hmv => by
    obtain ⟨c, movable⟩ := write mv hmv
    exact cell?_of_framed movable.framed changes Below.not_rbp
  have length : (moves.reverse.map Move.dst).length = moves.length := by simp
  obtain ⟨m', popped, bottom, written, changes'⟩ := applyAll_pops (m := low)
    (moves.reverse.map Move.dst) top (by omega)
    (fun o ho => by
      obtain ⟨mv, hmv, rfl⟩ := List.mem_map.1 ho
      obtain ⟨c, movable⟩ := write mv (List.mem_reverse.1 hmv)
      exact ⟨c, movable.of_changes changes Below.not_rbp defined (by rw [length]; omega)⟩)
  rw [length] at bottom
  refine ⟨m', (applyAll_append pushed).trans popped, fun c v moved agree => ?_,
    fun x hx => ?_, changes'.printed.trans changes.printed⟩
  · obtain ⟨mv, hmv, hc⟩ := moved
    refine written c v ⟨mv.dst, List.mem_map_of_mem (List.mem_reverse.2 hmv),
      (cells mv hmv).trans hc⟩ fun k o hk hc => ?_
    -- what is pushed first is popped last
    rw [List.getElem?_map, Option.map_eq_some_iff] at hk
    obtain ⟨mv', found, rfl⟩ := hk
    have lt : k < moves.length := by
      have := (List.getElem?_eq_some_iff.1 found).1
      rwa [List.length_reverse] at this
    rw [List.getElem?_reverse lt] at found
    have hmv' := List.mem_of_getElem? found
    have pushed := values (moves.length - 1 - k) mv'.src (by rw [List.getElem?_map, found]; rfl)
    rw [agree mv' hmv' ((cells mv' hmv').symm.trans hc)] at pushed
    rw [← Option.some.inj pushed]
    congr 1
    omega
  · -- the stack below the frame is lost, and the register that points to it is where it was
    by_cases pointer : x = .register .rsp
    · subst pointer
      rw [value?_register, value?_register, bottom, rsp]
      congr 2
      omega
    · rw [changes'.kept x, changes.kept x]
      · rintro (h | h)
        · exact pointer h
        · exact hx (.inr (.inl h))
      · rintro (h | ⟨o, ho, h⟩)
        · exact pointer h
        · obtain ⟨mv, hmv, rfl⟩ := List.mem_map.1 ho
          have hmv := List.mem_reverse.1 hmv
          exact hx (.inr (.inr ⟨mv, hmv, (cells mv hmv).symm.trans h⟩))

/-- Moves that have to be made together are. -/
theorem applyAll_moveAll (moves : List Move) (rsp : m.registers .rsp = .stack a)
    (aligned : a % 8 = 0) (read : ∀ mv ∈ moves, ∃ c, m.Movable a mv.src c)
    (write : ∀ mv ∈ moves, ∃ c, m.Movable a mv.dst c) :
    ∃ m', m.applyAll (moveAll moves) = some m' ∧ m.MakesMoves a moves m' := by
  match moves with
  | [] => exact ⟨m, rfl, by simp, .refl m _⟩
  | [mv] =>
    obtain ⟨c, movable⟩ := write mv List.mem_cons_self
    obtain ⟨c', movable'⟩ := read mv List.mem_cons_self
    exact applyAll_moveAll_single movable' movable
  | mv₁ :: mv₂ :: rest =>
    rw [moveAll_cons_cons]
    exact applyAll_pushPop _ rsp aligned read write

end Machine

end Target

end ThreeAddress
