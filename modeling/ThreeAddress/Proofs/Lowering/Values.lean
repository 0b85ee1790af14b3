import ThreeAddress.Proofs.Allocation.Homes
import ThreeAddress.Proofs.Lowering.Frame
import ThreeAddress.Proofs.Results
/-!
# Values in a frame

What an activation reads and writes by name is in the registers, the frame and the data of the
machine.

* `Layout.word?`, `globalData` : the word in a location, and global variables as data;
* `Layout.Holds` : values are at home, arguments are laid ready, and the data are the variables;
* `Layout.Holds.read`, `Layout.Holds.write` : operands are read and written where they are;
* `Layout.executes_edgeMoves` : the moves on an edge do what the phis do.
-/

namespace ThreeAddress

open Execution Target

/-- Global variables as data. -/
def globalData (globals : Store Global) (name : String) : Option Value :=
  (globals.get? ⟨name⟩).map .word

/-- Where an activation goes on, and with what, unless it calls, prints or ends. -/
def Stage.next? {π σ : Type} : Stage π σ → Option (π × Local σ)
  | .going pos a | .writes _ _ pos a => some (pos, a)
  | _ => none

namespace Layout

variable {layout : Layout} {base : Int} {m m' : Machine} {l : Location} {w : Word} {v : Var}

/-! ## Locations -/

/-- The word that is kept in a location, if the location may be a home. -/
def word? (layout : Layout) (base : Int) (m : Machine) (l : Location) : Option Word :=
  if layout.Has l then (m.value? (l.cell base)).bind Value.word? else none

theorem word?_eq_some :
    layout.word? base m l = some w ↔ layout.Has l ∧ m.value? (l.cell base) = some (.word w) := by
  rw [word?]
  split
  · next has =>
    rw [Option.bind_eq_some_iff]
    constructor
    · rintro ⟨v, value, word⟩
      cases v with
      | word w' =>
        cases word
        exact ⟨has, value⟩
      | _ => cases word
    · rintro ⟨-, value⟩
      exact ⟨_, value, rfl⟩
  · next has => simp [has]

theorem word?_congr (h : m'.value? (l.cell base) = m.value? (l.cell base)) :
    layout.word? base m' l = layout.word? base m l := by
  rw [word?, word?, h]

theorem place_eq_register {r : Register} : place l = .register r ↔ l = .register r := by
  cases l <;> simp [place, Frame.spill, Frame.slot]

/-- Homes are different places, unless the frame is too large. -/
theorem place_inj {l l' : Location} (small : layout.frame.bytes < 2147483648) (has : layout.Has l)
    (has' : layout.Has l') : place l = place l' ↔ l = l' := by
  cases l with
  | register r =>
    rw [eq_comm, eq_comm (a := Location.register r)]
    exact place_eq_register
  | slot n =>
    cases l' with
    | register r => exact place_eq_register
    | slot n' =>
      rw [Location.slot.injEq]
      exact Frame.slot_inj (Frame.reaches_of_lt small (has_slot_lt has))
        (Frame.reaches_of_lt small (has_slot_lt has'))

/-- A slot or a register that temporaries are given can be read anywhere. -/
theorem steady_place_of_palette (palette : ∀ r, l = .register r → r ∈ Register.palette) :
    (place l).Steady := by
  cases l with
  | slot n =>
    refine ⟨fun r hr => ?_, rfl⟩
    rw [List.mem_singleton.1 hr]
    rfl
  | register r =>
    refine ⟨fun s hs => ?_, rfl⟩
    rw [List.mem_singleton.1 hs]
    have mem := palette r rfl
    revert mem
    cases r <;> decide

theorem steady_place (has : layout.Has l) : (place l).Steady :=
  steady_place_of_palette fun r e => by
    subst e
    exact has.1

/-- A home is no scratch register. -/
theorem not_scratch_cell (has : layout.Has l) : ¬ (l.cell base).Scratch := by
  rintro ⟨r, hr, same⟩
  cases l with
  | slot n => cases same
  | register s =>
    cases same
    cases ((steady_place has).read r (List.mem_singleton.2 rfl)).symm.trans hr

/-! ## Operands -/

theorem home_eq_ok {t : Temp} {o : Target.Operand} :
    layout.home t = .ok o ↔ ∃ l, layout.locations.get? t = some l ∧ place l = o := by
  rw [home]
  cases layout.locations.get? t <;> simp

/-- Where an operand is read from. -/
theorem source_eq_ok {o : Target.Operand} (h : layout.source v = .ok o) :
    (v = .sink ∧ o = .immediate 0) ∨
      (∃ t l, v = .temp t ∧ t.isSink = false ∧ layout.locations.get? t = some l ∧ o = place l) ∨
      ∃ g, v = .global g ∧ o = .symbol g.name := by
  rcases v.cases_named with ⟨t, rfl, named, -⟩ | ⟨rfl, -⟩ | ⟨g, rfl, -⟩
  · simp only [source, named, Bool.false_eq_true, if_false] at h
    obtain ⟨l, home, rfl⟩ := home_eq_ok.1 h
    exact .inr (.inl ⟨t, l, rfl, named, home, rfl⟩)
  · cases h
    exact .inl ⟨rfl, rfl⟩
  · cases h
    exact .inr (.inr ⟨g, rfl, rfl⟩)

/-- The cell that an operand is written to. -/
def target? (layout : Layout) (base : Int) : Var → Option Cell
  | .temp t => (layout.locations.get? t).map (·.cell base)
  | .global g => some (.datum g.name)

/-! ## Values -/

/-- Live values are at home, arguments are laid ready, and the data are the global variables. -/
structure Holds (layout : Layout) (base : Int) (live : Temp → Prop)
    (a : Local (Temp → Option Word)) (m : Machine) : Prop where
  homes : Agrees layout.locations live a.temps (layout.word? base m)
  staged : ∀ k w, a.staged.get? k = some w → 1 ≤ k ∧ k ≤ layout.frame.arguments ∧
    m.stack (Frame.address base (layout.frame.argumentSlot k)) = .word w
  data : m.data = globalData a.globals

variable {live live' : Temp → Prop} {a : Local (Temp → Option Word)}

theorem Holds.mono (h : layout.Holds base live a m) (le : ∀ t, live' t → live t) :
    layout.Holds base live' a m := ⟨h.homes.mono le, h.staged, h.data⟩

/-- An argument slot is no home, and nothing that instructions use for themselves. -/
theorem Holds.of_changes {cells : Cell → Prop} (h : layout.Holds base live a m)
    (changes : Changes m m' cells) (homes : ∀ l, layout.Has l → ¬ cells (l.cell base))
    (arguments : ∀ k, ¬ cells (.stack (Frame.address base (layout.frame.argumentSlot k))))
    (data : ∀ name, ¬ cells (.datum name)) : layout.Holds base live a m' where
  homes t ht named w hw := by
    obtain ⟨l, home, value⟩ := h.homes t ht named w hw
    refine ⟨l, home, (word?_congr (changes.kept _ (homes l ?_))).trans value⟩
    exact (word?_eq_some.1 value).1
  staged k w hw := by
    obtain ⟨first, last, value⟩ := h.staged k w hw
    exact ⟨first, last, (changes.stack (arguments k)).trans value⟩
  data := (funext fun name => changes.data (data name)).trans h.data

theorem Holds.of_scratch (h : layout.Holds base live a m) (changes : Changes m m' Cell.Scratch) :
    layout.Holds base live a m' :=
  h.of_changes changes (fun _ => not_scratch_cell) (fun _ ⟨_, _, e⟩ => by cases e)
    fun _ ⟨_, _, e⟩ => by cases e

/-- An operand is read from where it is. -/
theorem Holds.read {proc : Control Point} {o : Target.Operand} (h : layout.Holds base live a m)
    (sound : layout.Sound) (stands : layout.Stands base m) (uses : ∀ t, v.named? = some t → live t)
    (source : layout.source v = .ok o) (read : proc.read .strict a v = .ok w) :
    m.get o = some (.word w) ∧ o.Steady := by
  rcases source_eq_ok source with ⟨rfl, rfl⟩ | ⟨t, l, rfl, named, home, rfl⟩ | ⟨g, rfl, rfl⟩
  · cases read
    exact ⟨rfl, fun _ hr => (List.not_mem_nil hr).elim, rfl⟩
  · have value : a.temps t = some w := by
      simp only [Control.read, named, Bool.false_eq_true, if_false, Keeping.strict] at read
      split at read
      · next found =>
        cases read
        exact found
      · cases read
    have named? : (Var.temp t).named? = some t := by simp [Var.named?, named]
    obtain ⟨l', home', word⟩ := h.homes t (uses t named?) named w value
    obtain rfl : l' = l := Option.some.inj (home'.symm.trans home)
    obtain ⟨has, value⟩ := word?_eq_some.1 word
    exact ⟨(stands.movable_place sound has).get.trans value, steady_place has⟩
  · have value : a.globals.get? g = some w := by
      simp only [Control.read] at read
      split at read
      · next found =>
        cases read
        exact found
      · cases read
    have data : m.data g.name = some (.word w) := by
      rw [h.data, globalData, value]
      rfl
    exact ⟨(Machine.get_of_cell? (Machine.cell?_symbol m g.name)).trans data,
      fun _ hr => (List.not_mem_nil hr).elim, rfl⟩

/-! ## Writing -/

theorem target?_sink {g : FlowGraph} {live : Liveness} (housed : Housed g live layout.locations)
    (base : Int) :
    layout.target? base .sink = none := by
  cases home : layout.locations.get? .sink with
  | none => simp only [Var.sink, target?, home, Option.map_none]
  | some l => cases housed.named _ _ home

/-- Behind an instruction whose value is written to where its destination is, values are at home,
if nothing else that is live was changed. -/
theorem Holds.write {g : FlowGraph} {liveness : Liveness} {b : Block} {front rest : List Instr}
    {i : Instr} (housed : Housed g liveness layout.locations) (sound : layout.Sound)
    (hb : b ∈ g.blocks) (split : b.code = front ++ i :: rest) (plain : i.isPhi = false)
    (dest : i.dest? = some v)
    (homes : Agrees layout.locations (· ∈ liveFrom (liveness.after g b.label) (i :: rest)) a.temps
      (layout.word? base m))
    (kept : ∀ t ∈ liveFrom (liveness.after g b.label) rest, ∀ l, layout.locations.get? t = some l →
      layout.target? base v ≠ some (l.cell base) → m'.value? (l.cell base) = m.value? (l.cell base))
    (staged : ∀ k w, a.staged.get? k = some w → 1 ≤ k ∧ k ≤ layout.frame.arguments ∧
      m'.stack (Frame.address base (layout.frame.argumentSlot k)) = .word w)
    (data : ∀ name, layout.target? base v ≠ some (.datum name) →
      m'.data name = globalData a.globals name)
    (written : ∀ c, layout.target? base v = some c → m'.value? c = some (.word w))
    {pos pos' : Point} {a' : Local (Temp → Option Word)}
    (next : (Keeping.strict.write pos a v w).next? = some (pos', a')) :
    pos' = pos ∧ layout.Holds base (· ∈ liveFrom (liveness.after g b.label) rest) a' m' := by
  rcases v.cases_named with ⟨d, rfl, named, named?⟩ | ⟨rfl, -⟩ | ⟨x, rfl, -⟩
  · have hd : i.def? = some d := (Instr.def?_of_dest? dest).trans named?
    simp only [Keeping.write, named, Bool.false_eq_true, if_false, Stage.next?, Option.some.injEq,
      Prod.mk.injEq] at next
    obtain ⟨rfl, rfl⟩ := next
    have target : ∀ l, layout.locations.get? d = some l →
        layout.target? base (.temp d) = some (l.cell base) := fun l home => by simp [target?, home]
    refine ⟨rfl, ?_, staged, funext fun name => data name (by simp [target?])⟩
    refine homes.define housed hb split plain hd (fun l home => ?_) fun t ht l home other => ?_
    · exact word?_eq_some.2 ⟨sound.homes d l home, written _ (target l home)⟩
    · refine word?_congr (kept t ht l home fun same => other ?_)
      obtain ⟨l', home', same⟩ := Option.map_eq_some_iff.1 same
      rw [home', Location.cell_inj.1 same]
  · have hd : i.def? = none := Instr.def?_of_dest? dest
    cases next
    have none := target?_sink housed base
    refine ⟨rfl, ?_, staged, funext fun name => data name (by simp [none])⟩
    exact homes.pass hd fun t ht l home => word?_congr (kept t ht l home (by simp [none]))
  · have hd : i.def? = none := Instr.def?_of_dest? dest
    simp only [Keeping.write] at next
    cases declared : a.globals.get? x with
    | none =>
      simp only [declared] at next
      cases next
    | some old =>
      simp only [declared] at next
      cases next
      refine ⟨rfl, homes.pass hd fun t ht l home => ?_, staged, funext fun name => ?_⟩
      · exact word?_congr (kept t ht l home (by simp [target?, Ne.symm]))
      · rw [globalData, Store.get?_set]
        by_cases same : name = x.name
        · subst same
          rw [if_pos rfl]
          exact written (.datum x.name) rfl
        · have other : (⟨name⟩ : Global) ≠ x := fun e => same (congrArg Global.name e)
          rw [if_neg other]
          exact data name (by simpa [target?, eq_comm] using same)

/-! ## Moves on edges -/

variable {homes : Homes} {origin : Origin}

/-- The moves of phis go from home to home, where these are different. -/
theorem phiMoves_eq {phis : List Instr} {moves : List Move}
    (homes : ∀ t l, layout.locations.get? t = some l → layout.Has l)
    (small : layout.frame.bytes < 2147483648) (h : phiMoves layout origin phis = .ok moves) :
    moves = ((homeMoves layout.locations origin phis).filter fun e => e.1 ≠ e.2).map
      fun e => ⟨place e.1, place e.2⟩ := by
  induction phis generalizing moves with
  | nil =>
    cases h
    rfl
  | cons i rest ih =>
    cases i with
    | phi d args =>
      rw [phiMoves] at h
      cases arg : args.get? origin with
      | none =>
        simp only [arg] at h
        simp only [homeMoves, arg, Option.bind_none]
        exact ih h
      | some t =>
        simp only [arg, home] at h
        cases hd : layout.locations.get? d with
        | none => simp [hd, bind, Except.bind] at h
        | some dst =>
          cases ht : layout.locations.get? t with
          | none => simp [hd, ht, bind, Except.bind] at h
          | some src =>
            cases more : phiMoves layout origin rest with
            | error e => simp [hd, ht, more, bind, Except.bind] at h
            | ok moves' =>
              simp only [hd, ht, more, bind, Except.bind, pure, Except.pure, Except.ok.injEq] at h
              simp only [homeMoves, arg, Option.bind_some, ht, hd]
              rw [← h, ih more]
              by_cases same : dst = src
              · simp [same]
              · have other : place dst ≠ place src := fun e =>
                  same ((place_inj small (homes d dst hd) (homes t src ht)).1 e)
                simp [same, other]
    | _ =>
      rw [homeMoves]
      · exact ih h
      · simp

/-- What a phi has to do on an edge is among the moves. -/
theorem exists_of_phiMoves {phis : List Instr} {moves : List Move}
    (h : phiMoves layout origin phis = .ok moves) {dest : Temp} {args : SortedMap Origin Temp}
    (mem : .phi dest args ∈ phis) {arg : Temp}
    (found : args.get? origin = some arg) :
    ∃ dst src, layout.locations.get? dest = some dst ∧ layout.locations.get? arg = some src ∧
      (place dst = place src ∨ ⟨place dst, place src⟩ ∈ moves) := by
  induction phis generalizing moves with
  | nil => cases mem
  | cons i phis ih =>
    cases i with
    | phi d as =>
      rw [phiMoves] at h
      cases here : as.get? origin with
      | none =>
        simp only [here] at h
        rcases List.mem_cons.1 mem with same | mem
        · cases same
          cases here.symm.trans found
        · exact ih h mem
      | some t =>
        simp only [here] at h
        obtain ⟨dst, hd, h⟩ := bind_eq_ok_iff.1 h
        obtain ⟨src, hs, h⟩ := bind_eq_ok_iff.1 h
        obtain ⟨more, rest, h⟩ := bind_eq_ok_iff.1 h
        cases h
        rcases List.mem_cons.1 mem with same | mem
        · cases same
          cases here.symm.trans found
          obtain ⟨new, home, rfl⟩ := home_eq_ok.1 hd
          obtain ⟨old, home', rfl⟩ := home_eq_ok.1 hs
          refine ⟨new, old, home, home', ?_⟩
          by_cases same : place new = place old
          · exact .inl same
          · rw [if_neg same]
            exact .inr List.mem_cons_self
        · obtain ⟨new, old, home, home', moved⟩ := ih rest mem
          refine ⟨new, old, home, home', moved.imp_right fun moved => ?_⟩
          split
          · exact moved
          · exact List.mem_cons_of_mem _ moved
    | _ =>
      rw [phiMoves] at h
      · exact ih h ((List.mem_cons.1 mem).resolve_left (by simp))
      · simp

/-- The cells that moves on edges change. -/
def EdgeCells (layout : Layout) (base : Int) (c : Cell) : Prop :=
  c = .register .rax ∨ (∃ b < base - layout.frame.bytes, c = .stack b) ∨
    ∃ l, layout.Has l ∧ c = l.cell base

theorem own_edgeCells {c : Cell} (h : layout.EdgeCells base c) : layout.Own base c := by
  rcases h with rfl | ⟨b, lt, rfl⟩ | ⟨l, has, rfl⟩
  · exact own_scratch ⟨_, rfl, rfl⟩
  · exact own_below lt
  · exact own_cell has

/-- Moves to homes are made together. A home that several moves go to has what their sources had,
if that is the same. -/
theorem executes_moves {all : List (Location × Location)} (sound : layout.Sound)
    (stands : layout.Stands base m) (homes : ∀ e ∈ all, layout.Has e.1)
    (sources : ∀ e ∈ all, m.Movable (base - layout.frame.bytes) (place e.2) (e.2.cell base)) :
    m.Executes (moveAll ((all.filter fun e => e.1 ≠ e.2).map fun e => ⟨place e.1, place e.2⟩))
      fun m' => (∀ l v, l ∈ all.map Prod.fst →
          (∀ e ∈ all, e.1 = l → m.value? (e.2.cell base) = some v) →
          m'.value? (l.cell base) = some v) ∧
        (∀ l, layout.Has l → l ∉ all.map Prod.fst →
          m'.value? (l.cell base) = m.value? (l.cell base)) ∧
        Changes m m' (layout.EdgeCells base) := by
  let different := all.filter fun e => e.1 ≠ e.2
  let moves : List Move := different.map fun e => ⟨place e.1, place e.2⟩
  have cell : ∀ {l}, layout.Has l → m.cell? (place l) = some (l.cell base) :=
    fun has => (stands.movable_place sound has).cell
  have inside : ∀ e ∈ different, e ∈ all := fun e he => (List.mem_filter.1 he).1
  obtain ⟨m', done, values, changes⟩ := Machine.applyAll_moveAll moves stands.rsp
    (by have := stands.rsp_aligned; omega)
    (fun mv hmv => by
      obtain ⟨e, he, rfl⟩ := List.mem_map.1 hmv
      exact ⟨_, sources e (inside e he)⟩)
    (fun mv hmv => by
      obtain ⟨e, he, rfl⟩ := List.mem_map.1 hmv
      exact ⟨_, stands.movable_place sound (homes e (inside e he))⟩)
  -- a home that no move writes
  have kept : ∀ l, layout.Has l → l ∉ different.map Prod.fst →
      m'.value? (l.cell base) = m.value? (l.cell base) := by
    intro l hl other
    refine changes.kept _ ?_
    rintro (same | ⟨b, lt, same⟩ | ⟨mv, hmv, same⟩)
    · exact not_scratch_cell hl ⟨.rax, rfl, same⟩
    · exact (stands.movable_place sound hl).free.ne_below lt same
    · obtain ⟨e, he, rfl⟩ := List.mem_map.1 hmv
      have same := (cell (homes e (inside e he))).symm.trans same
      exact other (List.mem_map.2 ⟨e, he, Location.cell_inj.1 (Option.some.inj same)⟩)
  refine ⟨m', done, fun l v mem agree => ?_, fun l hl other => kept l hl fun mem => ?_,
    changes.mono ?_⟩
  · by_cases moved : l ∈ different.map Prod.fst
    · obtain ⟨e, he, rfl⟩ := List.mem_map.1 moved
      have home := cell (homes e (inside e he))
      refine values _ v ⟨_, List.mem_map_of_mem he, home⟩ fun mv hmv same => ?_
      obtain ⟨e', he', rfl⟩ := List.mem_map.1 hmv
      have home' := cell (homes e' (inside e' he'))
      have same := Location.cell_inj.1 (Option.some.inj (home'.symm.trans same))
      exact (sources e' (inside e' he')).get.trans (agree e' (inside e' he') same)
    · -- the value is there already
      obtain ⟨e, he, rfl⟩ := List.mem_map.1 mem
      have same : e.1 = e.2 := by
        by_contra other
        exact moved (List.mem_map.2 ⟨e, List.mem_filter.2 ⟨he, by simpa using other⟩, rfl⟩)
      rw [kept e.1 (homes e he) moved, same]
      exact agree e he rfl
  · obtain ⟨e, he, same⟩ := List.mem_map.1 mem
    exact other (List.mem_map.2 ⟨e, inside e he, same⟩)
  · rintro c (rfl | below | ⟨mv, hmv, same⟩)
    · exact .inl rfl
    · exact .inr (.inl below)
    · obtain ⟨e, he, rfl⟩ := List.mem_map.1 hmv
      have hdst := homes e (inside e he)
      exact .inr (.inr ⟨e.1, hdst, Option.some.inj (same.symm.trans (cell hdst))⟩)

theorem has_of_mem_homeMoves (sound : layout.Sound) {phis : List Instr} {e : Location × Location}
    (h : e ∈ homeMoves layout.locations origin phis) : layout.Has e.1 ∧ layout.Has e.2 := by
  obtain ⟨d, args, t, -, -, src, dst⟩ := mem_homeMoves.1 h
  exact ⟨sound.homes d _ dst, sound.homes t _ src⟩

/-- The moves of phis are made together, and two phis may have the same home if their arguments have
the same value. -/
theorem executes_homeMoves {phis : List Instr} {moves : List Move} (sound : layout.Sound)
    (stands : layout.Stands base m) (h : phiMoves layout origin phis = .ok moves) :
    m.Executes (moveAll moves) fun m' =>
      (∀ l v, l ∈ (homeMoves layout.locations origin phis).map Prod.fst →
        (∀ e ∈ homeMoves layout.locations origin phis, e.1 = l →
          m.value? (e.2.cell base) = some v) → m'.value? (l.cell base) = some v) ∧
      (∀ l, layout.Has l → l ∉ (homeMoves layout.locations origin phis).map Prod.fst →
        m'.value? (l.cell base) = m.value? (l.cell base)) ∧
      Changes m m' (layout.EdgeCells base) := by
  rw [phiMoves_eq sound.homes sound.small h]
  exact executes_moves sound stands (fun e he => (has_of_mem_homeMoves sound he).1)
    fun e he => stands.movable_place sound (has_of_mem_homeMoves sound he).2

/-- The moves on an edge are made together. -/
theorem executes_phiMoves {phis : List Instr} {moves : List Move} (sound : layout.Sound)
    (stands : layout.Stands base m)
    (nodup : ((homeMoves layout.locations origin phis).map Prod.fst).Nodup)
    (h : phiMoves layout origin phis = .ok moves) :
    m.Executes (moveAll moves) fun m' =>
      Moved (homeMoves layout.locations origin phis) (layout.word? base m) (layout.word? base m') ∧
        Changes m m' (layout.EdgeCells base) := by
  refine (executes_homeMoves sound stands h).imp ?_
  rintro m' - ⟨moved, kept, changes⟩
  refine ⟨⟨fun e he => ?_, fun l other => ?_⟩, changes⟩
  · have has := has_of_mem_homeMoves sound he
    obtain ⟨v, value⟩ := (stands.movable_place sound has.2).there
    have arrived : m'.value? (e.1.cell base) = some v :=
      moved e.1 v (List.mem_map_of_mem he) fun e' he' same => by
        rwa [List.inj_on_of_nodup_map nodup he' he same]
    rw [word?, word?, arrived, value, if_pos has.1, if_pos has.2]
  · by_cases hl : layout.Has l
    · exact word?_congr (kept l hl other)
    · rw [word?, word?, if_neg hl, if_neg hl]

/-- The moves on an edge into a block do what the phis of the block do. -/
theorem executes_edgeMoves {g : FlowGraph} {liveness : Liveness} {b : Block} {moves : List Move}
    (wf : g.WellFormed) (solved : Solved g liveness) (housed : Housed g liveness layout.locations)
    (named : g.PhisNamed) (once : b.phiDefs.Nodup) (sound : layout.Sound)
    (stands : layout.Stands base m) (hb : b ∈ g.blocks)
    (holds : layout.Holds base (fun t => liveness.Has g t (.enter origin b.label)) a m)
    (h : g.edgeMoves layout origin b.label = .ok moves) :
    m.Executes (moveAll moves) fun m' =>
      layout.Holds base (· ∈ liveFrom (liveness.after g b.label) b.code)
        { a with temps := Keeping.strict.assign origin b.phis a.temps } m' ∧
      Changes m m' (layout.EdgeCells base) := by
  have found : g.block? b.label = some b := (FlowGraph.block?_eq_some wf.nodup).2 ⟨hb, rfl⟩
  simp only [FlowGraph.edgeMoves, found] at h
  have nodup : ((homeMoves layout.locations origin b.phis).map Prod.fst).Nodup :=
    nodup_homeMoves housed named hb (fun i hi => hi) once
  refine (executes_phiMoves sound stands nodup h).imp fun m' _ ⟨moved, changes⟩ => ⟨?_, changes⟩
  have argument : ∀ k, k ≤ layout.frame.arguments → 1 ≤ k → ¬ layout.EdgeCells base
      (.stack (Frame.address base (layout.frame.argumentSlot k))) := by
    rintro k last first (same | ⟨b, lt, same⟩ | ⟨l, has, same⟩)
    · cases same
    · have : base - layout.frame.bytes ≤ Frame.address base (layout.frame.argumentSlot k) :=
        Frame.bytes_le_address (Frame.argumentSlot_lt first last)
      cases same
      omega
    · cases l with
      | register r => cases same
      | slot n =>
        have lt : n < layout.frame.spills := has
        have := Frame.address_inj.1 (Cell.stack.inj same)
        simp only [Frame.argumentSlot] at this
        omega
  refine ⟨holds.homes.enter solved housed named hb once moved, fun k w hw => ?_, ?_⟩
  · obtain ⟨first, last, value⟩ := holds.staged k w hw
    exact ⟨first, last, (changes.stack (argument k last first)).trans value⟩
  · refine (funext fun name => changes.data ?_).trans holds.data
    rintro (same | ⟨b, -, same⟩ | ⟨l, -, same⟩)
    · cases same
    · cases same
    · exact Location.cell_ne_datum base l name same.symm

end Layout

end ThreeAddress
