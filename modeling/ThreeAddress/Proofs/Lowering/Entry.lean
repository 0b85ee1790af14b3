import ThreeAddress.Proofs.Lowering.Call
/-!
# Entering and leaving a function

A function sets up its frame, saves the registers that it has to give back and moves its parameters
home. When it is left, the caller finds everything as it was.

* `Serves` : a function prints and returns what it has to, wherever it is called from;
* `Layout.executes_setUp` : the frame is set up;
* `Layout.executes_params` : the parameters are moved home;
* `Layout.executes_arrive` : so they are at home in the frame;
* `Layout.executes_enter` : and so are the values of phis of the first block;
* `Layout.steps_leave` : the function returns.
-/

namespace ThreeAddress

open Execution Target

namespace Target

variable {a : Int} {args : List Word} {globals : Store Global} {m m' : Machine} {out : List Printed}
  {w : Word} {cells : Cell → Prop}

/-- An argument is in a register for arguments or above `rsp`. -/
theorem argumentCell_cases (a : Int) (k : Nat) :
    (∃ r ∈ Register.arguments, argumentCell a k = .register r) ∨
      ∃ b, a ≤ b ∧ argumentCell a k = .stack b := by
  cases found : Register.arguments[k]? with
  | some r => exact .inl ⟨r, List.mem_of_getElem? found, argumentCell_register found⟩
  | none =>
    have le : 6 ≤ k := List.getElem?_eq_none_iff.1 found
    exact .inr ⟨_, by omega, argumentCell_stack le⟩

/-- Arguments stay where they are as long as neither the registers for arguments nor the stack above
`rsp` change. -/
theorem value?_argumentCell (changes : Changes m m' cells)
    (registers : ∀ r ∈ Register.arguments, ¬ cells (.register r))
    (stack : ∀ b, a ≤ b → ¬ cells (.stack b)) (k : Nat) :
    m'.value? (argumentCell a k) = m.value? (argumentCell a k) := by
  refine changes.kept _ ?_
  rcases argumentCell_cases a k with ⟨r, hr, same⟩ | ⟨b, le, same⟩
  · exact same ▸ registers r hr
  · exact same ▸ stack b le

theorem Passes.of_changes (h : Passes a args globals m) (changes : Changes m m' cells)
    (registers : ∀ r ∈ Register.arguments, ¬ cells (.register r))
    (stack : ∀ b, a ≤ b → ¬ cells (.stack b)) (data : ∀ name, ¬ cells (.datum name)) :
    Passes a args globals m' where
  aligned := h.aligned
  few := h.few
  args k w hk := (value?_argumentCell changes registers stack k).trans (h.args k w hk)
  data := (funext fun name => changes.data (data name)).trans h.data

/-- Code of a function prints `out`, leaves the global variables like this and returns `w`, wherever
it is called from. -/
def Serves (functions : List Function) (litter : Litter) (f : Function) (args : List Word)
    (globals : Store Global) (out : List Printed) (w : Word) (globals' : Store Global) : Prop :=
  ∀ (a : Int) (place : Option Place) (m : Machine), Passes a args globals m →
    m.registers .rsp = .stack (a - 8) → m.stack (a - 8) = .back place →
    ∃ m', Steps functions litter ⟨some ⟨f, f.instrs⟩, m⟩ ⟨place, m'⟩ ∧ Returns a out w globals' m m'

/-- A call of a function goes to the first one with the name. -/
theorem Serves.answers {functions : List Function} {litter : Litter} {f : Function}
    {callee : Global} {globals' : Store Global}
    (h : Serves functions litter f args globals out w globals')
    (found : functions.find? (fun f => f.name == callee.name) = some f) :
    Answers functions litter callee args globals out w globals' := by
  intro caller rest a m passes rsp
  have aligned := passes.aligned
  let entry := (m.put (.stack (a - 8)) (.back (some ⟨caller, rest⟩))).put (.register .rsp)
    (.stack (a - 8))
  have changes : Changes m entry fun c => c = .stack (a - 8) ∨ c = .register .rsp :=
    ((Changes.put m _ _).mono fun c hc => .inl hc).trans
      ((Changes.put _ _ _).mono fun c hc => .inr hc)
  have passes' : Passes a args globals entry := by
    refine passes.of_changes changes (by simp [Register.arguments]) (fun b le => ?_) (by simp)
    rintro (same | same)
    · cases same
      omega
    · cases same
  obtain ⟨m', steps, returns⟩ := h a (some ⟨caller, rest⟩) entry passes' (by simp [entry])
    (by simp [entry])
  refine ⟨m', .trans (.single (step?_call found rsp (by omega))) steps, returns.result, returns.rsp,
    fun r hr => (returns.kept r hr).trans (changes.register ?_), fun b hb =>
      (returns.stack b hb).trans (changes.stack ?_), returns.data,
    returns.printed.trans (congrArg (· ++ _) changes.printed)⟩
  · rintro (same | same)
    · cases same
    · cases same
      cases hr
  · rintro (same | same)
    · cases same
      omega
    · cases same

end Target

namespace Layout

variable {layout : Layout} {base : Int} {m m' entry : Machine} {args : List Word}
  {globals : Store Global}

/-! ## The frame -/

/-- What is changed while a frame is set up. -/
def SetUpCells (base : Int) (c : Cell) : Prop :=
  c = .register .rsp ∨ c = .register .rbp ∨ ∃ b ≤ base, c = .stack b

/-- The stack pointer is moved below the slots, unless there are too many of them. -/
theorem setUp_eq (small : layout.frame.bytes < 2147483648) : layout.setUp =
    .push (.register .rbp) :: .mov (.register .rbp) (.register .rsp) ::
      (adjustCode .sub layout.frame.bytes ++ layout.store layout.frame.calleeSaved) := by
  have size := Frame.toInt_size small
  have zero : (0 : Int32).toInt = 0 := rfl
  have positive : 0 < layout.frame.size ↔ ¬ layout.frame.bytes = 0 := by
    rw [Int32.lt_iff_toInt_lt, size, zero]
    omega
  have amount : layout.frame.size.toInt64 = .ofNat layout.frame.bytes := by
    rw [← Int64.toInt_inj, Int32.toInt_toInt64, size, Int64.toInt_ofNat_of_lt (by omega)]
  simp only [setUp, adjustCode, positive, amount, ite_not, List.cons_append, List.nil_append]

/-- The frame is set up, and registers that have to be given back are saved. -/
theorem executes_setUp (sound : layout.Sound) (aligned : base % 16 = 0)
    (rsp : entry.registers .rsp = .stack (base + 8)) :
    entry.Executes layout.setUp fun m =>
      layout.Held base entry m ∧ Changes entry m (SetUpCells base) := by
  rw [setUp_eq sound.small]
  let m₁ := (entry.put (.stack (base + 8 - 8)) (entry.registers .rbp)).put (.register .rsp)
    (.stack (base + 8 - 8))
  let m₂ := m₁.put (.register .rbp) (m₁.registers .rsp)
  have down : base + 8 - 8 = base := by omega
  have changes : Changes entry m₂ (SetUpCells base) := by
    refine (((Changes.put entry _ _).mono ?_).trans ((Changes.put _ _ _).mono ?_)).trans
      ((Changes.put m₁ _ _).mono ?_)
    · exact fun c hc => .inr (.inr ⟨_, by omega, hc⟩)
    · exact fun c hc => .inl hc
    · exact fun c hc => .inr (.inl hc)
  have rsp₂ : m₂.registers .rsp = .stack base := by simp [m₂, m₁]
  have rbp₂ : m₂.registers .rbp = .stack base := by simp [m₂, m₁]
  have link₂ : m₂.stack base = entry.registers .rbp := by simp [m₂, m₁]
  refine .cons (Machine.apply_push rsp (by omega) rfl (Machine.get_register ..))
    (.cons (Machine.apply_mov_register (Machine.get_register ..)) ?_)
  refine (executes_adjustCode rsp₂ sound.small .sub (.inl ⟨rfl, rfl⟩)).append
    fun m₃ _ ⟨rsp₃, changes₃⟩ => ?_
  have stands₃ : layout.Stands base m₃ :=
    ⟨⟨aligned, (changes₃.register (by simp)).trans rbp₂⟩, rsp₃⟩
  refine (executes_store sound stands₃ layout.frame.calleeSaved).imp
    fun m₄ _ ⟨saved, changes₄⟩ => ?_
  have below : ∀ b, base ≤ b → m₄.stack b = m₂.stack b := fun b le => by
    rw [changes₄.stack, changes₃.stack (by simp)]
    rintro ⟨r, -, n, -, same⟩
    cases same
    exact absurd (Frame.address_lt base n) (by omega)
  have register : ∀ r, r ≠ .rsp → r ≠ .rbp → m₃.registers r = entry.registers r := fun r h h' => by
    rw [changes₃.register (by simpa using h), changes.register (by simp [SetUpCells, h, h'])]
  have callee : ∀ r : Register, r.isCalleeSaved = true → r ≠ .rsp := by
    rintro r h rfl
    cases h
  refine ⟨⟨stands₃.of_changes changes₄ (by simp [SaveCells]) (by simp [SaveCells]),
    fun b lt => ?_, ?_, fun r hr n found => ?_, fun r hr ne _ => ?_⟩,
    (changes.trans (changes₃.mono ?_)).trans (changes₄.mono ?_)⟩
  · rw [below b (by omega), changes.stack]
    rintro (same | same | ⟨b', le, same⟩)
    · cases same
    · cases same
    · cases same
      omega
  · exact (below base (Int.le_refl _)).trans link₂
  · rw [saved r hr n found, register r (callee r (sound.callee r hr).1) (sound.callee r hr).2]
  · rw [changes₄.register (by simp [SaveCells]), register r (callee r hr) ne]
  · exact fun c hc => .inl hc
  · rintro c ⟨r, -, n, -, rfl⟩
    exact .inr (.inr ⟨_, Int.le_of_lt (Frame.address_lt base n), rfl⟩)

/-! ## Parameters -/

/-- The moves of parameters that arrive in registers, from there to their homes. -/
def paramMoves (homes : Homes) (pairs : List (Temp × Register)) : List (Location × Location) :=
  pairs.filterMap fun e =>
    if e.1.isSink then none else (homes.get? e.1).map fun l => (l, Location.register e.2)

theorem mem_paramMoves {homes : Homes} {pairs : List (Temp × Register)} {e : Location × Location} :
    e ∈ paramMoves homes pairs ↔
      ∃ t r, (t, r) ∈ pairs ∧ t.isSink = false ∧ homes.get? t = some e.1 ∧ e.2 = .register r := by
  obtain ⟨dst, src⟩ := e
  simp only [paramMoves, List.mem_filterMap, Prod.exists]
  refine exists_congr fun t => exists_congr fun r => and_congr_right fun _ => ?_
  cases t.isSink with
  | true => simp
  | false => simp [eq_comm]

/-- The parameters in registers go to their homes, where these are different. -/
theorem registerParams_eq {pairs : List (Temp × Register)} {moves : List Move}
    (h : layout.registerParams pairs = .ok moves) :
    moves = ((paramMoves layout.locations pairs).filter fun e => e.1 ≠ e.2).map
      fun e => ⟨place e.1, place e.2⟩ := by
  induction pairs generalizing moves with
  | nil =>
    cases h
    rfl
  | cons e rest ih =>
    obtain ⟨t, r⟩ := e
    rw [registerParams] at h
    split at h
    · next sink =>
      rw [ih h]
      simp [paramMoves, sink]
    · next named =>
      obtain ⟨dst, home, h⟩ := bind_eq_ok_iff.1 h
      obtain ⟨more, found, h⟩ := bind_eq_ok_iff.1 h
      obtain ⟨l, stored, rfl⟩ := home_eq_ok.1 home
      have first : paramMoves layout.locations ((t, r) :: rest) =
          (l, .register r) :: paramMoves layout.locations rest :=
        List.filterMap_cons_some (by simp [named, stored])
      have h := Except.ok.inj h
      rw [first, ← h, ih found]
      have register : place (.register r) = .register r := rfl
      by_cases stays : l = .register r
      · simp [stays, register]
      · have moved : place l ≠ .register r := fun e => stays (place_eq_register.1 e)
        simp [stays, moved, register]

/-- What is changed while parameters are moved home. -/
def ParamCells (layout : Layout) (base : Int) (c : Cell) : Prop :=
  c.Scratch ∨ layout.EdgeCells base c

theorem not_edgeCells_above {b : Int} (h : base ≤ b) : ¬ layout.EdgeCells base (.stack b) := by
  rintro (same | ⟨b', lt, same⟩ | ⟨l, -, same⟩)
  · cases same
  · cases same
    omega
  · cases l with
    | register r => cases same
    | slot n =>
      cases same
      exact absurd (Frame.address_lt base n) (by omega)

theorem not_paramCells_above {b : Int} (h : base ≤ b) : ¬ layout.ParamCells base (.stack b) := by
  rintro (⟨r, -, same⟩ | edge)
  · cases same
  · exact not_edgeCells_above h edge

theorem not_paramCells_datum (name : String) : ¬ layout.ParamCells base (.datum name) := by
  rintro (⟨r, -, same⟩ | same | ⟨b, -, same⟩ | ⟨l, -, same⟩)
  · cases same
  · cases same
  · cases same
  · exact Location.cell_ne_datum base l name same.symm

theorem own_paramCells {c : Cell} (h : layout.ParamCells base c) : layout.Own base c :=
  h.elim own_scratch own_edgeCells

/-- Parameters of different names have different homes. -/
def Separate (layout : Layout) (params : List Temp) : Prop :=
  ∀ t ∈ params, t.isSink = false → ∀ t' ∈ params, t'.isSink = false → t ≠ t' →
    Homes.Apart layout.locations t t'

theorem Separate.of_subset {params params' : List Temp} (h : layout.Separate params)
    (sub : ∀ t ∈ params', t ∈ params) : layout.Separate params' :=
  fun t ht named t' ht' => h t (sub t ht) named t' (sub t' ht')

/-- A value is at the home of a temporary. -/
def AtHome (layout : Layout) (base : Int) (t : Temp) (v : Value) (m : Machine) : Prop :=
  ∃ l, layout.locations.get? t = some l ∧ m.value? (l.cell base) = some v

/-- Parameters in registers are moved home. One that is in several registers is at home if they hold
the same. -/
theorem executes_registerParams (sound : layout.Sound) (stands : layout.Stands base m)
    {pairs : List (Temp × Register)} (arguments : ∀ e ∈ pairs, e.2 ∈ Register.arguments)
    (homed : ∀ e ∈ pairs, e.1.isSink = false → ∃ l, layout.locations.get? e.1 = some l)
    (separate : layout.Separate (pairs.map Prod.fst)) {moves : List Move}
    (h : layout.registerParams pairs = .ok moves) :
    m.Executes (moveAll moves) fun m' =>
      (∀ t v, t ∈ pairs.map Prod.fst → t.isSink = false →
        (∀ r, (t, r) ∈ pairs → m.registers r = v) → layout.AtHome base t v m') ∧
      Changes m m' (layout.EdgeCells base) := by
  have sources : ∀ e ∈ paramMoves layout.locations pairs,
      m.Movable (base - layout.frame.bytes) (place e.2) (e.2.cell base) := by
    intro e he
    obtain ⟨t, r, mem, -, -, same⟩ := mem_paramMoves.1 he
    have hr : r ∈ Register.arguments := arguments _ mem
    rw [same]
    refine ⟨rfl, ⟨_, rfl⟩, fun _ h => (List.not_mem_nil h).elim, ?_, ?_⟩
    · rintro rfl
      exact absurd hr (by decide)
    · rintro rfl
      exact absurd hr (by decide)
  have homes : ∀ e ∈ paramMoves layout.locations pairs, layout.Has e.1 := by
    intro e he
    obtain ⟨t, r, -, -, stored, -⟩ := mem_paramMoves.1 he
    exact sound.homes t e.1 stored
  rw [registerParams_eq h]
  refine (executes_moves sound stands homes sources).imp ?_
  rintro m' - ⟨moved, -, changes⟩
  refine ⟨fun t v mem named agree => ?_, changes⟩
  obtain ⟨⟨t, r⟩, pair, rfl⟩ := List.mem_map.1 mem
  obtain ⟨l, stored⟩ := homed _ pair named
  have move : (l, .register r) ∈ paramMoves layout.locations pairs :=
    mem_paramMoves.2 ⟨t, r, pair, named, stored, rfl⟩
  refine ⟨l, stored, moved l v (List.mem_map_of_mem move) fun e he same => ?_⟩
  obtain ⟨t', r', pair', named', stored', register⟩ := mem_paramMoves.1 he
  have own : t = t' := by
    by_contra other
    exact separate t mem named t' (List.mem_map_of_mem pair') named' other l stored (same ▸ stored')
  subst own
  rw [register]
  exact congrArg some (agree r' pair')

/-- One word of the stack is loaded into a home. -/
theorem executes_stackParam (sound : layout.Sound) (stands : layout.Stands base m) {l : Location}
    (has : layout.Has l) {offset : Int} (first : 0 ≤ offset) (aligned : offset % 8 = 0)
    (last : offset < 2147483648) :
    m.Executes (.mov (.register .r11) (.memory ⟨.register .rbp, offset⟩) ::
        move (place l) (.register .r11)) fun m' =>
      m'.value? (l.cell base) = some (m.stack (base + offset)) ∧
      Changes m m' fun c => c.Scratch ∨ c = l.cell base := by
  have cell : m.cell? (.memory ⟨.register .rbp, offset⟩) = some (.stack (base + offset)) := by
    have mod := stands.aligned
    exact Machine.cell?_memory stands.rbp ⟨by omega, by omega⟩ (by omega)
  have read := (Machine.get_of_cell? cell).trans (m.value?_stack _)
  refine .cons (Machine.apply_mov_register read) ?_
  let m₁ := m.put (.register .r11) (m.stack (base + offset))
  have stands₁ : layout.Stands base m₁ := stands.of_changes (Changes.put m _ _) (by simp) (by simp)
  have movable := stands₁.movable_place sound has
  obtain ⟨v, there⟩ := movable.there
  have loaded : m₁.get (.register .r11) = some (m.stack (base + offset)) := by simp [m₁]
  obtain ⟨m₂, moved, written, changes⟩ := Machine.applyAll_move movable.cell there
    (fun h => by cases movable.framed _ h) loaded
  refine ⟨m₂, moved, written, ((Changes.put m _ _).mono ?_).trans (changes.mono ?_)⟩
  · rintro c rfl
    exact .inl ⟨.r11, rfl, rfl⟩
  · rintro c (rfl | ⟨-, rfl⟩)
    · exact .inr rfl
    · exact .inl ⟨.rax, rfl, rfl⟩

/-- What is changed while parameters on the stack are loaded. -/
def StackParamCells (layout : Layout) (base : Int) (params : List Temp) (c : Cell) : Prop :=
  c.Scratch ∨
    ∃ t ∈ params, t.isSink = false ∧ ∃ l, layout.locations.get? t = some l ∧ c = l.cell base

theorem StackParamCells.mono {params params' : List Temp} (sub : ∀ t ∈ params', t ∈ params)
    {c : Cell} (h : layout.StackParamCells base params' c) : layout.StackParamCells base params c :=
  h.imp_right fun ⟨t, ht, there⟩ => ⟨t, sub t ht, there⟩

theorem StackParamCells.paramCells (sound : layout.Sound) {params : List Temp} {c : Cell}
    (h : layout.StackParamCells base params c) : layout.ParamCells base c := by
  rcases h with scratch | ⟨t, -, -, l, stored, rfl⟩
  · exact .inl scratch
  · exact .inr (.inr (.inr ⟨l, sound.homes t l stored, rfl⟩))

/-- Loading other parameters changes nothing at the home of a parameter. -/
theorem not_stackParamCells (sound : layout.Sound) {params params' : List Temp}
    (separate : layout.Separate params) (sub : ∀ t ∈ params', t ∈ params) {t : Temp} {l : Location}
    (mem : t ∈ params) (other : t ∉ params') (named : t.isSink = false)
    (stored : layout.locations.get? t = some l) :
    ¬ layout.StackParamCells base params' (l.cell base) := by
  rintro (scratch | ⟨t', ht', named', l', stored', same⟩)
  · exact not_scratch_cell (sound.homes t l stored) scratch
  · obtain rfl := Location.cell_inj.1 same
    have ne : t ≠ t' := fun e => other (e ▸ ht')
    exact separate t mem named t' (sub t' ht') named' ne l stored stored'

/-- Parameters on the stack are loaded one after the other, so that the last word for a parameter is
at home. -/
theorem executes_stackParams (sound : layout.Sound) (stands : layout.Stands base m)
    {params : List Temp} {offset : Int32} {code : List Target.Instr}
    (h : layout.stackParams offset params = .ok code) (separate : layout.Separate params)
    (first : 0 ≤ offset.toInt) (aligned : offset.toInt % 8 = 0)
    (last : offset.toInt + 8 * params.length < 2147483648) :
    m.Executes code fun m' =>
      (∀ front t back, params = front ++ t :: back → t ∉ back → t.isSink = false →
        layout.AtHome base t (m.stack (base + offset.toInt + 8 * front.length)) m') ∧
      Changes m m' (layout.StackParamCells base params) := by
  induction params generalizing m offset code with
  | nil =>
    cases h
    exact .nil ⟨fun _ _ _ split => by simp at split, .refl m _⟩
  | cons t rest ih =>
    have inRest : ∀ t' ∈ rest, t' ∈ t :: rest := fun t' => List.mem_cons_of_mem t
    rw [List.length_cons] at last
    rw [stackParams] at h
    have eight : (8 : Int32).toInt = 8 := rfl
    have next : (offset + 8).toInt = offset.toInt + 8 := by
      rw [Int32.toInt_add, eight, Int.bmod_eq_of_le (by omega) (by omega)]
    have shift : ∀ k : Nat, base + offset.toInt + 8 * ((k + 1 : Nat) : Int) =
        base + (offset + 8).toInt + 8 * k := by omega
    split at h
    · next sink =>
      refine (ih stands h (separate.of_subset inRest) (by omega) (by omega) (by omega)).imp ?_
      rintro m' - ⟨loaded, changes⟩
      refine ⟨fun front t' back split final named => ?_, changes.mono fun _ => .mono inRest⟩
      cases front with
      | nil =>
        cases split
        cases sink.symm.trans named
      | cons _ front =>
        obtain ⟨rfl, rfl⟩ := List.cons.inj split
        rw [List.length_cons, shift]
        exact loaded front t' back rfl final named
    · next named =>
      obtain ⟨dst, home, h⟩ := bind_eq_ok_iff.1 h
      obtain ⟨more, found, h⟩ := bind_eq_ok_iff.1 h
      obtain ⟨l, stored, rfl⟩ := home_eq_ok.1 home
      rw [← Except.ok.inj h]
      have has := sound.homes t l stored
      have own : ∀ c, c.Scratch ∨ c = l.cell base → layout.StackParamCells base (t :: rest) c :=
        fun c hc => hc.imp_right fun same =>
          ⟨t, List.mem_cons_self, by simpa using named, l, stored, same⟩
      rw [← List.cons_append]
      refine (executes_stackParam sound stands has first aligned (by omega)).append ?_
      rintro m₁ - ⟨written, changes₁⟩
      have changes₁ := changes₁.mono own
      have frame : ∀ {c}, layout.StackParamCells base (t :: rest) c → layout.Own base c :=
        fun h => own_paramCells (h.paramCells sound)
      have stands₁ : layout.Stands base m₁ :=
        stands.of_changes changes₁ (fun h => (frame h).2.1 rfl) fun h => (frame h).1 rfl
      have above : ∀ b, base ≤ b → m₁.stack b = m.stack b :=
        fun b le => changes₁.stack fun h => not_paramCells_above le (h.paramCells sound)
      refine (ih stands₁ found (separate.of_subset inRest) (by omega) (by omega) (by omega)).imp ?_
      rintro m' - ⟨loaded, changes⟩
      refine ⟨fun front t' back split final named' => ?_,
        changes₁.trans (changes.mono fun _ => .mono inRest)⟩
      cases front with
      | nil =>
        obtain ⟨rfl, rfl⟩ := List.cons.inj split
        have start : base + offset.toInt + 8 * (([] : List Temp).length : Int) =
            base + offset.toInt := by simp
        rw [start]
        refine ⟨l, stored, (changes.kept _ ?_).trans written⟩
        exact not_stackParamCells sound separate inRest List.mem_cons_self final named' stored
      | cons _ front =>
        obtain ⟨rfl, rfl⟩ := List.cons.inj split
        rw [List.length_cons, shift, ← above _ (by omega)]
        exact loaded front t' back rfl final named'

/-- All arguments for a parameter are one word, and this word is where each of them arrives. -/
theorem value?_argument {params : List Temp} (length : params.length = args.length)
    (arrived : ∀ k w, args[k]? = some w → m.value? (argumentCell (base + 16) k) = some (.word w))
    {t : Temp} {w : Word} (agree : ∀ e ∈ params.zip args, e.1 = t → e.2 = w) {k : Nat}
    (hk : params[k]? = some t) : m.value? (argumentCell (base + 16) k) = some (.word w) := by
  have lt : k < args.length := length ▸ (List.getElem?_eq_some_iff.1 hk).1
  have found : args[k]? = some args[k] := List.getElem?_eq_getElem lt
  have mem : (t, args[k]) ∈ params.zip args :=
    List.mem_of_getElem? (List.getElem?_zip_eq_some.2 ⟨hk, found⟩)
  rw [arrived k _ found, ← agree _ mem rfl]

/-- What arrives for a parameter: the word that all its arguments are, or the last of them if that one
is on the stack. -/
def Delivers (params : List Temp) (args : List Word) (t : Temp) (w : Word) : Prop :=
  (∀ e ∈ params.zip args, e.1 = t → e.2 = w) ∨
    ∃ front back, params = front ++ t :: back ∧ t ∉ back ∧
      Register.arguments.length ≤ front.length ∧ args[front.length]? = some w

/-- The parameters are moved home. -/
theorem executes_params (sound : layout.Sound) (stands : layout.Stands base m) {params : List Temp}
    (homed : ∀ t ∈ params, t.isSink = false → ∃ l, layout.locations.get? t = some l)
    (separate : layout.Separate params) (length : params.length = args.length)
    (few : 8 * args.length < 2147483648)
    (arrived : ∀ k w, args[k]? = some w → m.value? (argumentCell (base + 16) k) = some (.word w))
    {moves : List Move} {code : List Target.Instr}
    (h : layout.registerParams (params.zip Register.arguments) = .ok moves)
    (h' : layout.stackParams firstStackParam (params.drop Register.arguments.length) = .ok code) :
    m.Executes (moveAll moves ++ code) fun m' =>
      (∀ t w, t ∈ params → t.isSink = false → Delivers params args t w →
        layout.AtHome base t (.word w) m') ∧ Changes m m' (layout.ParamCells base) := by
  have registers : Register.arguments.length = 6 := rfl
  have sixteen : firstStackParam = 16 := rfl
  rw [registers, sixteen] at h'
  have dropped : ∀ t ∈ params.drop 6, t ∈ params := fun t => List.mem_of_mem_drop
  have inParams : ∀ t ∈ (params.zip Register.arguments).map Prod.fst, t ∈ params := by
    intro t ht
    obtain ⟨e, he, rfl⟩ := List.mem_map.1 ht
    exact (List.of_mem_zip he).1
  refine (executes_registerParams sound stands (fun e he => (List.of_mem_zip he).2)
    (fun e he => homed e.1 (List.of_mem_zip he).1) (separate.of_subset inParams) h).append ?_
  rintro m₁ - ⟨moved, changes₁⟩
  have stands₁ : layout.Stands base m₁ :=
    stands.of_changes changes₁ (fun h => (own_edgeCells h).2.1 rfl) fun h => (own_edgeCells h).1 rfl
  have start : (16 : Int32).toInt = 16 := rfl
  have reach : (16 : Int32).toInt + 8 * ((params.drop 6).length : Int) < 2147483648 := by
    rw [start, List.length_drop]
    omega
  refine (executes_stackParams sound stands₁ h' (separate.of_subset dropped) (by decide) (by decide)
    reach).imp ?_
  rintro m₂ - ⟨loaded, changes₂⟩
  refine ⟨fun t w mem named delivers => ?_, (changes₁.mono fun _ => .inr).trans
    (changes₂.mono fun _ => StackParamCells.paramCells sound)⟩
  have onStack : ∀ front back, params.drop 6 = front ++ t :: back → t ∉ back →
      args[6 + front.length]? = some w → layout.AtHome base t (.word w) m₂ := by
    intro front back split final arg
    have value := arrived _ w arg
    rw [argumentCell_stack (by omega), Machine.value?_stack, Option.some.injEq] at value
    have address : base + (16 : Int32).toInt + 8 * (front.length : Int) =
        base + 16 + 8 * (((6 + front.length : Nat) : Int) - 6) := by omega
    rw [← value, ← address, ← changes₁.stack (not_edgeCells_above (by omega))]
    exact loaded front t back split final named
  obtain agree | ⟨front, back, split, final, le, arg⟩ := delivers
  rotate_left
  · rw [registers] at le
    refine onStack (front.drop 6) back ?_ final ?_
    · rw [split, List.drop_append_of_le_length le]
    · rwa [List.length_drop, Nat.add_sub_cancel' le]
  by_cases late : t ∈ params.drop 6
  · obtain ⟨front, back, split, final⟩ := exists_last_of_mem late
    refine onStack front back split final ?_
    have hk : params[6 + front.length]? = some t := by
      rw [← List.getElem?_drop, split, List.getElem?_append_right (Nat.le_refl _), Nat.sub_self]
      rfl
    have lt : 6 + front.length < args.length := length ▸ (List.getElem?_eq_some_iff.1 hk).1
    have found : args[6 + front.length]? = some args[6 + front.length] := List.getElem?_eq_getElem lt
    have pair : (t, args[6 + front.length]) ∈ params.zip args :=
      List.mem_of_getElem? (List.getElem?_zip_eq_some.2 ⟨hk, found⟩)
    exact found.trans (congrArg some (agree _ pair rfl))
  · obtain ⟨k, hk⟩ := List.mem_iff_getElem?.1 mem
    have lt : k < 6 := by
      by_contra le
      refine late (List.mem_of_getElem? (i := k - 6) ?_)
      rw [List.getElem?_drop, ← hk]
      congr 1
      omega
    have pair : (t, Register.arguments[k]) ∈ params.zip Register.arguments :=
      List.mem_of_getElem? (List.getElem?_zip_eq_some.2 ⟨hk, List.getElem?_eq_getElem lt⟩)
    obtain ⟨l, stored, arrives⟩ := moved t (.word w) (List.mem_map_of_mem pair) named
      fun r pair' => by
        obtain ⟨k, hk⟩ := List.mem_iff_getElem?.1 pair'
        obtain ⟨hk, found⟩ := List.getElem?_zip_eq_some.1 hk
        have value := value?_argument length arrived agree hk
        rw [argumentCell_register found] at value
        exact Option.some.inj value
    refine ⟨l, stored, (changes₂.kept _ ?_).trans arrives⟩
    exact not_stackParamCells sound separate dropped mem late named stored

/-- Behind the code that sets a frame up and moves the parameters home, they are there. -/
theorem executes_arrive {g : FlowGraph} {live : Liveness} (housed : Housed g live layout.locations)
    (sound : layout.Sound) (length : g.params.length = args.length)
    (few : 8 * args.length < 2147483648) (aligned : base % 16 = 0)
    (rsp : entry.registers .rsp = .stack (base + 8))
    (arrived : ∀ k w, args[k]? = some w →
      entry.value? (argumentCell (base + 16) k) = some (.word w))
    {moves : List Move} {code : List Target.Instr}
    (h : layout.registerParams (g.params.zip Register.arguments) = .ok moves)
    (h' : layout.stackParams firstStackParam (g.params.drop Register.arguments.length) = .ok code) :
    entry.Executes (layout.setUp ++ (moveAll moves ++ code)) fun m =>
      layout.Held base entry m ∧
      (∀ t w, t ∈ g.params → t.isSink = false → Delivers g.params args t w →
        layout.AtHome base t (.word w) m) ∧
      m.data = entry.data ∧ m.printed = entry.printed := by
  refine (executes_setUp sound aligned rsp).append ?_
  rintro m₁ - ⟨held₁, changes₁⟩
  have arrived₁ : ∀ k w, args[k]? = some w →
      m₁.value? (argumentCell (base + 16) k) = some (.word w) := by
    intro k w hk
    refine (value?_argumentCell changes₁ (by simp [SetUpCells, Register.arguments])
      (fun b le => ?_) k).trans (arrived k w hk)
    rintro (same | same | ⟨b', le', same⟩)
    · cases same
    · cases same
    · cases same
      omega
  have homed : ∀ t ∈ g.params, t.isSink = false → ∃ l, layout.locations.get? t = some l :=
    fun t ht named => housed.homed t (FlowGraph.mem_temps_of_param ht named) named
  refine (executes_params sound held₁.toStands homed housed.params length few arrived₁ h h').imp ?_
  rintro m₂ - ⟨params, changes₂⟩
  refine ⟨held₁.of_changes changes₂ fun c => own_paramCells, params, funext fun name => ?_, ?_⟩
  · rw [changes₂.data (not_paramCells_datum name), changes₁.data (by simp [SetUpCells])]
  · rw [changes₂.printed, changes₁.printed]

/-! ## The first block -/

/-- A temporary that has a value at the beginning is a parameter. -/
theorem exists_of_setAll {l : List (Temp × Word)} {s : Temp → Option Word} {t : Temp} {w : Word}
    (h : Keeping.strict.setAll s l t = some w) : (t, w) ∈ l ∨ s t = some w := by
  induction l generalizing s with
  | nil => exact .inr h
  | cons e rest ih =>
    rcases ih h with mem | set
    · exact .inl (List.mem_cons_of_mem _ mem)
    · by_cases same : t = e.1
      · have value : some e.2 = some w := (if_pos same).symm.trans set
        rw [same, ← Option.some.inj value]
        exact .inl List.mem_cons_self
      · exact .inr ((if_neg same).symm.trans set)

/-- Behind the code that a function begins with, its frame is set up, and what is live at the
beginning of the first block is at home. -/
theorem executes_enter {g : FlowGraph} {live : Liveness} {b : Block} (wf : g.WellFormed)
    (solved : Solved g live) (housed : Housed g live layout.locations) (named : g.PhisNamed)
    (once : b.phiDefs.Nodup) (sound : layout.Sound) (nodup : g.params.Nodup) (hb : b ∈ g.blocks)
    (first : g.entry? = some b.label) (length : g.params.length = args.length)
    (aligned : base % 16 = 0) (passes : Passes (base + 16) args globals entry)
    (rsp : entry.registers .rsp = .stack (base + 8)) {code : List Target.Instr}
    (h : layout.enter g = .ok code) :
    let a := Local.enter .strict (fun _ => none) g.params args globals
    entry.Executes code fun m =>
      layout.Held base entry m ∧
      layout.Holds base (· ∈ liveFrom (live.after g b.label) b.code)
        { a with temps := Keeping.strict.assign .entry b.phis a.temps } m ∧
      m.printed = entry.printed := by
  intro a
  obtain ⟨inRegisters, onStack, moves, registers, stack, edge, -, rfl⟩ := enter_eq_ok h
  have edge := edge _ first
  rw [List.append_assoc layout.setUp]
  refine (executes_arrive housed sound length passes.few aligned rsp passes.args registers
    stack).append ?_
  rintro m₁ - ⟨held₁, params, data, printed⟩
  have holds : layout.Holds base (fun _ => True) a m₁ := by
    refine ⟨fun t _ named w hw => ?_, fun k w hk => (by cases hk), data.trans passes.data⟩
    rcases exists_of_setAll hw with mem | none
    · obtain ⟨l, stored, value⟩ := params t w (List.of_mem_zip mem).1 named <| .inl fun e he same => by
        have unique :=
          List.inj_on_of_nodup_map ((List.map_fst_zip (Nat.le_of_eq length)).symm ▸ nodup)
          he mem same
        rw [unique]
      exact ⟨l, stored, word?_eq_some.2 ⟨sound.homes t l stored, value⟩⟩
    · cases none
  refine (executes_edgeMoves wf solved housed named once sound held₁.toStands hb
    (holds.mono fun _ _ => trivial) edge).imp ?_
  rintro m₂ - ⟨holds₂, changes⟩
  exact ⟨held₁.of_changes changes fun c => own_edgeCells, holds₂, changes.printed.trans printed⟩

/-! ## Returning -/

/-- What is in `rax` is returned, and the caller finds everything as it was. -/
theorem steps_leave {functions : List Function} {litter : Litter} {f : Function}
    {rest : List Target.Instr} {place : Option Target.Place} {out : List Printed} {w : Word}
    (sound : layout.Sound) (held : layout.Held base entry m)
    (back : entry.stack (base + 8) = .back place) (result : m.registers .rax = .word w)
    (data : m.data = globalData globals) (printed : m.printed = entry.printed ++ out.toArray) :
    ∃ m', Steps functions litter ⟨some ⟨f, layout.leave ++ rest⟩, m⟩ ⟨place, m'⟩ ∧
      Returns (base + 16) out w globals entry m' := by
  have aligned := held.aligned
  obtain ⟨m₁, restored, values, changes₁⟩ := executes_restore sound held.toBased
    layout.frame.calleeSaved fun h => (sound.callee _ h).2 rfl
  have other : ∀ r, r ∉ layout.frame.calleeSaved → m₁.registers r = m.registers r := fun r hr => by
    refine changes₁.register ?_
    rintro ⟨s, hs, same⟩
    exact hr (Cell.register.inj same ▸ hs)
  have stack : ∀ b, m₁.stack b = m.stack b := fun b => changes₁.stack (by simp)
  have rbp₁ : m₁.registers .rbp = .stack base :=
    (other .rbp fun h => (sound.callee _ h).2 rfl).trans held.rbp
  let m₂ := m₁.put (.register .rsp) (.stack base)
  let m₃ := (m₂.put (.register .rsp) (.stack (base + 8))).put (.register .rbp) (m₂.stack base)
  let m₄ := m₃.put (.register .rsp) (.stack (base + 8 + 8))
  have read : m₁.get (.register .rbp) = some (.stack base) := congrArg some rbp₁
  have done : m.applyAll (layout.restore layout.frame.calleeSaved ++
      [.mov (.register .rsp) (.register .rbp), .pop (.register .rbp)]) = some m₃ := by
    rw [Machine.applyAll_append restored,
      Machine.applyAll_cons (Machine.apply_mov_register read),
      Machine.applyAll_cons
        (Machine.apply_pop (m := m₂) (a := base) (by simp [m₂]) (by omega) rfl rfl)]
    rfl
  have code : layout.leave ++ rest = (layout.restore layout.frame.calleeSaved ++
      [.mov (.register .rsp) (.register .rbp), .pop (.register .rbp)]) ++ .ret :: rest := by
    simp [leave]
  have register : ∀ r, r ≠ .rsp → r ≠ .rbp → m₄.registers r = m₁.registers r := fun r h h' => by
    simp [m₄, m₃, m₂, h, h']
  rw [code]
  refine ⟨m₄, .trans (steps_of_applyAll done) (.single (step?_ret (a := base + 8) (by simp [m₃])
    (by omega) ?_)), ?_, ?_, fun r hr => ?_, fun b le => ?_, ?_, ?_⟩
  · have kept : m₃.stack (base + 8) = m.stack (base + 8) := by simp [m₃, m₂, stack]
    rw [kept, held.above _ (by omega), back]
  · rw [register _ (by decide) (by decide), other _ fun h => ?_, result]
    cases (sound.callee _ h).1
  · have up : base + 8 + 8 = base + 16 := by omega
    simp [m₄, up]
  · by_cases link : r = .rbp
    · subst link
      have kept : m₄.registers .rbp = m.stack base := by simp [m₄, m₃, m₂, stack]
      rw [kept, held.link]
    · have pointer : r ≠ .rsp := by
        rintro rfl
        cases hr
      rw [register r pointer link]
      by_cases used : r ∈ layout.frame.calleeSaved
      · obtain ⟨n, found⟩ := Frame.exists_saveSlot?.2 (.inl used)
        rw [values r used n found, held.saved r used n found]
      · rw [other r used, held.unused r hr link used]
  · have kept : m₄.stack b = m.stack b := by simp [m₄, m₃, m₂, stack]
    rw [kept, held.above b (by omega)]
  · exact (funext fun name => changes₁.data (by simp) : m₁.data = m.data).trans data
  · have kept : m₄.printed = m₁.printed := by simp [m₄, m₃, m₂]
    rw [kept, changes₁.printed, printed]

end Layout

end ThreeAddress
