import ThreeAddress.Proofs.Lowering.Call
/-!
# The code of instructions

* `Layout.Wrote` : a value is where a destination is, and nothing else that counts has changed;
* `Layout.executes_binary`, `Layout.executes_copy`, … : what the code of an instruction does;
* `Layout.Holds.wrote`, `Layout.Holds.resumed` : values are at home behind it;
* `executes_compareCode` : a comparison sets the flags.
-/

namespace ThreeAddress

open Execution Target

namespace Layout

variable {layout : Layout} {base : Int} {m m₁ m' : Machine} {v dest : Var} {w : Word} {x : Value}
  {code : List Target.Instr} {o : Target.Operand} {after : SortedSet Temp}

/-! ## Destinations -/

/-- A value is where a destination is, and nothing else but scratch registers has changed. -/
structure Wrote (layout : Layout) (base : Int) (v : Var) (x : Value) (m m' : Machine) : Prop where
  written : ∀ c, layout.target? base v = some c → m'.value? c = some x
  changes : Changes m m' fun c => c.Scratch ∨ layout.target? base v = some c

/-- What is only used for the instruction may have changed before. -/
theorem Wrote.of_scratch {m₀ : Machine} (changes : Changes m₀ m Cell.Scratch)
    (h : layout.Wrote base v x m m') : layout.Wrote base v x m₀ m' :=
  ⟨h.written, (changes.mono fun _ hc => .inl hc).trans h.changes⟩

/-- A global variable that is written is among the data. -/
def Writable (v : Var) (m : Machine) : Prop := ∀ x, v = .global x → ∃ old, m.data x.name = some old

theorem Writable.of_scratch {m₀ : Machine} (changes : Changes m₀ m Cell.Scratch)
    (h : Writable v m₀) : Writable v m := fun x hx =>
  (h x hx).imp fun _ found => (changes.data fun ⟨_, _, same⟩ => by cases same).trans found

/-- A value is moved to the cell of a destination. -/
theorem executes_move {d : Target.Operand} {c : Cell} {old : Value} (cell : m.cell? d = some c)
    (there : m.value? c = some old) (away : .rax ∉ d.addressing)
    (target : layout.target? base dest = some c) (read : m.get o = some x) :
    m.Executes (move d o) (layout.Wrote base dest x m) := by
  refine (Machine.applyAll_move cell there away read).imp
    fun m' ⟨done, value, changes⟩ => ⟨done, fun c' hc' => ?_, changes.mono ?_⟩
  · obtain rfl : c = c' := Option.some.inj (target.symm.trans hc')
    exact value
  · rintro x (rfl | ⟨-, rfl⟩)
    · exact .inr target
    · exact .inl ⟨.rax, rfl, rfl⟩

/-- A value is moved to a destination. -/
theorem executes_write {g : FlowGraph} {live : Liveness} (housed : Housed g live layout.locations)
    (sound : layout.Sound) (stands : layout.Stands base m) {dst : Option Target.Operand}
    (destination : layout.destination dest = .ok dst) (writable : Writable dest m)
    (read : m.get o = some x) :
    m.Executes ((dst.map fun dst => move dst o).getD []) (layout.Wrote base dest x m) := by
  rcases dest.cases_named with ⟨d, rfl, named, -⟩ | ⟨rfl, -⟩ | ⟨x, rfl, -⟩
  · simp only [Layout.destination, Var.isSink_temp, Bool.false_eq_true, if_false, source, named]
      at destination
    cases found : layout.home d with
    | error e => simp [found, Except.map] at destination
    | ok d' =>
      obtain ⟨l, home, rfl⟩ := home_eq_ok.1 found
      have movable := stands.movable_place sound (sound.homes d l home)
      obtain ⟨old, there⟩ := movable.there
      obtain rfl : dst = some (place l) := by simpa [found, Except.map] using destination.symm
      exact executes_move movable.cell there (fun h => by cases movable.framed _ h)
        (by simp [target?, home]) read
  · cases destination
    have none := target?_sink housed base
    exact .nil ⟨fun c hc => by simp [none] at hc, .refl _ _⟩
  · obtain ⟨old, there⟩ := writable x rfl
    obtain rfl := Except.ok.inj destination
    exact executes_move (Machine.cell?_symbol m x.name) there List.not_mem_nil rfl read

/-! ## Operators -/

theorem inScratch_divide (lhs rhs : Target.Operand) : ∀ i ∈ divide lhs rhs, i.inScratch = true := by
  intro i hi
  simp only [divide, List.mem_cons, List.mem_append, List.append_assoc] at hi
  rcases hi with rfl | hi | hi | hi | hi
  · rfl
  · revert i
    decide
  · revert i
    decide
  · exact Machine.inScratch_move rfl lhs i hi
  · rcases hi with rfl | rfl | hi
    · rfl
    · rfl
    · cases hi

theorem inScratch_applyBinary (op : BinaryOp) (lhs rhs : Target.Operand) :
    ∀ i ∈ (applyBinary op lhs rhs).1, i.inScratch = true := by
  have alu : ∀ op : AluOp, ∀ i ∈ applyAlu op lhs rhs, i.inScratch = true := fun op i hi => by
    rcases List.mem_append.1 hi with hi | hi
    · exact Machine.inScratch_move rfl lhs i hi
    · rw [List.mem_singleton.1 hi]
      rfl
  have shift : ∀ op : ShiftOp, ∀ i ∈ applyShift op lhs rhs, i.inScratch = true := fun op i hi => by
    simp only [applyShift, List.mem_append, List.mem_singleton] at hi
    rcases hi with (hi | hi) | rfl
    · exact Machine.inScratch_move rfl rhs i hi
    · exact Machine.inScratch_move rfl lhs i hi
    · rfl
  cases op with
  | add | sub | mul | and | or | xor => exact alu _
  | shl | shr => exact shift _
  | mod => exact inScratch_divide lhs rhs
  | div =>
    have negate : ∀ i ∈ negateQuotient, i.inScratch = true := by decide
    exact fun i hi => (List.mem_append.1 hi).elim (inScratch_divide lhs rhs i) (negate i)

theorem inScratch_applyUnary (op : UnaryOp) (arg : Target.Operand) :
    ∀ i ∈ applyUnary op arg, i.inScratch = true := by
  intro i hi
  rcases List.mem_append.1 hi with hi | hi
  · exact Machine.inScratch_move rfl arg i hi
  · rw [List.mem_singleton.1 hi]
    cases op <;> rfl

section Write

variable {g : FlowGraph} {live : Liveness}

/-- A value that is computed in scratch registers is moved to its destination. -/
theorem executes_result (housed : Housed g live layout.locations) (sound : layout.Sound)
    (stands : layout.Stands base m) {computation : List Target.Instr} {r : Register}
    (scratch : ∀ i ∈ computation, i.inScratch = true)
    (computes : m.Executes computation fun m' => m'.registers r = x) {dst : Option Target.Operand}
    (destination : layout.destination dest = .ok dst) (writable : Writable dest m) :
    m.Executes (computation ++ (dst.map fun dst => move dst (.register r)).getD [])
      (layout.Wrote base dest x m) := by
  refine computes.append fun m₁ done result => ?_
  have changes := Machine.changes_scratch_applyAll scratch done
  have stands₁ := stands.of_changes changes (fun ⟨_, hr, same⟩ => by cases same; cases hr)
    fun ⟨_, hr, same⟩ => by cases same; cases hr
  have read : m₁.get (.register r) = some x := congrArg some result
  exact (executes_write housed sound stands₁ destination (writable.of_scratch changes) read).imp
    fun m' _ wrote => wrote.of_scratch changes

theorem executes_binary (housed : Housed g live layout.locations) (sound : layout.Sound)
    (stands : layout.Stands base m) {op : BinaryOp} {lhs rhs : Var} {a b : Word}
    (h : layout.lower after (.binary op dest lhs rhs) = .ok code) (writable : Writable dest m)
    (left : ∀ o, layout.source lhs = .ok o → m.get o = some (.word a) ∧ o.Steady)
    (right : ∀ o, layout.source rhs = .ok o → m.get o = some (.word b) ∧ o.Steady)
    (value : op.eval? a b = some w) : m.Executes code (layout.Wrote base dest (.word w) m) := by
  obtain ⟨l, r, back, hl, hr, written, rfl⟩ := lower_binary h
  obtain ⟨dst, destination, rfl⟩ := writeBack_eq_ok written
  obtain ⟨readl, steadyl⟩ := left l hl
  obtain ⟨readr, steadyr⟩ := right r hr
  exact executes_result housed sound stands (inScratch_applyBinary op l r)
    (Machine.executes_applyBinary steadyl steadyr readl readr value) destination writable

theorem executes_unary (housed : Housed g live layout.locations) (sound : layout.Sound)
    (stands : layout.Stands base m) {op : UnaryOp} {arg : Var} {a : Word}
    (h : layout.lower after (.unary op dest arg) = .ok code) (writable : Writable dest m)
    (read : ∀ o, layout.source arg = .ok o → m.get o = some (.word a)) :
    m.Executes code (layout.Wrote base dest (.word (op.eval a)) m) := by
  obtain ⟨src, back, source, written, rfl⟩ := lower_unary h
  obtain ⟨dst, destination, rfl⟩ := writeBack_eq_ok written
  exact executes_result housed sound stands (inScratch_applyUnary op src)
    (Machine.executes_applyUnary op (read src source)) destination writable

theorem executes_const (housed : Housed g live layout.locations) (sound : layout.Sound)
    (stands : layout.Stands base m) (h : layout.lower after (.const dest w) = .ok code)
    (writable : Writable dest m) : m.Executes code (layout.Wrote base dest (.word w) m) := by
  obtain ⟨dst, destination, rfl⟩ := lower_const h
  exact executes_write housed sound stands destination writable (Machine.get_immediate m w)

theorem executes_copy (housed : Housed g live layout.locations) (sound : layout.Sound)
    (stands : layout.Stands base m) {src : Var} (h : layout.lower after (.copy dest src) = .ok code)
    (writable : Writable dest m) (read : ∀ o, layout.source src = .ok o → m.get o = some (.word w)) :
    m.Executes code (layout.Wrote base dest (.word w) m) := by
  obtain ⟨destination, rfl⟩ | ⟨dst, o, destination, source, rfl⟩ := lower_copy h
  · exact executes_write (o := .immediate w) housed sound stands destination writable rfl
  · exact executes_write housed sound stands destination writable (read o source)

end Write

/-! ## Values behind an instruction -/

section Holds

variable {g : FlowGraph} {live : Liveness} {b : Block} {front rest : List Instr} {i : Instr}
  {a a' : Local (Temp → Option Word)} {pos pos' : Point}

/-- A home is neither a scratch register nor where something else is written. -/
theorem Wrote.kept (h : layout.Wrote base v x m m') {l : Location} (has : layout.Has l)
    (other : layout.target? base v ≠ some (l.cell base)) :
    m'.value? (l.cell base) = m.value? (l.cell base) :=
  h.changes.kept _ fun hc => hc.elim (not_scratch_cell has) other

theorem target?_ne_argument (sound : layout.Sound) (k : Nat) :
    layout.target? base v ≠ some (.stack (Frame.address base (layout.frame.argumentSlot k))) := by
  intro h
  cases v with
  | global x => cases h
  | temp d =>
    obtain ⟨l, home, same⟩ := Option.map_eq_some_iff.1 h
    cases l with
    | register r => cases same
    | slot n =>
      have lt : n < layout.frame.spills := sound.homes d _ home
      have := Frame.address_inj.1 (Cell.stack.inj same)
      simp only [Frame.argumentSlot] at this
      omega

/-- Values are at home behind an instruction that defines nothing. -/
theorem Holds.pass {live : SortedSet Temp} (undefined : i.def? = none)
    (holds : layout.Holds base (· ∈ liveFrom live (i :: rest)) a m) :
    layout.Holds base (· ∈ liveFrom live rest) a m :=
  holds.mono fun _ ht => mem_liveBefore_of_undefined undefined ht

/-- Values are at home behind an instruction that writes its destination. -/
theorem Holds.wrote (housed : Housed g live layout.locations) (sound : layout.Sound)
    (hb : b ∈ g.blocks) (split : b.code = front ++ i :: rest) (plain : i.isPhi = false)
    (dest : i.dest? = some v)
    (holds : layout.Holds base (· ∈ liveFrom (live.after g b.label) (i :: rest)) a m)
    (wrote : layout.Wrote base v (.word w) m m')
    (next : (Keeping.strict.write pos a v w).next? = some (pos', a')) :
    pos' = pos ∧ layout.Holds base (· ∈ liveFrom (live.after g b.label) rest) a' m' := by
  refine Holds.write housed sound hb split plain dest holds.homes
    (fun t _ l home other => wrote.kept (sound.homes t l home) other) (fun k w' hk => ?_)
    (fun name other => ?_) wrote.written next
  · obtain ⟨first, last, value⟩ := holds.staged k w' hk
    refine ⟨first, last, (wrote.changes.stack ?_).trans value⟩
    rintro (⟨r, -, same⟩ | target)
    · cases same
    · exact target?_ne_argument sound k target
  · rw [← holds.data]
    refine wrote.changes.data ?_
    rintro (⟨r, -, same⟩ | target)
    · cases same
    · exact other target

/-- A home that does not take the result of a call keeps its value if it is live behind it. -/
theorem Resumes.home {result : Option Register} {out : List Printed} {globals : Store Global}
    (h : layout.Resumes base (layout.kept after result) out w globals m m') {t : Temp} (ht : t ∈ after)
    {l : Location} (home : layout.locations.get? t = some l) (has : layout.Has l)
    (other : ∀ r, l = .register r → some r ≠ result) :
    m'.value? (l.cell base) = m.value? (l.cell base) :=
  h.homes l has fun r same caller => mem_kept.2 ⟨⟨t, ht, same ▸ home⟩, caller, other r same⟩

/-- The register that the result of a call goes to. -/
theorem target?_of_register {dst : Option Target.Operand} {r : Register}
    (h : layout.destination v = .ok dst) (register : dst.bind Target.Operand.register? = some r) :
    layout.target? base v = some (.register r) := by
  obtain ⟨o, rfl, ho⟩ := Option.bind_eq_some_iff.1 register
  rw [Layout.destination] at h
  split at h
  · cases h
  · cases found : layout.source v with
    | error e => simp [found, Except.map] at h
    | ok o' =>
      obtain rfl : o' = o := by simpa [found, Except.map] using h
      rcases source_eq_ok found with ⟨rfl, rfl⟩ | ⟨t, l, rfl, named, home, rfl⟩ | ⟨x, rfl, rfl⟩
      · cases ho
      · cases l with
        | register r' =>
          obtain rfl : r' = r := Option.some.inj ho
          simp [target?, home, Location.cell]
        | slot n => cases ho
      · cases ho

/-- Values are at home behind a call. -/
theorem Holds.resumed (housed : Housed g live layout.locations) (sound : layout.Sound)
    (hb : b ∈ g.blocks) (split : b.code = front ++ i :: rest) (plain : i.isPhi = false)
    (dest : i.dest? = some v)
    (holds : layout.Holds base (· ∈ liveFrom (live.after g b.label) (i :: rest)) a m)
    {dst : Option Target.Operand} (destination : layout.destination v = .ok dst)
    {out : List Printed} {globals : Store Global}
    (resumes : layout.Resumes base (layout.kept (liveFrom (live.after g b.label) rest)
      (dst.bind Target.Operand.register?)) out w globals m m₁)
    (wrote : layout.Wrote base v (.word w) m₁ m')
    (next : (Keeping.strict.write pos { a with staged := Store.empty, globals } v w).next? =
      some (pos', a')) :
    pos' = pos ∧ layout.Holds base (· ∈ liveFrom (live.after g b.label) rest) a' m' := by
  refine Holds.write (a := { a with staged := Store.empty, globals }) housed sound hb split plain dest
    holds.homes (fun t ht l home other => ?_) (fun k w' hk => by cases hk) (fun name other => ?_)
    wrote.written next
  · have has := sound.homes t l home
    refine (wrote.kept has other).trans (resumes.home ht home has fun r same result => other ?_)
    rw [target?_of_register destination result.symm, same]
    rfl
  · rw [← resumes.data]
    refine wrote.changes.data ?_
    rintro (⟨r, -, same⟩ | target)
    · cases same
    · exact other target

/-- Values are at home behind a call without a result. -/
theorem Holds.printed (sound : layout.Sound) (undefined : i.def? = none)
    (holds : layout.Holds base (· ∈ liveFrom (live.after g b.label) (i :: rest)) a m)
    {out : List Printed}
    (resumes : layout.Resumes base (layout.kept (liveFrom (live.after g b.label) rest) none) out w
      a.globals m m') :
    layout.Holds base (· ∈ liveFrom (live.after g b.label) rest) a m' := by
  refine ⟨holds.homes.pass undefined fun t ht l home => word?_congr ?_, fun k w' hk => ?_, resumes.data⟩
  · exact resumes.home ht home (sound.homes t l home) fun _ _ => nofun
  · obtain ⟨first, last, value⟩ := holds.staged k w' hk
    exact ⟨first, last, (resumes.arguments k first last).trans value⟩

/-- What is written by an instruction belongs to the function. -/
theorem own_target (sound : layout.Sound) {c : Cell} (h : layout.target? base v = some c) :
    layout.Own base c := by
  cases v with
  | global x =>
    cases h
    trivial
  | temp t =>
    obtain ⟨l, home, rfl⟩ := Option.map_eq_some_iff.1 h
    exact own_cell (sound.homes t l home)

theorem Wrote.own (sound : layout.Sound) {c : Cell} (h : c.Scratch ∨ layout.target? base v = some c) :
    layout.Own base c := h.elim own_scratch (own_target sound)

end Holds

/-! ## Calls -/

section Calls

variable {functions : List Function} {litter : Litter} {out : List Printed}
  {globals globals' : Store Global}

/-- What is kept across a call are registers of the palette. -/
theorem kept_callerSaved (result : Option Register) :
    ∀ r ∈ layout.kept after result, r.isCallerSaved = true := fun _ hr => (mem_kept.1 hr).2.1

theorem rax_not_mem_kept (sound : layout.Sound) (result : Option Register) :
    .rax ∉ layout.kept after result := by
  intro mem
  obtain ⟨t, -, home⟩ := (mem_kept.1 mem).1
  exact absurd (sound.homes t _ home).1 (by decide)

/-- The code of an instruction that prints. -/
theorem steps_print (f : Function) (rest : List Target.Instr) (sound : layout.Sound)
    (stands : layout.Stands base m) {arg : Var} {w' : Word}
    (h : layout.lower after (.print arg) = .ok code)
    (answers : Answers functions litter .printWord [w] globals out w' globals')
    (data : m.data = globalData globals)
    (read : ∀ m₁ registers, Changes m m₁ (layout.SaveCells base registers) →
      ∀ o, layout.source arg = .ok o → m₁.get o = some (.word w)) :
    ∃ m', Steps functions litter ⟨some ⟨f, code ++ rest⟩, m⟩ ⟨some ⟨f, rest⟩, m'⟩ ∧
      layout.Resumes base (layout.kept after none) out w' globals' m m' := by
  obtain ⟨saving, src, saved, source, rfl⟩ := lower_print h
  have code : saving ++ move (.register .rdi) src ++ [.call Global.printWord.name] ++
      layout.restore (layout.kept after none) ++ rest =
      saving ++ ((move (.register .rdi) src ++ [.call Global.printWord.name]) ++
        (layout.restore (layout.kept after none) ++ rest)) := by simp
  rw [code]
  refine steps_saved sound stands (kept_callerSaved none) (rax_not_mem_kept sound none) saved
    fun m₁ stands₁ changes₁ => ?_
  obtain ⟨m₂, loaded, rdi, changes₂⟩ := Machine.applyAll_move_register (r := .rdi)
    (read m₁ _ changes₁ src source)
  have stands₂ := stands₁.of_changes changes₂ (by simp) (by simp)
  have passes : Passes (base - layout.frame.bytes) [w] globals m₂ := by
    refine ⟨stands₂.rsp_aligned, by simp, fun k w' hk => ?_, ?_⟩
    · cases k with
      | zero =>
        cases hk
        exact congrArg some rdi
      | succ k => cases hk
    · refine (funext fun name => ?_ : m₂.data = m.data).trans data
      rw [changes₂.data (by simp), changes₁.data (by simp [SaveCells])]
  obtain ⟨m₃, called, returns⟩ := answers f (layout.restore (layout.kept after none) ++ rest) _ m₂
    passes stands₂.rsp
  refine ⟨m₃, ?_, returns.result, returns.rsp, fun r hr => ?_, fun b hb => ?_, returns.data, ?_⟩
  · rw [List.append_assoc]
    exact .trans (steps_of_applyAll loaded) called
  · rw [returns.kept r hr, changes₂.register]
    intro same
    cases Cell.register.inj same
    cases hr
  · rw [returns.stack b hb, changes₂.stack (by simp)]
  · rw [returns.printed, changes₂.printed]

/-- The code of an instruction that calls. -/
theorem steps_call (f : Function) (rest : List Target.Instr) {g : FlowGraph} {live : Liveness}
    (housed : Housed g live layout.locations)
    (sound : layout.Sound) (stands : layout.Stands base m) {callee : Global} {args : List Word}
    (h : layout.lower after (.call dest callee args.length) = .ok code)
    (answers : Answers functions litter callee args globals out w globals')
    (few : args.length ≤ layout.frame.arguments)
    (laid : ∀ k w, args[k]? = some w →
      m.stack (Frame.address base (layout.frame.argumentSlot (k + 1))) = .word w)
    (data : m.data = globalData globals)
    (writable : ∀ x, dest = .global x → ∃ old, globals'.get? x = some old) :
    ∃ dst m₁ m', layout.destination dest = .ok dst ∧
      Steps functions litter ⟨some ⟨f, code ++ rest⟩, m⟩ ⟨some ⟨f, rest⟩, m'⟩ ∧
      layout.Resumes base (layout.kept after (dst.bind Target.Operand.register?)) out w globals' m m₁ ∧
      layout.Wrote base dest (.word w) m₁ m' := by
  obtain ⟨dst, kept, saving, destination, same, saved, rfl⟩ := lower_call h
  have code : saving ++ callFunction layout.frame callee.name args.length ++ layout.restore kept ++
      (dst.map fun dst => move dst (.register .rax)).getD [] ++ rest =
      saving ++ (callFunction layout.frame callee.name args.length ++ (layout.restore kept ++
        ((dst.map fun dst => move dst (.register .rax)).getD [] ++ rest))) := by simp
  rw [code]
  subst same
  obtain ⟨m₁, called, resumes⟩ := steps_saved sound stands (kept_callerSaved _)
    (rax_not_mem_kept sound _) saved fun m₁ stands₁ changes₁ =>
      steps_callFunction sound stands₁ few
        (fun k w hk => (changes₁.stack (not_saveCells_argument _)).trans (laid k w hk))
        ((funext fun name => changes₁.data (by simp [SaveCells])).trans data) answers
  have stands₁ : layout.Stands base m₁ := by
    refine ⟨⟨stands.aligned, ?_⟩, ?_⟩
    · exact (Machine.registers_eq_of_value? (resumes.others _ fun own => own.2.1 rfl)).trans stands.rbp
    · exact (Machine.registers_eq_of_value? (resumes.others _ fun own => own.1 rfl)).trans stands.rsp
  have writable₁ : Writable dest m₁ := fun x hx => by
    obtain ⟨old, found⟩ := writable x hx
    refine ⟨.word old, ?_⟩
    rw [resumes.data, globalData, found]
    rfl
  have result : m₁.get (.register .rax) = some (.word w) := congrArg some resumes.result
  obtain ⟨m', moved, wrote⟩ := executes_write housed sound stands₁ destination writable₁ result
  exact ⟨dst, m₁, m', destination, .trans called (steps_of_applyAll moved), resumes, wrote⟩

end Calls

/-! ## Arguments and tests -/

theorem argumentSlot_inj {frame : Target.Frame} {k k' : Nat} (hk : 1 ≤ k) (hk' : 1 ≤ k') :
    frame.argumentSlot k = frame.argumentSlot k' ↔ k = k' := by
  simp only [Frame.argumentSlot]
  omega

/-- An argument is laid ready in its slot. -/
theorem executes_param (sound : layout.Sound) (stands : layout.Stands base m) {index : Nat} {arg : Var}
    (h : layout.lower after (.param index arg) = .ok code) (first : 1 ≤ index)
    (last : index ≤ layout.frame.arguments)
    (read : ∀ o, layout.source arg = .ok o → m.get o = some x) :
    m.Executes code fun m' =>
      m'.stack (Frame.address base (layout.frame.argumentSlot index)) = x ∧
      Changes m m' fun c =>
        c.Scratch ∨ c = .stack (Frame.address base (layout.frame.argumentSlot index)) := by
  obtain ⟨src, source, rfl⟩ := lower_param h
  have movable := stands.toBased.movable_slot sound (Frame.argumentSlot_lt first last)
  refine (Machine.applyAll_move movable.cell (Machine.value?_stack m _)
    (fun h => by cases movable.framed _ h) (read src source)).imp
    fun m' ⟨done, value, changes⟩ => ⟨done, Option.some.inj value, changes.mono ?_⟩
  rintro c (rfl | ⟨-, rfl⟩)
  · exact .inr rfl
  · exact .inl ⟨.rax, rfl, rfl⟩

/-- What is returned is loaded. -/
theorem executes_loadResult (read : m.get o = some (.word w)) :
    m.Executes (if o = .immediate 0 then [zeroResult] else move (.register .rax) o) fun m' =>
      m'.registers .rax = .word w ∧ Changes m m' Cell.Scratch := by
  have only : ∀ {m'}, Changes m m' (· = .register .rax) → Changes m m' Cell.Scratch :=
    fun changes => changes.mono fun c hc => ⟨.rax, rfl, hc⟩
  split
  · next zero =>
    subst zero
    obtain rfl : w = 0 := Value.word.inj (Option.some.inj read.symm)
    have value : AluOp.xor.eval? (m.registers .rax) (m.registers .rax) = some (.word 0) := by
      cases m.registers .rax <;> simp [AluOp.eval?]
    refine .cons (Machine.apply_alu rfl rfl (Machine.get_register ..) value) (.nil ⟨?_, ?_⟩)
    · simp
    · exact (only (Changes.put m _ _)).unflagged
  · obtain ⟨m', done, value, changes⟩ := Machine.applyAll_move_register read
    exact ⟨m', done, value, only changes⟩

end Layout

/-- A comparison with zero sets the flags. -/
theorem executes_compareCode {m : Machine} {o : Target.Operand} {w : Word}
    (read : m.get o = some (.word w)) (steady : o.Steady) :
    m.Executes (FlowGraph.compareCode o) fun m' =>
      m'.flags = some (.compare w 0) ∧ Changes m m' Cell.Scratch := by
  have compared : ∀ (m₁ : Machine) (o : Target.Operand), Changes m m₁ Cell.Scratch → o.wide? = none →
      m₁.get o = some (.word w) → m₁.Executes [.cmp o (.immediate 0)] fun m' =>
        m'.flags = some (.compare w 0) ∧ Changes m m' Cell.Scratch := by
    intro m₁ o changes narrow read
    have exist : (Target.Instr.cmp o (.immediate 0)).badOperands? = none := by
      refine Target.Instr.badOperands?_eq_none ?_ ?_
      · cases o <;> simp [Target.Instr.operands, Target.Operand.isMemory, List.countP_cons]
      · intro o' ho'
        rcases List.mem_cons.1 ho' with rfl | ho'
        · exact narrow
        · rw [List.mem_singleton.1 ho']
          rfl
    refine .cons (Machine.apply_cmp exist read (Machine.get_immediate m₁ 0)) (.nil ⟨rfl, changes.trans ?_⟩)
    exact ⟨fun c _ => by cases c <;> rfl, rfl⟩
  cases o with
  | immediate value =>
    refine .cons (Machine.apply_mov_register read) ?_
    exact compared _ (.register .rax) ((Changes.put m _ _).mono fun c hc => ⟨.rax, rfl, hc⟩) rfl
      (by simp)
  | _ => exact compared m _ (.refl m _) steady.narrow read

end ThreeAddress
