import ThreeAddress.Proofs.Lowering.Instr
import ThreeAddress.Proofs.Lowering.Sites
import ThreeAddress.Proofs.Lowering.Staging
/-!
# Values survive calls

Behind a call every value that is live there is where it was in front of it, whatever the function
that was called leaves in the registers that it may overwrite: what was in such a register was saved
in the frame, unless the result goes there. The function itself finds what was last laid ready for
its arguments.

* `Layout.Carries` : what the code of a call does;
* `Layout.carries_of_passing` : a call with arguments that are passed somehow;
* `Layout.carries_call`, `Layout.carries_print` : the code of instructions that call;
* `Layout.Forwards` : what the code of an instruction does at the end of a path;
* `FlowGraph.values_survive_calls` : all calls on all paths;
* `FlowGraph.call_overwrites_saved` : a frame whose size wraps, where a value does not survive.
-/

namespace ThreeAddress

open Target

namespace Layout

variable {layout : Layout} {base : Int} {m m₁ : Machine} {after : SortedSet Temp} {dest : Var}
  {o : Target.Operand} {l : Location} {code : List Target.Instr}

/-! ## Cells of operands -/

/-- A home is read from its cell. -/
theorem Stands.get_place (sound : layout.Sound) (stands : layout.Stands base m)
    (has : layout.Has l) : m.get (place l) = m.value? (l.cell base) :=
  (stands.movable_place sound has).get

/-- A destination is the cell that is written. -/
theorem target?_of_destination (sound : layout.Sound) (stands : layout.Stands base m)
    (h : layout.destination dest = .ok (some o)) :
    ∃ c, layout.target? base dest = some c ∧ m.cell? o = some c := by
  rcases dest.cases_named with ⟨d, rfl, named, -⟩ | ⟨rfl, -⟩ | ⟨x, rfl, -⟩
  · simp only [Layout.destination, Var.isSink_temp, Bool.false_eq_true, if_false, source, named]
      at h
    cases found : layout.home d with
    | error e => simp [found, Except.map] at h
    | ok o' =>
      obtain rfl : o' = o := by simpa [found, Except.map] using h
      obtain ⟨l, home, rfl⟩ := home_eq_ok.1 found
      exact ⟨l.cell base, by simp [target?, home],
        (stands.movable_place sound (sound.homes d l home)).cell⟩
  · cases h
  · obtain rfl := Option.some.inj (Except.ok.inj h)
    exact ⟨.datum x.name, rfl, Machine.cell?_symbol m x.name⟩

/-- An operand is read as before, if homes and data are as before. -/
theorem get_source_of_changes {cells : Cell → Prop} (sound : layout.Sound)
    (stands : layout.Stands base m) (changes : Changes m m₁ cells)
    (stands₁ : layout.Stands base m₁) (homes : ∀ l, layout.Has l → ¬ cells (l.cell base))
    (data : ∀ name, ¬ cells (.datum name)) {v : Var} (h : layout.source v = .ok o) :
    m₁.get o = m.get o := by
  rcases source_eq_ok h with ⟨rfl, rfl⟩ | ⟨t, l, rfl, named, home, rfl⟩ | ⟨g, rfl, rfl⟩
  · rfl
  · have has := sound.homes t l home
    rw [stands.get_place sound has, stands₁.get_place sound has, changes.kept _ (homes l has)]
  · rw [Machine.get_of_cell? (Machine.cell?_symbol m g.name),
      Machine.get_of_cell? (Machine.cell?_symbol m₁ g.name), changes.kept _ (data g.name)]

/-! ## Calls -/

/-- The code calls `target` with the stack pointer at a multiple of 16 and with `passed` being true
of it and the machine. However the function that is called comes back, every temporary that is live
behind the call then has the value it had in front of it, apart from the destination, where the
function's result is. -/
def Carries (layout : Layout) (after : SortedSet Temp) (dest : Var) (target : String)
    (passed : Int → Machine → Prop) (code : List Target.Instr) (m : Machine) : Prop :=
  ∃ passing back m₁ a, code = passing ++ .call target :: back ∧ m.applyAll passing = some m₁ ∧
    m₁.registers .rsp = .stack a ∧ a % 16 = 0 ∧ passed a m₁ ∧
    ∀ m₂, ComesBack layout.frame.bytes m₁ m₂ → (∀ x, dest = .global x → m₂.data x.name ≠ none) →
      ∃ m₃, m₂.applyAll back = some m₃ ∧
        (∀ t ∈ after, t.isSink = false → dest ≠ .temp t →
          ∃ o v, layout.home t = .ok o ∧ m.get o = some v ∧ m₃.get o = some v) ∧
        ∀ o, layout.destination dest = .ok (some o) → m₃.get o = some (m₂.registers .rax)

variable {g : FlowGraph} {live : Liveness} {b : Block} {front rest : List Instr} {i : Instr}

/-- What is live behind an instruction has a home, which is not that of what the instruction
defines. -/
theorem other_home {t : Temp} (housed : Housed g live layout.locations) (hb : b ∈ g.blocks)
    (split : b.code = front ++ i :: rest)
    (defines : i.dest? = some dest ∨ i.dest? = none ∧ dest = .sink)
    (ht : t ∈ liveFrom (live.after g b.label) rest) (named : t.isSink = false)
    (other : dest ≠ .temp t) (home : layout.locations.get? t = some l) :
    layout.target? base dest ≠ some (l.cell base) := by
  intro same
  cases dest with
  | global x => exact Location.cell_ne_datum base l x.name (Option.some.inj same).symm
  | temp d =>
    obtain ⟨l', home', same⟩ := Option.map_eq_some_iff.1 same
    obtain rfl := Location.cell_inj.1 same
    have distinct : d ≠ t := fun e => other (congrArg Var.temp e)
    have namedDest := housed.named d l' home'
    rcases defines with defines | ⟨-, sink⟩
    · have named? : (Var.temp d).named? = some d := by simp [Var.named?, namedDest]
      exact housed.defs b hb front i rest split d ((Instr.def?_of_dest? defines).trans named?)
        namedDest t ht named distinct l' home' home
    · cases sink
      cases namedDest

/-- Behind a call the arguments are taken off the stack and the saved registers are loaded, so that
all homes that the call keeps are as they were in front of it. -/
theorem executes_behind (sound : layout.Sound) (stands : layout.Stands base m)
    {kept : List Register}
    (caller : ∀ r ∈ kept, r.isCallerSaved = true) (slots : ∀ r ∈ kept, layout.frame.saved? r ≠ none)
    (scratch : .rax ∉ kept) {m₂ m₃ : Machine}
    (inSlots : ∀ r ∈ kept, ∀ n, layout.frame.saveSlot? r = some n →
      m₁.stack (Frame.address base n) = m.registers r)
    (changes : Changes m m₁ (layout.SaveCells base kept))
    (passes : Changes m₁ m₂ (layout.PassCells base)) {n : Nat} {a : Int}
    (rsp : m₂.registers .rsp = .stack a) (small : n < 2147483648)
    (ha : base - layout.frame.bytes = a + n) (back : ComesBack layout.frame.bytes m₂ m₃) :
    m₃.Executes (adjustCode .add n ++ layout.restore kept) fun m₄ =>
      layout.Stands base m₄ ∧ m₄.registers .rax = m₃.registers .rax ∧ m₄.data = m₃.data ∧
        ∀ l, layout.Has l → (∀ r, l = .register r → r.isCallerSaved = true → r ∈ kept) →
          m₄.value? (l.cell base) = m.value? (l.cell base) := by
  have stands₁ := stands.of_changes changes (by simp [SaveCells]) (by simp [SaveCells])
  refine (executes_adjustCode (back.rsp.trans rsp) small .add (.inr ⟨rfl, ha⟩)).append ?_
  rintro m₄ - ⟨rsp₄, changes₄⟩
  have callee : ∀ r : Register, r.isCalleeSaved = true → m₄.registers r = m₁.registers r := by
    intro r hr
    have other : ∀ s, s = .rsp ∨ s ∈ Register.arguments → r ≠ s := by
      rintro s hs rfl
      revert hr hs
      cases r <;> decide
    rw [changes₄.register (by simpa using other .rsp (.inl rfl)), back.calleeSaved r hr,
      passes.register]
    rintro (same | ⟨b, -, same⟩ | ⟨s, hs, same⟩)
    · exact other .rsp (.inl rfl) (Cell.register.inj same)
    · cases same
    · exact other s (.inr hs) (Cell.register.inj same)
  have rbp : m₂.registers .rbp = .stack base := by
    rw [← stands₁.rbp, ← callee .rbp rfl, changes₄.register (by simp), back.calleeSaved .rbp rfl]
  have frame : ∀ b, base - layout.frame.bytes ≤ b → b ≤ base → m₄.stack b = m₁.stack b := by
    intro b low high
    rw [changes₄.stack (by simp), back.frame base b rbp low high, passes.stack]
    rintro (same | ⟨b', below, same⟩ | ⟨s, -, same⟩)
    · cases same
    · cases same
      omega
    · cases same
  refine (executes_kept sound stands caller slots inSlots changes callee frame).imp ?_
  rintro m₅ - ⟨homes, changes₅⟩
  have free : ∀ r, r ∉ kept → m₅.registers r = m₄.registers r := fun r hr => by
    refine changes₅.register ?_
    rintro ⟨s, hs, same⟩
    exact hr (Cell.register.inj same ▸ hs)
  have notKept : ∀ r, r.isCallerSaved = false → r ∉ kept := fun r hr mem => by
    cases hr.symm.trans (caller r mem)
  refine ⟨⟨⟨stands.aligned, ?_⟩, ?_⟩, ?_, funext fun name => ?_, homes⟩
  · rw [free _ (notKept _ rfl), callee .rbp rfl, stands₁.rbp]
  · rw [free _ (notKept _ rfl), rsp₄]
  · rw [free _ scratch, changes₄.register (by simp)]
  · rw [changes₅.data (by simp), changes₄.data (by simp)]

/-- Registers are saved, arguments are passed, and behind the call everything is undone. -/
theorem carries_of_passing (target : String) (passed : Int → Machine → Prop)
    (housed : Housed g live layout.locations) (sound : layout.Sound)
    (stands : layout.Stands base m) (hb : b ∈ g.blocks) (split : b.code = front ++ i :: rest)
    (defines : i.dest? = some dest ∨ i.dest? = none ∧ dest = .sink)
    (homed : ∀ t ∈ liveFrom (live.after g b.label) rest, t.isSink = false →
      ∃ l, layout.locations.get? t = some l)
    {dst : Option Target.Operand} (destination : layout.destination dest = .ok dst)
    {kept : List Register} (keeps : kept = layout.kept (liveFrom (live.after g b.label) rest)
      (dst.bind Target.Operand.register?))
    {saving : List Target.Instr} (saved : layout.save kept = .ok saving)
    {passing : List Target.Instr} {n : Nat} {a : Int}
    (small : n < 2147483648) (ha : base - layout.frame.bytes = a + n) (aligned : a % 16 = 0)
    (passes : ∀ m₁, layout.Stands base m₁ → Changes m m₁ (layout.SaveCells base kept) →
      m₁.Executes passing fun m₂ => m₂.registers .rsp = .stack a ∧ passed a m₂ ∧
        Changes m₁ m₂ (layout.PassCells base)) :
    layout.Carries (liveFrom (live.after g b.label) rest) dest target passed
      (saving ++ (passing ++ (.call target :: (adjustCode .add n ++ (layout.restore kept ++
        (dst.map fun dst => move dst (.register .rax)).getD []))))) m := by
  obtain ⟨slots, rfl⟩ := save_eq_ok saved
  have caller : ∀ r ∈ kept, r.isCallerSaved = true := keeps ▸ kept_callerSaved _
  obtain ⟨m₁, stored, inSlots, changes₁⟩ := executes_store sound stands kept
  have stands₁ := stands.of_changes changes₁ (by simp [SaveCells]) (by simp [SaveCells])
  obtain ⟨m₂, pushed, rsp, entered, changes₂⟩ := passes m₁ stands₁ changes₁
  refine ⟨layout.store kept ++ passing, _, m₂, a, (List.append_assoc ..).symm,
    (Machine.applyAll_append stored).trans pushed, rsp, aligned, entered,
    fun m₃ back writable => ?_⟩
  have scratch : .rax ∉ kept := keeps ▸ rax_not_mem_kept sound _
  obtain ⟨m₅, undone, stands₅, rax, data, homes⟩ :=
    executes_behind sound stands caller slots scratch inSlots changes₁ changes₂ rsp small ha back
  have writable₅ : Writable dest m₅ := fun x hx => by
    rw [data]
    exact Option.ne_none_iff_exists'.1 (writable x hx)
  have read : m₅.get (.register .rax) = some (m₃.registers .rax) := congrArg some rax
  obtain ⟨m₆, moved, wrote⟩ := executes_write housed sound stands₅ destination writable₅ read
  have stands₆ : layout.Stands base m₆ := by
    refine stands₅.of_changes wrote.changes (fun h => ?_) fun h => ?_
    · exact (show layout.Own base _ from Wrote.own sound h).2.1 rfl
    · exact (show layout.Own base _ from Wrote.own sound h).1 rfl
  refine ⟨m₆, ?_, fun t ht named other => ?_, fun o ho => ?_⟩
  · rw [← List.append_assoc, Machine.applyAll_append undone, moved]
  · obtain ⟨l, home⟩ := homed t ht named
    have has := sound.homes t l home
    have notDest : layout.target? base dest ≠ some (l.cell base) :=
      other_home housed hb split defines ht named other home
    obtain ⟨v, value⟩ := (stands.movable_place sound has).there
    refine ⟨place l, v, home_eq_ok.2 ⟨l, home, rfl⟩, (stands.get_place sound has).trans value, ?_⟩
    rw [stands₆.get_place sound has, wrote.kept has notDest, homes l has, value]
    intro r same saves
    rw [keeps]
    refine mem_kept.2 ⟨⟨t, ht, same ▸ home⟩, saves, fun result => notDest ?_⟩
    rw [target?_of_register destination result.symm, same]
    rfl
  · obtain ⟨c, target, cell⟩ := target?_of_destination sound stands₆ ho
    exact (Machine.get_of_cell? cell).trans (wrote.written c target)

/-- The code of an instruction that calls passes what is laid ready. -/
theorem carries_call (housed : Housed g live layout.locations) (sound : layout.Sound)
    (stands : layout.Stands base m) (hb : b ∈ g.blocks) {callee : Global} {argc : Nat}
    (split : b.code = front ++ .call dest callee argc :: rest)
    (homed : ∀ t ∈ liveFrom (live.after g b.label) rest, t.isSink = false →
      ∃ l, layout.locations.get? t = some l)
    (h : layout.lower (liveFrom (live.after g b.label) rest) (.call dest callee argc) = .ok code)
    (few : argc ≤ layout.frame.arguments) {values : Nat → Value}
    (laid : ∀ k < argc,
      m.stack (Frame.address base (layout.frame.argumentSlot (k + 1))) = values k) :
    layout.Carries (liveFrom (live.after g b.label) rest) dest callee.name
      (fun a m₁ => ∀ k < argc, m₁.value? (argumentCell a k) = some (values k)) code m := by
  obtain ⟨dst, kept, saving, destination, keeps, saved, rfl⟩ := lower_call h
  have slots := layout.frame.count_le_bytes
  have small := sound.small
  have rspAligned := stands.rsp_aligned
  simp only [Frame.count] at slots
  rw [callFunction_eq]
  generalize hn : min argc 6 = n
  generalize hs : argc - n = onStack
  generalize ha : base - layout.frame.bytes - 8 * ((onStack + onStack % 2 : Nat) : Int) = a
  have passes : ∀ m₁, layout.Stands base m₁ → Changes m m₁ (layout.SaveCells base kept) →
      m₁.Executes (adjustCode .sub (8 * (onStack % 2)) ++ (pushCode layout.frame n onStack ++
        loadCode layout.frame n)) fun m₂ => m₂.registers .rsp = .stack a ∧
        (∀ k < argc, m₂.value? (argumentCell a k) = some (values k)) ∧
        Changes m₁ m₂ (layout.PassCells base) := by
    intro m₁ stands₁ changes₁
    refine (executes_arguments sound stands₁ few hn hs ha.symm).imp ?_
    rintro m₂ - ⟨rsp, -, arguments, changes₂⟩
    refine ⟨rsp, fun k hk => ?_, changes₂⟩
    rw [arguments k hk, changes₁.stack (not_saveCells_argument _), laid k hk]
  have carries := carries_of_passing callee.name
    (fun a m₁ => ∀ k < argc, m₁.value? (argumentCell a k) = some (values k)) housed sound stands hb
    split (.inl rfl) homed destination keeps saved (n := 8 * (onStack + onStack % 2)) (by omega)
    (by omega) (by omega) passes
  simpa using carries

/-- The code of an instruction that prints passes the value. -/
theorem carries_print (housed : Housed g live layout.locations) (sound : layout.Sound)
    (stands : layout.Stands base m) (hb : b ∈ g.blocks) {arg : Var}
    (split : b.code = front ++ .print arg :: rest)
    (homed : ∀ t ∈ liveFrom (live.after g b.label) rest, t.isSink = false →
      ∃ l, layout.locations.get? t = some l)
    (h : layout.lower (liveFrom (live.after g b.label) rest) (.print arg) = .ok code)
    {v : Value} (read : ∀ o, layout.source arg = .ok o → m.get o = some v) :
    layout.Carries (liveFrom (live.after g b.label) rest) .sink Global.printWord.name
      (fun _ m₁ => m₁.registers .rdi = v) code m := by
  obtain ⟨saving, src, saved, source, rfl⟩ := lower_print h
  have passes : ∀ m₁, layout.Stands base m₁ →
      Changes m m₁ (layout.SaveCells base
        (layout.kept (liveFrom (live.after g b.label) rest) none)) →
      m₁.Executes (move (.register .rdi) src) fun m₂ =>
        m₂.registers .rsp = .stack (base - layout.frame.bytes) ∧ m₂.registers .rdi = v ∧
          Changes m₁ m₂ (layout.PassCells base) := by
    intro m₁ stands₁ changes₁
    have same := get_source_of_changes sound stands changes₁ stands₁
      (fun l has => not_saveCells_home has) (by simp [SaveCells]) source
    obtain ⟨m₂, loaded, rdi, changes₂⟩ :=
      Machine.applyAll_move_register (r := .rdi) (same.trans (read src source))
    refine ⟨m₂, loaded, (changes₂.register (by simp)).trans stands₁.rsp, rdi, changes₂.mono ?_⟩
    rintro c rfl
    exact .inr (.inr ⟨.rdi, by decide, rfl⟩)
  have nothing : layout.destination .sink = .ok none := rfl
  have carries := carries_of_passing Global.printWord.name (fun _ m₁ => m₁.registers .rdi = v)
    housed sound stands hb split (.inr ⟨rfl, rfl⟩) homed nothing rfl saved (n := 0) (by omega)
    (by simp) stands.rsp_aligned passes
  simpa [adjustCode] using carries

end Layout

/-! ## Paths -/

section Paths

variable {f : Function} {m₀ m m' : Machine} {done : List (Target.Instr × Machine)} {k : Nat}
  {src : Target.Operand} {rest : List Target.Instr} {v : Value}

/-- A value that is moved to the slot of an argument was last stored there. -/
theorem Target.Path.lays (path : Path f m₀ done (move (f.frame.argument k) src ++ rest) m)
    (other : f.frame.argument k ≠ src) (read : m.get src = some v)
    (h : m.applyAll (move (f.frame.argument k) src) = some m') :
    ∃ done', Path f m₀ done' rest m' ∧ f.frame.lastStored? k done' = some v := by
  rw [move, if_neg other] at h path
  split at h
  · next through =>
    rw [if_pos through] at path
    obtain ⟨m₁, first, h⟩ := Option.bind_eq_some_iff.1 h
    obtain ⟨m₂, second, h⟩ := Option.bind_eq_some_iff.1 h
    cases h
    refine ⟨_, .goes (.goes path (.applies first)) (.applies second), ?_⟩
    rw [Machine.apply_mov_register read] at first
    obtain rfl := Option.some.inj first
    rw [Frame.lastStored?_concat, Frame.stored?_mov]
    simp
  · next direct =>
    rw [if_neg direct] at path
    obtain ⟨m₁, first, h⟩ := Option.bind_eq_some_iff.1 h
    cases h
    refine ⟨_, .goes path (.applies first), ?_⟩
    rw [Frame.lastStored?_concat, Frame.stored?_mov, read, Option.some_or]

end Paths

/-- What the code of an instruction does about arguments and calls, where a path through `f` has
come to it: `param` lays the value of its operand ready, a call passes what was last laid ready on
the path, and a printed value is passed as it is. -/
def Layout.Forwards (layout : Layout) (f : Function) (m₀ : Machine) (after : SortedSet Temp)
    (code rest : List Target.Instr) (done : List (Target.Instr × Machine)) (m : Machine) :
    Instr → Prop
  | .param k arg => ∀ o v, layout.source arg = .ok o → m.get o = some v →
      ∃ done' m', m.applyAll code = some m' ∧ Path f m₀ done' rest m' ∧
        f.frame.lastStored? k done' = some v
  | .call dest callee argc => ∀ values : Nat → Value,
      (∀ k < argc, f.frame.lastStored? (k + 1) done = some (values k)) →
      layout.Carries after dest callee.name
        (fun a m₁ => ∀ k < argc, m₁.value? (argumentCell a k) = some (values k)) code m
  | .print arg => ∀ o v, layout.source arg = .ok o → m.get o = some v →
      layout.Carries after .sink Global.printWord.name (fun _ m₁ => m₁.registers .rdi = v) code m
  | _ => True

namespace Layout

variable {layout : Layout} {base : Int} {f : Function} {m₀ m : Machine}
  {done : List (Target.Instr × Machine)} {after : SortedSet Temp} {code behind : List Target.Instr}
  {arg : Var}

/-- The operand of an instruction is not the slot of an argument. -/
theorem argument_ne_source (sound : layout.Sound) {o : Target.Operand}
    (h : layout.source arg = .ok o) {k : Nat} (reaches : layout.frame.Reaches k) :
    layout.frame.argument k ≠ o := by
  intro same
  rcases source_eq_ok h with ⟨-, rfl⟩ | ⟨t, l, -, -, home, rfl⟩ | ⟨g, -, rfl⟩
  · cases same
  · exact (home_place sound.small (sound.homes t l home)).other k reaches same.symm
  · cases same

theorem forwards_param (sound : layout.Sound) (stands : layout.Stands base m)
    (frame : f.frame = layout.frame) {k : Nat} (first : 1 ≤ k) (last : k ≤ layout.frame.arguments)
    (h : layout.lower after (.param k arg) = .ok code) (path : Path f m₀ done (code ++ behind) m) :
    layout.Forwards f m₀ after code behind done m (.param k arg) := by
  intro o v source read
  obtain ⟨m', applied, -⟩ := executes_param sound stands h first last (x := v) fun o' source' => by
    obtain rfl := Except.ok.inj (source.symm.trans source')
    exact read
  obtain ⟨o', source', rfl⟩ := lower_param h
  obtain rfl := Except.ok.inj (source.symm.trans source')
  have reaches := Frame.reaches_argument sound.small last
  rw [← frame] at path applied
  obtain ⟨done', path', stored⟩ :=
    path.lays (frame ▸ argument_ne_source sound source reaches) read applied
  exact ⟨done', m', frame ▸ applied, path', stored⟩

variable {g : FlowGraph} {live : Liveness} {b : Block} {front rest : List Instr}

theorem forwards_call (housed : Housed g live layout.locations) (sound : layout.Sound)
    (stands : layout.Stands base m) (hb : b ∈ g.blocks) {dest : Var} {callee : Global} {argc : Nat}
    (split : b.code = front ++ .call dest callee argc :: rest)
    (homed : ∀ t ∈ liveFrom (live.after g b.label) rest, t.isSink = false →
      ∃ l, layout.locations.get? t = some l)
    (h : layout.lower (liveFrom (live.after g b.label) rest) (.call dest callee argc) = .ok code)
    (frame : f.frame = layout.frame) (staged : layout.frame.Staged base done m) :
    layout.Forwards f m₀ (liveFrom (live.after g b.label) rest) code behind done m
      (.call dest callee argc) := by
  intro values stored
  rw [frame] at stored
  have few : argc ≤ layout.frame.arguments := by
    by_contra more
    -- the slot behind the frame is within reach, but nothing was stored there
    have behind : layout.frame.argumentSlot (layout.frame.arguments + 1) = layout.frame.count := rfl
    have reaches : layout.frame.Reaches (layout.frame.arguments + 1) :=
      Frame.reaches_of_le sound.small (Nat.le_of_eq behind)
    have inside := (staged _ _ reaches (stored _ (Nat.lt_of_not_le more))).1
    omega
  exact carries_call housed sound stands hb split homed h few fun k hk =>
    (staged _ _ (Frame.reaches_argument sound.small (Nat.le_trans hk few)) (stored k hk)).2

theorem forwards_print (housed : Housed g live layout.locations) (sound : layout.Sound)
    (stands : layout.Stands base m) (hb : b ∈ g.blocks)
    (split : b.code = front ++ .print arg :: rest)
    (homed : ∀ t ∈ liveFrom (live.after g b.label) rest, t.isSink = false →
      ∃ l, layout.locations.get? t = some l)
    (h : layout.lower (liveFrom (live.after g b.label) rest) (.print arg) = .ok code) :
    layout.Forwards f m₀ (liveFrom (live.after g b.label) rest) code behind done m
      (.print arg) := by
  intro o v source read
  refine carries_print housed sound stands hb split homed h fun o' source' => ?_
  obtain rfl := Except.ok.inj (source.symm.trans source')
  exact read

end Layout

namespace FlowGraph

variable {g : FlowGraph} {live : Liveness} {f : Function} {registers : Nat}
  {allocation : Allocation} {b : Block} {before later : List (Instr × InstrLive)} {i : Instr}
  {point : InstrLive}

/-- What is live behind an instruction that is no phi is found from the instructions behind it. -/
theorem exists_split (solved : Solved g live) (hb : b ∈ g.blocks)
    (split : b.body.zip (live.instrs b.label) = before ++ (i, point) :: later)
    (plain : i.isPhi = false) :
    ∃ front rest, b.code = front ++ i :: rest ∧
      point.after = liveFrom (live.after g b.label) rest := by
  have mem : (i, point) ∈ b.body.zip (live.instrs b.label) := by simp [split]
  rw [solved.zip_instrs hb] at mem
  rcases List.mem_append.1 mem with phi | code
  · obtain ⟨j, hj, same⟩ := List.mem_map.1 phi
    cases same
    cases plain.symm.trans (Block.isPhi_of_mem_phis hj)
  · exact exists_of_mem_livePoints code

/-- Along every path through the function of a procedure whose temporaries live where an allocation
of its interference graph puts them, unless that takes a frame of 2 ^ 31 bytes or more:

* a slot within reach that is that of an argument is written for `param` alone;
* the code of an instruction is met behind the instructions in front of it. Where a path comes to
  that of `param`, the value of the operand is what was last stored as this argument behind it;
  where it comes to that of a call whose arguments were all stored on the path, the function is
  entered with the stack pointer at a multiple of 16 and with what was last stored, in registers and
  on the stack; and a printed value is in `rdi`. However the function that is called comes back,
  with anything in the registers that it may overwrite, all that is live behind the call has the
  value it had in front of it, apart from the destination, which has what was in `rax`. -/
theorem values_survive_calls (wf : g.WellFormed)
    (counted : ∀ k arg, .param k arg ∈ g.code → 1 ≤ k) (few : ∀ i ∈ g.code, i.count < 2 ^ 32)
    (found : g.liveness = .ok live)
    (allocated : (g.interference live).allocate registers = .ok allocation)
    (lowered : g.lower live allocation.assignment = .ok f) (small : f.frame.bytes < 2147483648)
    {m₀ : Machine} {top : Int} (rsp : m₀.registers .rsp = .stack top) (aligned : top % 16 = 8) :
    (∀ done k src rest m, 1 ≤ k → f.frame.Reaches k →
      Path f m₀ done (.mov (f.frame.argument k) src :: rest) m →
      ∃ arg, .param k arg ∈ g.code) ∧
    ∀ b ∈ g.blocks, ∀ before i point later,
      b.body.zip (live.instrs b.label) = before ++ (i, point) :: later → i.target? = none →
      ∃ code rest, (Layout.ofAssignment g allocation.assignment).lower point.after i = .ok code ∧
        MetBehind f g (.ofAssignment g allocation.assignment) b before (code ++ rest) ∧
        ∀ done m, Path f m₀ done (code ++ rest) m →
          (Layout.ofAssignment g allocation.assignment).Forwards f m₀ point.after code rest done m
            i := by
  have fits := InterferenceGraph.fits_of_allocate allocated
  have housed := Allocation.housed wf found allocated
  have solved := solved_of_liveness wf.nodup found
  have frame := frame_of_lower lowered
  have own := frame ▸ small
  have sound := Layout.sound_ofAssignment fits own
  have placed : (Layout.ofAssignment g allocation.assignment).Placed := by
    refine Layout.placed_ofAssignment (fun t l home => ?_) own
    cases l with
    | register r => exact .inl ⟨r, fits.palette t r home, rfl⟩
    | slot n => exact .inr ⟨n, fits.slots t n home, rfl⟩
  let stages (k : Nat) : Prop := ∃ arg, .param k arg ∈ g.code
  have allowed : ∀ i ∈ g.code, i.Allowed (Layout.ofAssignment g allocation.assignment).frame stages :=
    allowed_of_mem_code own few fun k arg mem => ⟨arg, mem⟩
  have rules := disciplined_lower placed allowed lowered
  have entry : m₀.registers .rsp = .stack (top - 8 + 8) := by rw [Int.sub_add_cancel, rsp]
  refine ⟨fun done k src rest m first reaches path => ?_,
    fun b hb before i point later split stays => ?_⟩
  · obtain ⟨s, holds, -, s', step, -⟩ := path.holds small (fun _ _ => trivial) rules entry
    obtain ⟨-, k', ⟨arg, mem⟩, same⟩ := step.stages_of_mov small reaches holds
    rw [Layout.argumentSlot_inj (counted k' arg mem) first] at same
    exact ⟨arg, same ▸ mem⟩
  obtain ⟨n, here, rest, lowered', met, openAt⟩ :=
    exists_met wf.nodup placed allowed lowered hb split
  obtain ⟨code, codeOf, rfl⟩ := lowerInstr_of_target? stays lowered'
  refine ⟨code, rest, codeOf, met, fun done m path => ?_⟩
  have framed := path.framed_of_openAt small openAt entry
  rw [frame] at framed
  have stands : (Layout.ofAssignment g allocation.assignment).Stands (top - 8) m :=
    ⟨⟨by omega, framed.rbp⟩, framed.rsp⟩
  have mem : (i, point) ∈ b.body.zip (live.instrs b.label) := by simp [split]
  have inCode : i ∈ g.code := mem_code.2 ⟨b, hb, (List.of_mem_zip mem).1⟩
  have homed : ∀ t ∈ point.after, t.isSink = false → ∃ l,
      (Layout.ofAssignment g allocation.assignment).locations.get? t = some l := fun t ht named =>
    housed.homed t (mem_temps_of_mem_after wf.nodup found hb mem ht) named
  cases i with
  | param k arg =>
    exact Layout.forwards_param sound stands frame (counted k arg inCode)
      (Layout.le_arguments inCode) codeOf path
  | call dest callee argc =>
    obtain ⟨front, back, parts, after⟩ := exists_split solved hb split rfl
    have inside : ∀ k, stages k → f.frame.argumentSlot k < f.frame.count := fun k ⟨arg, here⟩ =>
      Frame.argumentSlot_lt (counted k arg here) (frame ▸ Layout.le_arguments here)
    have staged := path.staged small (fun _ _ => trivial) rules inside entry
    rw [after] at homed codeOf ⊢
    exact Layout.forwards_call housed sound stands hb parts homed codeOf frame (frame ▸ staged)
  | print arg =>
    obtain ⟨front, back, parts, after⟩ := exists_split solved hb split rfl
    rw [after] at homed codeOf ⊢
    exact Layout.forwards_print housed sound stands hb parts homed codeOf
  | _ => trivial

/-- A procedure that needs its parameter again behind a call. -/
def keeping : FlowGraph :=
  let a : Temp := ⟨"a", none⟩
  let r : Temp := ⟨"r", none⟩
  ⟨⟨"keeping"⟩, [a], [⟨⟨"L0"⟩, true, [
    .param 1 (.temp a),
    .call (.temp r) ⟨"other"⟩ 1,
    .binary .add (.temp a) (.temp a) (.temp r),
    .ret (.temp a)]⟩]⟩

/-- The call in it, behind the code that lays its argument ready. -/
theorem values_survive_calls_keeping : ∃ live allocation f, keeping.liveness = .ok live ∧
    (keeping.interference live).allocate 10 = .ok allocation ∧
    keeping.lower live allocation.assignment = .ok f ∧ f.frame.bytes < 2147483648 ∧
    entered.registers .rsp = .stack 8 ∧
    ∃ after done code rest m, ⟨"a", none⟩ ∈ after ∧ Path f entered done (code ++ rest) m ∧
      f.frame.lastStored? 1 done = some (.word 0) ∧
      (Layout.ofAssignment keeping allocation.assignment).Carries after (.temp ⟨"r", none⟩) "other"
        (fun a m₁ => ∀ k < 1, m₁.value? (argumentCell a k) = some (.word 0)) code m := by
  have built : ∃ names, ofProc keeping.toProc = .ok (keeping, names) := ⟨_, rfl⟩
  obtain ⟨names, built⟩ := built
  have wf := (builtFrom_of_ofProc built).wellFormed
  have counted : ∀ k arg, .param k arg ∈ keeping.code → 1 ≤ k := by
    intro k arg mem
    simp [keeping, FlowGraph.code] at mem
    omega
  obtain ⟨live, allocation, f, found, allocated, lowered⟩ : ∃ live allocation f,
      keeping.liveness = .ok live ∧ (keeping.interference live).allocate 10 = .ok allocation ∧
      keeping.lower live allocation.assignment = .ok f := ⟨_, _, _, rfl, rfl, rfl⟩
  have small : f.frame.bytes < 2147483648 := by
    rw [frame_of_lower lowered]
    cases found
    cases allocated
    decide
  have rsp : entered.registers .rsp = .stack 8 := rfl
  have survive := (values_survive_calls wf counted (by decide) found allocated lowered small
    rsp rfl).2 _ List.mem_cons_self
  obtain ⟨⟨⟨entering, enters, starts⟩, -⟩, -⟩ :=
    lowers_of_lower wf.nodup (solved_of_liveness wf.nodup found) lowered
  obtain ⟨block, named, instrs⟩ := starts _ rfl
  refine ⟨live, allocation, f, found, allocated, lowered, small, rfl, ?_⟩
  have first : Path f entered [] f.instrs entered := .start
  rw [instrs] at first
  cases found
  cases allocated
  cases enters
  obtain ⟨code₁, rest₁, codeOf₁, ⟨n₁, front₁, inFront₁, named₁⟩, lays⟩ := survive [] _ _ _ rfl rfl
  obtain ⟨code, rest, codeOf, ⟨n₂, front, inFront, named₂⟩, carries⟩ := survive [_] _ _ _ rfl rfl
  cases codeOf₁
  cases inFront₁
  cases inFront
  obtain rfl := Option.some.inj (named.symm.trans named₁)
  obtain rfl : rest₁ = code ++ rest :=
    List.append_inj_right (List.cons.inj (Option.some.inj (named₁.symm.trans named₂))).2 rfl
  obtain ⟨done, path⟩ := Path.of_applyAll first rfl
  obtain ⟨done', m', -, path', stored⟩ := lays _ _ (.goes path (.applies rfl)) _ (.word 0) rfl rfl
  refine ⟨_, done', code, rest, m', ?_, path', stored, carries _ _ path' (fun _ => .word 0) ?_⟩
  · decide
  · intro k hk
    obtain rfl : k = 0 := by omega
    exact stored

/-- A procedure that also lays an argument ready that no call takes, so far away that the bytes of
its frame, counted in 32 bits, are none. -/
def reaching : FlowGraph :=
  let a : Temp := ⟨"a", none⟩
  let r : Temp := ⟨"r", none⟩
  ⟨⟨"reaching"⟩, [a], [⟨⟨"L0"⟩, true, [
    .param 4294967293 (.temp a),
    .param 1 (.temp a),
    .call (.temp r) ⟨"other"⟩ 1,
    .binary .add (.temp a) (.temp a) (.temp r),
    .ret (.temp a)]⟩]⟩

/-- Nothing is reserved on the stack for its frame, and its parameter, which it needs again, is saved
where the call puts the place to come back to. -/
theorem call_overwrites_saved : ∃ live allocation f, reaching.liveness = .ok live ∧
    (reaching.interference live).allocate 10 = .ok allocation ∧
    reaching.lower live allocation.assignment = .ok f ∧
    f.frame.bytes = 34359738368 ∧ f.frame.size = 0 ∧
    ∃ done rest m saved, Path f entered done (.call "other" :: rest) m ∧
      f.frame.saved? .rsi = some saved ∧ m.get saved = some (.word 0) ∧
      ∀ functions litter callee, functions.find? (fun c => c.name == "other") = some callee →
        ∃ m', Config.step? functions litter ⟨some ⟨f, .call "other" :: rest⟩, m⟩ =
            some ⟨some ⟨callee, callee.instrs⟩, m'⟩ ∧
          m'.get saved = some (.back (some ⟨f, rest⟩)) := by
  obtain ⟨live, allocation, f, rest, found, allocated, lowered, frame, instrs⟩ :
      ∃ live allocation f rest, reaching.liveness = .ok live ∧
        (reaching.interference live).allocate 10 = .ok allocation ∧
        reaching.lower live allocation.assignment = .ok f ∧
        f.frame = ⟨0, [], [.rsi, .rdi], 4294967293⟩ ∧
        f.instrs = [.push (.register .rbp), .mov (.register .rbp) (.register .rsp),
          .mov (.register .rsi) (.register .rdi), .label ".Lreaching.LL0",
          .mov (.memory ⟨.register .rbp, 8⟩) (.register .rsi),
          .mov (.memory ⟨.register .rbp, -24⟩) (.register .rsi),
          .mov (.memory ⟨.register .rbp, -8⟩) (.register .rsi),
          .mov (.register .rdi) (.memory ⟨.register .rbp, -24⟩)] ++ .call "other" :: rest :=
    ⟨_, _, _, _, rfl, rfl, rfl, by decide, rfl⟩
  have first : Path f entered [] f.instrs entered := .start
  rw [instrs] at first
  obtain ⟨done, called⟩ := Path.of_applyAll first rfl
  refine ⟨live, allocation, f, found, allocated, lowered, frame ▸ by decide, frame ▸ by decide,
    done, rest, _, .memory ⟨.register .rbp, -8⟩, called, frame ▸ by decide, rfl,
    fun functions litter callee known => ⟨_, step?_call known (a := 0) rfl rfl, rfl⟩⟩

end FlowGraph

end ThreeAddress
