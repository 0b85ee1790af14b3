import ThreeAddress.Proofs.Activation.Simulation
/-!
# Renamed instructions

An instruction may read other temporaries and define another one, and still do the same.

* `Instr.setDef_self`, `Instr.mapUses_id` : renamings that change nothing;
* `alike_write`, `alike_reading` : one operand;
* `alike_perform`, `alike_perform_same` : a renamed instruction keeps stages alike, if the
  temporaries that it reads have the same values under their new names; so does one that is the
  same on both sides.
-/

namespace ThreeAddress

open Execution

/-! ## Operands and renamings -/

theorem Temp.isSink_iff {t : Temp} : t.isSink = true ↔ t = Temp.sink := by
  simp [Temp.isSink]

namespace Var

/-- An operand is a temporary with a value of its own, the sink, or a global variable. -/
theorem cases_named (v : Var) :
    (∃ t, v = .temp t ∧ t.isSink = false ∧ v.named? = some t) ∨
      (v = .sink ∧ v.named? = none) ∨ ∃ g, v = .global g ∧ v.named? = none := by
  cases v with
  | global g => exact .inr (.inr ⟨g, rfl, rfl⟩)
  | temp t =>
    cases h : t.isSink with
    | false => exact .inl ⟨t, rfl, h, by simp [named?, h]⟩
    | true =>
      refine .inr (.inl ⟨?_, by simp [named?, h]⟩)
      rw [Temp.isSink_iff.1 h, sink]

theorem isSink_temp (t : Temp) : (temp t).isSink = t.isSink := by
  rw [Bool.eq_iff_iff]
  simp [isSink, Temp.isSink, sink]

theorem not_isSink_of_named {v : Var} {t : Temp} (h : v.named? = some t) :
    v = .temp t ∧ t.isSink = false := by
  rcases v.cases_named with ⟨u, rfl, hs, hn⟩ | ⟨rfl, hn⟩ | ⟨g, rfl, hn⟩
  · cases hn.symm.trans h
    exact ⟨rfl, hs⟩
  · cases hn.symm.trans h
  · cases hn.symm.trans h

@[simp] theorem rename_id (v : Var) : v.rename (fun t => t) = v := by
  rcases v.cases_named with ⟨t, rfl, -, hn⟩ | ⟨rfl, hn⟩ | ⟨g, rfl, hn⟩ <;> simp [rename, hn]

theorem rename_const_self {v : Var} {d : Temp} (h : v.named? = some d ∨ v.named? = none) :
    v.rename (fun _ => d) = v := by
  rcases h with h | h
  · rw [rename, h]
    exact (not_isSink_of_named h).1.symm
  · simp [rename, h]

theorem rename_rename {f h : Temp → Temp} (sink : f .sink = .sink) (v : Var) :
    (v.rename h).rename f = v.rename fun t => f (h t) := by
  rcases v.cases_named with ⟨t, rfl, -, hn⟩ | ⟨rfl, hn⟩ | ⟨g, rfl, hn⟩
  · simp only [rename, hn]
    cases hs : (h t).isSink with
    | false => simp [named?, hs]
    | true =>
      rw [Temp.isSink_iff.1 hs, sink]
      rfl
  · simp only [rename, hn]
  · simp only [rename, hn]

end Var

namespace Instr

@[simp] theorem mapUses_id (i : Instr) : i.mapUses (fun t => t) = i := by
  cases i <;> simp [mapUses]

/-- Defining what is defined anyway changes nothing. -/
theorem setDef_self {i : Instr} {d : Temp} (h : i.def? = some d ∨ i.def? = none) :
    i.setDef d = i := by
  cases i with
  | phi dest args => simp_all [def?, setDef]
  | binary op dest lhs rhs => exact congrArg (binary op · lhs rhs) (Var.rename_const_self h)
  | unary op dest arg => exact congrArg (unary op · arg) (Var.rename_const_self h)
  | const dest value => exact congrArg (const · value) (Var.rename_const_self h)
  | copy dest src => exact congrArg (copy · src) (Var.rename_const_self h)
  | call dest callee argc => exact congrArg (call · callee argc) (Var.rename_const_self h)
  | _ => rfl

@[simp] theorem dest?_mapUses (f : Temp → Temp) (i : Instr) : (i.mapUses f).dest? = i.dest? := by
  cases i <;> rfl

@[simp] theorem def?_mapUses (f : Temp → Temp) (i : Instr) : (i.mapUses f).def? = i.def? := by
  cases i <;> rfl

@[simp] theorem isPhi_mapUses (f : Temp → Temp) (i : Instr) : (i.mapUses f).isPhi = i.isPhi := by
  cases i <;> rfl

@[simp] theorem isPhi_setDef (n : Temp) (i : Instr) : (i.setDef n).isPhi = i.isPhi := by
  cases i <;> rfl

theorem def?_setDef {i : Instr} {t n : Temp} (h : i.def? = some t) (hn : n.isSink = false) :
    (i.setDef n).def? = some n := by
  have named : ∀ v : Var, v.named? = some t → (v.rename fun _ => n).named? = some n := by
    intro v hv
    rw [Var.rename, hv]
    simp [Var.named?, hn]
  cases i <;> simp_all [def?, dest?, setDef]

/-- Nothing else is defined. -/
theorem eq_of_def?_setDef {i : Instr} {n d : Temp} (h : (i.setDef n).def? = some d) : d = n := by
  have operand : ∀ v : Var, (v.rename fun _ => n).named? = some d → d = n := by
    intro v hv
    rcases v.cases_named with ⟨t, rfl, -, hn⟩ | ⟨rfl, hn⟩ | ⟨g, rfl, hn⟩
    · simp only [Var.rename, hn] at hv
      cases (Var.not_isSink_of_named hv).1
      rfl
    · simp only [Var.rename, hn] at hv
      cases hv
    · simp only [Var.rename, hn] at hv
      cases hv
  cases i with
  | phi dest args => exact (Option.some.inj h).symm
  | binary op dest lhs rhs => exact operand dest h
  | unary op dest arg => exact operand dest h
  | const dest value => exact operand dest h
  | copy dest src => exact operand dest h
  | call dest callee argc => exact operand dest h
  | _ => cases h

theorem fallsThrough_mapUses (f : Temp → Temp) (i : Instr) :
    (i.mapUses f).fallsThrough = i.fallsThrough := by
  cases i <;> rfl

theorem fallsThrough_setDef (n : Temp) (i : Instr) : (i.setDef n).fallsThrough = i.fallsThrough := by
  cases i <;> rfl

theorem isTransfer_mapUses (f : Temp → Temp) (i : Instr) :
    (i.mapUses f).isTransfer = i.isTransfer := by
  cases i <;> rfl

theorem eq_label_of_mapUses {f : Temp → Temp} {i : Instr} {l : Label} (h : i.mapUses f = .label l) :
    i = .label l := by
  cases i <;> first | exact h | cases h

theorem target?_mapUses (f : Temp → Temp) (i : Instr) : (i.mapUses f).target? = i.target? := by
  cases i <;> rfl

theorem uses_setDef (n : Temp) (i : Instr) : (i.setDef n).uses = i.uses := by
  cases i <;> rfl

theorem operands_mapUses (f : Temp → Temp) (i : Instr) :
    (i.mapUses f).operands = i.operands.map (Var.rename f) := by
  cases i <;> rfl

/-- What a renamed instruction reads are the new names of what the instruction reads. -/
theorem exists_of_mem_uses_mapUses {f : Temp → Temp} {i : Instr} {u : Temp}
    (h : u ∈ (i.mapUses f).uses) : ∃ t ∈ i.uses, u = f t := by
  rw [uses, operands_mapUses, List.filterMap_map] at h
  obtain ⟨v, hv, named⟩ := List.mem_filterMap.1 h
  rcases v.cases_named with ⟨t, rfl, -, hn⟩ | ⟨rfl, hn⟩ | ⟨g, rfl, hn⟩
  · refine ⟨t, List.mem_filterMap.2 ⟨_, hv, hn⟩, ?_⟩
    simp only [Function.comp, Var.rename, hn] at named
    cases (Var.not_isSink_of_named named).1
    rfl
  · simp only [Function.comp, Var.rename, hn] at named
    cases named
  · simp only [Function.comp, Var.rename, hn] at named
    cases named

theorem def?_of_dest? {i : Instr} {v : Var} (h : i.dest? = some v) : i.def? = v.named? := by
  cases i <;> simp_all [dest?, def?]

theorem fallsThrough_of_dest? {i : Instr} {v : Var} (h : i.dest? = some v) :
    i.fallsThrough = true := by
  cases i <;> simp_all [dest?, fallsThrough]

theorem fallsThrough_of_def? {i : Instr} {d : Temp} (h : i.def? = some d) :
    i.fallsThrough = true := by
  cases i <;> simp_all [def?, dest?, fallsThrough]

/-- The sink is never defined by an instruction other than a phi. -/
theorem def?_not_isSink {i : Instr} {d : Temp} (plain : i.isPhi = false) (h : i.def? = some d) :
    d.isSink = false := by
  cases i with
  | phi dest args => simp [isPhi] at plain
  | binary op dest lhs rhs => exact (Var.not_isSink_of_named h).2
  | unary op dest arg => exact (Var.not_isSink_of_named h).2
  | const dest value => exact (Var.not_isSink_of_named h).2
  | copy dest src => exact (Var.not_isSink_of_named h).2
  | call dest callee argc => exact (Var.not_isSink_of_named h).2
  | _ => cases h

/-- The sink is never read. -/
theorem uses_not_isSink {i : Instr} {t : Temp} (h : t ∈ i.uses) : t.isSink = false := by
  obtain ⟨v, -, hv⟩ := List.mem_filterMap.1 h
  exact (Var.not_isSink_of_named hv).2

theorem mapUses_mapUses {f h : Temp → Temp} (sink : f .sink = .sink) (i : Instr) :
    (i.mapUses h).mapUses f = i.mapUses fun t => f (h t) := by
  cases i <;> simp [mapUses, Var.rename_rename sink]

theorem mapReads_of_plain {i : Instr} (plain : i.isPhi = false) (f : Temp → Temp) :
    i.mapReads f = i.mapUses f := by
  cases i <;> first | rfl | simp [isPhi] at plain

theorem mapReads_id (i : Instr) : i.mapReads (fun t => t) = i := by
  rw [mapReads, mapUses_id]
  cases i with
  | phi dest args => exact congrArg (phi dest) (SortedMap.ext fun k => by simp)
  | _ => rfl

theorem mapReads_mapReads {f h : Temp → Temp} (sink : f .sink = .sink) (i : Instr) :
    (i.mapReads h).mapReads f = i.mapReads fun t => f (h t) := by
  cases i with
  | phi dest args =>
    refine congrArg (phi dest) (SortedMap.ext fun k => ?_)
    simp only [SortedMap.get?_map, Option.map_map]
    rfl
  | _ => simp [mapReads, mapUses, mapPhiArgs, Var.rename_rename sink]

@[simp] theorem def?_mapReads (f : Temp → Temp) (i : Instr) : (i.mapReads f).def? = i.def? := by
  cases i <;> rfl

@[simp] theorem isPhi_mapReads (f : Temp → Temp) (i : Instr) : (i.mapReads f).isPhi = i.isPhi := by
  cases i <;> rfl

@[simp] theorem phiArgs_mapUses (f : Temp → Temp) (i : Instr) : (i.mapUses f).phiArgs = i.phiArgs := by
  cases i <;> rfl

@[simp] theorem phiArgs_setDef (n : Temp) (i : Instr) : (i.setDef n).phiArgs = i.phiArgs := by
  cases i <;> rfl

/-- What an instruction mentions is defined, read, or the argument of a phi. -/
theorem mem_temps {i : Instr} {t : Temp} :
    t ∈ i.temps ↔ i.def? = some t ∨ t ∈ i.uses ∨ t ∈ i.phiArgs := by
  rw [temps, List.mem_append, List.mem_append, Option.mem_toList, or_assoc]

/-- The number that an instruction gives: which argument it lays ready, or how many it calls with. -/
def count : Instr → Nat
  | param index _ => index
  | call _ _ argc => argc
  | _ => 0

@[simp] theorem count_mapUses (f : Temp → Temp) (i : Instr) : (i.mapUses f).count = i.count := by
  cases i <;> rfl

@[simp] theorem count_setDef (n : Temp) (i : Instr) : (i.setDef n).count = i.count := by
  cases i <;> rfl

theorem mapReads_phi {f : Temp → Temp} {i : Instr} {dest : Temp} {args : SortedMap Origin Temp}
    (h : i.mapReads f = .phi dest args) :
    ∃ old, i = .phi dest old ∧ args = old.map fun _ t => f t := by
  cases i with
  | phi d old =>
    cases h
    exact ⟨old, rfl, rfl⟩
  | _ => cases h

end Instr

/-! ## Instructions that are alike -/

section Alike

variable {π π' σ σ' : Type} {C : Control π} {K : Keeping σ} {C' : Control π'} {K' : Keeping σ'}
  {Q : π → σ → π' → σ' → Prop} {E : Leeway π' σ'}
  {f : Temp → Temp} {n : Temp} {next : π} {next' : π'} {s : σ} {s' : σ'}
  {staged : Store Nat} {globals : Store Global}

/-- How a failure to read a temporary is answered: in any way, or by the same failure with the new
name of the temporary. -/
def AnswersUnset (E : Leeway π' σ') (K' : Keeping σ') (s' : σ') (proc : Global)
    (t u : Temp) : Prop :=
  (∀ y, E.failure (.uninitialized proc t) y) ∨
    (K'.get? s' u = none ∧ E.failure (.uninitialized proc t) (.ends (.error (.uninitialized proc u))))

/-- Writing a renamed operand keeps stages alike. -/
theorem alike_write (exact : ∀ f, E.failure f (.ends (.error f))) {v : Var} {w : Word}
    (defines : ∀ d, v.named? = some d →
      n.isSink = false ∧ Q next (K.set s d w) next' (K'.set s' n w))
    (keeps : v.named? = none → Q next s next' s') :
    Alike K K' Q E (K.write next ⟨s, staged, globals⟩ v w)
      (K'.write next' ⟨s', staged, globals⟩ (v.rename fun _ => n) w) := by
  rcases v.cases_named with ⟨t, rfl, hs, hn⟩ | ⟨rfl, hn⟩ | ⟨g, rfl, hn⟩
  · obtain ⟨hs', q⟩ := defines t hn
    simp only [Var.rename, hn, Keeping.write, hs, hs', Bool.false_eq_true, if_false]
    exact .going q
  · have hsink : Temp.sink.isSink = true := by decide
    have same : Var.sink.rename (fun _ => n) = .temp Temp.sink := rfl
    rw [same]
    simp only [Var.sink, Keeping.write, hsink, if_true]
    exact .going (keeps hn)
  · simp only [Var.rename, hn, Keeping.write]
    cases globals.get? g with
    | none => exact .fails (exact _)
    | some old => exact .writes (keeps hn)

/-- Reading a renamed operand keeps stages alike. -/
theorem alike_reading (sameProc : C'.proc = C.proc) (exact : ∀ f, E.failure f (.ends (.error f))) {v : Var}
    (renamed : ∀ t, v.named? = some t → (f t).isSink = false)
    (set : ∀ t, v.named? = some t → ∀ w, K.get? s t = some w → K'.get? s' (f t) = some w)
    (unset : ∀ t, v.named? = some t → K.get? s t = none → AnswersUnset E K' s' C.proc t (f t))
    {k : Word → Stage π σ} {k' : Word → Stage π' σ'}
    (alike : ∀ w, (∀ t, v.named? = some t → K.get? s t = some w) → Alike K K' Q E (k w) (k' w)) :
    Alike K K' Q E (C.reading K ⟨s, staged, globals⟩ v k)
      (C'.reading K' ⟨s', staged, globals⟩ (v.rename f) k') := by
  rcases v.cases_named with ⟨t, rfl, hs, hn⟩ | ⟨rfl, hn⟩ | ⟨g, rfl, hn⟩
  · have hs' := renamed t hn
    cases h : K.get? s t with
    | some w =>
      have value : ∀ u, (Var.temp t).named? = some u → K.get? s u = some w := by
        intro u hu
        cases hn.symm.trans hu
        exact h
      simpa [Control.reading, Control.read, Var.rename, hn, hs, hs', h, set t hn w h] using
        alike w value
    | none =>
      have fails : C.reading K ⟨s, staged, globals⟩ (.temp t) k
          = .ends (.error (.uninitialized C.proc t)) := by
        simp [Control.reading, Control.read, hs, h]
      rw [fails]
      refine .fails ?_
      rcases unset t hn h with any | ⟨none, same⟩
      · exact any _
      · simpa [Control.reading, Control.read, Var.rename, hn, hs', none, sameProc] using same
  · have hsink : Temp.sink.isSink = true := by decide
    have same : Var.sink.rename f = .temp Temp.sink := rfl
    rw [same]
    simpa [Control.reading, Control.read, Var.sink, hsink] using
      alike 0 fun t ht => by cases hn.symm.trans ht
  · simp only [Control.reading, Control.read, Var.rename, hn]
    cases globals.get? g with
    | none => exact .fails (exact _)
    | some w => exact alike w fun t ht => by cases ht

/-- What is known about the word that an instruction writes: a copy writes what its source has. -/
def Instr.MayWrite (K : Keeping σ) (s : σ) (i : Instr) (w : Word) : Prop :=
  ∀ dest src t, i = .copy dest src → src.named? = some t → K.get? s t = some w

/-- An instruction and its renamed form keep stages alike. -/
theorem alike_perform (sameProc : C'.proc = C.proc) (exact : ∀ f, E.failure f (.ends (.error f)))
    {i : Instr} (plain : i.isPhi = false)
    (renamed : ∀ t ∈ i.uses, (f t).isSink = false)
    (set : ∀ t ∈ i.uses, ∀ w, K.get? s t = some w → K'.get? s' (f t) = some w)
    (unset : ∀ t ∈ i.uses, K.get? s t = none → AnswersUnset E K' s' C.proc t (f t))
    (defines : ∀ d, i.def? = some d →
      n.isSink = false ∧ ∀ w, i.MayWrite K s w → Q next (K.set s d w) next' (K'.set s' n w))
    (keeps : i.def? = none → i.fallsThrough = true → Q next s next' s')
    (jumps : ∀ l, i.target? = some l →
      Alike K K' Q E (C.goto next ⟨s, staged, globals⟩ l) (C'.goto next' ⟨s', staged, globals⟩ l)) :
    Alike K K' Q E (C.perform K next ⟨s, staged, globals⟩ i)
      (C'.perform K' next' ⟨s', staged, globals⟩ ((i.mapUses f).setDef n)) := by
  -- what is asked of all operands, for a single one
  have reads : ∀ v ∈ i.operands, ∀ {staged globals} {k : Word → Stage π σ}
      {k' : Word → Stage π' σ'},
      (∀ w, (∀ t, v.named? = some t → K.get? s t = some w) → Alike K K' Q E (k w) (k' w)) →
      Alike K K' Q E (C.reading K ⟨s, staged, globals⟩ v k)
        (C'.reading K' ⟨s', staged, globals⟩ (v.rename f) k') := by
    intro v hv staged globals k k' alike
    have mem : ∀ t, v.named? = some t → t ∈ i.uses := fun t ht => List.mem_filterMap.2 ⟨v, hv, ht⟩
    exact alike_reading sameProc exact (fun t ht => renamed t (mem t ht))
      (fun t ht => set t (mem t ht)) (fun t ht => unset t (mem t ht)) alike
  have writes : ∀ v, i.dest? = some v → ∀ {staged globals} (w : Word), i.MayWrite K s w →
      Alike K K' Q E (K.write next ⟨s, staged, globals⟩ v w)
        (K'.write next' ⟨s', staged, globals⟩ (v.rename fun _ => n) w) := by
    intro v hv staged globals w may
    have same := Instr.def?_of_dest? hv
    exact alike_write exact
      (fun d hd => ⟨(defines d (same.trans hd)).1, (defines d (same.trans hd)).2 w may⟩)
      (fun h => keeps (same.trans h) (Instr.fallsThrough_of_dest? hv))
  cases i with
  | phi dest args => simp [Instr.isPhi] at plain
  | nop => exact .going (keeps rfl rfl)
  | label l => exact .going (keeps rfl rfl)
  | jump target => exact jumps target rfl
  | branch test arg target =>
    refine reads arg (by simp [Instr.operands]) fun w _ => ?_
    by_cases h : test.holds w = true
    · simpa only [h, if_true] using jumps target rfl
    · simpa only [h, Bool.false_eq_true, if_false] using Alike.going (keeps rfl rfl)
  | binary op dest lhs rhs =>
    refine reads lhs (by simp [Instr.operands]) fun v _ => ?_
    refine reads rhs (by simp [Instr.operands]) fun w _ => ?_
    cases op.eval? v w with
    | some u => exact writes dest rfl u fun _ _ _ e => by cases e
    | none =>
      rw [sameProc]
      exact .fails (exact _)
  | unary op dest arg =>
    exact reads arg (by simp [Instr.operands]) fun w _ =>
      writes dest rfl _ fun _ _ _ e => by cases e
  | const dest value => exact writes dest rfl value fun _ _ _ e => by cases e
  | copy dest src =>
    refine reads src (by simp [Instr.operands]) fun w value => writes dest rfl w ?_
    rintro _ _ t ⟨⟩ ht
    exact value t ht
  | param index arg => exact reads arg (by simp [Instr.operands]) fun w _ => .going (keeps rfl rfl)
  | call dest callee argc =>
    simp only [Control.perform, Instr.mapUses, Instr.setDef]
    cases gather staged callee 1 argc with
    | error f => exact .fails (exact _)
    | ok args => exact .asks fun w G => writes dest rfl w fun _ _ _ e => by cases e
  | ret arg => exact reads arg (by simp [Instr.operands]) fun w _ => .ends
  | print arg => exact reads arg (by simp [Instr.operands]) fun w _ => .prints (keeps rfl rfl)

/-- An instruction keeps stages alike when it reads temporaries by other names. -/
theorem alike_perform_uses (sameProc : C'.proc = C.proc) (exact : ∀ f, E.failure f (.ends (.error f)))
    {i : Instr} (plain : i.isPhi = false)
    (renamed : ∀ t ∈ i.uses, (f t).isSink = false)
    (set : ∀ t ∈ i.uses, ∀ w, K.get? s t = some w → K'.get? s' (f t) = some w)
    (unset : ∀ t ∈ i.uses, K.get? s t = none → AnswersUnset E K' s' C.proc t (f t))
    (defines : ∀ d, i.def? = some d → ∀ w, i.MayWrite K s w →
      Q next (K.set s d w) next' (K'.set s' d w))
    (keeps : i.def? = none → i.fallsThrough = true → Q next s next' s')
    (jumps : ∀ l, i.target? = some l →
      Alike K K' Q E (C.goto next ⟨s, staged, globals⟩ l) (C'.goto next' ⟨s', staged, globals⟩ l)) :
    Alike K K' Q E (C.perform K next ⟨s, staged, globals⟩ i)
      (C'.perform K' next' ⟨s', staged, globals⟩ (i.mapUses f)) := by
  have same : i.mapUses f = (i.mapUses f).setDef (i.def?.getD Temp.sink) := by
    rw [Instr.setDef_self]
    rw [Instr.def?_mapUses]
    cases i.def? <;> simp
  rw [same]
  refine alike_perform sameProc exact plain renamed set unset (fun d hd => ?_) keeps jumps
  rw [hd]
  exact ⟨Instr.def?_not_isSink plain hd, defines d hd⟩

/-- An instruction keeps stages alike, if the temporaries that it reads have the same values. -/
theorem alike_perform_same (sameProc : C'.proc = C.proc) (exact : ∀ f, E.failure f (.ends (.error f)))
    {i : Instr} (plain : i.isPhi = false)
    (set : ∀ t ∈ i.uses, ∀ w, K.get? s t = some w → K'.get? s' t = some w)
    (unset : ∀ t ∈ i.uses, K.get? s t = none → AnswersUnset E K' s' C.proc t t)
    (defines : ∀ d, i.def? = some d → ∀ w, i.MayWrite K s w →
      Q next (K.set s d w) next' (K'.set s' d w))
    (keeps : i.def? = none → i.fallsThrough = true → Q next s next' s')
    (jumps : ∀ l, i.target? = some l →
      Alike K K' Q E (C.goto next ⟨s, staged, globals⟩ l) (C'.goto next' ⟨s', staged, globals⟩ l)) :
    Alike K K' Q E (C.perform K next ⟨s, staged, globals⟩ i)
      (C'.perform K' next' ⟨s', staged, globals⟩ i) := by
  have alike := alike_perform_uses (f := fun t => t) sameProc exact plain
    (fun t ht => Instr.uses_not_isSink ht) set unset defines keeps jumps
  rwa [Instr.mapUses_id] at alike

end Alike

end ThreeAddress
