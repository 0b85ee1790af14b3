import ThreeAddress.DeadCode
import ThreeAddress.Proofs.Activation.Keeping
import ThreeAddress.Proofs.Liveness.Rounds
import ThreeAddress.Proofs.Optimizer.Basic
/-!
# Dead code

A sweep keeps the runs that do not fail for want of a value: what is live has the same values with
and without the dead code. Of the effects, nothing is left out but writes of global variables that
change nothing. A dead instruction can only fail by reading what has no value.

* `keptCode` : the code of a block behind a sweep;
* `Instr.isDead` and `alike_dead` : a dead instruction may be left out;
* `FlowGraph.Runs.sweep` : the runs of a sweep.
-/

namespace ThreeAddress

open Execution

/-! ## What a sweep keeps -/

/-- The code that is not dead, given what is live behind it. -/
def keptCode (after : SortedSet Temp) (code : List Instr) : List Instr :=
  ((livePoints after code).filter fun e => !e.1.isDead e.2.after).map Prod.fst

@[simp] theorem keptCode_nil (after : SortedSet Temp) : keptCode after [] = [] := rfl

theorem keptCode_dead {after : SortedSet Temp} {i : Instr} {rest : List Instr}
    (dead : i.isDead (liveFrom after rest) = true) :
    keptCode after (i :: rest) = keptCode after rest := by
  simp [keptCode, dead]

theorem keptCode_alive {after : SortedSet Temp} {i : Instr} {rest : List Instr}
    (alive : i.isDead (liveFrom after rest) = false) :
    keptCode after (i :: rest) = i :: keptCode after rest := by
  simp [keptCode, alive]

theorem keptCode_sublist (after : SortedSet Temp) (code : List Instr) :
    (keptCode after code).Sublist code := by
  induction code with
  | nil => exact .slnil
  | cons i rest ih =>
    cases dead : i.isDead (liveFrom after rest) with
    | true =>
      rw [keptCode_dead dead]
      exact ih.cons i
    | false =>
      rw [keptCode_alive dead]
      exact ih.cons_cons i

/-- The phis of a block that are not dead. -/
def keptPhis (live : SortedSet Temp) (phis : List Instr) : List Instr :=
  phis.filter fun i => !i.isDead live

namespace FlowGraph

variable {g : FlowGraph} {live : Liveness}

/-- What a sweep leaves of a block. -/
theorem filter_zip_instrs (solved : Solved g live) {b : Block} (hb : b ∈ g.blocks) :
    ((b.body.zip (live.instrs b.label)).filter fun e => !e.1.isDead e.2.after).map Prod.fst =
      keptPhis (liveFrom (live.after g b.label) b.code) b.phis ++
        keptCode (live.after g b.label) b.code := by
  simp only [solved.zip_instrs hb, List.filter_append, List.map_append, List.filter_map,
    List.map_map]
  rw [keptCode, keptPhis]
  congr 1
  exact List.map_id' _

/-- The blocks behind a sweep. -/
theorem exists_of_mem_sweep (first : g.PhisFirst) (solved : Solved g live) {b' : Block}
    (h : b' ∈ (g.sweep live).blocks) : ∃ b ∈ g.blocks, b'.label = b.label ∧
      b'.phis = keptPhis (liveFrom (live.after g b.label) b.code) b.phis ∧
      b'.code = keptCode (live.after g b.label) b.code := by
  obtain ⟨b, hb, rfl⟩ := mem_mapBodies.1 h
  refine ⟨b, hb, rfl, Block.phis_and_code (filter_zip_instrs solved hb) (fun i hi => ?_)
    fun i hi => ?_⟩
  · exact Block.isPhi_of_mem_phis (List.mem_filter.1 hi).1
  · exact first b hb i ((keptCode_sublist _ _).subset hi)

end FlowGraph

/-! ## Leaving a dead instruction out -/

section Alike

variable {π π' σ' : Type} {C : Control π} {K' : Keeping σ'}
  {Q : π → (Temp → Option Word) → π' → σ' → Prop} {next : π} {next' : π'} {s : Temp → Option Word}
  {s' : σ'} {staged : Store Nat} {globals : Store Global}

/-- Reading fails for want of a value only. -/
theorem Control.noValue_of_read {σ : Type} {K : Keeping σ} {a : Local σ} {v : Var} {f : Failure}
    (h : C.read K a v = .error f) : f.NoValue := by
  cases v with
  | temp t =>
    rw [Control.read] at h
    split at h
    · cases h
    · split at h <;> cases h
      trivial
  | global g =>
    rw [Control.read] at h
    split at h <;> cases h
    trivial

/-- Reading need not be done if it only leads to what need not be done. -/
theorem alike_idle_reading {v : Var} {k : Word → Stage π (Temp → Option Word)} {y : Stage π' σ'}
    (alike : ∀ w, C.read .strict ⟨s, staged, globals⟩ v = .ok w →
      Alike .strict K' Q (.valued π' σ' True) (k w) y) :
    Alike .strict K' Q (.valued π' σ' True) (C.reading .strict ⟨s, staged, globals⟩ v k) y := by
  rw [Control.reading]
  cases read : C.read .strict ⟨s, staged, globals⟩ v with
  | ok w => exact alike w read
  | error f => exact .fails (Leeway.valued_noValue (Control.noValue_of_read read) y)

/-- A write to a temporary that is not needed need not be done. -/
theorem alike_idle_write {v : Var} {w : Word} (local_ : ∀ g, v ≠ .global g)
    (defines : ∀ d, v.named? = some d → Q next (Keeping.strict.set s d w) next' s')
    (keeps : v.named? = none → Q next s next' s') :
    Alike .strict K' Q (.valued π' σ' True) (Keeping.strict.write next ⟨s, staged, globals⟩ v w)
      (.going next' ⟨s', staged, globals⟩) := by
  rcases v.cases_named with ⟨t, rfl, hs, hn⟩ | ⟨rfl, hn⟩ | ⟨g, rfl, -⟩
  · simp only [Keeping.write, hs, Bool.false_eq_true, if_false]
    exact .going (defines t hn)
  · have hsink : Temp.sink.isSink = true := by decide
    simp only [Var.sink, Keeping.write, hsink, if_true]
    exact .going (keeps hn)
  · exact absurd rfl (local_ g)

/-- Writing an operand to itself changes nothing, so it need not be done. -/
theorem alike_idle_copy {v : Var} (same : Q next s next' s') :
    Alike .strict K' Q (.valued π' σ' True) (C.perform .strict next ⟨s, staged, globals⟩ (.copy v v))
      (.going next' ⟨s', staged, globals⟩) := by
  refine alike_idle_reading fun w read => ?_
  rcases v.cases_named with ⟨t, rfl, hs, hn⟩ | ⟨rfl, hn⟩ | ⟨g, rfl, -⟩
  · simp only [Control.read, hs, Bool.false_eq_true, if_false] at read
    have value : s t = some w := by
      cases h : s t with
      | none => simp [Keeping.strict, h] at read
      | some u => simpa [Keeping.strict, h] using read
    have kept : Keeping.strict.set s t w = s := by
      funext x
      by_cases hx : x = t
      · rw [hx, value]
        exact if_pos rfl
      · exact if_neg hx
    simp only [Keeping.write, hs, Bool.false_eq_true, if_false, kept]
    exact .going same
  · have hsink : Temp.sink.isSink = true := by decide
    simp only [Var.sink, Keeping.write, hsink, if_true]
    exact .going same
  · simp only [Control.read] at read
    cases h : globals.get? g with
    | none => simp [h] at read
    | some u =>
      obtain rfl : u = w := by simpa [h] using read
      simp only [Keeping.write, h, Store.set_self h]
      exact .hidden trivial same

/-- An operator that cannot stop the program has a value. -/
theorem BinaryOp.exists_value {op : BinaryOp} (v w : Word) (total : op.canTrap = false) :
    ∃ u, op.eval? v w = some u := by
  cases op <;> first | exact ⟨_, rfl⟩ | cases total

/-- What a dead instruction writes is not needed. -/
theorem Instr.isDead_cases {i : Instr} {after : SortedSet Temp} (dead : i.isDead after = true) :
    i = .nop ∨ (∃ v, i = .copy v v) ∨
      (i.isPure = true ∧ (∀ d, i.def? = some d → d ∉ after) ∧
        (i.def? = none → ∀ g, i.dest? ≠ some (.global g))) := by
  rw [isDead, Bool.or_eq_true, Bool.and_eq_true] at dead
  rcases dead with idle | ⟨pure, unused⟩
  · cases i with
    | nop => exact .inl rfl
    | copy dest src =>
      obtain rfl : dest = src := by simpa [isIdle] using idle
      exact .inr (.inl ⟨dest, rfl⟩)
    | _ => cases idle
  · refine .inr (.inr ⟨pure, fun d hd mem => ?_, fun hd g hg => ?_⟩)
    · simp [hd, SortedSet.contains_eq_true.2 mem] at unused
    · simp [hd, hg] at unused

theorem Instr.fallsThrough_of_isDead {i : Instr} {after : SortedSet Temp}
    (dead : i.isDead after = true) : i.fallsThrough = true := by
  rcases isDead_cases dead with rfl | ⟨v, rfl⟩ | ⟨pure, -, -⟩
  · rfl
  · rfl
  · cases i <;> first | rfl | cases pure

/-- If a dead instruction defines what is live, it also reads it. -/
theorem Instr.mem_uses_of_isDead {i : Instr} {after : SortedSet Temp} {t : Temp}
    (dead : i.isDead after = true) (hd : i.def? = some t) (ht : t ∈ after) : t ∈ i.uses := by
  rcases isDead_cases dead with rfl | ⟨v, rfl⟩ | ⟨-, unused, -⟩
  · cases hd
  · exact List.mem_filterMap.2 ⟨v, List.mem_singleton.2 rfl, hd⟩
  · exact absurd ht (unused t hd)

/-- A dead instruction may be left out. -/
theorem alike_dead {i : Instr} {after : SortedSet Temp} (plain : i.isPhi = false)
    (dead : i.isDead after = true) (keeps : Q next s next' s')
    (defines : ∀ d w, i.def? = some d → d ∉ after → Q next (Keeping.strict.set s d w) next' s') :
    Alike .strict K' Q (.valued π' σ' True) (C.perform .strict next ⟨s, staged, globals⟩ i)
      (.going next' ⟨s', staged, globals⟩) := by
  rcases Instr.isDead_cases dead with rfl | ⟨v, rfl⟩ | ⟨pure, unused, local_⟩
  · exact .going keeps
  · exact alike_idle_copy keeps
  · have write : ∀ v w, i.dest? = some v → Alike .strict K' Q (.valued π' σ' True)
        (Keeping.strict.write next ⟨s, staged, globals⟩ v w) (.going next' ⟨s', staged, globals⟩) := by
      intro v w hv
      have same := Instr.def?_of_dest? hv
      refine alike_idle_write (fun g e => ?_) (fun d hd => ?_) fun _ => keeps
      · subst e
        exact local_ same g hv
      · exact defines d w (same.trans hd) (unused d (same.trans hd))
    cases i with
    | phi dest args => cases plain
    | const dest value => exact write dest value rfl
    | copy dest src => exact alike_idle_reading fun w _ => write dest w rfl
    | unary op dest arg => exact alike_idle_reading fun w _ => write dest _ rfl
    | binary op dest lhs rhs =>
      refine alike_idle_reading fun v _ => alike_idle_reading fun w _ => ?_
      obtain ⟨u, value⟩ := BinaryOp.exists_value v w (by simpa [Instr.isPure] using pure)
      rw [value]
      exact write dest u rfl
    | _ => cases pure

end Alike

/-! ## A sweep -/

namespace FlowGraph

variable {g : FlowGraph} {live : Liveness}

theorem labels_sweep : (g.sweep live).labels = g.labels := labels_mapBodies _ g

/-- Temporaries in front of a block: what is live has the same value with and without dead code. -/
def LiveEnter (g : FlowGraph) (live : Liveness) (origin : Origin) (l : Label)
    (s s' : Temp → Option Word) : Prop :=
  ∀ t, live.Has g t (.enter origin l) → s' t = s t

/-- The same within a block, where the dead code is left out. -/
def LiveWithin (g : FlowGraph) (live : Liveness) (_ : Origin) (b : Block) (rest : List Instr)
    (s : Temp → Option Word) (rest' : List Instr) (s' : Temp → Option Word) : Prop :=
  rest' = keptCode (live.after g b.label) rest ∧
    ∀ t ∈ liveFrom (live.after g b.label) rest, s' t = s t

/-- Entering a block, the phis that are left give what is live the same values. -/
theorem live_enterKept (first : g.PhisFirst) (solved : Solved g live)
    (once : ∀ b ∈ g.blocks, b.phiDefs.Nodup) (nodup : g.labels.Nodup) :
    EnterKept g (g.sweep live) .strict .strict (LiveEnter g live) (LiveWithin g live) := by
  intro origin b b' s s' hb hb' label arrives rel
  obtain ⟨c, hc, label', phis, code⟩ := exists_of_mem_sweep first solved hb'
  obtain rfl := eq_of_label nodup hb hc (label'.symm.trans label)
  refine ⟨code, fun t ht => ?_⟩
  have all : ∀ i ∈ c.phis, i.isPhi = true := fun i => Block.isPhi_of_mem_phis
  have sub : b'.phis.Sublist c.phis := phis ▸ List.filter_sublist
  have all' : ∀ i ∈ b'.phis, i.isPhi = true := fun i hi => all i (sub.subset hi)
  by_cases phi : t ∈ c.phiDefs
  · obtain ⟨args, mem⟩ := Block.mem_phiDefs.1 phi
    have mem' : Instr.phi t args ∈ b'.phis := by
      rw [phis]
      exact List.mem_filter.2
        ⟨mem, by simp [Instr.isDead, Instr.isIdle, Instr.isPure, Instr.def?, SortedSet.contains_eq_true.2 ht]⟩
    rw [Keeping.strict_assign_of_mem all (once c hb) mem,
      Keeping.strict_assign_of_mem all' ((once c hb).sublist (sub.filterMap _)) mem']
    cases arg : args.get? origin with
    | none => rfl
    | some a => exact rel a (.inr ⟨c, hb, rfl, Block.mem_phiArgsFrom.2 ⟨t, args, mem, arg⟩⟩)
  · have phi' : t ∉ b'.phis.filterMap Instr.def? := fun mem => phi ((sub.filterMap _).subset mem)
    have kept := @Keeping.get?_assign _ .strict s t origin _ Keeping.strict_lawful all phi
    have kept' := @Keeping.get?_assign _ .strict s' t origin _ Keeping.strict_lawful all' phi'
    exact kept'.trans ((rel t (.inl ((solved.mem_before hb).2 ⟨phi, ht⟩))).trans kept.symm)

theorem live_leaveKept (wf : g.WellFormed) : LeaveKept g (LiveEnter g live) (LiveWithin g live) := by
  rintro origin b s rest' s' at_ ⟨rfl, rel⟩
  refine ⟨rfl, fun l next t ht => rel t ?_⟩
  exact Liveness.mem_after wf.nodup at_.mem (Block.mem_succs.2 (.inr ⟨at_.falls rfl, next⟩)) ht

/-- A sweep keeps the runs that do not fail for want of a value. -/
theorem Runs.sweep (wf : g.WellFormed) (first : g.PhisFirst) (solved : Solved g live)
    (once : ∀ b ∈ g.blocks, b.phiDefs.Nodup) {a : Local (Temp → Option Word)} {t : List Effect}
    {r : Result} (h : g.Runs .strict a t r) (valued : Valued r) :
    ∃ t', Fewer True t t' ∧ (g.sweep live).Runs .strict a t' r := by
  have instr : ∀ origin b i rest s rest' s' staged globals, g.At origin b (i :: rest) →
      i.isPhi = false → LiveWithin g live origin b (i :: rest) s rest' s' →
      ∃ y, (Control.ofGraph (g.sweep live)).Quiet .strict
          (.going (.within origin b.label rest') ⟨s', staged, globals⟩) y ∧
        Alike .strict .strict (Between g (LiveEnter g live) (LiveWithin g live)) (.valued _ _ True)
          ((Control.ofGraph g).perform .strict (.within origin b.label rest) ⟨s, staged, globals⟩ i)
          y := by
    rintro origin b i rest s _ s' staged globals at_ plain ⟨rfl, rel⟩
    have pass : ∀ t ∈ liveFrom (live.after g b.label) rest, i.def? ≠ some t → s' t = s t :=
      fun t ht kept => rel t (mem_liveBefore.2 (.inr ⟨kept, ht⟩))
    cases dead : i.isDead (liveFrom (live.after g b.label) rest) with
    | true =>
      rw [keptCode_dead dead]
      have falls := Instr.fallsThrough_of_isDead dead
      refine ⟨_, .refl _, alike_dead plain dead ?_ fun d w hd unused => ?_⟩
      · refine ⟨b, _, rfl, rfl, at_.pass falls, rfl, fun t ht => ?_⟩
        by_cases def_ : i.def? = some t
        · exact rel t (mem_liveBefore.2 (.inl (Instr.mem_uses_of_isDead dead def_ ht)))
        · exact pass t ht def_
      · refine ⟨b, _, rfl, rfl, at_.pass falls, rfl, fun t ht => ?_⟩
        have ne : t ≠ d := fun e => unused (e ▸ ht)
        exact (pass t ht fun e => ne (Option.some.inj (e.symm.trans hd))).trans (if_neg ne).symm
    | false =>
      rw [keptCode_alive dead]
      refine ⟨_, .step _ _, ?_⟩
      rw [ofGraph_step_plain plain]
      have reads : ∀ t ∈ i.uses, ∀ w, Keeping.strict.get? s t = some w →
          Keeping.strict.get? s' t = some w :=
        fun t ht w hw => (rel t (mem_liveBefore.2 (.inl ht))).trans hw
      have sameProc : (Control.ofGraph (g.sweep live)).proc = (Control.ofGraph g).proc := rfl
      refine alike_perform_same sameProc Leeway.valued_same plain reads
        (fun t _ _ => .inl (Leeway.valued_noValue trivial)) (fun d hd w _ => ?_) (fun hd falls => ?_) fun l hl => ?_
      · refine ⟨b, _, rfl, rfl, at_.pass (Instr.fallsThrough_of_def? hd), rfl, fun t ht => ?_⟩
        by_cases same : t = d
        · exact (if_pos same).trans (if_pos same).symm
        · have kept := pass t ht fun e => same (Option.some.inj (e.symm.trans hd))
          exact (if_neg same).trans (kept.trans (if_neg same).symm)
      · exact ⟨b, _, rfl, rfl, at_.pass falls, rfl, fun t ht => pass t ht (by simp [hd])⟩
      · obtain rfl := at_.rest_nil wf (Instr.isTransfer_of_target hl)
        refine alike_graph_goto wf labels_sweep at_ hl (fun t ht => ?_) staged globals
        refine pass t (Liveness.mem_after wf.nodup at_.mem
          (Block.mem_succs.2 (.inl (at_.target wf hl).1)) ht) fun e => ?_
        cases i <;> simp_all [Instr.target?, Instr.def?, Instr.dest?]
  exact FlowGraph.Runs.carry_kept (follows_graph wf first (labels_sweep.symm ▸ wf.nodup) labels_sweep
    (live_enterKept first solved once wf.nodup) (live_leaveKept wf) instr) labels_sweep wf
    (fun l entry t _ => rfl) h (Leeway.valued_exact valued)

/-! ## What stays as it is -/

variable {t : Temp} {b : Block} {origin : Origin}

/-- What is live behind a dead instruction is live in front of it. -/
theorem Live.behind_dead (wf : g.WellFormed) (solved : Solved g live) {i : Instr} {rest : List Instr}
    (at_ : g.At origin b (i :: rest)) (dead : i.isDead (liveFrom (live.after g b.label) rest) = true)
    (h : g.Live t (.within origin b.label rest)) : g.Live t (.within origin b.label (i :: rest)) := by
  have falls := Instr.fallsThrough_of_isDead dead
  by_cases def_ : i.def? = some t
  · have mem : t ∈ liveFrom (live.after g b.label) rest :=
      solved.mem_of_live wf h ⟨b, rfl, at_.pass falls⟩
    exact .read (Instr.mem_uses_of_isDead dead def_ mem)
  · exact .pass falls def_ h

/-- To see what is live in front of an instruction that is kept, dead code may be passed. -/
theorem Live.of_kept_cons (wf : g.WellFormed) (solved : Solved g live) {i : Instr}
    {rest rest' : List Instr} (at_ : g.At origin b rest)
    (kept : keptCode (live.after g b.label) rest = i :: rest')
    (h : ∀ later, g.At origin b (i :: later) → keptCode (live.after g b.label) later = rest' →
      g.Live t (.within origin b.label (i :: later))) : g.Live t (.within origin b.label rest) := by
  induction rest with
  | nil => cases kept
  | cons j rest ih =>
    cases dead : j.isDead (liveFrom (live.after g b.label) rest) with
    | true =>
      rw [keptCode_dead dead] at kept
      exact .behind_dead wf solved at_ dead
        (ih (at_.pass (Instr.fallsThrough_of_isDead dead)) kept)
    | false =>
      rw [keptCode_alive dead] at kept
      cases kept
      exact h rest at_ rfl

/-- The same at the end of a block. -/
theorem Live.of_kept_nil (wf : g.WellFormed) (solved : Solved g live) {rest : List Instr}
    (at_ : g.At origin b rest) (kept : keptCode (live.after g b.label) rest = [])
    (h : g.At origin b [] → g.Live t (.within origin b.label [])) :
    g.Live t (.within origin b.label rest) := by
  induction rest with
  | nil => exact h at_
  | cons j rest ih =>
    cases dead : j.isDead (liveFrom (live.after g b.label) rest) with
    | true =>
      rw [keptCode_dead dead] at kept
      exact .behind_dead wf solved at_ dead
        (ih (at_.pass (Instr.fallsThrough_of_isDead dead)) kept)
    | false =>
      rw [keptCode_alive dead] at kept
      cases kept

/-- What a point of a sweep says about the graph. -/
def LiveBefore (g : FlowGraph) (live : Liveness) (t : Temp) : Point → Prop
  | .enter origin l => g.Arrives origin l → g.Live t (.enter origin l)
  | .within origin l rest' => ∀ b rest, b.label = l → g.At origin b rest →
    keptCode (live.after g b.label) rest = rest' → g.Live t (.within origin l rest)

/-- What is live after a sweep was live before. -/
theorem Live.of_sweep (wf : g.WellFormed) (first : g.PhisFirst) (solved : Solved g live) {p : Point}
    (path : (g.sweep live).Live t p) : LiveBefore g live t p := by
  induction path with
  | read use =>
    rintro b rest rfl at_ kept
    exact .of_kept_cons wf solved at_ kept fun later _ _ => .read use
  | pass falls keeps _ ih =>
    rintro b rest rfl at_ kept
    exact .of_kept_cons wf solved at_ kept fun later at' same =>
      .pass falls keeps (ih b later rfl (at'.pass falls) same)
  | jump ht _ ih =>
    rintro b rest rfl at_ kept
    exact .of_kept_cons wf solved at_ kept fun later at' _ => .jump ht (ih (at'.jump wf ht))
  | next hn _ ih =>
    rintro b rest rfl at_ kept
    rw [next?_of_labels labels_sweep] at hn
    exact .of_kept_nil wf solved at_ kept fun at' => .next hn (ih (at'.next wf hn))
  | @arg origin b' hb' arg =>
    intro arrives
    obtain ⟨b, hb, label, phis, -⟩ := exists_of_mem_sweep first solved hb'
    obtain ⟨dest, args, mem, value⟩ := Block.mem_phiArgsFrom.1 arg
    rw [phis] at mem
    rw [label]
    exact .arg hb (Block.mem_phiArgsFrom.2 ⟨dest, args, (List.mem_filter.1 mem).1, value⟩)
  | @enter origin b' hb' kept _ ih =>
    intro arrives
    obtain ⟨b, hb, label, phis, code⟩ := exists_of_mem_sweep first solved hb'
    rw [label] at arrives ih ⊢
    have at_ := At.first hb arrives
    have path := ih b b.code rfl at_ code.symm
    refine .enter hb (fun phi => kept ?_) path
    -- a phi that is live is not swept away
    obtain ⟨args, mem⟩ := Block.mem_phiDefs.1 phi
    have ht : t ∈ liveFrom (live.after g b.label) b.code := solved.mem_of_live wf path ⟨b, rfl, at_⟩
    refine Block.mem_phiDefs.2 ⟨args, ?_⟩
    rw [phis]
    exact List.mem_filter.2 ⟨mem, by
      simp [Instr.isDead, Instr.isIdle, Instr.isPure, Instr.def?, SortedSet.contains_eq_true.2 ht]⟩

/-- Everything behind a sweep was there before, in the same order. -/
theorem body_sublist_of_mem_sweep (first : g.PhisFirst) (solved : Solved g live) {b' : Block}
    (hb' : b' ∈ (g.sweep live).blocks) :
    ∃ b ∈ g.blocks, b'.label = b.label ∧ b'.body.Sublist b.body := by
  obtain ⟨b, hb, label, phis, code⟩ := exists_of_mem_sweep first solved hb'
  refine ⟨b, hb, label, ?_⟩
  rw [← b'.phis_append_code, ← b.phis_append_code, phis, code]
  exact List.filter_sublist.append (keptCode_sublist _ _)

theorem filter_zip_sublist (body : List Instr) (points : List InstrLive) :
    (((body.zip points).filter fun e => !e.1.isDead e.2.after).map Prod.fst).Sublist body := by
  induction body generalizing points with
  | nil => exact .slnil
  | cons i body ih =>
    cases points with
    | nil => exact List.nil_sublist _
    | cons point points =>
      rw [List.zip_cons_cons, List.filter_cons]
      split
      · exact (ih points).cons_cons i
      · exact (ih points).cons i

theorem code_sweep_sublist : (g.sweep live).code.Sublist g.code := by
  simp only [FlowGraph.code, sweep, mapBodies, List.flatMap_map]
  induction g.blocks with
  | nil => exact .slnil
  | cons b bs ih =>
    rw [List.flatMap_cons, List.flatMap_cons]
    exact (filter_zip_sublist _ _).append ih

/-- A sweep leaves a procedure that the optimizer can take. -/
theorem Ready.sweep {singleAssignment copyPropagation : Bool} (h : g.Ready singleAssignment copyPropagation)
    (solved : Solved g live) : (g.sweep live).Ready singleAssignment copyPropagation := by
  have labels : (g.sweep live).labels = g.labels := labels_sweep
  refine ⟨?_, ?_, ?_, ?_, ?_, ?_⟩
  · refine h.wellFormed.mapBodies (fun b hb => (h.wellFormed.straight b hb).of_sublist ?_)
      fun b hb i hi l hl => ?_
    · exact filter_zip_sublist b.body (live.instrs b.label)
    · exact h.wellFormed.mem_labels_of_target hb ((filter_zip_sublist b.body _).subset hi) hl
  · intro b' hb' i hi
    obtain ⟨b, hb, -, -, code⟩ := exists_of_mem_sweep h.phisFirst solved hb'
    rw [code] at hi
    exact h.phisFirst b hb i ((keptCode_sublist _ _).subset hi)
  · intro b' hb' d args mem
    obtain ⟨b, hb, -, phis, -⟩ := exists_of_mem_sweep h.phisFirst solved hb'
    rw [phis] at mem
    exact h.phisNamed b hb d args (List.mem_of_mem_filter mem)
  · intro mode
    have definite := h.definite mode
    have defs : (g.sweep live).defs.Sublist g.defs := code_sweep_sublist.filterMap _
    exact ⟨definite.once.sublist defs, fun d hd => definite.apart d (defs.subset hd)⟩
  · intro mode propagates i hi d s copy l entry path
    rw [entry?_of_labels labels] at entry
    exact h.copied mode propagates i (code_sweep_sublist.subset hi) d s copy l entry
      (path.of_sweep h.wellFormed h.phisFirst solved (.entry entry))
  · intro mode b' hb' i hi
    obtain ⟨b, hb, -, sub⟩ := body_sublist_of_mem_sweep h.phisFirst solved hb'
    exact h.phiFree mode b hb i (sub.subset hi)

/-- A sweep does what the procedure does. -/
theorem Ready.improves_sweep {singleAssignment copyPropagation : Bool} (h : g.Ready singleAssignment copyPropagation)
    (solved : Solved g live) : g.Improves (g.sweep live) :=
  ⟨rfl, rfl, fun runs => runs.sweep h.wellFormed h.phisFirst solved (fun _ => h.phiDefs_nodup) (.ok _)⟩

end FlowGraph

end ThreeAddress
