import Mathlib.Logic.Function.Basic
import ThreeAddress.Proofs.Activation.Keeping
import ThreeAddress.Proofs.Liveness.Solution
/-!
# Versions of temporaries

In single-assignment form a temporary of the procedure has many versions, and at every point one of
them is current. The graph in single-assignment form goes side by side with the graph without
versions: a temporary that is live has the value of its current version.

* `Versioning` : the versions that are current at the beginning and at the end of each block;
* `Renames` : code whose reads are of current versions, and whose definitions make new ones;
* `Versioned` : a graph and its single-assignment form;
* `Versioned.lockstep` : the two go side by side.
-/

namespace ThreeAddress

open Execution

/-- Which versions the temporaries of a procedure have, and where they are current. -/
structure Versioning where
  /-- The temporary that a version belongs to. -/
  root : Temp → Temp
  /-- The versions behind the phis of a block. -/
  start : Label → Temp → Temp
  /-- The versions at the end of a block. -/
  finish : Label → Temp → Temp

/-- The second code is the first one with versions. The functions give the current versions before
and behind it. -/
inductive Renames (root : Temp → Temp) :
    (Temp → Temp) → List Instr → List Instr → (Temp → Temp) → Prop where
  | nil (env : Temp → Temp) : Renames root env [] [] env
  | keeps {env last : Temp → Temp} {i : Instr} {rest rest' : List Instr} (hd : i.def? = none)
      (h : Renames root env rest rest' last) :
      Renames root env (i :: rest) (i.mapUses env :: rest') last
  | defines {env last : Temp → Temp} {i : Instr} {t n : Temp} {rest rest' : List Instr}
      (hd : i.def? = some t) (hn : root n = t)
      (h : Renames root (Function.update env t n) rest rest' last) :
      Renames root env (i :: rest) ((i.mapUses env).setDef n :: rest') last

/-- The second graph is a single-assignment form of the first one, whose live sets are given. -/
structure Versioned (g g' : FlowGraph) (live : Liveness) (V : Versioning) : Prop where
  name : g'.name = g.name
  params : g'.params = g.params
  labels : g'.labels = g.labels
  root_sink : V.root Temp.sink = Temp.sink
  /-- A version is written like its temporary, but for the number. -/
  spelling : ∀ v, (V.root v).root = v.root
  root_param : ∀ t ∈ g.params, V.root t = t
  named : ∀ l, .sink ∉ live.before l
  root_start : ∀ l ∈ g.labels, ∀ t ∈ live.before l, V.root (V.start l t) = t
  /-- The code behind the phis. -/
  code : ∀ b ∈ g.blocks, ∀ b' ∈ g'.blocks, b'.label = b.label →
    Renames V.root (V.start b.label) b.body b'.code (V.finish b.label)
  /-- Every phi belongs to a temporary that is live before its block. -/
  phis : ∀ b ∈ g'.blocks, ∀ dest args, .phi dest args ∈ b.phis → ∃ t ∈ live.before b.label,
    dest = V.start b.label t ∧
      (∀ p ∈ g.preds b.label, args.get? (.block p) = some (V.finish p t)) ∧
      (args.get? .entry = if g.entry? = some b.label ∧ t ∈ g.params then some t else none) ∧
      ∀ v ∈ args.values, V.root v = t
  /-- A phi has no arguments for blocks that control does not come from. -/
  edges : ∀ b ∈ g'.blocks, ∀ dest args, .phi dest args ∈ b.phis →
    ∀ p v, args.get? (.block p) = some v → p ∈ g.preds b.label
  /-- A temporary that has no phi comes with the same version along all edges. -/
  joined : ∀ b ∈ g'.blocks, ∀ t ∈ live.before b.label, V.start b.label t ∉ b.phiDefs →
    (∀ p ∈ g.preds b.label, V.finish p t = V.start b.label t) ∧
      (g.entry? = some b.label → t ∈ g.params → V.start b.label t = t)
  /-- Every temporary has one definition. -/
  once : g'.defs.Nodup
  /-- No parameter is defined. -/
  apart : ∀ d ∈ g'.defs, d ∉ g'.params

/-- A version of a temporary that is not the sink is not the sink. -/
theorem isSink_of_root {root : Temp → Temp} (root_sink : root .sink = .sink) {v : Temp}
    (named : (root v).isSink = false) : v.isSink = false := by
  cases sink : v.isSink with
  | false => rfl
  | true =>
    rw [Temp.isSink_iff.1 sink, root_sink] at named
    cases named

/-- Every block has phis for all temporaries that are live before it. -/
def Versioning.HasAllPhis (V : Versioning) (g : FlowGraph) (live : Liveness) : Prop :=
  ∀ b ∈ g.blocks, ∀ t ∈ live.before b.label, V.start b.label t ∈ b.phiDefs

/-! ## Current versions -/

section Current

variable {P : Temp → Temp → Prop} {env : Temp → Temp} {i : Instr} {rest : List Instr}
  {after : SortedSet Temp}

/-- What is true of the versions that are live is true of those that are read. -/
theorem current_reads (current : ∀ t ∈ liveFrom after (i :: rest), P t (env t)) :
    ∀ t ∈ i.uses, P t (env t) := fun t ht => current t (mem_liveBefore.2 (.inl ht))

/-- It stays true behind an instruction that defines nothing. -/
theorem current_keeps (hd : i.def? = none) (current : ∀ t ∈ liveFrom after (i :: rest), P t (env t)) :
    ∀ t ∈ liveFrom after rest, P t (env t) := fun t ht =>
  current t (mem_liveBefore_of_undefined hd ht)

/-- It stays true behind a definition, if it is true of the new version. -/
theorem current_defines {t n : Temp} (hd : i.def? = some t) (new : P t n)
    (current : ∀ t ∈ liveFrom after (i :: rest), P t (env t)) :
    ∀ u ∈ liveFrom after rest, P u (Function.update env t n u) := by
  intro u hu
  by_cases same : u = t
  · rw [same, Function.update_self]
    exact new
  · rw [Function.update_of_ne same]
    exact current u (mem_liveBefore_of_ne hd same hu)

end Current

/-! ## Shape -/

/-- An instruction of renamed code is one of the code, with versions for what it reads and for what it
defines. -/
theorem Renames.cases_of_mem {root env last : Temp → Temp} {code code' : List Instr}
    (h : Renames root env code code' last) {i' : Instr} (hi : i' ∈ code') :
    ∃ i ∈ code, ∃ f : Temp → Temp, i.def? = none ∧ i' = i.mapUses f ∨
      ∃ n, i.def? = some (root n) ∧ i' = (i.mapUses f).setDef n := by
  induction h with
  | nil => cases hi
  | @keeps env _ i _ _ hd _ ih =>
    rcases List.mem_cons.1 hi with rfl | hi
    · exact ⟨i, List.mem_cons_self, env, .inl ⟨hd, rfl⟩⟩
    · obtain ⟨j, hj, same⟩ := ih hi
      exact ⟨j, List.mem_cons_of_mem _ hj, same⟩
  | @defines env _ i _ n _ _ hd hn _ ih =>
    rcases List.mem_cons.1 hi with rfl | hi
    · exact ⟨i, List.mem_cons_self, env, .inr ⟨n, hn ▸ hd, rfl⟩⟩
    · obtain ⟨j, hj, same⟩ := ih hi
      exact ⟨j, List.mem_cons_of_mem _ hj, same⟩

/-- Renamed code transfers control where the code does, has no other phis and gives the same
numbers. -/
theorem Renames.exists_source {root env last : Temp → Temp} {code code' : List Instr}
    (h : Renames root env code code' last) {i' : Instr} (hi : i' ∈ code') :
    ∃ i ∈ code, i'.target? = i.target? ∧ i'.isPhi = i.isPhi ∧ i'.count = i.count := by
  obtain ⟨i, mem, f, ⟨-, rfl⟩ | ⟨n, -, rfl⟩⟩ := h.cases_of_mem hi
  · exact ⟨i, mem, by cases i <;> rfl, by simp, by simp⟩
  · exact ⟨i, mem, by cases i <;> rfl, by simp, by simp⟩

theorem Renames.straight {root env last : Temp → Temp} {code code' : List Instr}
    (h : Renames root env code code' last) (straight : Straight code) : Straight code' := by
  induction h with
  | nil => trivial
  | @keeps env _ i rest rest' _ more ih =>
    obtain ⟨ends, plain, straight⟩ := straight
    refine ⟨fun transfer => ?_, ?_, ih straight⟩
    · obtain rfl := ends (by cases i <;> first | rfl | cases transfer)
      cases more
      rfl
    · intro l e
      cases i <;> first | exact plain l e | cases e
  | @defines env _ i t n rest rest' hd _ more ih =>
    obtain ⟨ends, plain, straight⟩ := straight
    refine ⟨fun transfer => ?_, ?_, ih straight⟩
    · cases i <;> simp_all [Instr.def?, Instr.dest?, Instr.isTransfer, Instr.setDef, Instr.mapUses]
    · intro l e
      cases i <;> simp_all [Instr.def?, Instr.dest?, Instr.setDef, Instr.mapUses]

/-- Renamed code defines versions of what the code defines. -/
theorem Renames.exists_def {root env last : Temp → Temp} {code code' : List Instr}
    (h : Renames root env code code' last) {i' : Instr} (hi : i' ∈ code') {n : Temp}
    (hn : i'.def? = some n) : ∃ i ∈ code, i.def? = some (root n) := by
  obtain ⟨i, mem, f, ⟨hd, rfl⟩ | ⟨m, hd, rfl⟩⟩ := h.cases_of_mem hi
  · rw [Instr.def?_mapUses, hd] at hn
    cases hn
  · obtain rfl := Instr.eq_of_def?_setDef hn
    exact ⟨i, mem, hd⟩

namespace Versioned

variable {g g' : FlowGraph} {live : Liveness} {V : Versioning}

/-- The block that a block of the single-assignment form comes from. -/
theorem exists_block (h : Versioned g g' live V) {b' : Block} (hb' : b' ∈ g'.blocks) :
    ∃ b ∈ g.blocks, b'.label = b.label ∧
      Renames V.root (V.start b.label) b.body b'.code (V.finish b.label) := by
  obtain ⟨b, hb, label⟩ := FlowGraph.mem_labels.1 (h.labels ▸ FlowGraph.mem_labels.2 ⟨b', hb', rfl⟩)
  exact ⟨b, hb, label.symm, h.code b hb b' hb' label.symm⟩

/-- A single-assignment form is well-formed. -/
theorem wellFormed (h : Versioned g g' live V) (wf : g.WellFormed) : g'.WellFormed := by
  refine ⟨fun none => wf.nonempty ?_, h.labels ▸ wf.nodup, fun b' hb' => ?_, fun b' hb' l hl => ?_⟩
  · have labels := h.labels
    rw [FlowGraph.labels, none, FlowGraph.labels] at labels
    exact List.map_eq_nil_iff.1 labels.symm
  · obtain ⟨b, hb, -, renames⟩ := h.exists_block hb'
    rw [← b'.phis_append_code]
    refine (renames.straight (wf.straight b hb)).prepend fun i hi => ?_
    have phi := Block.isPhi_of_mem_phis hi
    cases i with
    | phi dest args => exact ⟨rfl, fun l e => by cases e⟩
    | _ => cases phi
  · obtain ⟨i', hi', target⟩ := Block.target?_of_mem hl
    rw [← b'.phis_append_code] at hi'
    rcases List.mem_append.1 hi' with phi | hi'
    · have phi := Block.isPhi_of_mem_phis phi
      cases i' with
      | phi _ _ => cases target
      | _ => cases phi
    · obtain ⟨b, hb, -, renames⟩ := h.exists_block hb'
      obtain ⟨i, hi, same, -⟩ := renames.exists_source hi'
      rw [h.labels]
      exact wf.mem_labels_of_target hb hi (same ▸ target)

/-- The phis of a single-assignment form stand at the heads of blocks. -/
theorem phisFirst (h : Versioned g g' live V) (free : g.PhiFree) : g'.PhisFirst := by
  intro b' hb' i' hi'
  obtain ⟨b, hb, -, renames⟩ := h.exists_block hb'
  obtain ⟨i, hi, -, same, -⟩ := renames.exists_source hi'
  exact same.trans (free b hb i hi)

/-- The phis of a single-assignment form have nothing to do with the sink. -/
theorem phisNamed (h : Versioned g g' live V) : g'.PhisNamed := by
  intro b hb d args mem
  obtain ⟨t, ht, start, -, -, roots⟩ := h.phis b hb d args mem
  have hl := h.labels ▸ FlowGraph.mem_labels.2 ⟨b, hb, rfl⟩
  have named : ∀ v, V.root v = t → v.isSink = false := by
    rintro v rfl
    refine isSink_of_root h.root_sink ?_
    cases sink : (V.root v).isSink with
    | false => rfl
    | true => exact absurd (Temp.isSink_iff.1 sink ▸ ht) (h.named b.label)
  exact ⟨named d (start ▸ h.root_start _ hl t ht), fun v hv => named v (roots v hv)⟩

/-- Whatever is defined belongs to a temporary that is defined, or live where a block begins. -/
theorem root_of_mem_defs (h : Versioned g g' live V) {d : Temp} (hd : d ∈ g'.defs) :
    V.root d ∈ g.defs ∨ ∃ b ∈ g'.blocks, V.root d ∈ live.before b.label := by
  obtain ⟨b', hb', i', hi', def_⟩ := FlowGraph.mem_defs.1 hd
  rw [← b'.phis_append_code] at hi'
  rcases List.mem_append.1 hi' with phi | hi'
  · obtain ⟨args, mem⟩ := Block.mem_phiDefs.1 (List.mem_filterMap.2 ⟨i', phi, def_⟩)
    obtain ⟨t, ht, rfl, -⟩ := h.phis b' hb' d args mem
    refine .inr ⟨b', hb', ?_⟩
    rwa [h.root_start _ (h.labels ▸ FlowGraph.mem_labels.2 ⟨b', hb', rfl⟩) t ht]
  · obtain ⟨b, hb, -, renames⟩ := h.exists_block hb'
    obtain ⟨i, hi, same⟩ := renames.exists_def hi' def_
    exact .inl (FlowGraph.mem_defs.2 ⟨b, hb, i, hi, same⟩)

/-- The sink is never defined. -/
theorem sink_not_mem_defs (h : Versioned g g' live V) (free : g.PhiFree) : .sink ∉ g'.defs := by
  intro mem
  have root := h.root_of_mem_defs mem
  rw [h.root_sink] at root
  rcases root with mem | ⟨b, -, before⟩
  · obtain ⟨b, hb, i, hi, hd⟩ := FlowGraph.mem_defs.1 mem
    have named := Instr.def?_not_isSink (free b hb i hi) hd
    simp [Temp.isSink] at named
  · exact h.named _ before

end Versioned

/-! ## Side by side -/

/-- Failures that are the same, where a temporary without a value may be named by its version. -/
def Execution.Failure.SameUpToVersion (f f' : Failure) : Prop :=
  f = f' ∨ ∃ proc t t', f = .uninitialized proc t ∧ f' = .uninitialized proc t' ∧ t.root = t'.root

section Lockstep

variable {σ σ' : Type} {K : Keeping σ} {K' : Keeping σ'} {g g' : FlowGraph} {live : Liveness}
  {V : Versioning}

/-- A version has a value only if its temporary has one. -/
def Backed (K : Keeping σ) (K' : Keeping σ') (root : Temp → Temp) (s : σ) (s' : σ') : Prop :=
  ∀ v w, K'.get? s' v = some w → K.get? s (root v) ≠ none

/-- Temporaries when a block is entered: what is live has the value of its version at the end of
the block that control comes from, and on entry only parameters have values. -/
def VersionsEnter (K : Keeping σ) (K' : Keeping σ') (g : FlowGraph) (live : Liveness)
    (V : Versioning) (origin : Origin) (l : Label) (s : σ) (s' : σ') : Prop :=
  Backed K K' V.root s s' ∧ ∀ t ∈ live.before l,
    match origin with
    | .block p => K'.get? s' (V.finish p t) = K.get? s t
    | .entry => (t ∈ g.params → K'.get? s' t = K.get? s t) ∧ (t ∉ g.params → K.get? s t = none)

/-- Temporaries within a block: what is live has the value of its current version. -/
def VersionsWithin (K : Keeping σ) (K' : Keeping σ') (g : FlowGraph) (live : Liveness)
    (V : Versioning) (_ : Origin) (b : Block) (rest : List Instr) (s : σ) (rest' : List Instr)
    (s' : σ') : Prop :=
  Backed K K' V.root s s' ∧ ∃ env, Renames V.root env rest rest' (V.finish b.label) ∧
    ∀ t ∈ liveFrom (live.after g b.label) rest, V.root (env t) = t ∧ K'.get? s' (env t) = K.get? s t

namespace Versioned

theorem root_of_mem_phis (h : Versioned g g' live V) {b : Block} (hb : b ∈ g'.blocks) {dest : Temp}
    {args : SortedMap Origin Temp} (mem : .phi dest args ∈ b.phis) {origin : Origin} {a : Temp}
    (ha : args.get? origin = some a) : V.root a = V.root dest := by
  obtain ⟨t, ht, rfl, -, -, roots⟩ := h.phis b hb dest args mem
  rw [roots a (List.mem_map.2 ⟨_, SortedMap.get?_eq_some.1 ha, rfl⟩)]
  exact (h.root_start _ (h.labels ▸ FlowGraph.mem_labels.2 ⟨b, hb, rfl⟩) t ht).symm

/-- A group of phis sets versions only if their temporaries have values. -/
theorem backed_assign (lawful' : K'.Lawful) (h : Versioned g g' live V) {b : Block}
    (hb : b ∈ g'.blocks) {origin : Origin} {s : σ} {s' : σ'} (backed : Backed K K' V.root s s') :
    Backed K K' V.root s (K'.assign origin b.phis s') := by
  intro v w hv
  have all : ∀ i ∈ b.phis, i.isPhi = true := fun i => Block.isPhi_of_mem_phis
  by_cases phi : v ∈ b.phiDefs
  · obtain ⟨args, mem⟩ := Block.mem_phiDefs.1 phi
    rcases Keeping.get?_assign_of_mem (s := s') lawful' all (Block.phiDefs_nodup h.once hb) mem
      with same | ⟨-, same⟩
    · rw [same, Option.bind_eq_some_iff] at hv
      obtain ⟨a, ha, hv⟩ := hv
      rw [← h.root_of_mem_phis hb mem ha]
      exact backed a w hv
    · rw [same] at hv
      exact backed v w hv
  · rw [Keeping.get?_assign lawful' all phi] at hv
    exact backed v w hv

/-- A definition sets a version together with its temporary. -/
theorem backed_set (lawful : K.Lawful) (lawful' : K'.Lawful) {root : Temp → Temp} {s : σ} {s' : σ'}
    (backed : Backed K K' root s s') (n : Temp) (w : Word) :
    Backed K K' root (K.set s (root n) w) (K'.set s' n w) := by
  intro v u hv
  rw [lawful'.get?_set] at hv
  rw [lawful.get?_set]
  by_cases same : root v = root n
  · rw [if_pos same]
    exact Option.some_ne_none w
  · rw [if_neg same]
    have ne : v ≠ n := fun e => same (congrArg root e)
    rw [if_neg ne] at hv
    exact backed v u hv

/-- Entering a block, the phis make the versions current that the block begins with. -/
theorem enterKept (free : g.PhiFree) (solved : Solved g live)
    (lawful' : K'.Lawful) (h : Versioned g g' live V) :
    EnterKept g g' K K' (VersionsEnter K K' g live V) (VersionsWithin K K' g live V) := by
  rintro origin b b' s s' hb hb' label arrives ⟨backed, values⟩
  have none := Block.phis_of_phiFree (free b hb)
  have all : ∀ i ∈ b'.phis, i.isPhi = true := fun i => Block.isPhi_of_mem_phis
  have code := h.code b hb b' hb' label
  rw [Block.code_of_phiFree (free b hb), none]
  refine ⟨h.backed_assign lawful' hb' backed, V.start b.label, code, fun t ht => ?_⟩
  have before : t ∈ live.before b.label := by
    rw [solved.mem_before hb, Block.code_of_phiFree (free b hb), Block.phiDefs, none]
    exact ⟨List.not_mem_nil, ht⟩
  have before' : t ∈ live.before b'.label := label ▸ before
  have root := h.root_start b.label (FlowGraph.mem_labels.2 ⟨b, hb, rfl⟩) t before
  refine ⟨root, ?_⟩
  have value := values t before
  by_cases phi : V.start b.label t ∈ b'.phiDefs
  · -- the phi takes the version that is current at the end of the edge
    obtain ⟨args, mem⟩ := Block.mem_phiDefs.1 phi
    obtain ⟨u, hu, same, onEdges, onEntry, -⟩ := h.phis b' hb' _ args mem
    have root' := h.root_start b'.label (h.labels ▸ FlowGraph.mem_labels.2 ⟨b', hb', rfl⟩) u hu
    obtain rfl : t = u := by rw [← root, same, root']
    have arg : (args.get? origin).bind (K'.get? s') = K.get? s t := by
      cases origin with
      | block p =>
        have edge : p ∈ g.preds b'.label := label ▸ arrives.2
        rw [onEdges p edge]
        exact value
      | entry =>
        have entry : g.entry? = some b'.label := label ▸ arrives.2
        rw [onEntry]
        by_cases param : t ∈ g.params
        · rw [if_pos ⟨entry, param⟩]
          exact value.1 param
        · rw [if_neg fun both => param both.2]
          exact (value.2 param).symm
    rcases Keeping.get?_assign_of_mem (s := s') lawful' all (Block.phiDefs_nodup h.once hb') mem
      with assigned | ⟨unset, assigned⟩
    · rw [assigned, arg]
      rfl
    · -- a destination that is left alone had no value anyway
      rw [arg] at unset
      rw [assigned, Keeping.assign_nil, unset]
      cases stale : K'.get? s' (V.start b.label t) with
      | none => rfl
      | some w => exact absurd (by rw [root]; exact unset) (backed _ w stale)
  · have joined := h.joined b' hb' t before' (label ▸ phi)
    rw [Keeping.get?_assign lawful' all phi, Keeping.assign_nil]
    cases origin with
    | block p =>
      have edge : p ∈ g.preds b'.label := label ▸ arrives.2
      rw [← label, ← joined.1 p edge]
      exact value
    | entry =>
      have entry : g.entry? = some b'.label := label ▸ arrives.2
      by_cases param : t ∈ g.params
      · rw [← label, joined.2 entry param]
        exact value.1 param
      · have unset := value.2 param
        rw [unset]
        cases stale : K'.get? s' (V.start b.label t) with
        | none => rfl
        | some w => exact absurd (by rw [root]; exact unset) (backed _ w stale)

/-- At the end of a block its versions are current. -/
theorem leaveKept (wf : g.WellFormed) : 
    LeaveKept g (VersionsEnter K K' g live V) (VersionsWithin K K' g live V) := by
  rintro origin b s rest' s' at_ ⟨backed, env, renames, values⟩
  cases renames
  refine ⟨rfl, fun l next => ⟨backed, fun t ht => ?_⟩⟩
  refine (values t ?_).2
  exact Liveness.mem_after wf.nodup at_.mem (Block.mem_succs.2 (.inr ⟨at_.falls rfl, next⟩)) (.inl ht)

/-- An instruction and its renamed form keep current versions. -/
theorem instrKept (wf : g.WellFormed) (lawful : K.Lawful) (lawful' : K'.Lawful)
    (h : Versioned g g' live V) {E : Leeway Point σ'} (exact : ∀ f, E.failure f (.ends (.error f)))
    (unset : ∀ proc t u, t.root = u.root →
      E.failure (.uninitialized proc t) (.ends (.error (.uninitialized proc u)))) :
    InstrKept g g' K K' E (VersionsEnter K K' g live V) (VersionsWithin K K' g live V) := by
  rintro origin b i rest s rest' s' staged globals at_ plain ⟨backed, env, renames, values⟩
  have sameProc : (Control.ofGraph g').proc = (Control.ofGraph g).proc := h.name
  have use : ∀ t ∈ i.uses, t ∈ liveFrom (live.after g b.label) (i :: rest) :=
    fun t ht => mem_liveBefore.2 (.inl ht)
  have pass : ∀ t ∈ liveFrom (live.after g b.label) rest, i.def? ≠ some t →
      t ∈ liveFrom (live.after g b.label) (i :: rest) :=
    fun t ht kept => mem_liveBefore.2 (.inr ⟨kept, ht⟩)
  have renamed : ∀ t ∈ i.uses, (env t).isSink = false := by
    intro t ht
    refine isSink_of_root h.root_sink ?_
    rw [(values t (use t ht)).1]
    exact Instr.uses_not_isSink ht
  have reads : ∀ t ∈ i.uses, K'.get? s' (env t) = K.get? s t := fun t ht => (values t (use t ht)).2
  have missing : ∀ t ∈ i.uses, K.get? s t = none →
      AnswersUnset E K' s' (Control.ofGraph g).proc t (env t) := by
    intro t ht none
    refine .inr ⟨(reads t ht).trans none, unset _ _ _ ?_⟩
    rw [← h.spelling (env t), (values t (use t ht)).1]
  cases renames with
  | @keeps _ _ _ _ more hd renames =>
    have same : i.mapUses env = (i.mapUses env).setDef Temp.sink :=
      (Instr.setDef_self (.inr ((Instr.def?_mapUses env i).trans hd))).symm
    refine ⟨_, more, rfl, (Instr.isPhi_mapUses env i).trans plain, ?_⟩
    rw [same]
    refine alike_perform sameProc exact plain renamed (fun t ht w hw => (reads t ht).trans hw) missing
      (fun d hd' => by cases hd.symm.trans hd') ?_ fun l hl => ?_
    · intro _ falls
      have kept : ∀ t, i.def? ≠ some t := fun t e => by cases hd.symm.trans e
      exact ⟨b, more, rfl, rfl, at_.pass falls, backed, env, renames,
        fun t ht => values t (pass t ht (kept t))⟩
    · -- nothing is behind a jump, so its versions are those at the end of the block
      obtain rfl := at_.rest_nil wf (Instr.isTransfer_of_target hl)
      cases renames
      refine alike_graph_goto wf h.labels at_ hl ⟨backed, fun t ht => ?_⟩ staged globals
      have after : t ∈ live.after g b.label := Liveness.mem_after wf.nodup at_.mem
        (Block.mem_succs.2 (.inl (at_.target wf hl).1)) (.inl ht)
      exact (values t (pass t after fun e => by cases hd.symm.trans e)).2
  | @defines _ _ _ t n _ more hd hn renames =>
    refine ⟨_, more, rfl, ?_, ?_⟩
    · rw [Instr.isPhi_setDef, Instr.isPhi_mapUses]
      exact plain
    refine alike_perform sameProc exact plain renamed (fun t ht w hw => (reads t ht).trans hw) missing
      (fun d hd' => ?_) (fun hd' => by cases hd.symm.trans hd') fun l hl => ?_
    · cases hd.symm.trans hd'
      constructor
      · exact isSink_of_root h.root_sink (hn ▸ Instr.def?_not_isSink plain hd)
      · intro w _
        have backed' := backed_set lawful lawful' backed n w
        rw [hn] at backed'
        refine ⟨b, more, rfl, rfl, at_.pass (Instr.fallsThrough_of_def? hd), backed',
          Function.update env t n, renames, fun u hu => ?_⟩
        rw [lawful.get?_set, lawful'.get?_set]
        by_cases same : u = t
        · subst same
          rw [Function.update_self, if_pos rfl, if_pos rfl]
          exact ⟨hn, rfl⟩
        · have before := values u (pass u hu fun e => same (Option.some.inj (hd.symm.trans e)).symm)
          rw [Function.update_of_ne same, if_neg same, if_neg]
          · exact before
          · intro e
            rw [e, hn] at before
            exact same before.1.symm
    · cases i <;> simp_all [Instr.target?, Instr.def?, Instr.dest?]

/-! ## Runs -/

variable {s : σ} {s' : σ'}

/-- On entry, the parameters have their arguments and nothing else has a value. -/
theorem enter (lawful : K.Lawful) (lawful' : K'.Lawful) (h : Versioned g g' live V)
    (empty : ∀ x, K.get? s x = none) (empty' : ∀ x, K'.get? s' x = none) (args : List Word)
    (l : Label) :
    VersionsEnter K K' g live V .entry l (K.setAll s (g.params.zip args))
      (K'.setAll s' (g.params.zip args)) := by
  have same : ∀ x, K'.get? (K'.setAll s' (g.params.zip args)) x =
      K.get? (K.setAll s (g.params.zip args)) x :=
    fun x => Keeping.get?_setAll_congr lawful' lawful _ ((empty' x).trans (empty x).symm)
  have unset : ∀ x, x ∉ g.params → K.get? (K.setAll s (g.params.zip args)) x = none := by
    intro x hx
    rw [Keeping.get?_setAll_of_not_mem lawful, empty]
    intro mem
    obtain ⟨⟨t, w⟩, hm, rfl⟩ := List.mem_map.1 mem
    exact hx (List.of_mem_zip hm).1
  refine ⟨fun v w hv => ?_, fun t _ => ⟨fun _ => same t, unset t⟩⟩
  have hv := (same v).symm.trans hv
  have param : v ∈ g.params := by
    refine Classical.byContradiction fun none => ?_
    cases (unset v none).symm.trans hv
  rw [h.root_param v param, hv]
  exact Option.some_ne_none w

theorem sameUpToVersion_refl (f : Failure) : f.SameUpToVersion f := .inl rfl

theorem sameUpToVersion_symm {f f' : Failure} (h : f.SameUpToVersion f') : f'.SameUpToVersion f := by
  rcases h with rfl | ⟨proc, t, t', rfl, rfl, same⟩
  · exact .inl rfl
  · exact .inr ⟨proc, t', t, rfl, rfl, same.symm⟩

variable (wf : g.WellFormed) (free : g.PhiFree) (solved : Solved g live) (lawful : K.Lawful)
  (lawful' : K'.Lawful) (h : Versioned g g' live V) (empty : ∀ x, K.get? s x = none)
  (empty' : ∀ x, K'.get? s' x = none)

include wf free solved lawful lawful' h

/-- A graph and its single-assignment form go side by side. -/
theorem lockstep {pos pos' : Point} {s : σ} {s' : σ'}
    (q : Between g (VersionsEnter K K' g live V) (VersionsWithin K K' g live V) pos s pos' s')
    (staged : Store Nat) (globals : Store Global) :
    Alike K K' (Between g (VersionsEnter K K' g live V) (VersionsWithin K K' g live V))
      (FailsAs Point σ' Failure.SameUpToVersion)
      ((Control.ofGraph g).step K pos ⟨s, staged, globals⟩)
      ((Control.ofGraph g').step K' pos' ⟨s', staged, globals⟩) := by
  have nodup : g'.labels.Nodup := h.labels ▸ wf.nodup
  refine lockstep_graph wf free.phisFirst nodup h.labels (h.enterKept free solved lawful')
    (leaveKept wf) (h.instrKept wf lawful lawful' ?_ ?_) q staged globals
  · exact fun f => ⟨f, sameUpToVersion_refl f, rfl⟩
  · exact fun proc t u same => ⟨_, .inr ⟨proc, t, u, rfl, rfl, same⟩, rfl⟩

include empty empty'

omit wf free solved in
/-- Both are at the same place when the procedure is entered. -/
theorem between_first {l : Label} (entry : g.entry? = some l) (args : List Word) :
    Between g (VersionsEnter K K' g live V) (VersionsWithin K K' g live V) (.enter .entry l)
      (K.setAll s (g.params.zip args)) (.enter .entry l) (K'.setAll s' (g.params.zip args)) :=
  ⟨rfl, .entry entry, h.enter lawful lawful' empty empty' args l⟩

/-- Every run of the graph is a run of its single-assignment form. -/
theorem runs {args : List Word} {globals : Store Global} {t t' : List Effect} {r : Result}
    (runs : g.Runs K (.enter K s g.params args globals) t r)
    (same : SameEffects Failure.SameUpToVersion t t') :
    ∃ r', SameResult Failure.SameUpToVersion r r' ∧
      g'.Runs K' (.enter K' s' g'.params args globals) t' r' := by
  obtain ⟨l, entry⟩ := wf.exists_entry
  have entry' : g'.entry? = some l := (entry?_of_labels h.labels).trans entry
  have follows : Follows (Control.ofGraph g) K (Control.ofGraph g') K'
      (Between g (VersionsEnter K K' g live V) (VersionsWithin K K' g live V))
      (FailsAs Point σ' Failure.SameUpToVersion) :=
    .of_step fun _ _ _ _ staged globals q =>
      h.lockstep wf free solved lawful lawful' q staged globals
  obtain ⟨r', sameResult, yields⟩ := ((FlowGraph.runs_iff_yields entry).1 runs).carry follows
    (.going (h.between_first lawful lawful' empty empty' entry args)) same
  rw [← h.params] at yields
  exact ⟨r', sameResult, (FlowGraph.runs_iff_yields entry').2 yields⟩

/-- Every run of the single-assignment form is a run of the graph. -/
theorem runs_back {args : List Word} {globals : Store Global} {t t' : List Effect} {r : Result}
    (runs : g'.Runs K' (.enter K' s' g'.params args globals) t r)
    (same : SameEffects Failure.SameUpToVersion t t') :
    ∃ r', SameResult Failure.SameUpToVersion r r' ∧
      g.Runs K (.enter K s g.params args globals) t' r' := by
  obtain ⟨l, entry⟩ := wf.exists_entry
  have entry' : g'.entry? = some l := (entry?_of_labels h.labels).trans entry
  have swapped : (fun f' f : Failure => f.SameUpToVersion f') = Failure.SameUpToVersion := by
    funext f' f
    exact propext ⟨sameUpToVersion_symm, sameUpToVersion_symm⟩
  have follows : Follows (Control.ofGraph g') K' (Control.ofGraph g) K
      (fun pos' s' pos s =>
        Between g (VersionsEnter K K' g live V) (VersionsWithin K K' g live V) pos s pos' s')
      (FailsAs Point σ Failure.SameUpToVersion) := by
    refine .of_step fun _ _ _ _ staged globals q => ?_
    have alike := (h.lockstep wf free solved lawful lawful' q staged globals).symm
    rwa [swapped] at alike
  rw [h.params] at runs
  obtain ⟨r', sameResult, yields⟩ := ((FlowGraph.runs_iff_yields entry').1 runs).carry follows
    (.going (h.between_first lawful lawful' empty empty' entry args)) same
  exact ⟨r', sameResult, (FlowGraph.runs_iff_yields entry).2 yields⟩

omit wf free solved lawful lawful' h empty empty' in
/-- Only failures for want of a value are named in another way. -/
theorem eq_of_valued {r r' : Result} (same : SameResult Failure.SameUpToVersion r r')
    (valued : Valued r) : r' = r := by
  cases same with
  | ok v => rfl
  | error renamed =>
    rcases renamed with rfl | ⟨proc, t, t', rfl, -, -⟩
    · rfl
    · exact absurd trivial (valued _ rfl)

/-- The graph and its single-assignment form do the same, unless they fail for want of a value. -/
theorem runs_iff_of_valued {args : List Word} {globals : Store Global} {t : List Effect}
    {r : Result} (valued : Valued r) :
    g.Runs K (.enter K s g.params args globals) t r ↔
      g'.Runs K' (.enter K' s' g'.params args globals) t r := by
  have same := SameEffects.refl sameUpToVersion_refl t
  constructor
  · intro runs
    obtain ⟨r', result, runs'⟩ := h.runs wf free solved lawful lawful' empty empty' runs same
    rwa [eq_of_valued result valued] at runs'
  · intro runs
    obtain ⟨r', result, runs'⟩ := h.runs_back wf free solved lawful lawful' empty empty' runs same
    rwa [eq_of_valued result valued] at runs'

/-- The graph and its single-assignment form succeed in the same way. -/
theorem runs_ok_iff {args : List Word} {globals : Store Global} {t : List Effect}
    {v : Word × Store Global} :
    g.Runs K (.enter K s g.params args globals) t (.ok v) ↔
      g'.Runs K' (.enter K' s' g'.params args globals) t (.ok v) :=
  h.runs_iff_of_valued wf free solved lawful lawful' empty empty' (.ok v)

end Versioned

end Lockstep

end ThreeAddress
