import ThreeAddress.Proofs.SingleAssignment.Versioned
/-!
# Versions that are live on entry

A version that is live at a point of a single-assignment form is the current version of its
temporary there, and the temporary is live. So a version that has a definition is only live at the
entry of the procedure if its temporary is, and is no parameter.

* `Versioned.Current` : a version is current, and its temporary is live;
* `Versioned.current_of_live` : so it is wherever the version is live;
* `Versioned.atEntry_of_live`, `Versioned.not_live_of_phi` : a definition that is live on entry.
-/

namespace ThreeAddress

variable {g g' : FlowGraph} {live : Liveness} {V : Versioning} {d : Temp}

namespace Versioned

/-- At a point where control can be, the version is current and its temporary is live. -/
def Current (g : FlowGraph) (live : Liveness) (V : Versioning) (d : Temp) : Point → Prop
  | .enter origin l => g.Arrives origin l → V.root d ∈ live.before l ∧
    match origin with
    | .block p => V.finish p (V.root d) = d
    | .entry => V.root d ∈ g.params → V.root d = d
  | .within origin l rest' => ∀ b env rest, b.label = l → g.At origin b rest →
    Renames V.root env rest rest' (V.finish l) →
    (∀ t ∈ liveFrom (live.after g l) rest, V.root (env t) = t) →
    V.root d ∈ liveFrom (live.after g l) rest ∧ env (V.root d) = d

/-- What is current at the beginning of the code of a block is a version that the block begins
with. -/
theorem Current.start (free : g.PhiFree) (solved : Solved g live) (h : Versioned g g' live V)
    {b' : Block} (hb' : b' ∈ g'.blocks) {origin : Origin} (arrives : g.Arrives origin b'.label)
    (current : Current g live V d (.within origin b'.label b'.code)) :
    V.root d ∈ live.before b'.label ∧ V.start b'.label (V.root d) = d := by
  obtain ⟨b, hb, label, code⟩ := h.exists_block hb'
  rw [label] at arrives current ⊢
  have first := FlowGraph.At.first hb arrives
  rw [Block.code_of_phiFree (free b hb)] at first
  have before : ∀ t, t ∈ live.before b.label ↔ t ∈ liveFrom (live.after g b.label) b.body := by
    intro t
    rw [solved.mem_before hb, Block.code_of_phiFree (free b hb), Block.phiDefs,
      Block.phis_of_phiFree (free b hb)]
    simp
  obtain ⟨mem, version⟩ := current b (V.start b.label) b.body rfl first code fun t ht =>
    h.root_start _ (FlowGraph.mem_labels.2 ⟨b, hb, rfl⟩) t ((before t).2 ht)
  exact ⟨(before _).2 mem, version⟩

/-- Where a version is live it is current. -/
theorem current_of_live (wf : g.WellFormed) (free : g.PhiFree) (solved : Solved g live)
    (h : Versioned g g' live V) {p : Point} (path : g'.Live d p) : Current g live V d p := by
  induction path with
  | @read origin l i' rest' use =>
    rintro b env rest rfl at_ renames versions
    -- the version that is read is the current one
    have read : ∀ {i : Instr} {rest : List Instr}, (∀ t ∈ liveFrom (live.after g b.label) (i :: rest),
        V.root (env t) = t) → d ∈ (i.mapUses env).uses →
        V.root d ∈ liveFrom (live.after g b.label) (i :: rest) ∧ env (V.root d) = d := by
      intro i rest versions use
      obtain ⟨t, ht, rfl⟩ := Instr.exists_of_mem_uses_mapUses use
      have used : t ∈ liveFrom (live.after g b.label) (i :: rest) := mem_liveBefore.2 (.inl ht)
      rw [versions t used]
      exact ⟨used, rfl⟩
    cases renames with
    | keeps hd renames => exact read versions use
    | defines hd hn renames =>
      rw [Instr.uses_setDef] at use
      exact read versions use
  | @pass origin l i' rest' falls kept _ ih =>
    rintro b env rest rfl at_ renames versions
    cases renames with
    | @keeps _ _ i rest _ hd renames =>
      rw [Instr.fallsThrough_mapUses] at falls
      obtain ⟨mem, current⟩ := ih b env rest rfl (at_.pass falls) renames (current_keeps hd versions)
      exact ⟨mem_liveBefore_of_undefined hd mem, current⟩
    | @defines _ _ i t n rest _ hd hn renames =>
      have named : n.isSink = false := isSink_of_root h.root_sink
        (hn ▸ Instr.def?_not_isSink (free b at_.mem i at_.mem_body) hd)
      rw [Instr.fallsThrough_setDef, Instr.fallsThrough_mapUses] at falls
      rw [Instr.def?_setDef ((Instr.def?_mapUses env i).trans hd) named] at kept
      obtain ⟨mem, current⟩ := ih b _ rest rfl (at_.pass falls) renames
        (current_defines (P := fun t v => V.root v = t) hd hn versions)
      have ne : V.root d ≠ t := by
        intro e
        rw [e, Function.update_self] at current
        exact kept (congrArg some current)
      rw [Function.update_of_ne ne] at current
      exact ⟨mem_liveBefore_of_ne hd ne mem, current⟩
  | @jump origin l target i' rest' ht _ ih =>
    rintro b env rest rfl at_ renames versions
    cases renames with
    | @keeps _ _ i rest _ hd renames =>
      rw [Instr.target?_mapUses] at ht
      obtain rfl := at_.rest_nil wf (Instr.isTransfer_of_target ht)
      cases renames
      obtain ⟨before, current⟩ := ih (at_.jump wf ht)
      have after := Liveness.mem_after wf.nodup at_.mem
        (Block.mem_succs.2 (.inl (at_.target wf ht).1)) (.inl before)
      exact ⟨mem_liveBefore_of_undefined hd after, current⟩
    | @defines _ _ i t n rest _ hd _ _ =>
      cases i <;> simp_all [Instr.target?, Instr.def?, Instr.dest?, Instr.setDef, Instr.mapUses]
  | @next origin l next hn _ ih =>
    rintro b env rest rfl at_ renames versions
    cases renames
    obtain ⟨before, current⟩ := ih (at_.next wf ((next?_of_labels h.labels _).symm.trans hn))
    exact ⟨Liveness.mem_after wf.nodup at_.mem (Block.mem_succs.2 (.inr ⟨at_.falls rfl,
      (next?_of_labels h.labels _).symm.trans hn⟩)) (.inl before), current⟩
  | @arg origin b' hb' arg =>
    intro arrives
    obtain ⟨dest, args, mem, value⟩ := Block.mem_phiArgsFrom.1 arg
    obtain ⟨t, ht, -, onEdges, onEntry, roots⟩ := h.phis b' hb' dest args mem
    obtain rfl : V.root d = t :=
      roots d (List.mem_map.2 ⟨_, SortedMap.get?_eq_some.1 value, rfl⟩)
    refine ⟨ht, ?_⟩
    cases origin with
    | block p => exact Option.some.inj ((onEdges p arrives.2).symm.trans value)
    | entry =>
      intro param
      rw [value, if_pos ⟨arrives.2, param⟩] at onEntry
      exact (Option.some.inj onEntry).symm
  | @enter origin b' hb' kept _ ih =>
    intro arrives
    obtain ⟨before, version⟩ := ih.start free solved h hb' arrives
    -- there is no phi that makes the version current
    obtain ⟨onEdges, onEntry⟩ := h.joined b' hb' (V.root d) before (version.symm ▸ kept)
    refine ⟨before, ?_⟩
    cases origin with
    | block p => exact (onEdges p arrives.2).trans version
    | entry => exact fun param => (onEntry arrives.2 param).symm.trans version

/-- A version that is defined and live on entry belongs to a temporary that is live on entry, and
is no parameter. -/
theorem atEntry_of_live (wf : g.WellFormed) (free : g.PhiFree) (solved : Solved g live)
    (h : Versioned g g' live V) {l : Label} (entry : g.entry? = some l)
    (path : g'.Live d (.enter .entry l)) (hd : d ∈ g'.defs) :
    V.root d ∈ live.atEntry ∧ V.root d ∉ g.params := by
  obtain ⟨before, param⟩ := h.current_of_live wf free solved path (.entry entry)
  refine ⟨(solved.mem_atEntry wf.nodup entry).2 (.inl before), fun mem => ?_⟩
  refine h.apart d hd ?_
  rw [h.params, ← param mem]
  exact mem

/-- If the first block has phis for all versions that may be live before it, no definition is live
on entry. -/
theorem not_live_of_phi (wf : g.WellFormed) (free : g.PhiFree) (solved : Solved g live)
    (h : Versioned g g' live V) {l : Label} (entry : g.entry? = some l) (hd : d ∈ g'.defs)
    (phi : V.root d ∈ live.before l → V.root d ∉ g.params →
      ∀ b ∈ g'.blocks, b.label = l → V.start l (V.root d) ∈ b.phiDefs) :
    ¬ g'.Live d (.enter .entry l) := by
  intro path
  obtain ⟨-, param⟩ := h.atEntry_of_live wf free solved entry path hd
  cases path with
  | @arg _ b' hb' arg =>
    obtain ⟨dest, args, mem, value⟩ := Block.mem_phiArgsFrom.1 arg
    obtain ⟨t, -, -, -, onEntry, -⟩ := h.phis b' hb' dest args mem
    rw [value] at onEntry
    by_cases both : g.entry? = some b'.label ∧ t ∈ g.params
    · rw [if_pos both] at onEntry
      cases onEntry
      exact h.apart d hd (h.params ▸ both.2)
    · rw [if_neg both] at onEntry
      cases onEntry
  | @enter _ b' hb' kept path =>
    obtain ⟨before, version⟩ := (h.current_of_live wf free solved path).start free solved h hb'
      (.entry entry)
    exact kept (version ▸ phi before param b' hb' rfl)

end Versioned

end ThreeAddress
