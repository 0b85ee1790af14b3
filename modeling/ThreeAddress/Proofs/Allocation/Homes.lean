import ThreeAddress.Proofs.Activation.Keeping
import ThreeAddress.Proofs.Interference.Allocation
import ThreeAddress.Proofs.Interference.Build
/-!
# Homes of temporaries

The values of temporaries can be kept in their homes, if whatever is live has a home that nothing
else overwrites. It has one if the homes come from an allocation of the interference graph.

* `Housed` : what homes have to be like;
* `Allocation.housed` : those of an allocation are;
* `Agrees` : whatever is live and has a value has it at home;
* `Agrees.define`, `Agrees.enter` : what definitions and phis make of that.
-/

namespace ThreeAddress

open Execution Target

/-- The home of each temporary. -/
abbrev Homes := SortedMap Temp Location

/-- The temporary has a home that is not the home of the other. -/
def Homes.Apart (homes : Homes) (d t : Temp) : Prop :=
  ∀ l, homes.get? d = some l → homes.get? t ≠ some l

/-- Every temporary of the procedure has a home, and it is not shared where that would matter. -/
structure Housed (g : FlowGraph) (live : Liveness) (homes : Homes) : Prop where
  homed : ∀ t ∈ g.temps, t.isSink = false → ∃ l, homes.get? t = some l
  named : ∀ t l, homes.get? t = some l → t.isSink = false
  inside : g.Inside live.blocks
  /-- A definition overwrites nothing that is live behind it. -/
  defs : ∀ b ∈ g.blocks, ∀ front i rest, b.code = front ++ i :: rest → ∀ d, i.def? = some d →
    d.isSink = false → ∀ t ∈ liveFrom (live.after g b.label) rest, t.isSink = false → d ≠ t →
    homes.Apart d t
  /-- Nor does a phi. -/
  phi : ∀ b ∈ g.blocks, ∀ d ∈ b.phiDefs, d.isSink = false →
    ∀ t ∈ liveFrom (live.after g b.label) b.code, t.isSink = false → d ≠ t → homes.Apart d t
  /-- The phis of a block do not overwrite each other. -/
  phis : ∀ b ∈ g.blocks, ∀ d ∈ b.phiDefs, d.isSink = false → ∀ t ∈ b.phiDefs, t.isSink = false →
    d ≠ t → homes.Apart d t
  /-- Nor do the parameters. -/
  params : ∀ d ∈ g.params, d.isSink = false → ∀ t ∈ g.params, t.isSink = false → d ≠ t →
    homes.Apart d t

/-- The homes of an allocation of the interference graph are as they have to be. -/
theorem Allocation.housed_of_nodup {g : FlowGraph} {live : Liveness} {registers : Nat}
    {a : Allocation} (nodup : g.labels.Nodup) (found : g.liveness = .ok live)
    (h : (g.interference live).allocate registers = .ok a) : Housed g live a.assignment.locations := by
  have fits := InterferenceGraph.fits_of_allocate h
  have solved := FlowGraph.solved_of_liveness nodup found
  exact {
    homed := fun t ht named => (fits.homed t).1 (FlowGraph.mem_nodes_interference ht named)
    named := fun t l hl =>
      ((FlowGraph.mem_nodes_interference_iff nodup found).1 ((fits.homed t).2 ⟨l, hl⟩)).2
    inside := FlowGraph.inside_of_liveness nodup found
    defs := fun b hb front i rest split d hd named t ht named' ne =>
      fits.apart d t (FlowGraph.mem_neighbors_of_def? solved hb split hd ht ne named named')
    phi := fun b hb d hd named t ht named' ne =>
      fits.apart d t (FlowGraph.mem_neighbors_of_phi solved hb hd ht ne named named')
    phis := fun b hb d hd named t ht named' ne =>
      fits.apart d t (FlowGraph.mem_neighbors_of_phis hb hd ht ne named named')
    params := fun d hd named t ht named' ne =>
      fits.apart d t (FlowGraph.mem_neighbors_of_params hd ht ne named named') }

theorem Allocation.housed {g : FlowGraph} {live : Liveness} {registers : Nat} {a : Allocation}
    (wf : g.WellFormed) (found : g.liveness = .ok live)
    (h : (g.interference live).allocate registers = .ok a) : Housed g live a.assignment.locations :=
  housed_of_nodup wf.nodup found h

/-! ## Values at home -/

/-- Whatever is live and has a value has this value at home. -/
def Agrees (homes : Homes) (live : Temp → Prop) (s : Temp → Option Word) (r : Location → Option Word) :
    Prop :=
  ∀ t, live t → t.isSink = false → ∀ w, s t = some w → ∃ l, homes.get? t = some l ∧ r l = some w

section Agrees

variable {g : FlowGraph} {liveness : Liveness} {homes : Homes} {live live' : Temp → Prop}
  {s : Temp → Option Word} {r r' : Location → Option Word} {b : Block} {origin : Origin}

theorem Agrees.mono (h : Agrees homes live s r) (le : ∀ t, live' t → live t) :
    Agrees homes live' s r := fun t ht named w hw => h t (le t ht) named w hw

/-- A definition keeps values at home, if it writes the home of what it defines and spoils no home
of anything else that is live. -/
theorem Agrees.define (housed : Housed g liveness homes) (hb : b ∈ g.blocks) {front rest : List Instr}
    {i : Instr} (split : b.code = front ++ i :: rest) (plain : i.isPhi = false) {d : Temp}
    (hd : i.def? = some d) {w : Word}
    (h : Agrees homes (· ∈ liveFrom (liveness.after g b.label) (i :: rest)) s r)
    (new : ∀ l, homes.get? d = some l → r' l = some w)
    (kept : ∀ t ∈ liveFrom (liveness.after g b.label) rest, ∀ l, homes.get? t = some l →
      homes.get? d ≠ some l → r' l = r l) :
    Agrees homes (· ∈ liveFrom (liveness.after g b.label) rest) (Keeping.strict.set s d w) r' := by
  have named := Instr.def?_not_isSink plain hd
  intro t ht named' v hv
  by_cases same : t = d
  · subst same
    obtain rfl : w = v := Option.some.inj ((if_pos rfl).symm.trans hv)
    have mem : i ∈ b.body := Block.mem_body_of_mem_code (split ▸ List.mem_append_right _ List.mem_cons_self)
    obtain ⟨l, hl⟩ := housed.homed t (FlowGraph.mem_temps_of_def? hb mem hd) named
    exact ⟨l, hl, new l hl⟩
  · have old : s t = some v := (if_neg same).symm.trans hv
    have before : t ∈ liveFrom (liveness.after g b.label) (i :: rest) :=
      mem_liveBefore_of_ne hd same ht
    obtain ⟨l, hl, value⟩ := h t before named' v old
    refine ⟨l, hl, (kept t ht l hl fun e => ?_).trans value⟩
    exact housed.defs b hb front i rest split d hd named t ht named' (Ne.symm same) l e hl

/-- An instruction that defines nothing keeps values at home, if it spoils no home of what is
live. -/
theorem Agrees.pass {rest : List Instr} {i : Instr} (hd : i.def? = none)
    (h : Agrees homes (· ∈ liveFrom (liveness.after g b.label) (i :: rest)) s r)
    (kept : ∀ t ∈ liveFrom (liveness.after g b.label) rest, ∀ l, homes.get? t = some l → r' l = r l) :
    Agrees homes (· ∈ liveFrom (liveness.after g b.label) rest) s r' := by
  intro t ht named v hv
  obtain ⟨l, hl, value⟩ := h t (mem_liveBefore_of_undefined hd ht) named v hv
  exact ⟨l, hl, (kept t ht l hl).trans value⟩

/-! ## Phis -/

/-- The moves between homes that phis make when control comes from an edge. -/
def homeMoves (homes : Homes) (origin : Origin) : List Instr → List (Location × Location)
  | [] => []
  | .phi d args :: rest =>
    match (args.get? origin).bind homes.get?, homes.get? d with
    | some src, some dst => (dst, src) :: homeMoves homes origin rest
    | _, _ => homeMoves homes origin rest
  | _ :: rest => homeMoves homes origin rest

/-- Moves are made together: every destination has what its source had, and nothing else changes. -/
structure Moved (moves : List (Location × Location)) (r r' : Location → Option Word) : Prop where
  moved : ∀ m ∈ moves, r' m.1 = r m.2
  kept : ∀ l, l ∉ moves.map Prod.fst → r' l = r l

theorem mem_homeMoves {phis : List Instr} {m : Location × Location} :
    m ∈ homeMoves homes origin phis ↔ ∃ d args a, .phi d args ∈ phis ∧ args.get? origin = some a ∧
      homes.get? a = some m.2 ∧ homes.get? d = some m.1 := by
  induction phis with
  | nil => simp [homeMoves]
  | cons i rest ih =>
    cases i with
    | phi d args =>
      rw [homeMoves]
      constructor
      · intro h
        split at h
        · next src dst hsrc hdst =>
          obtain ⟨a, ha, hsrc⟩ := Option.bind_eq_some_iff.1 hsrc
          rcases List.mem_cons.1 h with rfl | h
          · exact ⟨d, args, a, List.mem_cons_self, ha, hsrc, hdst⟩
          · obtain ⟨d', args', a', mem, found⟩ := ih.1 h
            exact ⟨d', args', a', List.mem_cons_of_mem _ mem, found⟩
        · obtain ⟨d', args', a', mem, found⟩ := ih.1 h
          exact ⟨d', args', a', List.mem_cons_of_mem _ mem, found⟩
      · rintro ⟨d', args', a', mem, ha, hsrc, hdst⟩
        rcases List.mem_cons.1 mem with e | mem
        · cases e
          simp [ha, hsrc, hdst]
        · have := ih.2 ⟨d', args', a', mem, ha, hsrc, hdst⟩
          split
          · exact List.mem_cons_of_mem _ this
          · exact this
    | _ =>
      rw [homeMoves, ih]
      · simp
      · simp

/-- The moves of phis of a block have different destinations. -/
theorem nodup_homeMoves (housed : Housed g liveness homes) (named : g.PhisNamed) (hb : b ∈ g.blocks)
    {phis : List Instr} (all : ∀ i ∈ phis, i ∈ b.phis) (nodup : (phis.filterMap Instr.def?).Nodup) :
    ((homeMoves homes origin phis).map Prod.fst).Nodup := by
  induction phis with
  | nil => exact List.nodup_nil
  | cons i rest ih =>
    cases i with
    | phi d args =>
      have hd : (Instr.phi d args).def? = some d := rfl
      rw [List.filterMap_cons_some hd, List.nodup_cons] at nodup
      have ih := ih (fun i hi => all i (List.mem_cons_of_mem _ hi)) nodup.2
      have phi := all _ List.mem_cons_self
      rw [homeMoves]
      split
      · next src dst hsrc hdst =>
        refine List.nodup_cons.2 ⟨fun mem => ?_, ih⟩
        obtain ⟨m, hm, same⟩ := List.mem_map.1 mem
        obtain ⟨d', args', a', mem', -, -, hdst'⟩ := mem_homeMoves.1 hm
        have phi' := all _ (List.mem_cons_of_mem _ mem')
        have ne : d ≠ d' := by
          rintro rfl
          exact nodup.1 (List.mem_filterMap.2 ⟨_, mem', rfl⟩)
        exact housed.phis b hb d (Block.mem_phiDefs.2 ⟨_, phi⟩) (named b hb _ _ phi).1 d'
          (Block.mem_phiDefs.2 ⟨_, phi'⟩) (named b hb _ _ phi').1 ne dst hdst
          (hdst'.trans (congrArg some same))
      · exact ih
    | _ =>
      have phi := Block.isPhi_of_mem_phis (all _ List.mem_cons_self)
      cases phi

/-- The phis of a block keep values at home, if their moves are made together. -/
theorem Agrees.enter (solved : Solved g liveness) (housed : Housed g liveness homes)
    (named : g.PhisNamed) (hb : b ∈ g.blocks) (nodup : b.phiDefs.Nodup)
    (h : Agrees homes (fun t => liveness.Has g t (.enter origin b.label)) s r)
    (moved : Moved (homeMoves homes origin b.phis) r r') :
    Agrees homes (· ∈ liveFrom (liveness.after g b.label) b.code)
      (Keeping.strict.assign origin b.phis s) r' := by
  have all : ∀ i ∈ b.phis, i.isPhi = true := fun i => Block.isPhi_of_mem_phis
  intro t ht named' w hw
  by_cases phi : t ∈ b.phiDefs
  · obtain ⟨args, mem⟩ := Block.mem_phiDefs.1 phi
    rw [Keeping.strict_assign_of_mem all nodup mem] at hw
    obtain ⟨a, ha, hw⟩ := Option.bind_eq_some_iff.1 hw
    have arg : a ∈ b.phiArgsFrom origin := Block.mem_phiArgsFrom.2 ⟨t, args, mem, ha⟩
    have value : a ∈ args.values := List.mem_map.2 ⟨_, SortedMap.get?_eq_some.1 ha, rfl⟩
    obtain ⟨src, hsrc, hr⟩ := h a (.inr ⟨b, hb, rfl, arg⟩) ((named b hb t args mem).2 a value) w hw
    obtain ⟨dst, hdst⟩ := housed.homed t (FlowGraph.mem_temps_of_def? hb
      (Block.mem_body_of_mem_phis mem) rfl) named'
    refine ⟨dst, hdst, ?_⟩
    exact (moved.moved (dst, src) (mem_homeMoves.2 ⟨t, args, a, mem, ha, hsrc, hdst⟩)).trans hr
  · have kept : Keeping.strict.assign origin b.phis s t = s t :=
      Keeping.get?_assign Keeping.strict_lawful all phi
    rw [kept] at hw
    obtain ⟨l, hl, hr⟩ := h t (.inl ((solved.mem_before hb).2 ⟨phi, ht⟩)) named' w hw
    refine ⟨l, hl, (moved.kept l fun mem => ?_).trans hr⟩
    -- a phi that wrote the home of what is live behind it
    obtain ⟨m, hm, rfl⟩ := List.mem_map.1 mem
    obtain ⟨d, args, a, phi', -, -, hdst⟩ := mem_homeMoves.1 hm
    have hd : d ∈ b.phiDefs := Block.mem_phiDefs.2 ⟨args, phi'⟩
    have ne : d ≠ t := by
      rintro rfl
      exact phi hd
    exact housed.phi b hb d hd (named b hb d args phi').1 t ht named' ne m.1 hdst hl

end Agrees

end ThreeAddress
