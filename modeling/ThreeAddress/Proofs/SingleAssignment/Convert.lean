import Mathlib.Data.List.Zip
import ThreeAddress.Proofs.FlowGraph.Build
import ThreeAddress.Proofs.Liveness.Rounds
import ThreeAddress.Proofs.SingleAssignment.Versioned
import ThreeAddress.SingleAssignment.Convert
/-!
# The conversion to single assignment

All definitions of a converted procedure are fresh versions, given out in the order of the text,
and each belongs to the temporary that it was given out for.

* `FreshNames.issue` : versions of several temporaries, one after the other;
* `renameBody_spec`, `renameBlocks_spec` : what the renaming of code and of blocks gives;
* `versioned_of_convert` : the conversion is a single-assignment form.
-/

namespace ThreeAddress

/-! ## Fresh versions -/

namespace FreshNames

/-- Versions of several temporaries, one after the other. -/
def issue (names : FreshNames) : List Temp → List Temp × FreshNames
  | [] => ([], names)
  | t :: rest =>
    ((names.version t).1 :: ((names.version t).2.issue rest).1,
      ((names.version t).2.issue rest).2)

variable {names : FreshNames} {t : Temp} {ts us : List Temp}

/-- The version given out was not in use. -/
theorem version_not_mem : (names.version t).1 ∉ names.temps := by
  intro h
  have free : (fun n => names.temps.contains (t.withVersion n)) (firstFree
      (fun n => names.temps.contains (t.withVersion n)) names.temps.size names.nextVersion) = false :=
    taken_firstFree (names.temps.toList.map fun u => u.version.getD 0)
      (fun n _ taken => List.mem_map.2 ⟨_, SortedSet.contains_eq_true.1 taken, rfl⟩)
      (by rw [List.length_map]; exact Nat.le_refl _)
  have taken := SortedSet.contains_eq_true.2 h
  rw [version] at taken
  exact absurd (free.symm.trans taken) (by decide)

/-- The number of a version, which the next ones exceed. -/
theorem version_spec : ∃ n, (names.version t).1 = t.withVersion n ∧ names.nextVersion ≤ n ∧
    (names.version t).2.nextVersion = n + 1 ∧ (names.version t).2.temps = names.temps :=
  ⟨_, rfl, start_le_firstFree _ _ _, rfl, rfl⟩

theorem issue_append : names.issue (ts ++ us) =
    ((names.issue ts).1 ++ ((names.issue ts).2.issue us).1,
      ((names.issue ts).2.issue us).2) := by
  induction ts generalizing names with
  | nil => rfl
  | cons t ts ih => simp only [List.cons_append, issue, ih]

theorem length_issue : (names.issue ts).1.length = ts.length := by
  induction ts generalizing names with
  | nil => rfl
  | cons t ts ih => rw [issue, List.length_cons, List.length_cons, ih]

/-- Versions that are given out have ascending numbers. -/
theorem exists_version_of_mem {v : Temp} (h : v ∈ (names.issue ts).1) :
    v ∉ names.temps ∧ ∃ n, v.version = some n ∧ names.nextVersion ≤ n := by
  induction ts generalizing names with
  | nil => cases h
  | cons t ts ih =>
    obtain ⟨n, new, le, next, temps⟩ := @version_spec names t
    rcases List.mem_cons.1 h with rfl | h
    · exact ⟨version_not_mem, n, by rw [new]; rfl, le⟩
    · obtain ⟨free, m, number, le'⟩ := ih h
      rw [temps] at free
      rw [next] at le'
      exact ⟨free, m, number, by omega⟩

theorem issue_nodup : (names.issue ts).1.Nodup := by
  induction ts generalizing names with
  | nil => exact List.nodup_nil
  | cons t ts ih =>
    obtain ⟨n, new, -, next, -⟩ := @version_spec names t
    refine List.nodup_cons.2 ⟨fun h => ?_, ih⟩
    obtain ⟨-, m, number, le⟩ := exists_version_of_mem h
    rw [new] at number
    cases number
    omega

/-- A version is written like its temporary, but for the number. -/
theorem root_of_mem_zip {v : Temp} (h : (v, t) ∈ (names.issue ts).1.zip ts) : v.root = t.root := by
  induction ts generalizing names with
  | nil => simp [issue] at h
  | cons u ts ih =>
    rw [issue, List.zip_cons_cons] at h
    rcases List.mem_cons.1 h with e | h
    · cases e
      obtain ⟨n, new, -⟩ := @version_spec names t
      rw [new]
      rfl
    · exact ih h

theorem not_isSink_of_mem {v : Temp} (h : v ∈ (names.issue ts).1) : v.isSink = false := by
  obtain ⟨-, n, number, -⟩ := exists_version_of_mem h
  cases sink : v.isSink with
  | false => rfl
  | true =>
    rw [Temp.isSink_iff.1 sink] at number
    cases number

end FreshNames

/-! ## The temporary that a version belongs to -/

/-- Look for the temporary of a version. What is no version belongs to itself. -/
def rootOf (pairs : List (Temp × Temp)) (v : Temp) : Temp :=
  ((pairs.find? fun e => e.1 == v).map Prod.snd).getD v

theorem rootOf_of_mem {pairs : List (Temp × Temp)} (nodup : (pairs.map Prod.fst).Nodup) {v t : Temp}
    (h : (v, t) ∈ pairs) : rootOf pairs v = t := by
  rw [rootOf]
  cases found : pairs.find? fun e => e.1 == v with
  | none => simpa using List.find?_eq_none.1 found _ h
  | some e =>
    have same : e.1 = v := by simpa using List.find?_some found
    exact congrArg Prod.snd (List.inj_on_of_nodup_map nodup (List.mem_of_find?_eq_some found) h same)

/-- Look for the temporary that a version was given out for. -/
theorem FreshNames.rootOf_issue {names : FreshNames} {ts : List Temp} {e : Temp × Temp}
    (h : e ∈ (names.issue ts).1.zip ts) : rootOf ((names.issue ts).1.zip ts) e.1 = e.2 := by
  refine rootOf_of_mem ?_ h
  rw [List.map_fst_zip (Nat.le_of_eq length_issue)]
  exact issue_nodup

theorem rootOf_of_not_mem {pairs : List (Temp × Temp)} {v : Temp} (h : v ∉ pairs.map Prod.fst) :
    rootOf pairs v = v := by
  rw [rootOf]
  cases found : pairs.find? fun e => e.1 == v with
  | none => rfl
  | some e =>
    have same : e.1 = v := by simpa using List.find?_some found
    exact absurd (List.mem_map.2 ⟨e, List.mem_of_find?_eq_some found, same⟩) h

namespace FreshNames

variable {names : FreshNames} {ts : List Temp} {v : Temp}

theorem rootOf_issue_of_not_mem (h : v ∉ (names.issue ts).1) :
    rootOf ((names.issue ts).1.zip ts) v = v := by
  refine rootOf_of_not_mem ?_
  rwa [List.map_fst_zip (Nat.le_of_eq length_issue)]

/-- Whatever belongs to a temporary is written like it, but for the number. -/
theorem root_rootOf_issue (v : Temp) : (rootOf ((names.issue ts).1.zip ts) v).root = v.root := by
  by_cases mem : v ∈ (names.issue ts).1
  · rw [← List.map_fst_zip (Nat.le_of_eq length_issue)] at mem
    obtain ⟨⟨u, t⟩, he, rfl⟩ := List.mem_map.1 mem
    exact (congrArg Temp.root (rootOf_issue he)).trans (root_of_mem_zip he).symm
  · rw [rootOf_issue_of_not_mem mem]

end FreshNames

/-! ## Renaming code -/

theorem Versions.current_insert (vs : Versions) (t n : Temp) :
    Versions.current (SortedMap.insert vs t n) = Function.update (Versions.current vs) t n := by
  funext u
  rw [Versions.current, SortedMap.get?_insert]
  by_cases h : u = t
  · subst h
    rw [if_pos rfl, Function.update_self]
    rfl
  · rw [if_neg h, Function.update_of_ne h, Versions.current]

/-- Renamed code defines fresh versions in the order of the text. -/
theorem renameBody_spec (vs : Versions) (names : FreshNames) (body : List Instr) :
    (renameBody vs names body).2.2 = (names.issue (body.filterMap Instr.def?)).2 ∧
    (renameBody vs names body).1.filterMap Instr.def? =
      (names.issue (body.filterMap Instr.def?)).1 ∧
    (∀ root : Temp → Temp, (∀ e ∈ (names.issue (body.filterMap Instr.def?)).1.zip
        (body.filterMap Instr.def?), root e.1 = e.2) →
      Renames root vs.current body (renameBody vs names body).1
        (Versions.current (renameBody vs names body).2.1)) ∧
    ∀ t, (∃ v, SortedMap.get? vs t = some v) ∨ t ∈ body.filterMap Instr.def? →
      ∃ v, SortedMap.get? (renameBody vs names body).2.1 t = some v := by
  induction body generalizing vs names with
  | nil =>
    refine ⟨rfl, rfl, fun root _ => .nil _, fun t h => h.resolve_right ?_⟩
    exact List.not_mem_nil
  | cons i rest ih =>
    cases hd : i.def? with
    | none =>
      have defs : (i :: rest).filterMap Instr.def? = rest.filterMap Instr.def? :=
        List.filterMap_cons_none hd
      have step : renameBody vs names (i :: rest) =
          (i.mapUses vs.current :: (renameBody vs names rest).1, (renameBody vs names rest).2) := by
        rw [renameBody, Instr.def?_mapUses, hd]
      rw [defs, step]
      obtain ⟨names_eq, defs_eq, renames, last⟩ := ih vs names
      refine ⟨names_eq, ?_, fun root h => .keeps hd (renames root h), last⟩
      rw [List.filterMap_cons_none ((Instr.def?_mapUses _ i).trans hd), defs_eq]
    | some t =>
      have defs : (i :: rest).filterMap Instr.def? = t :: rest.filterMap Instr.def? :=
        List.filterMap_cons_some hd
      have step : renameBody vs names (i :: rest) =
          ((i.mapUses vs.current).setDef (names.version t).1 ::
            (renameBody (SortedMap.insert vs t (names.version t).1) (names.version t).2 rest).1,
            (renameBody (SortedMap.insert vs t (names.version t).1) (names.version t).2 rest).2) := by
        rw [renameBody, Instr.def?_mapUses, hd]
      obtain ⟨names_eq, defs_eq, renames, last⟩ :=
        ih (SortedMap.insert vs t (names.version t).1) (names.version t).2
      have named : (names.version t).1.isSink = false :=
        @FreshNames.not_isSink_of_mem names [t] _ List.mem_cons_self
      rw [defs, step, FreshNames.issue]
      refine ⟨names_eq, ?_, fun root h => .defines hd ?_ ?_, fun u hu => last u ?_⟩
      · rw [List.filterMap_cons_some (Instr.def?_setDef ((Instr.def?_mapUses _ i).trans hd) named),
          defs_eq]
      · exact h (_, t) List.mem_cons_self
      · rw [← Versions.current_insert]
        exact renames root fun e he => h e (List.mem_cons_of_mem _ he)
      · rw [SortedMap.get?_insert]
        by_cases same : u = t
        · exact .inl ⟨_, if_pos same⟩
        · rw [if_neg same]
          exact hu.imp id fun mem => (List.mem_cons.1 mem).resolve_left same

/-- Fresh versions of some temporaries. -/
theorem renameAll_eq (vs : Versions) (names : FreshNames) (ts : List Temp) :
    renameAll vs names ts = ((names.issue ts).1,
      (ts.zip (names.issue ts).1).foldl (fun m e => SortedMap.insert m e.1 e.2) vs,
      (names.issue ts).2) := by
  induction ts generalizing vs names with
  | nil => rfl
  | cons t ts ih =>
    have step : renameAll vs names (t :: ts) =
        ((names.version t).1 ::
            (renameAll (SortedMap.insert vs t (names.version t).1) (names.version t).2 ts).1,
          (renameAll (SortedMap.insert vs t (names.version t).1) (names.version t).2 ts).2) := rfl
    rw [step, ih, FreshNames.issue, List.zip_cons_cons, List.foldl_cons]

/-! ## Renaming blocks -/

/-- The temporaries that a block gets versions of: one for each phi, then those of its code. -/
def Block.renamed (live : Liveness) (b : Block) : List Temp :=
  (live.before b.label).toList ++ b.body.filterMap Instr.def?

/-- The versions that a renamed block defines. -/
def RenamedBlock.defs (r : RenamedBlock) : List Temp :=
  r.phis.map Prod.snd ++ r.body.filterMap Instr.def?

/-- The versions behind the phis. -/
def RenamedBlock.first (r : RenamedBlock) : Versions := .ofList r.phis

/-- A block and its renamed form. -/
structure RenamedFrom (live : Liveness) (root : Temp → Temp) (b : Block) (r : RenamedBlock) :
    Prop where
  label : r.label = b.label
  named : r.named = b.named
  /-- There is a phi for every temporary that is live before the block. -/
  phis : ∃ dests, r.phis = (live.before b.label).toList.zip dests ∧
    dests.length = (live.before b.label).toList.length
  root_phis : ∀ e ∈ r.phis, root e.2 = e.1
  code : Renames root r.first.current b.body r.body (Versions.current r.last)
  last : ∀ t, t ∈ live.before b.label ∨ t ∈ b.body.filterMap Instr.def? →
    ∃ v, SortedMap.get? r.last t = some v

theorem mem_of_zip_swap {l k : List Temp} {a b : Temp} (h : (a, b) ∈ l.zip k) : (b, a) ∈ k.zip l := by
  rw [← List.zip_swap]
  exact List.mem_map.2 ⟨_, h, rfl⟩

/-- The renamed form of a block, and the names left: versions for the phis first, then for the code. -/
def Block.versioned (live : Liveness) (names : FreshNames) (b : Block) :
    RenamedBlock × FreshNames :=
  let roots := (live.before b.label).toList
  let dests := names.issue roots
  let code := renameBody (.ofList (roots.zip dests.1)) dests.2 b.body
  (⟨b.label, b.named, roots.zip dests.1, code.1, code.2.1⟩, code.2.2)

theorem renameBlocks_cons (live : Liveness) (names : FreshNames) (b : Block) (rest : List Block) :
    renameBlocks live names (b :: rest) =
      ((b.versioned live names).1 :: (renameBlocks live (b.versioned live names).2 rest).1,
        (renameBlocks live (b.versioned live names).2 rest).2) := by
  simp only [renameBlocks, renameAll_eq]
  rfl

/-- A renamed block defines fresh versions in the order of the text. -/
theorem Block.versioned_spec (live : Liveness) (names : FreshNames) (b : Block) :
    (b.versioned live names).2 = (names.issue (b.renamed live)).2 ∧
    (b.versioned live names).1.defs = (names.issue (b.renamed live)).1 ∧
    ∀ root : Temp → Temp, (∀ e ∈ (names.issue (b.renamed live)).1.zip (b.renamed live),
      root e.1 = e.2) → RenamedFrom live root b (b.versioned live names).1 := by
  obtain ⟨roots, hroots⟩ : ∃ roots, roots = (live.before b.label).toList := ⟨_, rfl⟩
  have len := @FreshNames.length_issue names roots
  obtain ⟨left, defs, renames, last⟩ :=
    renameBody_spec (.ofList (roots.zip (names.issue roots).1)) (names.issue roots).2 b.body
  rw [Block.renamed, Block.versioned, ← hroots, FreshNames.issue_append]
  refine ⟨left, ?_, fun root h => ?_⟩
  · rw [RenamedBlock.defs, defs]
    exact congrArg (· ++ _) (List.map_snd_zip (Nat.le_of_eq len))
  rw [List.zip_append len] at h
  exact {
    label := rfl
    named := rfl
    phis := ⟨_, by rw [hroots], by rw [← hroots]; exact len⟩
    root_phis := fun e he => h (e.2, e.1) (List.mem_append_left _ (mem_of_zip_swap he))
    code := renames root fun e he => h e (List.mem_append_right _ he)
    last := by
      intro t ht
      refine last t (ht.imp (fun before => ?_) id)
      -- there is a phi for what is live before the block
      have keys : (roots.zip (names.issue roots).1).map Prod.fst = roots :=
        List.map_fst_zip (Nat.le_of_eq len.symm)
      have nodup : ((roots.zip (names.issue roots).1).map Prod.fst).Nodup := by
        rw [keys, hroots]
        exact SortedSet.nodup_toList _
      have mem : t ∈ (roots.zip (names.issue roots).1).map Prod.fst := by
        rw [keys, hroots]
        exact before
      obtain ⟨e, he, rfl⟩ := List.mem_map.1 mem
      exact ⟨e.2, SortedMap.get?_ofList nodup he⟩ }

/-- Renamed blocks define fresh versions in the order of the text. -/
theorem renameBlocks_spec (live : Liveness) (names : FreshNames) (bs : List Block) :
    (renameBlocks live names bs).2 = (names.issue (bs.flatMap (Block.renamed live))).2 ∧
    (renameBlocks live names bs).1.flatMap RenamedBlock.defs =
      (names.issue (bs.flatMap (Block.renamed live))).1 ∧
    ∀ root : Temp → Temp, (∀ e ∈ (names.issue (bs.flatMap (Block.renamed live))).1.zip
        (bs.flatMap (Block.renamed live)), root e.1 = e.2) →
      List.Forall₂ (RenamedFrom live root) bs (renameBlocks live names bs).1 := by
  induction bs generalizing names with
  | nil => exact ⟨rfl, rfl, fun root _ => .nil⟩
  | cons b rest ih =>
    obtain ⟨left, defs, from_⟩ := b.versioned_spec live names
    obtain ⟨left', defs', related⟩ := ih (b.versioned live names).2
    rw [left] at left' defs' related
    rw [renameBlocks_cons, left, List.flatMap_cons, FreshNames.issue_append]
    refine ⟨left', ?_, fun root h => ?_⟩
    · rw [List.flatMap_cons, defs, defs']
    · rw [List.zip_append FreshNames.length_issue] at h
      exact .cons (from_ root fun e he => h e (List.mem_append_left _ he))
        (related root fun e he => h e (List.mem_append_right _ he))

/-! ## The conversion -/

section Convert

variable {g : FlowGraph} {live : Liveness} {root : Temp → Temp} {rs : List RenamedBlock}

/-- A renamed block with its phis. -/
def RenamedBlock.toBlock (g : FlowGraph) (rs : List RenamedBlock) (r : RenamedBlock) : Block :=
  ⟨r.label, r.named, r.phis.map (fun e => .phi e.2 (g.phiArgs rs r.label e.1)) ++ r.body⟩

/-- Renamed code begins with a phi only if the code does. -/
theorem Renames.head {env last : Temp → Temp} {code code' : List Instr}
    (h : Renames root env code code' last) (none : code.takeWhile Instr.isPhi = []) :
    code'.takeWhile Instr.isPhi = [] := by
  cases h with
  | nil => rfl
  | @keeps _ _ i =>
    cases phi : i.isPhi with
    | true => simp [phi] at none
    | false => exact List.takeWhile_cons_of_neg (by simp [phi])
  | @defines _ _ i =>
    cases phi : i.isPhi with
    | true => simp [phi] at none
    | false => exact List.takeWhile_cons_of_neg (by simp [phi])

/-- A version that was current, or that the code defined, belongs to its temporary. -/
theorem Renames.root_last {env last : Temp → Temp} {code code' : List Instr} {t : Temp}
    (h : Renames root env code code' last)
    (ht : root (env t) = t ∨ t ∈ code.filterMap Instr.def?) : root (last t) = t := by
  induction h with
  | nil => exact ht.resolve_right List.not_mem_nil
  | keeps hd _ ih =>
    rw [List.filterMap_cons_none hd] at ht
    exact ih ht
  | @defines env _ _ u n _ _ hd hn _ ih =>
    rw [List.filterMap_cons_some hd, List.mem_cons] at ht
    refine ih ?_
    by_cases same : t = u
    · rw [same, Function.update_self]
      exact .inl hn
    · rw [Function.update_of_ne same]
      exact ht.imp id fun mem => mem.resolve_left same

/-- What is live after code is live before it or defined by it. -/
theorem mem_liveFrom_or_def {after : SortedSet Temp} {code : List Instr} {t : Temp} (ht : t ∈ after) :
    t ∈ liveFrom after code ∨ t ∈ code.filterMap Instr.def? := by
  induction code with
  | nil => exact .inl ht
  | cons i rest ih =>
    by_cases hd : i.def? = some t
    · rw [List.filterMap_cons_some hd]
      exact .inr List.mem_cons_self
    · rcases ih with before | mem
      · exact .inl (mem_liveBefore.2 (.inr ⟨hd, before⟩))
      · rw [List.mem_filterMap] at mem ⊢
        obtain ⟨j, hj, hd⟩ := mem
        exact .inr ⟨j, List.mem_cons_of_mem _ hj, hd⟩

/-- The renamed blocks of a procedure. -/
structure RenamedAll (g : FlowGraph) (live : Liveness) (root : Temp → Temp)
    (rs : List RenamedBlock) : Prop where
  nodup : g.labels.Nodup
  each : List.Forall₂ (RenamedFrom live root) g.blocks rs

namespace RenamedAll

theorem labels (h : RenamedAll g live root rs) : rs.map RenamedBlock.label = g.labels := by
  have all : ∀ {bs : List Block} {rs : List RenamedBlock},
      List.Forall₂ (RenamedFrom live root) bs rs →
        rs.map RenamedBlock.label = bs.map Block.label := by
    intro bs rs each
    induction each with
    | nil => rfl
    | cons first _ ih => rw [List.map_cons, List.map_cons, ih, first.label]
  exact all h.each

theorem find (h : RenamedAll g live root rs) {r : RenamedBlock} (hr : r ∈ rs) :
    rs.find? (fun s => s.label == r.label) = some r := by
  cases found : rs.find? fun s => s.label == r.label with
  | none => simpa using List.find?_eq_none.1 found _ hr
  | some s =>
    have same : s.label = r.label := by simpa using List.find?_some found
    have nodup : (rs.map RenamedBlock.label).Nodup := h.labels ▸ h.nodup
    rw [List.inj_on_of_nodup_map nodup (List.mem_of_find?_eq_some found) hr same]

/-- A block has its renamed form. -/
theorem exists_renamed (h : RenamedAll g live root rs) {b : Block} (hb : b ∈ g.blocks) :
    ∃ r ∈ rs, RenamedFrom live root b r := by
  have all : ∀ {bs : List Block} {rs : List RenamedBlock},
      List.Forall₂ (RenamedFrom live root) bs rs → b ∈ bs → ∃ r ∈ rs, RenamedFrom live root b r := by
    intro bs rs each
    induction each with
    | nil => exact fun hb => by cases hb
    | cons first _ ih =>
      intro hb
      rcases List.mem_cons.1 hb with rfl | hb
      · exact ⟨_, List.mem_cons_self, first⟩
      · obtain ⟨r, hr, related⟩ := ih hb
        exact ⟨r, List.mem_cons_of_mem _ hr, related⟩
  exact all h.each hb

/-- A renamed block comes from the block with its label. -/
theorem renamedFrom (h : RenamedAll g live root rs) {b : Block} (hb : b ∈ g.blocks)
    {r : RenamedBlock} (hr : r ∈ rs) (label : r.label = b.label) : RenamedFrom live root b r := by
  obtain ⟨s, hs, related⟩ := h.exists_renamed hb
  have same := h.find hs
  rw [related.label, ← label, h.find hr] at same
  cases same
  exact related

/-- A renamed block comes from a block. -/
theorem exists_source (h : RenamedAll g live root rs) {r : RenamedBlock} (hr : r ∈ rs) :
    ∃ b ∈ g.blocks, r.label = b.label ∧ RenamedFrom live root b r := by
  have mem : r.label ∈ g.labels := h.labels ▸ List.mem_map_of_mem hr
  obtain ⟨b, hb, label⟩ := FlowGraph.mem_labels.1 mem
  exact ⟨b, hb, label.symm, h.renamedFrom hb hr label.symm⟩

/-- With phis, the renamed blocks have the labels of the blocks. -/
theorem labels_toBlocks (h : RenamedAll g live root rs) (name : Global) (params : List Temp) :
    FlowGraph.labels ⟨name, params, rs.map (RenamedBlock.toBlock g rs)⟩ = g.labels := by
  rw [← h.labels, FlowGraph.labels, List.map_map]
  rfl

end RenamedAll

/-- Blocks can be renamed, whatever names there are. -/
theorem exists_renamedAll (nodup : g.labels.Nodup) (live : Liveness) (names : FreshNames) :
    ∃ root, RenamedAll g live root (renameBlocks live names g.blocks).1 :=
  ⟨_, nodup, (renameBlocks_spec live names g.blocks).2.2 _ fun _ he => FreshNames.rootOf_issue he⟩

/-- The versions of a conversion. -/
def versioning (root : Temp → Temp) (rs : List RenamedBlock) : Versioning where
  root
  start l t := ((rs.find? fun r => r.label == l).map fun r => r.first.current t).getD t
  finish l t := ((rs.find? fun r => r.label == l).map fun r => Versions.current r.last t).getD t

namespace RenamedAll

theorem start (h : RenamedAll g live root rs) {r : RenamedBlock} (hr : r ∈ rs) :
    (versioning root rs).start r.label = r.first.current := by
  funext t
  simp only [versioning, h.find hr, Option.map_some, Option.getD_some]

theorem finish (h : RenamedAll g live root rs) {r : RenamedBlock} (hr : r ∈ rs) :
    (versioning root rs).finish r.label = Versions.current r.last := by
  funext t
  simp only [versioning, h.find hr, Option.map_some, Option.getD_some]

end RenamedAll

/-- The version behind the phi of a temporary. -/
theorem RenamedFrom.start_of_mem {b : Block} {r : RenamedBlock} (h : RenamedFrom live root b r)
    {e : Temp × Temp} (he : e ∈ r.phis) : r.first.current e.1 = e.2 := by
  obtain ⟨dests, phis, len⟩ := h.phis
  have nodup : (r.phis.map Prod.fst).Nodup := by
    rw [phis, List.map_fst_zip (Nat.le_of_eq len.symm)]
    exact SortedSet.nodup_toList _
  rw [Versions.current, RenamedBlock.first, SortedMap.get?_ofList nodup he]
  rfl

/-- There is a phi for every temporary that is live before a block, and for no other. -/
theorem RenamedFrom.mem_before_iff {b : Block} {r : RenamedBlock} (h : RenamedFrom live root b r)
    {t : Temp} : t ∈ live.before b.label ↔ ∃ d, (t, d) ∈ r.phis := by
  obtain ⟨dests, phis, len⟩ := h.phis
  have keys : r.phis.map Prod.fst = (live.before b.label).toList := by
    rw [phis, List.map_fst_zip (Nat.le_of_eq len.symm)]
  rw [SortedSet.mem_iff, ← keys, List.mem_map]
  constructor
  · rintro ⟨⟨u, d⟩, he, rfl⟩
    exact ⟨d, he⟩
  · rintro ⟨d, he⟩
    exact ⟨_, he, rfl⟩

/-- In front of renamed code there are the phis of the block, and no others. -/
theorem RenamedFrom.phis_and_code_toBlock {b : Block} {r : RenamedBlock}
    (h : RenamedFrom live root b r) (bare : g.Bare) (hb : b ∈ g.blocks) :
    (r.toBlock g rs).phis = r.phis.map (fun e => .phi e.2 (g.phiArgs rs r.label e.1)) ∧
      (r.toBlock g rs).code = r.body := by
  refine Block.phis_and_code_of_head rfl (fun i hi => ?_) (h.code.head (bare.heads b hb))
  obtain ⟨e, -, rfl⟩ := List.mem_map.1 hi
  rfl

/-! ## Arguments of phis -/

theorem Solved.mem_before_of_bare (solved : Solved g live) (bare : g.Bare) {b : Block}
    (hb : b ∈ g.blocks) {t : Temp} :
    t ∈ live.before b.label ↔ t ∈ liveFrom (live.after g b.label) b.body := by
  have none := bare.heads b hb
  rw [solved.mem_before hb, Block.code_of_phis_nil none, Block.phiDefs, none]
  simp

namespace RenamedAll

/-- What is live before a block has a version at the end of each block in front of it. -/
theorem lastVersion (h : RenamedAll g live root rs) (solved : Solved g live) (bare : g.Bare)
    {l p : Label} {t : Temp} (ht : t ∈ live.before l) (hp : p ∈ g.preds l) :
    lastVersion? rs p t = some ((versioning root rs).finish p t) ∧
      root ((versioning root rs).finish p t) = t := by
  obtain ⟨b, hb, rfl, edge⟩ := (FlowGraph.mem_preds h.nodup).1 hp
  obtain ⟨r, hr, related⟩ := h.exists_renamed hb
  have after : t ∈ live.after g b.label := Liveness.mem_after h.nodup hb edge (.inl ht)
  have source : t ∈ live.before b.label ∨ t ∈ b.body.filterMap Instr.def? := by
    rw [solved.mem_before_of_bare bare hb]
    exact mem_liveFrom_or_def after
  obtain ⟨v, hv⟩ := related.last t source
  rw [← related.label, h.finish hr]
  constructor
  · rw [lastVersion?, h.find hr, Option.bind_some, hv, Versions.current, hv]
    rfl
  · refine related.code.root_last (source.imp (fun before => ?_) id)
    obtain ⟨d, hd⟩ := related.mem_before_iff.1 before
    rw [related.start_of_mem hd]
    exact related.root_phis _ hd

variable (h : RenamedAll g live root rs) (solved : Solved g live) (bare : g.Bare) {l : Label}
  {t : Temp} (ht : t ∈ live.before l)

include h solved bare ht

/-- The arguments of the phi of a temporary, as a list. -/
theorem mem_phiArgs {origin : Origin} {v : Temp} (hv : (g.phiArgs rs l t).get? origin = some v) :
    (∃ p ∈ g.preds l, origin = .block p ∧ v = (versioning root rs).finish p t) ∨
      origin = .entry ∧ v = t ∧ g.entry? = some l ∧ t ∈ g.params := by
  rw [FlowGraph.phiArgs] at hv
  rcases List.mem_append.1 (SortedMap.mem_of_get?_ofList hv) with mem | mem
  · obtain ⟨p, hp, found⟩ := List.mem_filterMap.1 mem
    rw [(h.lastVersion solved bare ht hp).1] at found
    cases found
    exact .inl ⟨p, hp, rfl, rfl⟩
  · by_cases first : g.entry? = some l ∧ t ∈ g.params
    · rw [if_pos first, List.mem_singleton] at mem
      cases mem
      exact .inr ⟨rfl, rfl, first⟩
    · rw [if_neg first] at mem
      cases mem

/-- The argument for an edge is the version at the end of the block that the edge comes from. -/
theorem phiArgs_block {p : Label} (hp : p ∈ g.preds l) :
    (g.phiArgs rs l t).get? (.block p) = some ((versioning root rs).finish p t) := by
  rw [FlowGraph.phiArgs]
  refine SortedMap.get?_ofList_of_mem (List.mem_append_left _ ?_) fun w hw => ?_
  · exact List.mem_filterMap.2 ⟨p, hp, by rw [(h.lastVersion solved bare ht hp).1]; rfl⟩
  · rcases List.mem_append.1 hw with mem | mem
    · obtain ⟨q, hq, found⟩ := List.mem_filterMap.1 mem
      rw [(h.lastVersion solved bare ht hq).1] at found
      cases found
      rfl
    · by_cases first : g.entry? = some l ∧ t ∈ g.params
      · rw [if_pos first, List.mem_singleton] at mem
        cases mem
      · rw [if_neg first] at mem
        cases mem

/-- The argument for the entry is the parameter itself. -/
theorem phiArgs_entry : (g.phiArgs rs l t).get? .entry =
    if g.entry? = some l ∧ t ∈ g.params then some t else none := by
  by_cases first : g.entry? = some l ∧ t ∈ g.params
  · rw [if_pos first, FlowGraph.phiArgs, if_pos first]
    refine SortedMap.get?_ofList_of_mem (List.mem_append_right _ (List.mem_singleton.2 rfl))
      fun w hw => ?_
    rcases List.mem_append.1 hw with mem | mem
    · obtain ⟨q, hq, found⟩ := List.mem_filterMap.1 mem
      rw [(h.lastVersion solved bare ht hq).1] at found
      cases found
    · rw [List.mem_singleton] at mem
      cases mem
      rfl
  · rw [if_neg first]
    cases hv : (g.phiArgs rs l t).get? .entry with
    | none => rfl
    | some v =>
      rcases h.mem_phiArgs solved bare ht hv with ⟨p, -, e, -⟩ | ⟨-, -, both⟩
      · cases e
      · exact absurd both first

end RenamedAll

/-! ## The whole conversion -/

/-- What a conversion is made of. -/
theorem exists_renamed_of_convert {names : FreshNames} {c : Conversion}
    (h : g.convert names = .ok c) : ∃ live, g.liveness = .ok live ∧
      c.graph = ⟨g.name, g.params, (renameBlocks live names g.blocks).1.map
        (RenamedBlock.toBlock g (renameBlocks live names g.blocks).1)⟩ := by
  rw [FlowGraph.convert] at h
  cases live : g.liveness with
  | error e => simp [live, bind, Except.bind] at h
  | ok found =>
    simp only [live, bind, Except.bind, pure, Except.pure, Except.ok.injEq] at h
    exact ⟨found, rfl, by rw [← h]; rfl⟩

/-- The definitions of the renamed blocks are those of the converted procedure. -/
theorem defs_toBlock (r : RenamedBlock) :
    (r.toBlock g rs).body.filterMap Instr.def? = r.defs := by
  have phis : ∀ l : List (Temp × Temp), (l.map fun e => Instr.phi e.2 (g.phiArgs rs r.label e.1)).filterMap
      Instr.def? = l.map Prod.snd := by
    intro l
    induction l with
    | nil => rfl
    | cons e rest ih => exact congrArg (e.2 :: ·) ih
  rw [RenamedBlock.toBlock, List.filterMap_append, phis, RenamedBlock.defs]

theorem defs_toBlocks (name : Global) (params : List Temp) (rs' : List RenamedBlock) :
    FlowGraph.defs ⟨name, params, rs'.map (RenamedBlock.toBlock g rs)⟩ =
      rs'.flatMap RenamedBlock.defs := by
  rw [FlowGraph.defs, FlowGraph.code, List.filterMap_flatMap, List.flatMap_map]
  exact List.flatMap_congr fun r _ => defs_toBlock r

/-- Whatever is converted, phis or not, the labels and the parameters stay, and every definition is
of a temporary of its own. -/
theorem shape_of_convert (nodup : g.labels.Nodup) {names : FreshNames} {c : Conversion}
    (h : g.convert names = .ok c) :
    c.graph.labels = g.labels ∧ c.graph.params = g.params ∧ c.graph.defs.Nodup := by
  obtain ⟨live, -, graph⟩ := exists_renamed_of_convert h
  obtain ⟨-, defs, -⟩ := renameBlocks_spec live names g.blocks
  obtain ⟨root, all⟩ := exists_renamedAll nodup live names
  refine ⟨graph ▸ all.labels_toBlocks g.name g.params, by rw [graph], ?_⟩
  rw [graph, defs_toBlocks, defs]
  exact FreshNames.issue_nodup

namespace RenamedAll

variable (h : RenamedAll g live root rs)

include h

/-- A block of the converted procedure, the renamed block and the block that they come from. -/
theorem exists_of_mem_toBlocks {b' : Block} (hb' : b' ∈ rs.map (RenamedBlock.toBlock g rs)) :
    ∃ r ∈ rs, ∃ b ∈ g.blocks, b' = r.toBlock g rs ∧ r.label = b.label ∧
      RenamedFrom live root b r := by
  obtain ⟨r, hr, rfl⟩ := List.mem_map.1 hb'
  obtain ⟨b, hb, label, from_⟩ := h.exists_source hr
  exact ⟨r, hr, b, hb, rfl, label, from_⟩

/-- A phi of the converted procedure is for a temporary that is live before its block. -/
theorem exists_of_phi_toBlocks (bare : g.Bare) {b' : Block}
    (hb' : b' ∈ rs.map (RenamedBlock.toBlock g rs)) {dest : Temp} {args : SortedMap Origin Temp}
    (mem : .phi dest args ∈ b'.phis) : ∃ r ∈ rs, ∃ t, b'.label = r.label ∧
      t ∈ live.before r.label ∧ dest = (versioning root rs).start r.label t ∧
        args = g.phiArgs rs r.label t := by
  obtain ⟨r, hr, b, hb, rfl, label, from_⟩ := h.exists_of_mem_toBlocks hb'
  rw [(from_.phis_and_code_toBlock bare hb).1] at mem
  obtain ⟨⟨t, d⟩, he, same⟩ := List.mem_map.1 mem
  cases same
  have start := (congrFun (h.start hr) t).trans (from_.start_of_mem he)
  exact ⟨r, hr, t, rfl, label ▸ from_.mem_before_iff.2 ⟨d, he⟩, start.symm, rfl⟩

theorem hasAllPhis (bare : g.Bare) : (versioning root rs).HasAllPhis
    ⟨g.name, g.params, rs.map (RenamedBlock.toBlock g rs)⟩ live := by
  intro b' hb' t ht
  obtain ⟨r, hr, b, hb, rfl, label, from_⟩ := h.exists_of_mem_toBlocks hb'
  have ht : t ∈ live.before b.label := label ▸ ht
  obtain ⟨d, hd⟩ := from_.mem_before_iff.1 ht
  refine Block.mem_phiDefs.2 ⟨g.phiArgs rs r.label t, ?_⟩
  rw [(from_.phis_and_code_toBlock bare hb).1]
  have start := (congrFun (h.start hr) t).trans (from_.start_of_mem hd)
  exact List.mem_map.2 ⟨(t, d), hd, congrArg (Instr.phi · _) start.symm⟩

/-- Renamed blocks are a single-assignment form if their versions are fresh. -/
theorem versioned (solved : Solved g live) (bare : g.Bare) (named : ∀ l, .sink ∉ live.before l)
    (root_sink : root .sink = .sink) (spelling : ∀ v, (root v).root = v.root)
    (root_param : ∀ t ∈ g.params, root t = t) (once : (rs.flatMap RenamedBlock.defs).Nodup)
    (apart : ∀ d ∈ rs.flatMap RenamedBlock.defs, d ∉ g.params) :
    Versioned g ⟨g.name, g.params, rs.map (RenamedBlock.toBlock g rs)⟩ live
      (versioning root rs) where
  name := rfl
  params := rfl
  labels := h.labels_toBlocks g.name g.params
  root_sink
  spelling
  root_param
  named
  root_start := by
    intro l hl t ht
    obtain ⟨b, hb, rfl⟩ := FlowGraph.mem_labels.1 hl
    obtain ⟨r, hr, from_⟩ := h.exists_renamed hb
    obtain ⟨d, hd⟩ := from_.mem_before_iff.1 ht
    rw [← from_.label, h.start hr, from_.start_of_mem hd]
    exact from_.root_phis _ hd
  code := by
    intro b hb b' hb' label
    obtain ⟨r, hr, -, -, rfl, -, -⟩ := h.exists_of_mem_toBlocks hb'
    have from_ := h.renamedFrom hb hr label
    rw [(from_.phis_and_code_toBlock bare hb).2, ← from_.label, h.start hr, h.finish hr]
    exact from_.code
  phis := by
    intro b' hb' dest args mem
    obtain ⟨r, hr, t, label, ht, start, rfl⟩ := h.exists_of_phi_toBlocks bare hb' mem
    rw [label]
    refine ⟨t, ht, start, fun p hp => h.phiArgs_block solved bare ht hp,
      h.phiArgs_entry solved bare ht, fun v hv => ?_⟩
    obtain ⟨⟨origin, u⟩, hu, rfl⟩ := List.mem_map.1 hv
    rcases h.mem_phiArgs solved bare ht (SortedMap.get?_eq_some.2 hu) with
      ⟨p, hp, -, rfl⟩ | ⟨-, rfl, -, param⟩
    · exact (h.lastVersion solved bare ht hp).2
    · exact root_param _ param
  edges := by
    intro b' hb' dest args mem p v hv
    obtain ⟨r, hr, t, label, ht, -, rfl⟩ := h.exists_of_phi_toBlocks bare hb' mem
    rw [label]
    rcases h.mem_phiArgs solved bare ht hv with ⟨q, hq, same, -⟩ | ⟨entry, -⟩
    · cases same
      exact hq
    · cases entry
  joined := fun b' hb' t ht none => absurd (h.hasAllPhis bare b' hb' t ht) none
  once := by rwa [defs_toBlocks]
  apart := by rwa [defs_toBlocks]

end RenamedAll

/-- A converted procedure is a single-assignment form of the procedure. -/
theorem versioned_of_convert (wf : g.WellFormed) (bare : g.Bare) {names : FreshNames}
    (avoids : ∀ t ∈ g.temps, t ∈ names.temps) {c : Conversion} (h : g.convert names = .ok c) :
    ∃ live V, g.liveness = .ok live ∧ Versioned g c.graph live V ∧ V.HasAllPhis c.graph live := by
  obtain ⟨live, found, graph⟩ := exists_renamed_of_convert h
  have solved := FlowGraph.solved_of_liveness wf.nodup found
  have named := FlowGraph.sink_not_live wf.nodup bare found
  obtain ⟨-, defs, related⟩ := renameBlocks_spec live names g.blocks
  have all : RenamedAll g live _ (renameBlocks live names g.blocks).1 :=
    ⟨wf.nodup, related _ fun _ he => FreshNames.rootOf_issue he⟩
  -- neither the sink nor a parameter is a version that is given out
  have sink : .sink ∉ (names.issue (g.blocks.flatMap (Block.renamed live))).1 := fun mem => by
    cases FreshNames.not_isSink_of_mem mem
  have params : ∀ t ∈ g.params, t ∉ (names.issue (g.blocks.flatMap (Block.renamed live))).1 := by
    intro t ht mem
    have plain := FreshNames.not_isSink_of_mem mem
    exact (FreshNames.exists_version_of_mem mem).1
      (avoids t (FlowGraph.mem_temps_of_param ht plain))
  refine ⟨live, _, found, ?_, graph ▸ all.hasAllPhis bare⟩
  rw [graph]
  refine all.versioned solved bare named (FreshNames.rootOf_issue_of_not_mem sink)
    FreshNames.root_rootOf_issue (fun t ht => FreshNames.rootOf_issue_of_not_mem (params t ht)) ?_ ?_
  · rw [defs]
    exact FreshNames.issue_nodup
  · rw [defs]
    exact fun d hd param => params d param hd

end Convert

end ThreeAddress
