import ThreeAddress.Proofs.Liveness.Solution
/-!
# Walks through a graph

Where control can go in a graph, whatever the values are. A walk goes from site to site; the phis at
the head of a block are passed together, and read their arguments at the end of the block that
control comes from.

* `Site`, `FlowGraph.Goes`, `FlowGraph.Walk` : sites, and walks between them;
* `FlowGraph.Defines`, `FlowGraph.Reads` : what happens at a site;
* `FlowGraph.LiveAt` : some walk from a site reads a temporary and does not define it before;
* `FlowGraph.Dominated` : every walk from the entry to a site defines a temporary;
* `FlowGraph.LiveAt.live` : what is live in front of a block, as paths between points.
-/

namespace ThreeAddress

/-- A site of a graph, wherever control came from. -/
inductive Site where
  /-- In front of a block. -/
  | head (l : Label)
  /-- Behind the phis of a block, in front of the given instructions; at its end if there are none. -/
  | within (l : Label) (rest : List Instr)
deriving DecidableEq

namespace FlowGraph

variable {g : FlowGraph} {t : Temp} {s u v : Site} {via via' : List Site}

/-- Control can go from a site to the next. -/
inductive Goes (g : FlowGraph) : Site → Site → Prop where
  /-- Past the phis of a block. -/
  | enter {b : Block} (hb : b ∈ g.blocks) : Goes g (.head b.label) (.within b.label b.code)
  /-- Past an instruction. -/
  | pass {l : Label} {i : Instr} {rest : List Instr} :
      Goes g (.within l (i :: rest)) (.within l rest)
  /-- Along an edge. -/
  | leave {l m : Label} (edge : m ∈ g.succs l) : Goes g (.within l []) (.head m)

/-- Control can go from one site to another, past the sites of a list. -/
inductive Walk (g : FlowGraph) : Site → List Site → Site → Prop where
  | here (s : Site) : Walk g s [] s
  | go {s u v : Site} {via : List Site} (first : g.Goes s u) (rest : Walk g u via v) :
      Walk g s (s :: via) v

/-- The temporary is defined when control goes past the site. -/
def Defines (g : FlowGraph) (t : Temp) : Site → Prop
  | .head l => ∃ b ∈ g.blocks, b.label = l ∧ t ∈ b.phiDefs
  | .within _ [] => False
  | .within _ (i :: _) => i.def? = some t

/-- The temporary is read at the site: by the next instruction, or by a phi behind an edge. -/
def Reads (g : FlowGraph) (t : Temp) : Site → Prop
  | .head _ => False
  | .within l [] => ∃ b ∈ g.blocks, b.label ∈ g.succs l ∧ t ∈ b.phiArgsFrom (.block l)
  | .within _ (i :: _) => t ∈ i.uses

instance (g : FlowGraph) (t : Temp) : (s : Site) → Decidable (g.Defines t s)
  | .head l => inferInstanceAs (Decidable (∃ b ∈ g.blocks, b.label = l ∧ t ∈ b.phiDefs))
  | .within _ [] => inferInstanceAs (Decidable False)
  | .within _ (i :: _) => inferInstanceAs (Decidable (i.def? = some t))

instance (g : FlowGraph) (t : Temp) : (s : Site) → Decidable (g.Reads t s)
  | .head _ => inferInstanceAs (Decidable False)
  | .within l [] => inferInstanceAs
    (Decidable (∃ b ∈ g.blocks, b.label ∈ g.succs l ∧ t ∈ b.phiArgsFrom (.block l)))
  | .within _ (i :: _) => inferInstanceAs (Decidable (t ∈ i.uses))

/-- Some walk from the site reads the temporary, and does not define it on the way. -/
def LiveAt (g : FlowGraph) (t : Temp) (s : Site) : Prop :=
  ∃ via r, g.Walk s via r ∧ g.Reads t r ∧ ∀ q ∈ via, ¬ g.Defines t q

/-- Every walk from the entry to the site defines the temporary on the way. -/
def Dominated (g : FlowGraph) (t : Temp) (s : Site) : Prop :=
  ∀ l via, g.entry? = some l → g.Walk (.head l) via s → ∃ q ∈ via, g.Defines t q

/-! ## Walks -/

theorem Walk.append (h : g.Walk s via u) (h' : g.Walk u via' v) : g.Walk s (via ++ via') v := by
  induction h with
  | here => exact h'
  | go first _ ih => exact .go first (ih h')

/-- A walk goes to each site on its way, and from there on. -/
theorem Walk.split (h : g.Walk s (via ++ u :: via') v) :
    g.Walk s via u ∧ g.Walk u (u :: via') v := by
  generalize all : via ++ u :: via' = whole at h
  induction h generalizing via with
  | here => cases (List.append_eq_nil_iff.1 all).2
  | @go s w v rest first later ih =>
    cases via with
    | nil =>
      obtain ⟨rfl, rfl⟩ := List.cons.inj all
      exact ⟨.here _, .go first later⟩
    | cons x via =>
      rw [List.cons_append, List.cons.injEq] at all
      obtain ⟨rfl, rfl⟩ := all
      obtain ⟨front, back⟩ := ih rfl
      exact ⟨.go first front, back⟩

/-! ## Liveness along walks -/

/-- What is read at a site is live there. -/
theorem LiveAt.here (h : g.Reads t s) : g.LiveAt t s :=
  ⟨[], s, .here s, h, fun _ hq => absurd hq List.not_mem_nil⟩

/-- What is live at the next site and not defined before is live. -/
theorem LiveAt.go (first : g.Goes s u) (kept : ¬ g.Defines t s) (h : g.LiveAt t u) :
    g.LiveAt t s := by
  obtain ⟨via, r, walk, reads, clear⟩ := h
  refine ⟨s :: via, r, .go first walk, reads, fun q hq => ?_⟩
  rcases List.mem_cons.1 hq with rfl | hq
  · exact kept
  · exact clear q hq

/-- Liveness may be shown step by step, from the site where the temporary is read. -/
theorem LiveAt.rec_on {P : Site → Prop} (h : g.LiveAt t s) (here : ∀ s, g.Reads t s → P s)
    (go : ∀ s u, g.Goes s u → ¬ g.Defines t s → P u → P s) : P s := by
  obtain ⟨via, r, walk, reads, clear⟩ := h
  induction walk with
  | here => exact here _ reads
  | go first _ ih =>
    exact go _ _ first (clear _ List.mem_cons_self)
      (ih reads fun q hq => clear q (List.mem_cons_of_mem _ hq))

/-! ## Liveness along paths -/

/-- What is live at a site, as paths between points. At the end of a block the path goes on where
an edge leads. -/
def PathFrom (g : FlowGraph) (t : Temp) : Site → Prop
  | .head l => ∀ origin, g.Live t (.enter origin l)
  | .within l [] => ∃ m ∈ g.succs l, g.Live t (.enter (.block l) m)
  | .within l (i :: rest) => ∀ b ∈ g.blocks, b.label = l → (∃ front, b.code = front ++ i :: rest) →
    ∀ origin, g.Live t (.within origin l (i :: rest))

/-- The path goes on behind an instruction of a block. -/
theorem PathFrom.pass (wf : g.WellFormed) {b : Block} (hb : b ∈ g.blocks) {front rest : List Instr}
    {i : Instr} (code : b.code = front ++ i :: rest) (kept : i.def? ≠ some t)
    (h : g.PathFrom t (.within b.label rest)) (origin : Origin) :
    g.Live t (.within origin b.label (i :: rest)) := by
  have body : b.body = (b.phis ++ front) ++ i :: rest := by
    rw [← b.phis_append_code, code, List.append_assoc]
  cases rest with
  | nil =>
    have last : b.body.getLast? = some i := by rw [body, List.getLast?_concat]
    obtain ⟨m, edge, path⟩ := h
    rw [succs_eq wf.nodup hb] at edge
    rcases Block.mem_succs.1 edge with target | ⟨falls, next⟩
    · rw [Block.target?, last] at target
      exact .jump target path
    · rw [Block.fallsThrough, last] at falls
      exact .pass falls kept (.next next path)
  | cons j rest =>
    have path := h b hb rfl ⟨front ++ [i], by rw [code, List.append_assoc]; rfl⟩ origin
    have straight := wf.straight b hb
    rw [body] at straight
    refine .pass ?_ kept path
    -- only the last instruction of a block may transfer control
    cases transfer : i.isTransfer with
    | true => cases straight.append.2.1 transfer
    | false => cases i <;> first | rfl | cases transfer

/-- What is live in front of a block is live there wherever control comes from. -/
theorem LiveAt.live (wf : g.WellFormed) {l : Label} (h : g.LiveAt t (.head l)) (origin : Origin) :
    g.Live t (.enter origin l) := by
  suffices path : g.PathFrom t (.head l) from path origin
  refine h.rec_on (fun s reads => ?_) fun s u goes kept path => ?_
  · cases s with
    | head => cases reads
    | within l rest =>
      cases rest with
      | nil =>
        obtain ⟨b, hb, edge, arg⟩ := reads
        exact ⟨b.label, edge, .arg hb arg⟩
      | cons i rest => exact fun _ _ _ _ _ => .read reads
  · cases goes with
    | @enter b hb =>
      intro origin
      refine .enter hb (fun phi => kept ⟨b, hb, rfl, phi⟩) ?_
      cases code : b.code with
      | cons i rest => exact (code ▸ path) b hb rfl ⟨[], code⟩ origin
      | nil =>
        rw [code] at path
        obtain ⟨m, edge, path⟩ := path
        rw [succs_eq wf.nodup hb] at edge
        rcases Block.mem_succs.1 edge with target | ⟨-, next⟩
        · -- a block of phis names no label
          obtain ⟨i, last, target⟩ := Option.bind_eq_some_iff.1 target
          have body := b.phis_append_code
          rw [code, List.append_nil] at body
          have phi := Block.isPhi_of_mem_phis (body ▸ List.mem_of_mem_getLast? last)
          cases i with
          | phi _ _ => cases target
          | _ => cases phi
        · exact .next next path
    | pass =>
      rintro b hb rfl ⟨front, code⟩ origin
      exact PathFrom.pass wf hb code kept path origin
    | leave edge => exact ⟨_, edge, path _⟩

/-! ## Dominance -/

/-- What is not dominated at a site that reads it is live at the entry. -/
theorem Dominated.of_not_liveAt {l : Label} (entry : g.entry? = some l) (reads : g.Reads t s)
    (none : ¬ g.LiveAt t (.head l)) : g.Dominated t s := by
  intro l' via entry' walk
  obtain rfl : l = l' := Option.some.inj (entry.symm.trans entry')
  refine Classical.byContradiction fun clear => none ⟨via, s, walk, reads, fun q hq defines => ?_⟩
  exact clear ⟨q, hq, defines⟩

end FlowGraph

end ThreeAddress
