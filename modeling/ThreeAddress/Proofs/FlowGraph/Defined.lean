import ThreeAddress.Proofs.Activation.Keeping
import ThreeAddress.Proofs.FlowGraph.Points
/-!
# Temporaries that have more values

A run that does not fail for want of a value is not changed when temporaries that have no value in it
have one. So a strict run is a run by name, and without phis a run by name is a strict one.

* `Extends` : whatever has a value on the first side has the same on the second;
* `FlowGraph.Runs.extend` : a run on the first side is a run on the second;
* `FlowGraph.Runs.byName`, `FlowGraph.PhiFree.runs_strict` : the two ways.
-/

namespace ThreeAddress

open Execution

section

variable {σ σ' : Type} {K : Keeping σ} {K' : Keeping σ'} {s : σ} {s' : σ'} {g : FlowGraph}

/-- Whatever has a value on the first side has the same value on the second. -/
def Extends (K : Keeping σ) (K' : Keeping σ') (s : σ) (s' : σ') : Prop :=
  ∀ t w, K.get? s t = some w → K'.get? s' t = some w

theorem Extends.set (lawful : K.Lawful) (lawful' : K'.Lawful) (h : Extends K K' s s') (t : Temp)
    (w : Word) : Extends K K' (K.set s t w) (K'.set s' t w) := by
  intro u v hv
  rw [lawful.get?_set] at hv
  rw [lawful'.get?_set]
  by_cases same : u = t
  · rwa [if_pos same] at hv ⊢
  · rw [if_neg same] at hv ⊢
    exact h u v hv

theorem Extends.setAll (lawful : K.Lawful) (lawful' : K'.Lawful) (l : List (Temp × Word))
    (h : Extends K K' s s') : Extends K K' (K.setAll s l) (K'.setAll s' l) := by
  induction l generalizing s s' with
  | nil => exact h
  | cons e rest ih => exact ih (h.set lawful lawful' e.1 e.2)

/-- A run that does not fail for want of a value is one on the side where temporaries have more
values, if phis keep that. -/
theorem FlowGraph.Runs.extend (wf : g.WellFormed) (first : g.PhisFirst) (lawful : K.Lawful)
    (lawful' : K'.Lawful)
    (phis : ∀ b ∈ g.blocks, ∀ origin s s', Extends K K' s s' →
      Extends K K' (K.assign origin b.phis s) (K'.assign origin b.phis s'))
    (start : Extends K K' s s') {params : List Temp} {args : List Word} {globals : Store Global}
    {t : List Effect} {r : Result} (h : g.Runs K (.enter K s params args globals) t r)
    (valued : Valued r) : g.Runs K' (.enter K' s' params args globals) t r := by
  have enter : EnterKept g g K K' (fun _ _ => Extends K K')
      (fun _ _ rest s rest' s' => rest' = rest ∧ Extends K K' s s') := by
    intro origin b b' s s' hb hb' label arrives rel
    obtain rfl := eq_of_label wf.nodup hb hb' label
    exact ⟨rfl, phis b' hb origin s s' rel⟩
  have leave : LeaveKept g (fun _ _ => Extends K K')
      (fun _ _ rest s rest' s' => rest' = rest ∧ Extends K K' s s') :=
    fun origin b s rest' s' at_ rel => ⟨rel.1, fun l next => rel.2⟩
  have instr : InstrKept g g K K' (.valued Point σ' False) (fun _ _ => Extends K K')
      (fun _ _ rest s rest' s' => rest' = rest ∧ Extends K K' s s') := by
    rintro origin b i rest s _ s' staged globals at_ plain ⟨rfl, rel⟩
    refine ⟨i, rest, rfl, plain, ?_⟩
    refine alike_perform_same rfl Leeway.valued_same plain (fun t _ w => rel t w)
      (fun t _ _ => .inl (Leeway.valued_noValue trivial)) (fun d hd w _ => ?_) (fun hd falls => ?_) fun l hl => ?_
    · exact ⟨b, rest, rfl, rfl, at_.pass (Instr.fallsThrough_of_def? hd), rfl, rel.set lawful lawful' d w⟩
    · exact ⟨b, rest, rfl, rfl, at_.pass falls, rfl, rel⟩
    · exact alike_graph_goto wf rfl at_ hl rel staged globals
  have follows : Follows (Control.ofGraph g) K (Control.ofGraph g) K' _ (.valued Point σ' False) :=
    .of_step fun _ _ _ _ staged globals q =>
      lockstep_graph wf first wf.nodup rfl enter leave instr q staged globals
  obtain ⟨t', fewer, runs⟩ := h.carry_kept follows rfl wf
    (fun l entry => start.setAll lawful lawful' _) (Leeway.valued_exact valued)
  rwa [← fewer.eq id]

end

section

variable {σ' : Type} {K' : Keeping σ'} {s : Temp → Option Word} {s' : σ'}

/-- A phi that takes a value away leaves less than any other. -/
theorem Extends.choose (lawful' : K'.Lawful) (h : Extends .strict K' s s') {t : Temp}
    {w? w?' : Option Word} (more : ∀ w, w? = some w → w?' = some w) :
    Extends .strict K' (Keeping.strict.choose s t w?) (K'.choose s' t w?') := by
  intro u v hv
  by_cases same : u = t
  · subst same
    obtain rfl : w? = some v := (if_pos rfl).symm.trans hv
    rw [more v rfl, lawful'.get?_choose, if_pos rfl]
  · have hv : s u = some v := (if_neg same).symm.trans hv
    cases w?' with
    | none =>
      rw [lawful'.get?_choose_of_ne _ _ _ same]
      exact h u v hv
    | some w =>
      rw [lawful'.get?_choose, if_neg same]
      exact h u v hv

theorem Extends.assign (lawful' : K'.Lawful) (h : Extends .strict K' s s') (origin : Origin)
    (phis : List Instr) :
    Extends .strict K' (Keeping.strict.assign origin phis s) (K'.assign origin phis s') := by
  -- all phis read before any of them writes
  have all : ∀ {r : Temp → Option Word} {r' : σ'}, Extends .strict K' r r' →
      Extends .strict K' (Keeping.strict.chooseAll r (phis.filterMap (Keeping.strict.chosen s origin)))
        (K'.chooseAll r' (phis.filterMap (K'.chosen s' origin))) := by
    induction phis with
    | nil => exact id
    | cons i rest ih =>
      intro r r' rel
      cases i with
      | phi dest args =>
        refine ih (rel.choose lawful' fun w hw => ?_)
        rw [Option.bind_eq_some_iff] at hw ⊢
        obtain ⟨a, ha, hw⟩ := hw
        exact ⟨a, ha, h a w hw⟩
      | _ => exact ih rel
  exact all h

end

/-- A strict run that does not fail for want of a value is a run by name. -/
theorem FlowGraph.Runs.byName_of_valued {g : FlowGraph} (wf : g.WellFormed) (first : g.PhisFirst)
    {params : List Temp} {args : List Word} {globals : Store Global} {t : List Effect} {r : Result}
    (h : g.Runs .strict (.enter .strict (fun _ => none) params args globals) t r)
    (valued : Valued r) : g.Runs .byName (.enter .byName Store.empty params args globals) t r :=
  h.extend wf first Keeping.strict_lawful Keeping.byName_lawful
    (fun b _ origin _ _ rel => rel.assign Keeping.byName_lawful origin b.phis)
    (fun _ _ none => by cases none) valued

/-- A strict run that succeeds is a run by name. -/
theorem FlowGraph.Runs.byName {g : FlowGraph} (wf : g.WellFormed) (first : g.PhisFirst)
    {params : List Temp} {args : List Word} {globals : Store Global} {t : List Effect}
    {v : Word × Store Global}
    (h : g.Runs .strict (.enter .strict (fun _ => none) params args globals) t (.ok v)) :
    g.Runs .byName (.enter .byName Store.empty params args globals) t (.ok v) :=
  h.byName_of_valued wf first (.ok v)

/-- Without phis, a run by name is a strict run, unless it fails for want of a value. -/
theorem FlowGraph.PhiFree.runs_strict_of_valued {g : FlowGraph} (wf : g.WellFormed)
    (free : g.PhiFree) {params : List Temp} {args : List Word} {globals : Store Global}
    {t : List Effect} {r : Result}
    (h : g.Runs .byName (.enter .byName Store.empty params args globals) t r) (valued : Valued r) :
    g.Runs .strict (.enter .strict (fun _ => none) params args globals) t r := by
  refine h.extend wf free.phisFirst Keeping.byName_lawful Keeping.strict_lawful
    (fun b hb origin s s' rel => ?_) (fun _ _ none => by cases none) valued
  rw [Block.phis_of_phiFree (free b hb)]
  exact rel

/-- Without phis, a run by name that succeeds is a strict run. -/
theorem FlowGraph.PhiFree.runs_strict {g : FlowGraph} (wf : g.WellFormed) (free : g.PhiFree)
    {params : List Temp} {args : List Word} {globals : Store Global} {t : List Effect}
    {v : Word × Store Global}
    (h : g.Runs .byName (.enter .byName Store.empty params args globals) t (.ok v)) :
    g.Runs .strict (.enter .strict (fun _ => none) params args globals) t (.ok v) :=
  free.runs_strict_of_valued wf h (.ok v)

end ThreeAddress
