import ThreeAddress.Proofs.Activation.Basic
/-!
# Laws of keeping temporaries by name

* `Keeping.Lawful` : a temporary that is written has the new value, and no other one changes;
* `Keeping.get?_assign`, `Keeping.get?_assign_of_mem` : temporaries behind a group of phis;
* `Keeping.get?_setAll_congr` : the same writes with two ways of keeping temporaries.
-/

namespace ThreeAddress

open Execution

namespace Keeping

variable {σ σ' : Type} {K : Keeping σ} {K' : Keeping σ'} {s : σ} {s' : σ'} {t x : Temp}

/-- Temporaries are kept by name. A phi whose argument has no value may leave its destination alone
or take the value of the destination away. -/
structure Lawful (K : Keeping σ) : Prop where
  get?_set : ∀ s t w x, K.get? (K.set s t w) x = if x = t then some w else K.get? s x
  get?_choose : ∀ s t w x, K.get? (K.choose s t (some w)) x = if x = t then some w else K.get? s x
  get?_choose_of_ne : ∀ s t x, x ≠ t → K.get? (K.choose s t none) x = K.get? s x
  get?_choose_self : ∀ s t, K.get? (K.choose s t none) t = none ∨
    K.get? (K.choose s t none) t = K.get? s t

theorem byName_lawful : byName.Lawful where
  get?_set s t w x := Store.get?_set s t x w
  get?_choose s t w x := Store.get?_set s t x w
  get?_choose_of_ne _ _ _ _ := rfl
  get?_choose_self _ _ := .inr rfl

theorem byName_empty (x : Temp) : byName.get? Store.empty x = none := rfl

theorem strict_lawful : strict.Lawful where
  get?_set _ _ _ _ := rfl
  get?_choose _ _ _ _ := rfl
  get?_choose_of_ne _ _ _ h := if_neg h
  get?_choose_self _ _ := .inl (if_pos rfl)

/-! ## Groups of phis -/

/-- Let several phis write, one after the other. -/
def chooseAll (K : Keeping σ) (s : σ) (choices : List (Temp × Option Word)) : σ :=
  choices.foldl (fun s e => K.choose s e.1 e.2) s

theorem get?_chooseAll (lawful : K.Lawful) {choices : List (Temp × Option Word)}
    (h : x ∉ choices.map Prod.fst) : K.get? (K.chooseAll s choices) x = K.get? s x := by
  induction choices generalizing s with
  | nil => rfl
  | cons e rest ih =>
    rw [List.map_cons, List.mem_cons, not_or] at h
    obtain ⟨d, w?⟩ := e
    rw [chooseAll, List.foldl_cons]
    refine (ih h.2).trans ?_
    cases w? with
    | none => exact lawful.get?_choose_of_ne s d x h.1
    | some w => rw [lawful.get?_choose, if_neg h.1]

theorem get?_chooseAll_of_mem (lawful : K.Lawful) {choices : List (Temp × Option Word)}
    (nodup : (choices.map Prod.fst).Nodup) {w? : Option Word} (h : (x, w?) ∈ choices) :
    K.get? (K.chooseAll s choices) x = w? ∨
      w? = none ∧ K.get? (K.chooseAll s choices) x = K.get? s x := by
  induction choices generalizing s with
  | nil => cases h
  | cons e rest ih =>
    rw [List.map_cons, List.nodup_cons] at nodup
    rw [chooseAll, List.foldl_cons]
    rcases List.mem_cons.1 h with rfl | h
    · have later := @get?_chooseAll σ K (K.choose s x w?) x lawful rest nodup.1
      rw [chooseAll] at later
      rw [later]
      cases w? with
      | none => exact (lawful.get?_choose_self s x).imp id fun same => ⟨rfl, same⟩
      | some w => exact .inl (by rw [lawful.get?_choose, if_pos rfl])
    · have ne : x ≠ e.1 := fun same => nodup.1 (same ▸ List.mem_map_of_mem h)
      have first : K.get? (K.choose s e.1 e.2) x = K.get? s x := by
        obtain ⟨d, v?⟩ := e
        cases v? with
        | none => exact lawful.get?_choose_of_ne s d x ne
        | some v => rw [lawful.get?_choose, if_neg ne]
      rw [← first]
      exact ih nodup.2 h

/-- The destinations of the choices of a group of phis. -/
theorem map_fst_chosen (K : Keeping σ) (s : σ) (origin : Origin) {phis : List Instr}
    (all : ∀ i ∈ phis, i.isPhi = true) :
    (phis.filterMap (K.chosen s origin)).map Prod.fst = phis.filterMap Instr.def? := by
  induction phis with
  | nil => rfl
  | cons i rest ih =>
    have ih := ih fun j hj => all j (List.mem_cons_of_mem _ hj)
    have phi := all i List.mem_cons_self
    cases i with
    | phi dest args => exact congrArg (dest :: ·) ih
    | _ => cases phi

variable {origin : Origin} {phis : List Instr}

theorem assign_eq (K : Keeping σ) (origin : Origin) (phis : List Instr) (s : σ) :
    K.assign origin phis s = K.chooseAll s (phis.filterMap (K.chosen s origin)) := rfl

/-- A group of phis changes nothing but its destinations. -/
theorem get?_assign (lawful : K.Lawful) (all : ∀ i ∈ phis, i.isPhi = true)
    (h : x ∉ phis.filterMap Instr.def?) : K.get? (K.assign origin phis s) x = K.get? s x := by
  rw [assign_eq]
  exact get?_chooseAll lawful (by rwa [map_fst_chosen K s origin all])

/-- A destination of a group of phis has the value that its argument had before. -/
theorem get?_assign_of_mem (lawful : K.Lawful) (all : ∀ i ∈ phis, i.isPhi = true)
    (nodup : (phis.filterMap Instr.def?).Nodup) {args : SortedMap Origin Temp}
    (h : .phi x args ∈ phis) :
    K.get? (K.assign origin phis s) x = (args.get? origin).bind (K.get? s) ∨
      (args.get? origin).bind (K.get? s) = none ∧
        K.get? (K.assign origin phis s) x = K.get? s x := by
  rw [assign_eq]
  refine get?_chooseAll_of_mem lawful (by rwa [map_fst_chosen K s origin all]) ?_
  exact List.mem_filterMap.2 ⟨_, h, rfl⟩

/-- Kept strictly, the destination has no value either if the argument has none. -/
theorem strict_assign_of_mem {s : Temp → Option Word} (all : ∀ i ∈ phis, i.isPhi = true)
    (nodup : (phis.filterMap Instr.def?).Nodup) {args : SortedMap Origin Temp}
    (h : .phi x args ∈ phis) : strict.assign origin phis s x = (args.get? origin).bind s := by
  have chooseAll : ∀ (choices : List (Temp × Option Word)) (s : Temp → Option Word) {w?},
      (choices.map Prod.fst).Nodup → (x, w?) ∈ choices → strict.chooseAll s choices x = w? := by
    intro choices
    induction choices with
    | nil =>
      intro s w? _ h
      cases h
    | cons e rest ih =>
      intro s w? nodup h
      rw [List.map_cons, List.nodup_cons] at nodup
      rcases List.mem_cons.1 h with rfl | h
      · have later := @get?_chooseAll _ strict (strict.choose s x w?) x strict_lawful rest nodup.1
        exact later.trans (if_pos rfl)
      · exact ih _ nodup.2 h
  rw [assign_eq]
  refine chooseAll _ s (by rwa [map_fst_chosen strict s origin all]) ?_
  exact List.mem_filterMap.2 ⟨_, h, rfl⟩

/-! ## Several writes -/

/-- A temporary that has the same value with both ways has so after the same writes. -/
theorem get?_setAll_congr (lawful : K.Lawful) (lawful' : K'.Lawful) (l : List (Temp × Word))
    (h : K.get? s x = K'.get? s' x) : K.get? (K.setAll s l) x = K'.get? (K'.setAll s' l) x := by
  induction l generalizing s s' with
  | nil => exact h
  | cons e rest ih =>
    refine ih ?_
    rw [lawful.get?_set, lawful'.get?_set, h]

/-- Nothing is written but what is in the list. -/
theorem get?_setAll_of_not_mem (lawful : K.Lawful) {l : List (Temp × Word)}
    (h : x ∉ l.map Prod.fst) : K.get? (K.setAll s l) x = K.get? s x := by
  induction l generalizing s with
  | nil => rfl
  | cons e rest ih =>
    rw [List.map_cons, List.mem_cons, not_or] at h
    refine (ih h.2).trans ?_
    rw [lawful.get?_set, if_neg h.1]

end Keeping

end ThreeAddress
