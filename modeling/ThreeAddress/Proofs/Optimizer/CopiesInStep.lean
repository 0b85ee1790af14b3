import ThreeAddress.Proofs.Activation.Lockstep
import ThreeAddress.Proofs.FlowGraph.Build
import ThreeAddress.Proofs.FlowGraph.Layout
import ThreeAddress.Proofs.Optimizer.LocalCopies
/-!
# Copies within blocks, step by step

A copy that is known within a block was executed since control came to the block, and neither side
was written since. So both sides have a value, and the same one. What has no value is no side of a
known copy and keeps its name, even in the failure that a read of it ends with. The text with the
copies propagated within blocks therefore goes in step with the text that it was made from, in
single-assignment form or not.

* `Copies.Executed` : known copies, both sides of which have a value;
* `PropagatedText` : a position in both texts;
* `FlowGraph.inStep_propagateLocally` : the two texts go in step;
* `Program.run_propagateLocally` : a program runs in the same way with either of them.
-/

namespace ThreeAddress

open Execution

/-! ## Copies that were executed -/

namespace Copies

variable {copies : Copies} {s s' : Temp → Option Word} {t src : Temp} {i : Instr}
  {group : List Instr}

/-- The copies hold, and their sides have values. -/
structure Executed (copies : Copies) (s : Temp → Option Word) : Prop where
  hold : copies.Hold s
  set : ∀ t src, SortedMap.get? copies t = some src → s t ≠ none

theorem Executed.empty (s : Temp → Option Word) : Executed ∅ s :=
  ⟨.empty s, fun t src h => by simp [SortedMap.get?_empty] at h⟩

/-- What has no value is read by its own name. -/
theorem Executed.resolve_of_unset (h : copies.Executed s) (unset : s t = none) :
    copies.resolve t = t := by
  rw [Copies.resolve, follow]
  cases found : SortedMap.get? copies t with
  | none => rfl
  | some src => exact absurd unset (h.set t src found)

/-- The copies that are known behind an instruction that defines a temporary were executed. -/
theorem Executed.define (h : copies.Executed s) {d : Temp} {w : Word} (hd : i.def? = some d)
    (may : ∀ dest src t, i = .copy dest src → src.named? = some t → s t = some w)
    (set : ∀ t, s' t = if t = d then some w else s t) :
    (copies.after (i.mapUses copies.resolve)).Executed s' := by
  refine ⟨h.hold.define hd may set, fun t src found => ?_⟩
  rw [set]
  split
  · exact Option.some_ne_none w
  · next other =>
    rcases get?_after found with copy | ⟨old, -, -⟩
    · obtain ⟨dest, v, u, rfl, ht, -⟩ := Instr.exists_of_tempCopy?_mapUses copy
      exact absurd (Option.some.inj (ht.symm.trans hd)) other
    · exact h.set t src old

/-- So were those behind an instruction that defines nothing. -/
theorem Executed.keep (h : copies.Executed s) (hd : i.def? = none) :
    (copies.after (i.mapUses copies.resolve)).Executed s := by
  refine ⟨h.hold.keep hd, fun t src found => ?_⟩
  rcases get?_after found with copy | ⟨old, -, -⟩
  · obtain ⟨dest, v, u, rfl, ht, -⟩ := Instr.exists_of_tempCopy?_mapUses copy
    cases ht.symm.trans hd
  · exact h.set t src old

/-- The copies that are known behind a group of phis. -/
def afterPhis (copies : Copies) (group : List Instr) : Copies := group.foldl after copies

/-- They were known before, and no phi of the group defines one of their sides. -/
theorem get?_afterPhis (all : ∀ i ∈ group, i.isPhi = true)
    (h : SortedMap.get? (copies.afterPhis group) t = some src) :
    SortedMap.get? copies t = some src ∧ t ∉ group.filterMap Instr.def? ∧
      src ∉ group.filterMap Instr.def? := by
  induction group generalizing copies with
  | nil => exact ⟨h, by simp, by simp⟩
  | cons i rest ih =>
    obtain ⟨known, ht, hsrc⟩ := ih (fun j hj => all j (List.mem_cons_of_mem _ hj)) h
    have phi := all i List.mem_cons_self
    cases i with
    | phi dest args =>
      rcases get?_after known with copy | ⟨old, ne, ne'⟩
      · cases copy
      · refine ⟨old, ?_, ?_⟩
        · exact List.not_mem_cons_of_ne_of_not_mem (fun e => ne (congrArg some e.symm)) ht
        · exact List.not_mem_cons_of_ne_of_not_mem (fun e => ne' (congrArg some e.symm)) hsrc
    | _ => cases phi

/-- A group of phis leaves the copies that are still known behind it as they are. -/
theorem Executed.afterPhis (h : copies.Executed s) (all : ∀ i ∈ group, i.isPhi = true)
    (kept : ∀ t, t ∉ group.filterMap Instr.def? → s' t = s t) :
    (copies.afterPhis group).Executed s' := by
  refine ⟨fun t src found => ?_, fun t src found => ?_⟩
  · obtain ⟨old, ht, hsrc⟩ := get?_afterPhis all found
    rw [kept t ht, kept src hsrc]
    exact h.hold t src old
  · obtain ⟨old, ht, -⟩ := get?_afterPhis all found
    rw [kept t ht]
    exact h.set t src old

/-- Propagation leaves a group of phis as it is. -/
theorem span_phis_propagateBody (copies : Copies) (code : List Instr) :
    (propagateBody copies code).takeWhile Instr.isPhi = code.takeWhile Instr.isPhi ∧
      (propagateBody copies code).dropWhile Instr.isPhi =
        propagateBody (copies.afterPhis (code.takeWhile Instr.isPhi))
          (code.dropWhile Instr.isPhi) := by
  induction code generalizing copies with
  | nil => exact ⟨rfl, rfl⟩
  | cons i rest ih =>
    cases phi : i.isPhi with
    | true =>
      have same : i.mapUses copies.resolve = i := by cases i <;> first | rfl | cases phi
      obtain ⟨take, drop⟩ := ih (copies.after i)
      simp only [propagateBody, same, List.takeWhile_cons_of_pos phi,
        List.dropWhile_cons_of_pos phi, take, drop, true_and]
      rfl
    | false =>
      have plain : ¬i.isPhi = true := by simp [phi]
      have plain' : ¬(i.mapUses copies.resolve).isPhi = true := by simp [phi]
      simp only [propagateBody, List.takeWhile_cons_of_neg plain, List.dropWhile_cons_of_neg plain,
        List.takeWhile_cons_of_neg plain', List.dropWhile_cons_of_neg plain', true_and]
      rfl

end Copies

/-! ## Both texts -/

/-- No label stands within a block. -/
def Block.Unlabelled (b : Block) : Prop := ∀ l, .label l ∉ b.body

/-- The block with its copies propagated. -/
def Block.propagated (b : Block) : Block := { b with body := propagateBody ∅ b.body }

/-- Blocks laid out with all labels. -/
abbrev labelled (bs : List Block) : List Instr := layout (fun _ => true) bs

theorem not_mem_label_propagateBody {copies : Copies} {code : List Instr} {l : Label}
    (h : .label l ∉ code) : .label l ∉ propagateBody copies code := by
  intro mem
  obtain ⟨i, hi, f, e⟩ := FlowGraph.exists_of_mem_propagateBody mem
  exact h (Instr.eq_label_of_mapUses e.symm ▸ hi)

/-- A label is looked for behind instructions that are no such label. -/
theorem codeFrom?_behind {l : Label} {front code : List Instr} (h : .label l ∉ front) :
    codeFrom? l (front ++ code) = codeFrom? l code := by
  induction front with
  | nil => rfl
  | cons i front ih =>
    rw [List.mem_cons, not_or] at h
    rw [List.cons_append, codeFrom?, ih h.2, if_neg (Ne.symm h.1)]
    cases codeFrom? l code <;> rfl

/-- A label stands in front of the same blocks in both texts. -/
theorem codeFrom?_labelled {bs : List Block} (plain : ∀ b ∈ bs, b.Unlabelled) (l : Label) :
    (codeFrom? l (labelled bs) = none ∧
      codeFrom? l (labelled (bs.map Block.propagated)) = none) ∨
    ∃ later, (∀ b ∈ later, b.Unlabelled) ∧ codeFrom? l (labelled bs) = some (labelled later) ∧
      codeFrom? l (labelled (bs.map Block.propagated)) =
        some (labelled (later.map Block.propagated)) := by
  induction bs with
  | nil => exact .inl ⟨rfl, rfl⟩
  | cons b bs ih =>
    have first := plain b List.mem_cons_self
    have text : labelled (b :: bs) = .label b.label :: (b.body ++ labelled bs) :=
      layout_cons b
    have text' : labelled ((b :: bs).map Block.propagated) =
        .label b.label :: (propagateBody ∅ b.body ++ labelled (bs.map Block.propagated)) :=
      layout_cons b.propagated
    rw [text, text', codeFrom?, codeFrom?, codeFrom?_behind (first l),
      codeFrom?_behind (not_mem_label_propagateBody (first l))]
    rcases ih fun c hc => plain c (List.mem_cons_of_mem _ hc) with
      ⟨none, none'⟩ | ⟨later, plain', found, found'⟩
    · rw [none, none']
      by_cases here : (Instr.label b.label) = .label l
      · exact .inr ⟨b :: bs, plain, by simp only [if_pos here, text],
          by simp only [if_pos here, text']⟩
      · exact .inl ⟨by simp only [if_neg here], by simp only [if_neg here]⟩
    · exact .inr ⟨later, plain', by rw [found], by rw [found']⟩

/-- The same temporaries, at the same position in both texts: within a block, or in front of the
label of the next. The copies that are known there were executed. -/
inductive PropagatedText : Spot → Store Temp → Spot → Store Temp → Prop where
  | within {copies : Copies} {rest : List Instr} {later : List Block} {previous current : Origin}
      {s : Store Temp} (executed : copies.Executed s.get?) (plain : ∀ l, .label l ∉ rest)
      (plainLater : ∀ b ∈ later, b.Unlabelled) :
      PropagatedText ⟨rest ++ labelled later, previous, current⟩ s
        ⟨propagateBody copies rest ++ labelled (later.map Block.propagated), previous, current⟩ s

/-- In front of a block, no copies are known. -/
theorem PropagatedText.front {later : List Block} {previous current : Origin} (s : Store Temp)
    (plain : ∀ b ∈ later, b.Unlabelled) : PropagatedText ⟨labelled later, previous, current⟩ s
      ⟨labelled (later.map Block.propagated), previous, current⟩ s :=
  @within ∅ [] later previous current s (.empty _) (fun _ => List.not_mem_nil) plain

section Steps

variable {proc proc' : Global} {body body' : List Instr} {copies : Copies} {i : Instr}
  {rest : List Instr} {b : Block} {later : List Block} {previous current : Origin} {s : Store Temp}

/-- The label of the next block is passed in both texts. -/
theorem PropagatedText.alike_label (plain : ∀ c ∈ b :: later, c.Unlabelled) (staged : Store Nat)
    (globals : Store Global) :
    SameStage PropagatedText
      ((Control.ofBody proc body).step .byName ⟨labelled (b :: later), previous, current⟩
        ⟨s, staged, globals⟩)
      ((Control.ofBody proc' body').step .byName
        ⟨labelled ((b :: later).map Block.propagated), previous, current⟩ ⟨s, staged, globals⟩) := by
  have passed := @ofBody_step_label _ .byName ⟨s, staged, globals⟩ proc body
    (b.body ++ labelled later) ⟨labelled (b :: later), previous, current⟩ b.label rfl
  have passed' := @ofBody_step_label _ .byName ⟨s, staged, globals⟩ proc' body'
    (propagateBody ∅ b.body ++ labelled (later.map Block.propagated))
    ⟨labelled ((b :: later).map Block.propagated), previous, current⟩ b.label rfl
  rw [passed, passed']
  exact .going (.within (.empty _) (plain b List.mem_cons_self)
    fun c hc => plain c (List.mem_cons_of_mem _ hc))

/-- A group of phis is executed in both texts, and is the same in both. -/
theorem PropagatedText.alike_phis (executed : copies.Executed s.get?) (phi : i.isPhi = true)
    (inner : ∀ l, .label l ∉ i :: rest) (plainLater : ∀ c ∈ later, c.Unlabelled)
    (staged : Store Nat) (globals : Store Global) :
    SameStage PropagatedText
      ((Control.ofBody proc body).step .byName ⟨i :: rest ++ labelled later, previous, current⟩
        ⟨s, staged, globals⟩)
      ((Control.ofBody proc' body').step .byName
        ⟨propagateBody copies (i :: rest) ++ labelled (later.map Block.propagated), previous, current⟩
        ⟨s, staged, globals⟩) := by
  have phi' : (i.mapUses copies.resolve).isPhi = true := (Instr.isPhi_mapUses _ i).trans phi
  have group := @ofBody_step_group _ .byName ⟨s, staged, globals⟩ proc body
    ⟨i :: rest ++ labelled later, previous, current⟩ i _ rfl phi
  have group' := @ofBody_step_group _ .byName ⟨s, staged, globals⟩ proc' body'
    ⟨propagateBody copies (i :: rest) ++ labelled (later.map Block.propagated), previous, current⟩
    (i.mapUses copies.resolve) _ rfl phi'
  -- a label stands behind the block, so that the group ends with it at the latest
  obtain ⟨take, drop⟩ := @span_phis_layout (fun _ => true) later (i :: rest) (.inr fun _ _ => rfl)
  obtain ⟨take', drop'⟩ := @span_phis_layout (fun _ => true) (later.map Block.propagated)
    (propagateBody copies (i :: rest)) (.inr fun _ _ => rfl)
  obtain ⟨sameTake, sameDrop⟩ := copies.span_phis_propagateBody (i :: rest)
  rw [group, group']
  simp only [take, drop, take', drop', sameTake, sameDrop]
  have all : ∀ j ∈ (i :: rest).takeWhile Instr.isPhi, j.isPhi = true :=
    fun j hj => List.mem_takeWhile_imp hj
  refine .going (.within (executed.afterPhis all fun t ht =>
    Keeping.get?_assign Keeping.byName_lawful all ht) (fun l mem => ?_) plainLater)
  exact inner l ((List.dropWhile_sublist _).subset mem)

end Steps

namespace FlowGraph

variable {g : FlowGraph}

theorem blocks_propagateLocally :
    g.propagateLocally.blocks = g.blocks.map Block.propagated := rfl

/-- A jump goes to the same block in both texts. -/
theorem alike_goto_propagateLocally (plain : ∀ b ∈ g.blocks, b.Unlabelled) (code code' : List Instr)
    (previous current : Origin) (s : Store Temp) (staged : Store Nat) (globals : Store Global)
    (l : Label) :
    SameStage PropagatedText
      ((Control.ofBody g.name g.linear).goto ⟨code, previous, current⟩ ⟨s, staged, globals⟩ l)
      ((Control.ofBody g.name g.propagateLocally.linear).goto ⟨code', previous, current⟩
        ⟨s, staged, globals⟩ l) := by
  rw [Control.goto, Control.goto]
  simp only [Control.ofBody, linear_eq_layout, blocks_propagateLocally]
  rcases codeFrom?_labelled plain l with ⟨none, none'⟩ | ⟨later, plain', found, found'⟩
  · rw [none, none']
    exact .fails ⟨_, rfl, rfl⟩
  · rw [found, found']
    exact .going (.front s plain')

/-- An instruction other than a phi does the same in both texts. -/
theorem alike_plain_propagateLocally (plain : ∀ b ∈ g.blocks, b.Unlabelled) {copies : Copies}
    {i : Instr} {rest : List Instr} {later : List Block} {previous current : Origin} {s : Store Temp}
    (executed : copies.Executed s.get?) (phi : i.isPhi = false) (inner : ∀ l, .label l ∉ i :: rest)
    (plainLater : ∀ b ∈ later, b.Unlabelled) (staged : Store Nat) (globals : Store Global) :
    SameStage PropagatedText
      ((Control.ofBody g.name g.linear).perform .byName ⟨rest ++ labelled later, previous, current⟩
        ⟨s, staged, globals⟩ i)
      ((Control.ofBody g.name g.propagateLocally.linear).perform .byName
        ⟨propagateBody (copies.after (i.mapUses copies.resolve)) rest ++
          labelled (later.map Block.propagated), previous, current⟩
        ⟨s, staged, globals⟩ (i.mapUses copies.resolve)) := by
  have innerRest : ∀ l, .label l ∉ rest := fun l mem => inner l (List.mem_cons_of_mem _ mem)
  have sameProc : (Control.ofBody g.name g.propagateLocally.linear).proc =
      (Control.ofBody g.name g.linear).proc := rfl
  have exact : ∀ f, (FailsAs Spot (Store Temp) Eq).failure f (.ends (.error f)) :=
    fun f => ⟨f, rfl, rfl⟩
  refine alike_perform_uses sameProc exact phi
    (fun t ht => executed.hold.resolve_not_isSink (Instr.uses_not_isSink ht))
    (fun t ht w hw => (executed.hold.resolve t).trans hw) (fun t ht unset => .inr ?_)
    (fun d hd w may => ?_) (fun hd falls => .within (executed.keep hd) innerRest plainLater)
    fun l hl => alike_goto_propagateLocally plain _ _ _ _ s staged globals l
  · -- the failure names the temporary, so it is not enough that some value is missing
    rw [executed.resolve_of_unset unset]
    exact ⟨unset, _, rfl, rfl⟩
  · exact .within (executed.define hd may fun t => Store.get?_set s d t w) innerRest plainLater

/-- The text goes in step with the text behind the propagation within blocks. -/
theorem inStep_propagateLocally (plain : ∀ b ∈ g.blocks, b.Unlabelled) :
    InStep g.toProc g.propagateLocally.toProc PropagatedText := by
  refine ⟨?_, ?_⟩
  · rintro pos s pos' s' (@⟨copies, rest, later, previous, current, s, -, -, -⟩)
    cases rest with
    | cons i rest => exact iff_of_false (List.cons_ne_nil _ _) (List.cons_ne_nil _ _)
    | nil =>
      cases later with
      | nil => exact iff_of_true rfl rfl
      | cons b later => exact iff_of_false (List.cons_ne_nil _ _) (List.cons_ne_nil _ _)
  rintro pos s pos' s' (@⟨copies, rest, later, previous, current, s, executed, inner, plainLater⟩)
    staged globals
  cases rest with
  | nil =>
    cases later with
    | nil => exact .ends
    | cons b later => exact PropagatedText.alike_label plainLater staged globals
  | cons i rest =>
    cases phi : i.isPhi with
    | true => exact PropagatedText.alike_phis executed phi inner plainLater staged globals
    | false =>
      have phi' : (i.mapUses copies.resolve).isPhi = false := (Instr.isPhi_mapUses _ i).trans phi
      have here : ∀ l, i ≠ .label l := fun l e => inner l (e ▸ List.mem_cons_self)
      have here' : ∀ l, i.mapUses copies.resolve ≠ .label l :=
        fun l e => here l (Instr.eq_label_of_mapUses e)
      rw [propagateBody, List.cons_append, List.cons_append, ofBody_step_plain phi here,
        ofBody_step_plain phi' here']
      exact alike_plain_propagateLocally plain executed phi inner plainLater staged globals

/-- Their activations go in step from the beginning. -/
theorem mirrors_propagateLocally (plain : ∀ b ∈ g.blocks, b.Unlabelled) :
    g.toProc.Mirrors g.propagateLocally.toProc :=
  ⟨_, inStep_propagateLocally plain, fun _ => .front _ plain⟩

/-- No label stands within a block that a procedure was cut into. -/
theorem WellFormed.unlabelled (wf : g.WellFormed) : ∀ b ∈ g.blocks, b.Unlabelled :=
  fun b hb => (wf.straight b hb).not_mem_label

end FlowGraph

/-! ## Programs -/

namespace Program

/-- A program runs in the same way, under every limit of steps, when copies are propagated within the
blocks of one of its procedures. So does the rest of a run from a call of the procedure on, with
any arguments, global variables and waiting activations, and any number of steps left; so it takes
as many steps, and fails, if it does, with the same temporary. -/
theorem run_propagateLocally {p : Program} {k : Nat} {g : FlowGraph}
    (plain : ∀ b ∈ g.blocks, b.Unlabelled) (hq : p.procs[k]? = some g.toProc) :
    (∀ limit, (p.replace k (g.propagateCopies false).toProc).run limit = p.run limit) ∧
      ∀ limit left globals printed args callers,
        Execution.run (p.replace k (g.propagateCopies false).toProc) limit left
            ⟨globals, printed, .enter (g.propagateCopies false).toProc args, callers⟩ =
          Execution.run p limit left ⟨globals, printed, .enter g.toProc args, callers⟩ :=
  run_replace_mirrors hq rfl rfl (FlowGraph.mirrors_propagateLocally plain)

/-- Two values are swapped in each round of a loop, and at the end something is read that was never
written. -/
def swapping : FlowGraph :=
  let v (s : String) : Temp := ⟨s, none⟩
  ⟨⟨"main"⟩, [], [
    ⟨⟨"entry"⟩, true, [
      .const (.temp (v "a")) 1,
      .const (.temp (v "b")) 2,
      .const (.temp (v "two")) 2]⟩,
    ⟨⟨"loop"⟩, true, [
      .phi (v "was") (.ofList [(.block ⟨"entry"⟩, v "b"), (.block ⟨"loop"⟩, v "was")]),
      .copy (.temp (v "t")) (.temp (v "a")),
      .copy (.temp (v "a")) (.temp (v "b")),
      .copy (.temp (v "b")) (.temp (v "t")),
      .print (.temp (v "b")),
      .print (.temp (v "a")),
      .binary .sub (.temp (v "off")) (.temp (v "b")) (.temp (v "two")),
      .branch .nonzero (.temp (v "off")) ⟨"loop"⟩]⟩,
    ⟨⟨"exit"⟩, true, [.copy (.temp (v "x")) (.temp (v "was")), .print (.temp (v "x")),
      .ret (.temp (v "unset"))]⟩]⟩

/-- The copy that the swap overwrites is not followed, the others are, and nothing changes. -/
theorem run_propagateLocally_swapping : (∀ b ∈ swapping.blocks, b.Unlabelled) ∧
    swapping.propagateCopies false ≠ swapping ∧
    ∀ limit, (replace ⟨[], [swapping.toProc]⟩ 0 (swapping.propagateCopies false).toProc).run limit =
      (⟨[], [swapping.toProc]⟩ : Program).run limit := by
  have built : ∃ names, FlowGraph.ofProc swapping.toProc = .ok (swapping, names) := ⟨_, rfl⟩
  obtain ⟨names, built⟩ := built
  have plain := (FlowGraph.builtFrom_of_ofProc built).wellFormed.unlabelled
  exact ⟨plain, by decide +kernel, (run_propagateLocally plain rfl).1⟩

end Program

end ThreeAddress
