import Mathlib.Data.List.Nodup
import Mathlib.Data.List.TakeWhile
import ThreeAddress.Proofs.Activation.Basic
/-!
# The shape of control-flow graphs

* `Straight` : code that control leaves only at its end, and enters only at its beginning;
* `FlowGraph.WellFormed` : a graph that is the graph of some procedure;
* `block?_of_split`, `next?_of_split`, `succs_eq` : a block found in the text, the one behind it, and
  its edges.
-/

namespace ThreeAddress

/-- Code without labels, in which only the last instruction may transfer control. -/
def Straight : List Instr → Prop
  | [] => True
  | i :: rest => (i.isTransfer = true → rest = []) ∧ (∀ l, i ≠ .label l) ∧ Straight rest

theorem Straight.append {front back : List Instr} (h : Straight (front ++ back)) :
    Straight front ∧ Straight back := by
  induction front with
  | nil => exact ⟨trivial, h⟩
  | cons i front ih =>
    obtain ⟨ends, plain, rest⟩ := h
    refine ⟨⟨fun t => ?_, plain, (ih rest).1⟩, (ih rest).2⟩
    exact (List.append_eq_nil_iff.1 (ends t)).1

/-- Code may be put behind instructions that neither transfer control nor are labels. -/
theorem Straight.prepend {front back : List Instr} (h : Straight back)
    (hf : ∀ i ∈ front, i.isTransfer = false ∧ ∀ l, i ≠ .label l) : Straight (front ++ back) := by
  induction front with
  | nil => exact h
  | cons i front ih =>
    obtain ⟨stays, plain⟩ := hf i List.mem_cons_self
    exact ⟨fun t => absurd t (by simp [stays]), plain,
      ih fun j hj => hf j (List.mem_cons_of_mem _ hj)⟩

theorem Straight.not_mem_label {code : List Instr} (h : Straight code) (l : Label) :
    Instr.label l ∉ code := by
  induction code with
  | nil => exact List.not_mem_nil
  | cons i rest ih =>
    intro mem
    rcases List.mem_cons.1 mem with e | mem
    · exact h.2.1 l e.symm
    · exact ih h.2.2 mem

/-- An instruction that transfers control is the last one. -/
theorem Straight.last_of_transfer {code : List Instr} (h : Straight code) {i : Instr}
    (mem : i ∈ code) (t : i.isTransfer = true) : code.getLast? = some i := by
  induction code with
  | nil => cases mem
  | cons j rest ih =>
    obtain ⟨ends, -, hrest⟩ := h
    rcases List.mem_cons.1 mem with rfl | mem
    · rw [ends t]
      rfl
    · have ne : rest ≠ [] := List.ne_nil_of_mem mem
      rw [List.getLast?_cons_of_ne_nil ne]
      exact ih hrest mem

/-- Code stays straight when instructions are renamed. -/
theorem Straight.of_map {f : Instr → Instr} {code : List Instr} (h : Straight code)
    (transfer : ∀ i, (f i).isTransfer = i.isTransfer) (label : ∀ i l, f i = .label l → i = .label l) :
    Straight (code.map f) := by
  induction code with
  | nil => trivial
  | cons i rest ih =>
    obtain ⟨ends, plain, hrest⟩ := h
    refine ⟨fun t => ?_, fun l e => plain l (label i l e), ih hrest⟩
    rw [transfer] at t
    rw [ends t, List.map_nil]

theorem Straight.of_sublist {code code' : List Instr} (h : Straight code)
    (sub : code'.Sublist code) : Straight code' := by
  induction sub with
  | slnil => trivial
  | cons i _ ih => exact ih h.2.2
  | cons_cons i sub ih =>
    refine ⟨fun t => ?_, h.2.1, ih h.2.2⟩
    rw [h.1 t] at sub
    exact List.sublist_nil.1 sub

theorem Instr.isTransfer_of_target {i : Instr} {l : Label} (h : i.target? = some l) :
    i.isTransfer = true := by
  cases i <;> simp_all [target?, isTransfer]

theorem Block.target?_of_mem {b : Block} {l : Label} (h : b.target? = some l) :
    ∃ i ∈ b.body, i.target? = some l := by
  obtain ⟨i, hi, target⟩ := Option.bind_eq_some_iff.1 h
  exact ⟨i, List.mem_of_mem_getLast? hi, target⟩

/-! ## Well-formed graphs -/

namespace FlowGraph

/-- The shape that a graph built from a procedure has, and that every stage keeps. -/
structure WellFormed (g : FlowGraph) : Prop where
  /-- There is a block to enter. -/
  nonempty : g.blocks ≠ []
  /-- A label belongs to one block. -/
  nodup : g.labels.Nodup
  /-- Control enters a block at its beginning and leaves it at its end. -/
  straight : ∀ b ∈ g.blocks, Straight b.body
  /-- What a block jumps to is a block. -/
  targets : ∀ b ∈ g.blocks, ∀ l, b.target? = some l → l ∈ g.labels

theorem WellFormed.mem_labels_of_target {g : FlowGraph} (h : g.WellFormed) {b : Block}
    (hb : b ∈ g.blocks) {i : Instr} (hi : i ∈ b.body) {l : Label} (hl : i.target? = some l) :
    l ∈ g.labels := by
  refine h.targets b hb l ?_
  rw [Block.target?, (h.straight b hb).last_of_transfer hi (Instr.isTransfer_of_target hl)]
  exact hl

theorem labels_mapBodies (f : Block → List Instr) (g : FlowGraph) :
    (g.mapBodies f).labels = g.labels := by
  rw [labels, mapBodies, List.map_map]
  rfl

theorem mem_mapBodies {f : Block → List Instr} {g : FlowGraph} {b' : Block} :
    b' ∈ (g.mapBodies f).blocks ↔ ∃ b ∈ g.blocks, { b with body := f b } = b' := List.mem_map

/-- New bodies keep a graph well-formed if they go to the same labels. -/
theorem WellFormed.mapBodies {g : FlowGraph} (h : g.WellFormed) {f : Block → List Instr}
    (straight : ∀ b ∈ g.blocks, Straight (f b))
    (targets : ∀ b ∈ g.blocks, ∀ i ∈ f b, ∀ l, i.target? = some l → l ∈ g.labels) :
    (g.mapBodies f).WellFormed := by
  refine ⟨fun none => h.nonempty (List.map_eq_nil_iff.1 none), ?_, fun b' hb' => ?_,
    fun b' hb' l hl => ?_⟩
  · rw [labels_mapBodies]
    exact h.nodup
  · obtain ⟨b, hb, rfl⟩ := mem_mapBodies.1 hb'
    exact straight b hb
  · obtain ⟨b, hb, rfl⟩ := mem_mapBodies.1 hb'
    obtain ⟨i, hi, target⟩ := Option.bind_eq_some_iff.1 hl
    rw [labels_mapBodies]
    exact targets b hb i (List.mem_of_mem_getLast? hi) l target

/-- No instruction of the graph is a phi. -/
def PhiFree (g : FlowGraph) : Prop := ∀ b ∈ g.blocks, ∀ i ∈ b.body, i.isPhi = false

/-- No block begins with a phi, and nothing names the sink. -/
structure Bare (g : FlowGraph) : Prop where
  heads : ∀ b ∈ g.blocks, b.phis = []
  sink : .sink ∉ g.temps

/-- All phis stand at the heads of blocks. -/
def PhisFirst (g : FlowGraph) : Prop := ∀ b ∈ g.blocks, ∀ i ∈ b.code, i.isPhi = false

instance (g : FlowGraph) : Decidable g.PhisFirst := by
  unfold PhisFirst
  infer_instance

end FlowGraph

theorem Block.phis_append_code (b : Block) : b.phis ++ b.code = b.body :=
  List.takeWhile_append_dropWhile

theorem takeWhile_isPhi_of_plain {code : List Instr} (h : ∀ i ∈ code, i.isPhi = false) :
    code.takeWhile Instr.isPhi = [] := by
  cases code with
  | nil => rfl
  | cons i rest => exact List.takeWhile_cons_of_neg (by simp [h i List.mem_cons_self])

/-- Code behind the phis of a block does not begin with a phi, whatever phis are left out. -/
theorem takeWhile_isPhi_filter_code (b : Block) {keep : Instr → Bool}
    (keeps : ∀ i : Instr, i.isPhi = false → keep i = true) :
    (b.code.filter keep).takeWhile Instr.isPhi = [] := by
  cases code : b.code with
  | nil => rfl
  | cons i rest =>
    have plain : i.isPhi = false := by
      have head := List.head?_dropWhile_not Instr.isPhi b.body
      rw [show b.body.dropWhile Instr.isPhi = i :: rest from code] at head
      simpa using head
    rw [List.filter_cons_of_pos (keeps i plain)]
    exact List.takeWhile_cons_of_neg (by simp [plain])

theorem Block.phis_of_phiFree {b : Block} (h : ∀ i ∈ b.body, i.isPhi = false) : b.phis = [] :=
  takeWhile_isPhi_of_plain h

theorem Block.isPhi_of_mem_phis {b : Block} {i : Instr} (h : i ∈ b.phis) : i.isPhi = true :=
  List.mem_takeWhile_imp h

theorem Block.mem_body_of_mem_phis {b : Block} {i : Instr} (h : i ∈ b.phis) : i ∈ b.body := by
  rw [← b.phis_append_code]
  exact List.mem_append_left _ h

theorem Block.mem_body_of_mem_code {b : Block} {i : Instr} (h : i ∈ b.code) : i ∈ b.body := by
  rw [← b.phis_append_code]
  exact List.mem_append_right _ h

theorem Block.code_of_phis_nil {b : Block} (none : b.phis = []) : b.code = b.body := by
  have whole := b.phis_append_code
  rwa [none, List.nil_append] at whole

theorem Block.code_of_phiFree {b : Block} (h : ∀ i ∈ b.body, i.isPhi = false) :
    b.code = b.body := code_of_phis_nil (phis_of_phiFree h)

/-- A block that ends with phis has one at its end. -/
theorem Block.exists_last_phi {b : Block} {front group : List Instr} (body : b.body = front ++ group)
    (ne : group ≠ []) (phis : ∀ i ∈ group, i.isPhi = true) :
    ∃ i, b.body.getLast? = some i ∧ i.isPhi = true := by
  refine ⟨group.getLast ne, ?_, phis _ (List.getLast_mem ne)⟩
  rw [body, List.getLast?_append_of_ne_nil _ ne, List.getLast?_eq_some_getLast ne]

/-- A phi at the end of a block does not transfer control. -/
theorem Block.fallsThrough_of_last_phi {b : Block} {i : Instr} (last : b.body.getLast? = some i)
    (phi : i.isPhi = true) : b.fallsThrough = true := by
  rw [fallsThrough, last]
  cases i <;> simp_all [Instr.isPhi, Instr.fallsThrough]

/-- A block that ends with its phis is left at its end. -/
theorem Block.fallsThrough_of_code_nil {b : Block} (h : b.code = []) : b.fallsThrough = true := by
  have body := b.phis_append_code
  rw [h, List.append_nil] at body
  by_cases none : b.phis = []
  · rw [fallsThrough, ← body, none]
    rfl
  · have whole : b.body = [] ++ b.phis := body.symm
    obtain ⟨i, last, phi⟩ := exists_last_phi whole none fun _ => Block.isPhi_of_mem_phis
    exact fallsThrough_of_last_phi last phi

theorem FlowGraph.PhiFree.phisFirst {g : FlowGraph} (h : g.PhiFree) : g.PhisFirst := by
  intro b hb i hi
  rw [Block.code_of_phiFree (h b hb)] at hi
  exact h b hb i hi

/-- The phis of a block that is put together from phis and other instructions. -/
theorem Block.phis_and_code_of_head {b : Block} {phis code : List Instr}
    (body : b.body = phis ++ code) (hp : ∀ i ∈ phis, i.isPhi = true)
    (hc : code.takeWhile Instr.isPhi = []) : b.phis = phis ∧ b.code = code := by
  have code_eq := @List.takeWhile_append_dropWhile _ Instr.isPhi code
  rw [hc, List.nil_append] at code_eq
  rw [Block.phis, Block.code, body]
  constructor
  · rw [List.takeWhile_append_of_pos hp, hc, List.append_nil]
  · rw [List.dropWhile_append_of_pos hp, code_eq]

theorem Block.phis_and_code {b : Block} {phis code : List Instr} (body : b.body = phis ++ code)
    (hp : ∀ i ∈ phis, i.isPhi = true) (hc : ∀ i ∈ code, i.isPhi = false) :
    b.phis = phis ∧ b.code = code :=
  phis_and_code_of_head body hp (takeWhile_isPhi_of_plain hc)

/-! ## Definitions -/

namespace FlowGraph

variable {g : FlowGraph} {b : Block}

theorem mem_defs {d : Temp} : d ∈ g.defs ↔ ∃ b ∈ g.blocks, ∃ i ∈ b.body, i.def? = some d := by
  simp only [defs, code, List.mem_filterMap, List.mem_flatMap]
  constructor
  · rintro ⟨i, ⟨b, hb, hi⟩, hd⟩
    exact ⟨b, hb, i, hi, hd⟩
  · rintro ⟨b, hb, i, hi, hd⟩
    exact ⟨i, ⟨b, hb, hi⟩, hd⟩

theorem defs_sublist (hb : b ∈ g.blocks) : (b.body.filterMap Instr.def?).Sublist g.defs := by
  obtain ⟨before, later, split⟩ := List.append_of_mem hb
  refine List.Sublist.filterMap _ ?_
  rw [code, split, List.flatMap_append, List.flatMap_cons]
  exact (List.sublist_append_left _ _).trans (List.sublist_append_right _ _)

theorem mem_code {i : Instr} : i ∈ g.code ↔ ∃ b ∈ g.blocks, i ∈ b.body := List.mem_flatMap

/-- If every temporary has one definition, two instructions that define the same are one. -/
theorem eq_of_def? (once : g.defs.Nodup) {i j : Instr} {d : Temp} (hi : i ∈ g.code)
    (hj : j ∈ g.code) (di : i.def? = some d) (dj : j.def? = some d) : i = j := by
  rw [defs] at once
  generalize g.code = code at once hi hj
  induction code with
  | nil => cases hi
  | cons k rest ih =>
    cases dk : k.def? with
    | none =>
      rw [List.filterMap_cons_none dk] at once
      refine ih once ?_ ?_
      · refine (List.mem_cons.1 hi).resolve_left ?_
        rintro rfl
        cases dk.symm.trans di
      · refine (List.mem_cons.1 hj).resolve_left ?_
        rintro rfl
        cases dk.symm.trans dj
    | some e =>
      rw [List.filterMap_cons_some dk, List.nodup_cons] at once
      rcases List.mem_cons.1 hi with rfl | hi' <;> rcases List.mem_cons.1 hj with rfl | hj'
      · rfl
      · obtain rfl := Option.some.inj (dk.symm.trans di)
        exact absurd (List.mem_filterMap.2 ⟨j, hj', dj⟩) once.1
      · obtain rfl := Option.some.inj (dk.symm.trans dj)
        exact absurd (List.mem_filterMap.2 ⟨i, hi', di⟩) once.1
      · exact ih once.2 hi' hj'

end FlowGraph

/-! ## Finding blocks -/

theorem nextAfter?_append {l : Label} {before after : List Label} (h : l ∉ before) :
    nextAfter? l (before ++ l :: after) = after.head? := by
  induction before with
  | nil => simp [nextAfter?]
  | cons m before ih =>
    have ne : m ≠ l := fun e => h (e ▸ List.mem_cons_self)
    rw [List.cons_append, nextAfter?, if_neg ne]
    exact ih fun hm => h (List.mem_cons_of_mem _ hm)

namespace FlowGraph

variable {g : FlowGraph} {before later : List Block} {b : Block}

theorem label_not_mem_of_split (nodup : g.labels.Nodup) (split : g.blocks = before ++ b :: later) :
    b.label ∉ before.map Block.label ∧ b.label ∉ later.map Block.label := by
  rw [labels, split, List.map_append, List.map_cons] at nodup
  have h := List.nodup_append.1 nodup
  exact ⟨fun hm => h.2.2 _ hm _ List.mem_cons_self rfl, (List.nodup_cons.1 h.2.1).1⟩

theorem block?_of_split (nodup : g.labels.Nodup) (split : g.blocks = before ++ b :: later) :
    g.block? b.label = some b := by
  have h := (label_not_mem_of_split nodup split).1
  rw [block?, split, List.find?_append, List.find?_cons_of_pos (by simp)]
  have none : before.find? (fun c => c.label == b.label) = none := by
    refine List.find?_eq_none.2 fun c hc => ?_
    simp only [beq_iff_eq]
    exact fun e => h (e ▸ List.mem_map_of_mem hc)
  rw [none]
  rfl

theorem next?_of_split (nodup : g.labels.Nodup) (split : g.blocks = before ++ b :: later) :
    g.next? b.label = later.head?.map Block.label := by
  have h := (label_not_mem_of_split nodup split).1
  rw [next?, labels, split, List.map_append, List.map_cons, nextAfter?_append h, List.head?_map]

/-- A block is found under its label, and only there. -/
theorem block?_eq_some (nodup : g.labels.Nodup) {l : Label} :
    g.block? l = some b ↔ b ∈ g.blocks ∧ b.label = l := by
  constructor
  · intro h
    exact ⟨List.mem_of_find?_eq_some h, by simpa using List.find?_some h⟩
  · rintro ⟨hb, rfl⟩
    obtain ⟨before, later, split⟩ := List.append_of_mem hb
    exact block?_of_split nodup split

/-- Blocks with the same label are one. -/
theorem eq_of_label (nodup : g.labels.Nodup) {c : Block} (hb : b ∈ g.blocks) (hc : c ∈ g.blocks)
    (label : c.label = b.label) : c = b := List.inj_on_of_nodup_map nodup hc hb label

theorem mem_labels {l : Label} : l ∈ g.labels ↔ ∃ b ∈ g.blocks, b.label = l := List.mem_map

/-- The label behind a block in the text is the label of a block. -/
theorem mem_labels_of_next? (nodup : g.labels.Nodup) {l next : Label} (hl : l ∈ g.labels)
    (h : g.next? l = some next) : next ∈ g.labels := by
  obtain ⟨b, hb, rfl⟩ := mem_labels.1 hl
  obtain ⟨before, later, split⟩ := List.append_of_mem hb
  rw [next?_of_split nodup split] at h
  cases later with
  | nil => cases h
  | cons c later =>
    cases h
    exact mem_labels.2 ⟨c, by simp [split], rfl⟩

/-! ## Edges -/

theorem withSuccs_append (before : List Block) (b : Block) (later : List Block) :
    withSuccs (before ++ b :: later) =
      (withSuccs (before ++ [b])).take before.length ++
        (b, b.succs (later.head?.map Block.label)) :: withSuccs later := by
  induction before with
  | nil => simp [withSuccs]
  | cons c before ih =>
    simp only [List.cons_append, withSuccs, ih, List.length_cons, List.take_succ_cons]
    cases before <;> rfl

/-- The blocks of a graph, each with the edges that leave it. -/
theorem mem_withSuccs (nodup : g.labels.Nodup) {succs : List Label} :
    (b, succs) ∈ withSuccs g.blocks ↔ b ∈ g.blocks ∧ succs = b.succs (g.next? b.label) := by
  have fst : ∀ bs : List Block, (withSuccs bs).map Prod.fst = bs := by
    intro bs
    induction bs with
    | nil => rfl
    | cons c bs ih => rw [withSuccs, List.map_cons, ih]
  have mem : b ∈ g.blocks → (b, b.succs (g.next? b.label)) ∈ withSuccs g.blocks := by
    intro hb
    obtain ⟨before, later, split⟩ := List.append_of_mem hb
    rw [next?_of_split nodup split, split, withSuccs_append]
    exact List.mem_append_right _ List.mem_cons_self
  constructor
  · intro h
    have hb : b ∈ g.blocks := by
      rw [← fst g.blocks]
      exact List.mem_map_of_mem (f := Prod.fst) h
    refine ⟨hb, ?_⟩
    -- a block is listed once
    have once : ((withSuccs g.blocks).map fun e => e.1.label).Nodup := by
      have : (withSuccs g.blocks).map (fun e => e.1.label) = g.labels := by
        rw [labels, ← fst g.blocks, List.map_map, fst g.blocks]
        rfl
      rwa [this]
    exact congrArg Prod.snd (List.inj_on_of_nodup_map once h (mem hb) rfl)
  · rintro ⟨hb, rfl⟩
    exact mem hb

theorem succs_eq (nodup : g.labels.Nodup) (hb : b ∈ g.blocks) :
    g.succs b.label = b.succs (g.next? b.label) := by
  have mem : (b, b.succs (g.next? b.label)) ∈ withSuccs g.blocks :=
    (mem_withSuccs nodup).2 ⟨hb, rfl⟩
  rw [succs]
  cases h : (withSuccs g.blocks).find? fun e => e.1.label == b.label with
  | none =>
    have := List.find?_eq_none.1 h _ mem
    simp at this
  | some e =>
    have he : e ∈ withSuccs g.blocks := List.mem_of_find?_eq_some h
    have label : e.1.label = b.label := by simpa using List.find?_some h
    obtain ⟨c, ss⟩ := e
    obtain ⟨hc, rfl⟩ := (mem_withSuccs nodup).1 he
    simp [eq_of_label nodup hb hc label]

/-- An edge begins at a block. -/
theorem exists_of_mem_succs (nodup : g.labels.Nodup) {l m : Label} (edge : m ∈ g.succs l) :
    ∃ b ∈ g.blocks, b.label = l ∧ m ∈ b.succs (g.next? b.label) := by
  rw [succs] at edge
  split at edge
  · next e found =>
    obtain ⟨hb, same⟩ := (mem_withSuccs nodup).1 (List.mem_of_find?_eq_some found)
    have label : e.1.label = l := by simpa using List.find?_some found
    exact ⟨e.1, hb, label, same ▸ edge⟩
  · cases edge

/-- Control comes to a block from the blocks that have an edge to it. -/
theorem mem_preds (nodup : g.labels.Nodup) {l m : Label} :
    m ∈ g.preds l ↔ ∃ b ∈ g.blocks, b.label = m ∧ l ∈ b.succs (g.next? b.label) := by
  simp only [preds, List.mem_filterMap, Option.ite_none_right_eq_some, Option.some.injEq]
  constructor
  · rintro ⟨⟨b, ss⟩, mem, hl, rfl⟩
    obtain ⟨hb, rfl⟩ := (mem_withSuccs nodup).1 mem
    exact ⟨b, hb, rfl, hl⟩
  · rintro ⟨b, hb, rfl, hl⟩
    exact ⟨_, (mem_withSuccs nodup).2 ⟨hb, rfl⟩, hl, rfl⟩

end FlowGraph

theorem Block.mem_succs {b : Block} {next : Option Label} {l : Label} :
    l ∈ b.succs next ↔ b.target? = some l ∨ (b.fallsThrough = true ∧ next = some l) := by
  simp only [succs, List.mem_append, Option.mem_toList, List.mem_filter, decide_not,
    Bool.not_eq_true', decide_eq_false_iff_not]
  constructor
  · rintro (h | ⟨h, -⟩)
    · exact .inl h
    · right
      by_cases falls : b.fallsThrough = true
      · simpa [falls] using h
      · simp [falls] at h
  · rintro (h | ⟨falls, rfl⟩)
    · exact .inl h
    · by_cases h : b.target? = some l
      · exact .inl h
      · exact .inr ⟨by simp [falls], h⟩

end ThreeAddress
