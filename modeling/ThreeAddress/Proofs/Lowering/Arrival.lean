import ThreeAddress.Proofs.Execution.Trace
import ThreeAddress.Proofs.Liveness.Exact
import ThreeAddress.Proofs.Lowering.Edges
import ThreeAddress.Proofs.Lowering.Entry
import ThreeAddress.Proofs.SingleAssignment.Convert
import ThreeAddress.Proofs.Source.Programs
/-!
# Where parameters arrive

A function is entered with its arguments in registers and on the stack, and the registers for
arguments are homes as well. In front of the first block every parameter is at home all the same,
and so are the phis of this block that take a parameter on entry, whatever the homes are.

A name may be in a list of parameters twice. An activation then keeps the argument that comes last.
So does the function if that one is on the stack, but of those in registers its moves bring home the
one that comes first.

* `Execution.Agreed` : the last argument for a parameter is on the stack, or all are the same;
* `Layout.executes_entryPhis` : what the moves of phis bring home;
* `Lowers.not_isSink_of_liveAt` : what is live can be at home;
* `FlowGraph.params_arrive` : parameters and phis are at home in front of the first block;
* `FlowGraph.params_arrive_crossed` : parameters that change places on the way;
* `FlowGraph.param_misplaced` : a parameter that is there twice, and gets the wrong argument.
-/

namespace ThreeAddress

open Execution Target

/-! ## Arguments of an activation -/

namespace Execution

/-- An argument for a parameter comes from the stack, where the last one counts, or all arguments for
it are the same. They are if it is in the list once. -/
def Agreed (q : Proc) (args : List Word) (t : Temp) : Prop :=
  t ∈ q.params.drop Register.arguments.length ∨
    ∀ e ∈ q.params.zip args, ∀ e' ∈ q.params.zip args, e.1 = t → e'.1 = t → e.2 = e'.2

instance (q : Proc) (args : List Word) (t : Temp) : Decidable (Agreed q args t) :=
  inferInstanceAs (Decidable (_ ∨ ∀ e ∈ q.params.zip args, ∀ e' ∈ q.params.zip args,
    e.1 = t → e'.1 = t → e.2 = e'.2))

/-- An activation begins with the last argument of a parameter. -/
theorem get?_enter {q : Proc} {args : List Word} {t : Temp} {w : Word} {front back : List Temp}
    (split : q.params = front ++ t :: back) (last : t ∉ back) (arg : args[front.length]? = some w) :
    (Frame.enter q args).temps.get? t = some w := by
  obtain ⟨lt, rfl⟩ := List.getElem?_eq_some_iff.1 arg
  have length : front.length = (args.take front.length).length := by
    rw [List.length_take]
    omega
  have pairs : q.params.zip args = front.zip (args.take front.length) ++
      (t, args[front.length]) :: back.zip (args.drop (front.length + 1)) := by
    conv_lhs => rw [split, ← List.take_append_drop front.length args, List.drop_eq_getElem_cons lt]
    rw [List.zip_append length, List.zip_cons_cons]
  have later : ((back.zip (args.drop (front.length + 1))).filterMap fun e =>
      if e.1 = t then some e.2 else none) = [] := by
    refine List.filterMap_eq_nil_iff.2 fun e he => if_neg ?_
    rintro rfl
    exact last (List.of_mem_zip he).1
  rw [Frame.enter, get?_setAll, pairs, List.filterMap_append, List.filterMap_cons, if_pos rfl]
  simp only [later, List.getLast?_concat, Option.some_or]

/-- This argument arrives for the parameter, if the arguments agree. -/
theorem exists_bound {q : Proc} {args : List Word} {t : Temp}
    (length : q.params.length = args.length) (mem : t ∈ q.params) (agreed : Agreed q args t) :
    ∃ w, (Frame.enter q args).temps.get? t = some w ∧ Layout.Delivers q.params args t w := by
  obtain ⟨front, back, split, last⟩ := exists_last_of_mem mem
  have lt : front.length < args.length := by
    rw [← length, split, List.length_append, List.length_cons]
    omega
  have arg : args[front.length]? = some args[front.length] := List.getElem?_eq_getElem lt
  refine ⟨args[front.length], get?_enter split last arg, ?_⟩
  rcases agreed with onStack | same
  · refine .inr ⟨front, back, split, last, ?_, arg⟩
    by_contra early
    rw [split, List.drop_append, List.drop_eq_nil_of_le (by omega), List.nil_append] at onStack
    -- behind the registers there are only parameters behind the last one
    obtain ⟨n, hn⟩ : ∃ n, Register.arguments.length - front.length = n + 1 :=
      ⟨Register.arguments.length - front.length - 1, by omega⟩
    rw [hn, List.drop_succ_cons] at onStack
    exact last (List.mem_of_mem_drop onStack)
  · have pair : (t, args[front.length]) ∈ q.params.zip args := by
      refine List.mem_of_getElem? (i := front.length) (List.getElem?_zip_eq_some.2 ⟨?_, arg⟩)
      rw [split, List.getElem?_append_right (Nat.le_refl _), Nat.sub_self]
      rfl
    exact .inl fun e he own => same e he _ pair own rfl

end Execution

/-! ## Phis of a block -/

namespace Layout

variable {layout : Layout} {base : Int} {m : Machine} {origin : Origin}

theorem AtHome.register {t : Temp} {v : Value} {r : Register} (h : layout.AtHome base t v m)
    (home : layout.locations.get? t = some (.register r)) : m.registers r = v := by
  obtain ⟨l, stored, value⟩ := h
  obtain rfl := Option.some.inj (home.symm.trans stored)
  exact Option.some.inj value

/-- The moves of phis leave what is live in front of them at home. The destination of a phi gets
what its argument had, if several phis of it have arguments with the same value. -/
theorem executes_entryPhis {g : FlowGraph} {live : Liveness} {b : Block} {moves : List Move}
    (nodup : g.labels.Nodup) (solved : Solved g live) (housed : Housed g live layout.locations)
    (sound : layout.Sound) (stands : layout.Stands base m) (hb : b ∈ g.blocks)
    (h : g.edgeMoves layout origin b.label = .ok moves) :
    m.Executes (moveAll moves) fun m' =>
      (∀ t v, t ∈ live.before b.label → layout.AtHome base t v m → layout.AtHome base t v m') ∧
      ∀ d v, (∃ choices t, .phi d choices ∈ b.phis ∧ choices.get? origin = some t) →
        (∀ choices t, .phi d choices ∈ b.phis → choices.get? origin = some t →
          t.isSink = false → layout.AtHome base t v m) → layout.AtHome base d v m' := by
  have found : g.block? b.label = some b := (FlowGraph.block?_eq_some nodup).2 ⟨hb, rfl⟩
  simp only [FlowGraph.edgeMoves, found] at h
  refine (executes_homeMoves sound stands h).imp ?_
  rintro m' - ⟨moved, kept, -⟩
  constructor
  · rintro t v ht ⟨l, home, value⟩
    obtain ⟨other, behind⟩ := (solved.mem_before hb).1 ht
    refine ⟨l, home, (kept l (sound.homes t l home) fun mem => ?_).trans value⟩
    -- a phi that wrote the home of what is live in front of it
    obtain ⟨e, he, rfl⟩ := List.mem_map.1 mem
    obtain ⟨d, choices, a, phi, -, -, dst⟩ := mem_homeMoves.1 he
    have hd : d ∈ b.phiDefs := Block.mem_phiDefs.2 ⟨choices, phi⟩
    have ne : d ≠ t := by
      rintro rfl
      exact other hd
    exact housed.phi b hb d hd (housed.named d _ dst) t behind (housed.named t _ home) ne _ dst home
  · rintro d v ⟨choices, t, phi, arg⟩ agree
    obtain ⟨dst, src, home, home', -⟩ := exists_of_phiMoves h phi arg
    have move : (dst, src) ∈ homeMoves layout.locations origin b.phis :=
      mem_homeMoves.2 ⟨d, choices, t, phi, arg, home', home⟩
    refine ⟨dst, home, moved dst v (List.mem_map_of_mem move) fun e he same => ?_⟩
    obtain ⟨d', choices', t', phi', arg', src', dst'⟩ := mem_homeMoves.1 he
    have own : d = d' := by
      by_contra ne
      exact housed.phis b hb d (Block.mem_phiDefs.2 ⟨choices, phi⟩) (housed.named d _ home) d'
        (Block.mem_phiDefs.2 ⟨choices', phi'⟩) (housed.named d' _ dst') ne dst home (same ▸ dst')
    subst own
    obtain ⟨l, stored, value⟩ := agree choices' t' phi' arg' (housed.named t' _ src')
    obtain rfl := Option.some.inj (stored.symm.trans src')
    exact value

end Layout

/-- The sink is live nowhere: no instruction reads it, and it has no home for the moves of an edge
to take from. -/
theorem Lowers.not_isSink_of_liveAt {f : Target.Function} {g : FlowGraph} {live : Liveness}
    {layout : Layout} (h : Lowers f g live layout) (nodup : g.labels.Nodup)
    (housed : Housed g live layout.locations) {s : Site} {t : Temp} (at_ : g.LiveAt t s) :
    t.isSink = false := by
  refine at_.rec_on (P := fun _ => t.isSink = false) (fun s reads => ?_) fun _ _ _ _ known => known
  cases s with
  | head => cases reads
  | within l rest =>
    cases rest with
    | cons i rest => exact Instr.uses_not_isSink reads
    | nil =>
      obtain ⟨b, hb, edge, arg⟩ := reads
      obtain ⟨p, hp, rfl, leaves⟩ := FlowGraph.exists_of_mem_succs nodup edge
      obtain ⟨code, -, codeAt⟩ := h.blocks p hp
      obtain ⟨moves, made, -⟩ := codeAt.crosses leaves
      have found : g.block? b.label = some b := (FlowGraph.block?_eq_some nodup).2 ⟨hb, rfl⟩
      simp only [FlowGraph.edgeMoves, found] at made
      obtain ⟨d, choices, phi, choice⟩ := Block.mem_phiArgsFrom.1 arg
      obtain ⟨-, src, -, home, -⟩ := Layout.exists_of_phiMoves made phi choice
      exact housed.named t src home

/-! ## In front of the first block -/

namespace FlowGraph

variable {q : Proc} {g₀ g : FlowGraph} {names : FreshNames} {live : Liveness} {registers : Nat}
  {allocation : Allocation} {f : Target.Function} {args : List Word} {entry : Machine} {top : Int}

/-- With or without the conversion to single assignment a procedure has the same labels and the same
parameters. In a converted one no temporary is defined twice. -/
theorem shape_of_form (built : ofProc q = .ok (g₀, names))
    (form : g = g₀ ∨ ∃ c, g₀.convert names = .ok c ∧ g = c.graph) :
    g.labels = g₀.labels ∧ g.params = q.params ∧ (g = g₀ ∨ g.defs.Nodup) := by
  have from_ := builtFrom_of_ofProc built
  rcases form with rfl | ⟨c, converted, rfl⟩
  · exact ⟨rfl, from_.params, .inl rfl⟩
  · obtain ⟨labels, params, once⟩ := shape_of_convert from_.wellFormed.nodup converted
    exact ⟨labels, params.trans from_.params, .inr once⟩

/-- However many registers the temporaries of a procedure are given, and whether it is converted to
single assignment or not: where its function is entered with arguments in registers and on the
stack, the code in front of the first block brings home what the interpreter begins with. A
parameter that is live in front of the block has its argument at home, and the destination of a phi
of the block that takes a parameter on entry has the argument of this parameter. A parameter may be
in the list more than once if all its arguments are the same or the last of them is on the stack,
and a procedure that is not converted may have several phis of one temporary if they take the same
on entry. -/
theorem params_arrive (built : ofProc q = .ok (g₀, names))
    (form : g = g₀ ∨ ∃ c, g₀.convert names = .ok c ∧ g = c.graph)
    (found : g.liveness = .ok live)
    (allocated : (g.interference live).allocate registers = .ok allocation)
    (lowered : g.lower live allocation.assignment = .ok f) (small : f.frame.bytes < 2147483648)
    (length : q.params.length = args.length) (few : 8 * args.length < 2147483648)
    (rsp : entry.registers .rsp = .stack top) (aligned : top % 16 = 8)
    (arrived : ∀ k w, args[k]? = some w →
      entry.value? (argumentCell (top + 8) k) = some (.word w)) :
    let layout := Layout.ofAssignment g allocation.assignment
    let bound := (Execution.Frame.enter q args).temps.get?
    ∃ b ∈ g.blocks, g.entry? = some b.label ∧ ∃ entering rest m,
      f.instrs = entering ++ .label (layout.blockName b.label) :: rest ∧ labelsOf entering = [] ∧
      entry.applyAll entering = some m ∧
      (∀ t ∈ q.params, t ∈ live.before b.label → Agreed q args t →
        ∃ w, bound t = some w ∧ layout.AtHome (top - 8) t (.word w) m) ∧
      ∀ d choices t, .phi d choices ∈ b.phis → choices.get? .entry = some t → t ∈ q.params →
        Agreed q args t →
        (g = g₀ → ∀ choices' t', .phi d choices' ∈ b.phis → choices'.get? .entry = some t' →
          t' ∈ q.params ∧ Agreed q args t' ∧ bound t' = bound t) →
        ∃ w, bound t = some w ∧ layout.AtHome (top - 8) d (.word w) m := by
  intro layout bound
  have wf := (builtFrom_of_ofProc built).wellFormed
  obtain ⟨labels, params, once⟩ := shape_of_form built form
  have nodup : g.labels.Nodup := labels ▸ wf.nodup
  obtain ⟨l, first⟩ : ∃ l, g.entry? = some l := by
    rw [FlowGraph.entry?, labels]
    exact wf.exists_entry
  obtain ⟨b, hb, rfl⟩ := mem_labels.1 (Arrives.entry first).1
  have solved := solved_of_liveness nodup found
  have housed := Allocation.housed_of_nodup nodup found allocated
  obtain ⟨lowers, -, frame⟩ := lowers_of_lower nodup solved lowered
  have sound : layout.Sound :=
    Layout.sound_ofAssignment (InterferenceGraph.fits_of_allocate allocated) (frame ▸ small)
  obtain ⟨entering, entered, starts⟩ := lowers.entry
  obtain ⟨code, name, instrs⟩ := starts _ first
  obtain ⟨rest, name', -⟩ := lowers.blocks b hb
  obtain rfl := Option.some.inj (name.symm.trans name')
  obtain ⟨inRegisters, onStack, moves, moved, loaded, edge, -, rfl⟩ := Layout.enter_eq_ok entered
  have above : top - 8 + 8 = top := by omega
  have arguments : top - 8 + 16 = top + 8 := by omega
  rw [← above] at rsp
  rw [← arguments] at arrived
  obtain ⟨m₁, applied₁, held, atHome, -, -⟩ := Layout.executes_arrive housed sound
    (params ▸ length) few (by omega) rsp arrived moved loaded
  obtain ⟨m, applied, kept, phis⟩ :=
    Layout.executes_entryPhis nodup solved housed sound held.toStands hb (edge _ first)
  rw [params] at atHome
  refine ⟨b, hb, first, _, rest, m, instrs, Layout.labelsOf_enter entered, ?_, ?_, ?_⟩
  · rw [List.append_assoc layout.setUp, Machine.applyAll_append applied₁, applied]
  · intro t ht inside agreed
    have named := lowers.not_isSink_of_liveAt nodup housed
      (onlyLive_of_liveness nodup found _ t inside)
    obtain ⟨w, value, same⟩ := exists_bound length ht agreed
    exact ⟨w, value, kept t _ inside (atHome t w ht named same)⟩
  · intro d choices t phi arg ht agreed together
    obtain ⟨w, value, -⟩ := exists_bound length ht agreed
    refine ⟨w, value, phis d _ ⟨choices, t, phi, arg⟩ fun choices' t' phi' arg' named => ?_⟩
    have takes : t' ∈ q.params ∧ Agreed q args t' ∧ bound t' = bound t := by
      rcases once with same | once
      · exact together same choices' t' phi' arg'
      · have inCode : ∀ {i}, i ∈ b.phis → i ∈ g.code :=
          fun hi => mem_code.2 ⟨b, hb, Block.mem_body_of_mem_phis hi⟩
        cases eq_of_def? once (inCode phi) (inCode phi') rfl rfl
        cases arg.symm.trans arg'
        exact ⟨ht, agreed, rfl⟩
    obtain ⟨ht', agreed', also⟩ := takes
    obtain ⟨w', value', same'⟩ := exists_bound length ht' agreed'
    obtain rfl : w' = w := Option.some.inj (value'.symm.trans (also.trans value))
    exact atHome t' w' ht' named same'

/-- A procedure with eight parameters, three of them live in its loop and one taken by a phi. -/
def crossed : FlowGraph :=
  let v (s : String) : Temp := ⟨s, none⟩
  let loop : Label := ⟨"loop"⟩
  ⟨⟨"crossed"⟩, [v "a", v "b", .sink, v "c", v "d", v "e", v "h", v "k"], [
    ⟨loop, true, [
      .phi (v "z") (.ofList [(.entry, v "k"), (.block loop, v "z")]),
      .binary .add (.temp (v "y")) (.temp (v "a")) (.temp (v "b")),
      .binary .add (.temp (v "y")) (.temp (v "y")) (.temp (v "h")),
      .branch .nonzero (.temp (v "y")) loop]⟩,
    ⟨⟨"exit"⟩, true, [.ret (.temp (v "z"))]⟩]⟩

/-- A machine in which a function was called with the arguments from 1 to 8. -/
def called : Machine where
  registers
    | .rdi => .word 1
    | .rsi => .word 2
    | .rdx => .word 3
    | .rcx => .word 4
    | .r8 => .word 5
    | .r9 => .word 6
    | .rsp => .stack 8
    | _ => .word 0
  flags := none
  stack a := if a = 16 then .word 7 else if a = 24 then .word 8 else .back none
  data _ := none
  printed := #[]

theorem called_arguments (k : Nat) (w : Word) (h : [1, 2, 3, 4, 5, 6, 7, 8][k]? = some w) :
    called.value? (argumentCell (8 + 8) k) = some (.word w) := by
  have lt : k < 8 := (List.getElem?_eq_some_iff.1 h).1
  have all : ∀ k < 8, called.value? (argumentCell (8 + 8) k) =
      ([1, 2, 3, 4, 5, 6, 7, 8][k]? : Option Word).map .word := by decide
  rw [all k lt, h]
  rfl

/-- Its first two arguments change places on the way home, and the last two come from the stack. -/
theorem params_arrive_crossed : ∃ names live allocation f,
    ofProc crossed.toProc = .ok (crossed, names) ∧ crossed.liveness = .ok live ∧
    (crossed.interference live).allocate 10 = .ok allocation ∧
    crossed.lower live allocation.assignment = .ok f ∧ f.frame.bytes = 16 ∧
    ∃ entering rest m, f.instrs = entering ++ .label ".Lcrossed.Lloop" :: rest ∧
      called.applyAll entering = some m ∧ m.registers .rsi = .word 1 ∧ m.registers .rdi = .word 2 ∧
      m.registers .rbx = .word 7 ∧ m.registers .r9 = .word 8 := by
  obtain ⟨names, built⟩ : ∃ names, ofProc crossed.toProc = .ok (crossed, names) := ⟨_, rfl⟩
  have computed : (crossed.liveness.toOption.bind fun live =>
      ((crossed.interference live).allocate 10).toOption.bind fun allocation =>
        (crossed.lower live allocation.assignment).toOption.map fun f =>
          (f.frame.bytes, (live.before ⟨"loop"⟩).toList,
            ["a", "b", "h", "z"].map fun s => allocation.assignment.locations.get? ⟨s, none⟩)) =
      some (16, [⟨"a", none⟩, ⟨"b", none⟩, ⟨"h", none⟩],
        [.rsi, .rdi, .rbx, .r9].map fun r => some (.register r)) := by
    decide +kernel
  simp only [Option.bind_eq_some_iff, Option.map_eq_some_iff, toOption_eq_some_iff,
    Prod.mk.injEq, List.map_cons, List.map_nil, List.cons.injEq, and_true] at computed
  obtain ⟨live, found, allocation, allocated, f, lowered, size, before, rsi, rdi, rbx, r9⟩ :=
    computed
  have length : crossed.toProc.params.length = [1, 2, 3, 4, 5, 6, 7, (8 : Word)].length := rfl
  have rsp : called.registers .rsp = .stack 8 := rfl
  obtain ⟨b, hb, first, entering, rest, m, instrs, -, applied, params, phis⟩ :=
    params_arrive built (.inl rfl) found allocated lowered (by omega) length (by decide) rsp rfl
      called_arguments
  have label : b.label = ⟨"loop"⟩ := Option.some.inj (first.symm.trans rfl)
  obtain rfl : b = crossed.blocks.head (by decide) :=
    eq_of_label (builtFrom_of_ofProc built).wellFormed.nodup (List.head_mem _) hb label
  have inside : ∀ t ∈ [(⟨"a", none⟩ : Temp), ⟨"b", none⟩, ⟨"h", none⟩], t ∈ live.before ⟨"loop"⟩ :=
    fun t ht => SortedSet.mem_iff.2 (before ▸ ht)
  obtain ⟨wa, boundA, a⟩ := params ⟨"a", none⟩ (by decide) (inside _ (by decide)) (by decide)
  obtain ⟨wb, boundB, b⟩ := params ⟨"b", none⟩ (by decide) (inside _ (by decide)) (by decide)
  obtain ⟨wh, boundH, h⟩ := params ⟨"h", none⟩ (by decide) (inside _ (by decide)) (by decide)
  have alone : ∀ i ∈ (crossed.blocks.head (by decide)).phis,
      i = .phi ⟨"z", none⟩ (.ofList [(.entry, ⟨"k", none⟩), (.block ⟨"loop"⟩, ⟨"z", none⟩)]) := by
    decide
  obtain ⟨wz, boundZ, z⟩ := phis ⟨"z", none⟩ _ ⟨"k", none⟩ List.mem_cons_self rfl (by decide)
    (by decide) fun _ choices' t' phi arg => by
      cases alone _ phi
      obtain rfl : ⟨"k", none⟩ = t' := Option.some.inj arg
      exact ⟨by decide, by decide, rfl⟩
  cases boundA
  cases boundB
  cases boundH
  cases boundZ
  exact ⟨names, live, allocation, f, built, found, allocated, lowered, size, entering, rest, m,
    instrs, applied, a.register rsi, b.register rdi, h.register rbx, z.register r9⟩

/-- A procedure whose parameters have the same name. -/
def twin : Proc := ⟨⟨"f"⟩, [⟨"a", none⟩, ⟨"a", none⟩], [.ret (.temp ⟨"a", none⟩)]⟩

/-- It is read from its text and compiled. An activation begins with the second argument, and in the
function the first one is at home. -/
theorem param_misplaced : Program.parse (⟨[], [twin]⟩ : Program).text = .ok ⟨[], [twin]⟩ ∧
    (Execution.Frame.enter twin [1, 2]).temps.get? ⟨"a", none⟩ = some 2 ∧
    ∃ g names live allocation f, ofProc twin = .ok (g, names) ∧ g.liveness = .ok live ∧
      (g.interference live).allocate 10 = .ok allocation ∧
      g.lower live allocation.assignment = .ok f ∧ f.frame.bytes = 0 ∧
      (∀ k w, [1, 2][k]? = some w → called.value? (argumentCell (8 + 8) k) = some (.word w)) ∧
      ∃ b entering rest m, g.blocks = [b] ∧ ⟨"a", none⟩ ∈ live.before b.label ∧
        f.instrs = entering ++
          .label ((Layout.ofAssignment g allocation.assignment).blockName b.label) :: rest ∧
        labelsOf entering = [] ∧ called.applyAll entering = some m ∧
        (Layout.ofAssignment g allocation.assignment).AtHome 0 ⟨"a", none⟩ (.word 1) m ∧
        ¬ (Layout.ofAssignment g allocation.assignment).AtHome 0 ⟨"a", none⟩ (.word 2) m := by
  refine ⟨Program.parse_text (by decide) (by decide), rfl, _, _, _, _, _, rfl, rfl, rfl, rfl, rfl,
    fun k w h => ?_, _, [_, _, _], _, _, rfl, ?_, rfl, rfl, rfl, ⟨_, rfl, rfl⟩, ?_⟩
  · have inside : k < [1, (2 : Word)].length := (List.getElem?_eq_some_iff.1 h).1
    exact called_arguments k w ((List.getElem?_append_left inside).trans h)
  · exact SortedSet.mem_iff.2 List.mem_cons_self
  · rintro ⟨l, stored, value⟩
    cases stored
    cases value

end FlowGraph

end ThreeAddress
