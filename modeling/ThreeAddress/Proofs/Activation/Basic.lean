import ThreeAddress.Execution.Basic
import ThreeAddress.FlowGraph.Basic
/-!
# Activations

One activation of a procedure, taken by itself: it reads and writes its temporaries and the global
variables, prints, and asks for calls. What a call comes back with is up to the surroundings, so
an activation is described by the effects that it has with them and by its result.

* `Keeping` : a way to keep the values of temporaries, by name or in some other way;
* `Control` : a way to find the next instruction, in a body or in a control-flow graph;
* `Stage`, `step` : what an activation does next;
* `Yields` : the effects and the result of an activation from some stage on;
* `Control.ofBody`, `Control.ofGraph` : the two ways to find the next instruction.
-/

namespace ThreeAddress

open Execution

/-! ## Keeping the values of temporaries -/

/-- A way to keep the values of temporaries. -/
structure Keeping (σ : Type) where
  /-- The value of a temporary, if it has one. -/
  get? : σ → Temp → Option Word
  /-- Give a temporary a value. -/
  set : σ → Temp → Word → σ
  /-- Let a phi write its destination, when the argument it chose may have no value. -/
  choose : σ → Temp → Option Word → σ

namespace Keeping

variable {σ : Type} (K : Keeping σ)

/-- Give several temporaries values, one after the other. -/
def setAll (s : σ) (l : List (Temp × Word)) : σ := l.foldl (fun s e => K.set s e.1 e.2) s

/-- What a phi writes when control comes from `origin`. -/
def chosen (s : σ) (origin : Origin) : Instr → Option (Temp × Option Word)
  | .phi dest args => some (dest, (args.get? origin).bind (K.get? s))
  | _ => none

/-- Execute a group of phis, all of which read before any writes. -/
def assign (origin : Origin) (phis : List Instr) (s : σ) : σ :=
  (phis.filterMap (K.chosen s origin)).foldl (fun s e => K.choose s e.1 e.2) s

/-- By name, in a store. A phi whose argument has no value leaves its destination alone. -/
def byName : Keeping (Store Temp) where
  get? := Store.get?
  set := Store.set
  choose s t w? :=
    match w? with
    | some w => s.set t w
    | none => s

/-- By name, but a phi whose argument has no value takes the value of its destination away. -/
def strict : Keeping (Temp → Option Word) where
  get? s := s
  set s t w := fun x => if x = t then some w else s x
  choose s t w? := fun x => if x = t then w? else s x

end Keeping

/-! ## What an activation does -/

/-- What an activation reads and writes. -/
structure Local (σ : Type) where
  temps : σ
  /-- The arguments that were laid ready for the next call. -/
  staged : Store Nat
  globals : Store Global

/-- What an activation ends with: why it failed, or its value and the global variables. -/
abbrev Result := Except Failure (Word × Store Global)

/-- What an activation has to do with its surroundings. -/
inductive Effect where
  /-- It prints. -/
  | printed (p : Printed)
  /-- It writes a global variable. -/
  | wrote (g : Global) (w : Word)
  /-- It calls a procedure, which finds the given global variables and comes back with an answer. -/
  | called (callee : Global) (args : List Word) (globals : Store Global) (answer : Result)

/-- What an activation does next. Positions in its code are of type `π`. -/
inductive Stage (π σ : Type) where
  /-- It goes on at a position. -/
  | going (pos : π) (a : Local σ)
  /-- It prints, and goes on. -/
  | prints (p : Printed) (pos : π) (a : Local σ)
  /-- It has written a global variable, and goes on. -/
  | writes (g : Global) (w : Word) (pos : π) (a : Local σ)
  /-- It asks for a call, and goes on by writing the result. -/
  | asks (dest : Var) (callee : Global) (args : List Word) (pos : π) (a : Local σ)
  /-- It ends. -/
  | ends (r : Result)

/-- What is found at a position. -/
inductive Found (π : Type) where
  /-- An instruction that is executed by itself. -/
  | instr (i : Instr) (next : π)
  /-- A group of phis, when control comes from `origin`. -/
  | phis (origin : Origin) (group : List Instr) (next : π)
  /-- Nothing to execute. -/
  | pass (next : π)
  /-- The end of the procedure. -/
  | over

/-- A way to find the next instruction of a procedure. -/
structure Control (π : Type) where
  /-- The name of the procedure. -/
  proc : Global
  /-- What is found at a position. -/
  found : π → Found π
  /-- The position of a label, from a position on. -/
  target? : π → Label → Option π

namespace Control

variable {π σ : Type} (C : Control π) (K : Keeping σ)

/-- The value of an operand. -/
def read (a : Local σ) : Var → Except Failure Word
  | .temp t =>
    if t.isSink then .ok 0
    else
      match K.get? a.temps t with
      | some w => .ok w
      | none => .error (.uninitialized C.proc t)
  | .global g =>
    match a.globals.get? g with
    | some w => .ok w
    | none => .error (.unknownGlobal g)

/-- Read an operand and go on with its value. -/
def reading (a : Local σ) (v : Var) (next : Word → Stage π σ) : Stage π σ :=
  match C.read K a v with
  | .ok w => next w
  | .error f => .ends (.error f)

/-- Continue at a label. -/
def goto (pos : π) (a : Local σ) (l : Label) : Stage π σ :=
  match C.target? pos l with
  | some next => .going next a
  | none => .ends (.error (.unknownLabel C.proc l))

end Control

/-- Write an operand and go on. -/
def Keeping.write {π σ : Type} (K : Keeping σ) (pos : π) (a : Local σ) (v : Var) (w : Word) :
    Stage π σ :=
  match v with
  | .temp t =>
    if t.isSink then .going pos a else .going pos { a with temps := K.set a.temps t w }
  | .global g =>
    match a.globals.get? g with
    | some _ => .writes g w pos { a with globals := a.globals.set g w }
    | none => .ends (.error (.unknownGlobal g))

/-- The arguments from an index on that were laid ready, as many as asked for. -/
def gather (staged : Store Nat) (callee : Global) (index : Nat) : Nat → Except Failure (List Word)
  | 0 => .ok []
  | n + 1 =>
    match staged.get? index with
    | none => .error (.missingArgument callee index)
    | some w => (gather staged callee (index + 1) n).map (w :: ·)

namespace Control

variable {π σ : Type} (C : Control π) (K : Keeping σ)

/-- Execute an instruction in front of a position. -/
def perform (pos : π) (a : Local σ) : Instr → Stage π σ
  | .nop | .label _ | .phi _ _ => .going pos a
  | .jump target => C.goto pos a target
  | .branch test arg target =>
    C.reading K a arg fun w => if test.holds w then C.goto pos a target else .going pos a
  | .binary op dest lhs rhs =>
    C.reading K a lhs fun v => C.reading K a rhs fun w =>
      match op.eval? v w with
      | some u => K.write pos a dest u
      | none => .ends (.error (.divisionByZero C.proc))
  | .unary op dest arg => C.reading K a arg fun w => K.write pos a dest (op.eval w)
  | .const dest value => K.write pos a dest value
  | .copy dest src => C.reading K a src fun w => K.write pos a dest w
  | .param index arg =>
    C.reading K a arg fun w => .going pos { a with staged := a.staged.set index w }
  | .call dest callee argc =>
    match gather a.staged callee 1 argc with
    | .error f => .ends (.error f)
    | .ok args => .asks dest callee args pos { a with staged := Store.empty }
  | .ret arg => C.reading K a arg fun w => .ends (.ok (w, a.globals))
  | .print arg => C.reading K a arg fun w => .prints (.word w) pos a

/-- What an activation does at a position. -/
def step (pos : π) (a : Local σ) : Stage π σ :=
  match C.found pos with
  | .over => .ends (.ok (0, a.globals))
  | .pass next => .going next a
  | .phis origin group next => .going next { a with temps := K.assign origin group a.temps }
  | .instr i next => C.perform K next a i

/-- An activation has these effects from a stage on, and ends with this result. -/
inductive Yields : Stage π σ → List Effect → Result → Prop where
  | ends {r : Result} : Yields (.ends r) [] r
  | going {pos : π} {a : Local σ} {t : List Effect} {r : Result} (h : Yields (C.step K pos a) t r) :
      Yields (.going pos a) t r
  | prints {p : Printed} {pos : π} {a : Local σ} {t : List Effect} {r : Result}
      (h : Yields (C.step K pos a) t r) : Yields (.prints p pos a) (.printed p :: t) r
  | writes {g : Global} {w : Word} {pos : π} {a : Local σ} {t : List Effect} {r : Result}
      (h : Yields (C.step K pos a) t r) : Yields (.writes g w pos a) (.wrote g w :: t) r
  | answered {dest : Var} {callee : Global} {args : List Word} {pos : π} {a : Local σ} {w : Word}
      {globals : Store Global} {t : List Effect} {r : Result}
      (h : Yields (K.write pos { a with globals } dest w) t r) :
      Yields (.asks dest callee args pos a) (.called callee args a.globals (.ok (w, globals)) :: t) r
  | failed {dest : Var} {callee : Global} {args : List Word} {pos : π} {a : Local σ} {f : Failure} :
      Yields (.asks dest callee args pos a) [.called callee args a.globals (.error f)] (.error f)

end Control

/-- The state of an activation at its beginning. -/
def Local.enter {σ : Type} (K : Keeping σ) (s : σ) (params : List Temp) (args : List Word)
    (globals : Store Global) : Local σ :=
  ⟨K.setAll s (params.zip args), Store.empty, globals⟩

/-! ## Finding the next instruction in a body -/

/-- A position in the body of a procedure. -/
structure Spot where
  /-- The instructions from the next one on. -/
  code : List Instr
  /-- The block that control came from when it reached the current one. -/
  previous : Origin
  /-- The block that is being executed. -/
  current : Origin

/-- Control in the body of a procedure, where every label that is passed begins a block. -/
def Control.ofBody (proc : Global) (body : List Instr) : Control Spot where
  proc
  found pos :=
    match pos.code with
    | [] => .over
    | .label l :: rest => .pass ⟨rest, pos.current, .block l⟩
    | .phi dest args :: rest =>
      .phis pos.previous (.phi dest args :: rest.takeWhile Instr.isPhi)
        { pos with code := rest.dropWhile Instr.isPhi }
    | i :: rest => .instr i { pos with code := rest }
  target? pos l := (codeFrom? l body).map fun code => { pos with code }

/-- The beginning of a body. -/
def Spot.first (body : List Instr) : Spot := ⟨body, .entry, .entry⟩

/-! ## Finding the next instruction in a graph -/

/-- A position in a control-flow graph. -/
inductive Point where
  /-- In front of a block, when control comes from `origin`. -/
  | enter (origin : Origin) (l : Label)
  /-- Within a block, in front of the given instructions. -/
  | within (origin : Origin) (l : Label) (code : List Instr)

/-- The label that follows another in a list. -/
def nextAfter? (l : Label) : List Label → Option Label
  | [] => none
  | m :: rest => if m = l then rest.head? else nextAfter? l rest

/-- The block that follows another in the text. -/
def FlowGraph.next? (g : FlowGraph) (l : Label) : Option Label := nextAfter? l g.labels

/-- Control in a graph. The phis at the head of a block are executed on entering it. -/
def Control.ofGraph (g : FlowGraph) : Control Point where
  proc := g.name
  found
    | .enter origin l =>
      match g.block? l with
      | some b => .phis origin b.phis (.within origin l b.code)
      | none => .over
    | .within _ l [] =>
      match g.next? l with
      | some next => .pass (.enter (.block l) next)
      | none => .over
    | .within origin l (.phi dest args :: rest) =>
      .phis origin (.phi dest args :: rest.takeWhile Instr.isPhi)
        (.within origin l (rest.dropWhile Instr.isPhi))
    | .within origin l (i :: rest) => .instr i (.within origin l rest)
  target?
    | .within _ l _, target => if target ∈ g.labels then some (.enter (.block l) target) else none
    | .enter _ _, _ => none

namespace FlowGraph

/-- An activation of a procedure, run in its graph from its entry on. -/
def Runs {σ : Type} (g : FlowGraph) (K : Keeping σ) (a : Local σ) (t : List Effect) (r : Result) :
    Prop :=
  match g.entry? with
  | some l => (Control.ofGraph g).Yields K (.going (.enter .entry l) a) t r
  | none => t = [] ∧ r = .ok (0, a.globals)

end FlowGraph

/-- An activation of a procedure, run in its body from the beginning on. -/
def Proc.Runs {σ : Type} (p : Proc) (K : Keeping σ) (a : Local σ) (t : List Effect) (r : Result) :
    Prop :=
  (Control.ofBody p.name p.body).Yields K (.going (.first p.body) a) t r

end ThreeAddress
