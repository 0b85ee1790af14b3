import ThreeAddress.Proofs.Activation.Basic
/-!
# Calls

The activations of a program answer each other. A call is described by what it prints and by its
answer; it may be given to a procedure of the program, or to one of the two printing procedures.

* `Heard` : what is printed along a sequence of effects, calls included;
* `Program.Calls` : what a call prints and answers, when so many activations may be nested;
* `Program.Finishes` : how the run of a program ends when no limit of steps cuts it short.
-/

namespace ThreeAddress

open Execution

/-- What is printed along a sequence of effects, if each call prints and answers as `calls` says. -/
def Heard (calls : Global → List Word → Store Global → List Printed → Result → Prop) :
    List Effect → List Printed → Prop
  | [], out => out = []
  | .printed p :: t, out => ∃ rest, out = p :: rest ∧ Heard calls t rest
  | .wrote _ _ :: t, out => Heard calls t out
  | .called callee args globals answer :: t, out =>
    ∃ first rest, out = first ++ rest ∧ calls callee args globals first answer ∧ Heard calls t rest

/-- Is the procedure one of the two that are built in? -/
def Global.isBuiltIn (g : Global) : Prop := g = .printWord ∨ g = .printTruth

instance (g : Global) : Decidable g.isBuiltIn := inferInstanceAs (Decidable (_ ∨ _))

/-- The line that a built-in procedure prints. -/
def Global.line (g : Global) (w : Word) : Printed := if g = .printWord then .word w else .truth w

/-- What a call of a built-in procedure prints and answers. -/
def Global.BuiltInCall (callee : Global) (args : List Word) (globals : Store Global)
    (out : List Printed) (r : Result) : Prop :=
  match args with
  | [w] => out = [callee.line w] ∧ r = .ok (0, globals)
  | _ => out = [] ∧ r = .error (.arityMismatch callee 1 args.length)

namespace Program

/-- A call prints `out` and is answered by `r`, when `depth` activations may be nested in it, its
own included. -/
def Calls (p : Program) : (depth : Nat) → (callee : Global) → (args : List Word) →
    (globals : Store Global) → (out : List Printed) → (r : Result) → Prop
  | 0, _, _, _, out, r => out = [] ∧ r = .error (.callDepth maxDepth)
  | depth + 1, callee, args, globals, out, r =>
    if callee.isBuiltIn then callee.BuiltInCall args globals out r
    else
      match p.proc? callee with
      | none => out = [] ∧ r = .error (.unknownProcedure callee)
      | some q =>
        if q.params.length = args.length then
          ∃ t, q.Runs .byName (.enter .byName Store.empty q.params args globals) t r ∧
            Heard (p.Calls depth) t out
        else out = [] ∧ r = .error (.arityMismatch callee q.params.length args.length)

/-- The global variables at the beginning of a run. -/
def initial (p : Program) : Store Global :=
  Store.empty.setAll (p.globals.map fun g => (g.name, g.value))

/-- A run ends in this way when nothing cuts it short. -/
def Finishes (p : Program) (e : Ending) : Prop :=
  match p.proc? ⟨"main"⟩ with
  | none => e = ⟨#[], .error .noMain⟩
  | some _ => ∃ out r, p.Calls (maxDepth + 1) ⟨"main"⟩ [] p.initial out r ∧
      e = ⟨out.toArray, r.map Prod.fst⟩

end Program

/-! ## Answers that are heard -/

theorem Heard.mono {calls calls' : Global → List Word → Store Global → List Printed → Result → Prop}
    {t : List Effect} {out : List Printed} (h : Heard calls t out)
    (le : ∀ callee args globals answer, .called callee args globals answer ∈ t →
      ∀ out, calls callee args globals out answer → calls' callee args globals out answer) :
    Heard calls' t out := by
  induction t generalizing out with
  | nil => exact h
  | cons e t ih =>
    have le' : ∀ callee args globals answer, .called callee args globals answer ∈ t →
        ∀ out, calls callee args globals out answer → calls' callee args globals out answer :=
      fun callee args globals answer hm => le callee args globals answer (List.mem_cons_of_mem _ hm)
    cases e with
    | printed p =>
      obtain ⟨rest, rfl, h⟩ := h
      exact ⟨rest, rfl, ih h le'⟩
    | wrote g w =>
      have h : Heard calls t out := h
      exact ih h le'
    | called callee args globals answer =>
      obtain ⟨first, rest, rfl, hc, h⟩ := h
      exact ⟨first, rest, rfl, le _ _ _ _ List.mem_cons_self _ hc, ih h le'⟩

end ThreeAddress
