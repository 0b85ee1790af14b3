import ThreeAddress.Program
import ThreeAddress.Execution.Store
/-!
# Running programs

A program runs on a machine whose `State` holds the global variables, what was printed, the
activation that is being executed and the activations that wait for it to return. Each executed
instruction is one step, and a run is cut short at a limit of steps. A group of phis that follow
each other is one step too: all of them read before any of them writes.

Reaching the end of a body returns zero and is not a step.

* `exec` : the effect of one instruction;
* `State.settle` : returns from every activation whose end is reached;
* `run` : executes until the run ends or the limit is reached;
* `Program.run` : runs `@main`.
-/

namespace ThreeAddress

namespace Execution

/-! ## What a run can end with -/

/-- Why a run fails. -/
inductive Failure where
  /-- There is no procedure `@main`. -/
  | noMain
  /-- A procedure that is not declared is called. -/
  | unknownProcedure (callee : Global)
  /-- A procedure is called with the wrong number of arguments. -/
  | arityMismatch (callee : Global) (expected found : Nat)
  /-- An argument of a call was never laid ready. -/
  | missingArgument (callee : Global) (index : Nat)
  /-- A divisor is zero. -/
  | divisionByZero (proc : Global)
  /-- A temporary is read before it is written. -/
  | uninitialized (proc : Global) (temp : Temp)
  /-- A global variable that is not declared is read or written. -/
  | unknownGlobal (name : Global)
  /-- A label that the procedure does not define is jumped to. -/
  | unknownLabel (proc : Global) (label : Label)
  /-- The limit of steps is reached. -/
  | stepLimit (limit : Nat)
  /-- Too many calls are open. -/
  | callDepth (limit : Nat)
deriving DecidableEq, Inhabited

namespace Failure

/-- The failure in words. -/
def message : Failure → String
  | noMain => "program has no @main procedure"
  | unknownProcedure callee => "call to unknown procedure " ++ callee.text
  | arityMismatch callee expected found =>
    callee.text ++ " expects " ++ decimalText expected ++ " argument(s) but was called with " ++
      decimalText found
  | missingArgument callee index =>
    "argument " ++ decimalText index ++ " of the call to " ++ callee.text ++
      " was never staged with `param`"
  | divisionByZero proc => "division by zero in " ++ proc.text
  | uninitialized proc temp =>
    "read of uninitialized temporary " ++ temp.text ++ " in " ++ proc.text
  | unknownGlobal name => "unknown global variable " ++ name.text
  | unknownLabel proc label => "jump to undefined label " ++ label.text ++ " in " ++ proc.text
  | stepLimit limit => "step limit of " ++ decimalText limit ++ " instructions exceeded"
  | callDepth limit => "call depth limit of " ++ decimalText limit ++ " exceeded"

end Failure

/-- Something that was printed, on a line of its own. -/
inductive Printed where
  /-- A word in decimal. -/
  | word (w : Word)
  /-- A word as a truth value: zero is false. -/
  | truth (w : Word)
deriving DecidableEq, Inhabited

namespace Printed

/-- The line that is printed. -/
def text : Printed → String
  | word w => wordText w ++ "\n"
  | truth w => if w = 0 then "false\n" else "true\n"

end Printed

/-- How a run ended: what it printed, and the result of `@main` or why it failed. -/
structure Ending where
  printed : Array Printed
  result : Except Failure Word

/-- The text that a run printed. -/
def Ending.output (e : Ending) : String := String.join (e.printed.toList.map Printed.text)

/-! ## States -/

/-- One activation of a procedure. -/
structure Frame where
  proc : Proc
  /-- The instructions from the next one on. -/
  code : List Instr
  temps : Store Temp
  /-- The arguments that were laid ready for the next call. -/
  staged : Store Nat
  /-- The block that control came from when it reached the current one. -/
  previous : Origin
  /-- The block that is being executed. -/
  current : Origin

/-- An activation that waits for a call to return, and where the result goes. -/
structure Waiting where
  frame : Frame
  dest : Var

/-- The state of the machine. -/
structure State where
  globals : Store Global
  printed : Array Printed
  frame : Frame
  /-- The waiting activations, the innermost first. -/
  callers : List Waiting

/-- What comes of a step. -/
inductive Outcome where
  /-- The run goes on. -/
  | running (s : State)
  /-- The run ended. -/
  | stopped (e : Ending)

/-- The greatest number of calls that may be open. -/
def maxDepth : Nat := 1000

/-- The activation of a procedure at its beginning. -/
def Frame.enter (proc : Proc) (args : List Word) : Frame :=
  ⟨proc, proc.body, Store.empty.setAll (proc.params.zip args), Store.empty, .entry, .entry⟩

/-- The instructions from the last definition of a label on. -/
def codeFrom? (l : Label) : List Instr → Option (List Instr)
  | [] => none
  | i :: rest =>
    match codeFrom? l rest with
    | some code => some code
    | none => if i = .label l then some (i :: rest) else none

namespace State

/-- The run fails. -/
def fail (s : State) (f : Failure) : Outcome := .stopped ⟨s.printed, .error f⟩

/-- The value of an operand. -/
def read (s : State) : Var → Except Failure Word
  | .temp t =>
    if t.isSink then .ok 0
    else
      match s.frame.temps.get? t with
      | some w => .ok w
      | none => .error (.uninitialized s.frame.proc.name t)
  | .global g =>
    match s.globals.get? g with
    | some w => .ok w
    | none => .error (.unknownGlobal g)

/-- Read an operand and go on with its value. -/
def reading (s : State) (v : Var) (next : Word → Outcome) : Outcome :=
  match s.read v with
  | .ok w => next w
  | .error f => s.fail f

/-- Write an operand. -/
def write (s : State) (v : Var) (w : Word) : Outcome :=
  match v with
  | .temp t =>
    if t.isSink then .running s
    else .running { s with frame := { s.frame with temps := s.frame.temps.set t w } }
  | .global g =>
    match s.globals.get? g with
    | some _ => .running { s with globals := s.globals.set g w }
    | none => s.fail (.unknownGlobal g)

/-- Continue at a label. -/
def jump (s : State) (l : Label) : Outcome :=
  match codeFrom? l s.frame.proc.body with
  | some code => .running { s with frame := { s.frame with code } }
  | none => s.fail (.unknownLabel s.frame.proc.name l)

/-- Print a line. -/
def print (s : State) (p : Printed) : State := { s with printed := s.printed.push p }

/-- Return a value to the innermost waiting activation, or end the run. -/
def leave (s : State) (w : Word) : Outcome :=
  match s.callers with
  | [] => .stopped ⟨s.printed, .ok w⟩
  | waiting :: callers => { s with frame := waiting.frame, callers }.write waiting.dest w

/-- The arguments from an index on that were laid ready, as many as asked for. -/
def collect (s : State) (callee : Global) (index : Nat) : Nat → Except Failure (List Word)
  | 0 => .ok []
  | n + 1 =>
    match s.frame.staged.get? index with
    | none => .error (.missingArgument callee index)
    | some w => (s.collect callee (index + 1) n).map (w :: ·)

end State

/-! ## Steps -/

/-- Enter a procedure. The two printing procedures are built in: they print and return zero at
once. -/
def call (p : Program) (s : State) (dest : Var) (callee : Global) (args : List Word) : Outcome :=
  if maxDepth < s.callers.length + 1 then s.fail (.callDepth maxDepth)
  else if callee = .printWord ∨ callee = .printTruth then
    match args with
    | [w] => (s.print (if callee = .printWord then .word w else .truth w)).write dest 0
    | _ => s.fail (.arityMismatch callee 1 args.length)
  else
    match p.proc? callee with
    | none => s.fail (.unknownProcedure callee)
    | some proc =>
      if proc.params.length = args.length then
        .running { s with frame := .enter proc args, callers := ⟨s.frame, dest⟩ :: s.callers }
      else s.fail (.arityMismatch callee proc.params.length args.length)

/-- What a phi writes: nothing, if its edge has no argument or the argument has no value. -/
def phiValue? (f : Frame) : Instr → Option (Temp × Word)
  | .phi dest args => ((args.get? f.previous).bind f.temps.get?).map fun w => (dest, w)
  | _ => none

/-- The frame after a group of phis, all of which read before any writes. -/
def Frame.assignPhis (f : Frame) (phis : List Instr) : Frame :=
  { f with temps := f.temps.setAll (phis.filterMap (phiValue? f)) }

/-- Execute an instruction in a state whose code is what follows it. -/
def exec (p : Program) (s : State) (i : Instr) : Outcome :=
  match i with
  | .nop => .running s
  | .label l =>
    .running { s with frame := { s.frame with previous := s.frame.current, current := .block l } }
  | .jump target => s.jump target
  | .branch test arg target =>
    s.reading arg fun w => if test.holds w then s.jump target else .running s
  | .binary op dest lhs rhs =>
    s.reading lhs fun a => s.reading rhs fun b =>
      match op.eval? a b with
      | some w => s.write dest w
      | none => s.fail (.divisionByZero s.frame.proc.name)
  | .unary op dest arg => s.reading arg fun a => s.write dest (op.eval a)
  | .const dest value => s.write dest value
  | .copy dest src => s.reading src fun w => s.write dest w
  | .param index arg =>
    s.reading arg fun w =>
      .running { s with frame := { s.frame with staged := s.frame.staged.set index w } }
  | .call dest callee argc =>
    match s.collect callee 1 argc with
    | .error f => s.fail f
    | .ok args =>
      call p { s with frame := { s.frame with staged := Store.empty } } dest callee args
  | .ret arg => s.reading arg fun w => s.leave w
  | .print arg => s.reading arg fun w => .running (s.print (.word w))
  | .phi _ _ =>
    let phis := i :: s.frame.code.takeWhile Instr.isPhi
    let frame := s.frame.assignPhis phis
    .running { s with frame := { frame with code := s.frame.code.dropWhile Instr.isPhi } }

/-- A state at its next instruction, or the end of the run. -/
inductive Settled where
  /-- The next instruction, and the state whose code is what follows it. -/
  | ready (i : Instr) (s : State)
  /-- The run ended. -/
  | stopped (e : Ending)

/-- Return zero from an activation whose end is reached, and again from those that wait for it. -/
def settleFrame (globals : Store Global) (printed : Array Printed) (frame : Frame) :
    List Waiting → Settled
  | [] =>
    match frame.code with
    | i :: code => .ready i ⟨globals, printed, { frame with code }, []⟩
    | [] => .stopped ⟨printed, .ok 0⟩
  | waiting :: callers =>
    match frame.code with
    | i :: code => .ready i ⟨globals, printed, { frame with code }, waiting :: callers⟩
    | [] =>
      match State.write ⟨globals, printed, waiting.frame, callers⟩ waiting.dest 0 with
      | .running s => settleFrame s.globals s.printed s.frame callers
      | .stopped e => .stopped e

/-- Bring a state to its next instruction. -/
def State.settle (s : State) : Settled := settleFrame s.globals s.printed s.frame s.callers

/-- Run with a number of steps left, under a limit that is named when it is reached. -/
def run (p : Program) (limit : Nat) : Nat → State → Ending
  | left, s =>
    match s.settle with
    | .stopped e => e
    | .ready i s =>
      match left with
      | 0 => ⟨s.printed, .error (.stepLimit limit)⟩
      | left + 1 =>
        match exec p s i with
        | .running s => run p limit left s
        | .stopped e => e

/-- The limit of steps when none is given. -/
def defaultLimit : Nat := 10000000

end Execution

open Execution in
/-- Run a program from the beginning of `@main`, for at most the given number of steps. -/
def Program.run (p : Program) (limit : Nat) : Ending :=
  match p.proc? ⟨"main"⟩ with
  | none => ⟨#[], .error .noMain⟩
  | some proc =>
    if proc.params.isEmpty then
      let globals := Store.empty.setAll (p.globals.map fun g => (g.name, g.value))
      Execution.run p limit limit ⟨globals, #[], .enter proc [], []⟩
    else ⟨#[], .error (.arityMismatch ⟨"main"⟩ proc.params.length 0)⟩

end ThreeAddress
