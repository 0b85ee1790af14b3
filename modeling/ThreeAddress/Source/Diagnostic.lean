import ThreeAddress.Program
import ThreeAddress.Source.Grammar
/-!
# Reading programs and what can be wrong with them

Reading has three steps: the text is split into tokens, the tokens are grouped into declarations,
and the declarations are checked. Only a text without errors of the first two kinds is checked,
and then every repeated name, every bad initial value and every bad instruction is reported.

* `Diagnostic` : an error at a place in the text, with code, message, label and help;
* `diagnose`, `Program.ofDeclarations` : the errors of declarations, and their program;
* `Program.parse` : the program of a text.
-/

namespace ThreeAddress

/-- What is wrong at a place in a source text. -/
inductive Problem where
  /-- No token can be read. -/
  | unreadable
  /-- No rule accepts this token, or the end of the text. -/
  | unexpected (found : Option Token)
  /-- Pairs of edge and temporary follow an opcode other than `phi`. -/
  | pairsAfter (opcode : String)
  /-- A phi stores its result nowhere. -/
  | phiWithoutDestination
  /-- The name is declared before. -/
  | repeatedName (name : Global)
  /-- An instruction or an initial value is rejected. -/
  | rejected (error : InstrError)
deriving DecidableEq

namespace Problem

/-- The stable short code. -/
def code : Problem → String
  | unreadable | unexpected _ => "E001"
  | pairsAfter _ | phiWithoutDestination | repeatedName _ => "E002"
  | rejected error => error.code

/-- The sort of problem in words. -/
def message : Problem → String
  | unreadable | unexpected _ => "Syntax error"
  | repeatedName _ => "Duplicate declaration"
  | pairsAfter _ | phiWithoutDestination | rejected _ => "Invalid instruction"

/-- The problem itself in words. -/
def label : Problem → String
  | unreadable => "no token begins here"
  | unexpected (some token) => "found '" ++ token.text ++ "'"
  | unexpected none => "found end of input"
  | pairsAfter opcode => "only `phi` takes `edge: temporary` pairs, found `" ++ opcode ++ "`"
  | phiWithoutDestination => "phi needs a destination"
  | repeatedName name => name.text ++ " is declared more than once"
  | rejected error => error.message

/-- Advice, where there is any. -/
def help? : Problem → Option String
  | rejected (.malformed _ _) =>
    some "see the opcode table: each opcode has a fixed operand signature"
  | rejected (.literalOutOfRange _) =>
    some ("literals must lie between " ++ integerText Literal.least ++ " and " ++
      integerText Literal.greatest)
  | _ => none

end Problem

/-- A problem and the stretch of text that it concerns. -/
abbrev Diagnostic := Located Problem

/-- A diagnostic on one line. -/
def Diagnostic.text (d : Diagnostic) : String :=
  "[" ++ d.value.code ++ "] " ++ d.value.message ++ " at " ++ decimalText d.span.start ++ ".." ++
    decimalText d.span.stop ++ ": " ++ d.value.label

/-! ## Checking declarations -/

/-- The instruction of an item. -/
def Item.build : Item → Except Problem Instr
  | .label l => .ok (.label l)
  | .instr dest opcode (.plain operands) =>
    (Instr.build opcode dest operands).mapError .rejected
  | .instr dest opcode (.pairs pairs) =>
    if opcode = "phi" then
      match dest with
      | none => .error .phiWithoutDestination
      | some dest => (Instr.buildPhi dest pairs).mapError .rejected
    else .error (.pairsAfter opcode)

/-- The problem of an item, if it has one. -/
def Item.problem? (item : Item) : Option Problem :=
  match item.build with
  | .ok _ => none
  | .error problem => some problem

namespace Declaration

/-- The name declared. -/
def name : Declaration → Global
  | var name _ => name
  | proc name _ _ => name

/-- What is wrong inside a declaration. -/
def problems (d : Located Declaration) : List Diagnostic :=
  match d.value with
  | var _ value =>
    match Literal.parse value with
    | .ok _ => []
    | .error error => [⟨.rejected error, d.span⟩]
  | proc _ _ items => items.filterMap fun i => i.value.problem?.map fun problem => ⟨problem, i.span⟩

/-- The variable declared. -/
def var? : Declaration → Option GlobalVar
  | var name value => (Literal.parse value).toOption.map fun value => ⟨name, value⟩
  | proc _ _ _ => none

/-- The procedure declared. -/
def proc? : Declaration → Option Proc
  | var _ _ => none
  | proc name params items => some ⟨name, params, items.filterMap fun i => i.value.build.toOption⟩

end Declaration

/-- Everything that is wrong with declarations which follow those of the given names. -/
def diagnose (declared : List Global) : List (Located Declaration) → List Diagnostic
  | [] => []
  | d :: rest =>
    (if d.value.name ∈ declared then [⟨.repeatedName d.value.name, d.span⟩] else []) ++
      Declaration.problems d ++ diagnose (d.value.name :: declared) rest

namespace Program

/-- The program that declarations make, if nothing is wrong with them. -/
def ofDeclarations (ds : List (Located Declaration)) : Except (List Diagnostic) Program :=
  match diagnose [] ds with
  | [] => .ok ⟨ds.filterMap (·.value.var?), ds.filterMap (·.value.proc?)⟩
  | problems => .error problems

/-- The stretch of the first token that is left, or the end of the text. -/
def refusedSpan (text : String) : Grammar.Tokens → Diagnostic
  | t :: _ => ⟨.unexpected (some t.value), t.span⟩
  | [] => ⟨.unexpected none, ⟨text.utf8ByteSize, text.utf8ByteSize⟩⟩

/-- Group and check the tokens of a text, after the errors of its splitting. -/
def ofScan (text : String) (scan : Token.Scan) : Except (List Diagnostic) Program :=
  let unreadable : List Diagnostic := scan.errors.map fun span => ⟨.unreadable, span⟩
  match scan.tokens with
  | none => .error unreadable
  | some tokens =>
    match Grammar.declarations tokens with
    | .error refused => .error (unreadable ++ [refusedSpan text refused])
    | .ok ds => if unreadable.isEmpty then ofDeclarations ds else .error unreadable

/-- The program of a source text, or everything that is wrong with the text. -/
def parse (text : String) : Except (List Diagnostic) Program := ofScan text (Token.scan text)

end Program

end ThreeAddress
