import ThreeAddress.CommandLine.Settings
/-!
# The arguments of the command

Arguments are read from left to right. An option that takes a value may have it attached, as in
`--emit=ssa` or `-oname`, or stand in front of it. A value is examined when the next option or name
begins or when the arguments end, so an unknown option is found before a bad value in front of it.
Behind `--` every argument is a name.

* `UsageError`, `Stop` : why reading stops without settings;
* `Reading.take` : reads one argument;
* `Settings.ofArguments` : the settings of all arguments.
-/

namespace ThreeAddress

namespace CommandLine

/-- What is wrong with the arguments. -/
inductive UsageError where
  /-- The source text is not named. -/
  | missingInput
  /-- There is no such option, or a name too many. -/
  | unknownArgument (text : String)
  /-- An option has no value, or one that it does not take. -/
  | invalidValue (text : String)
  /-- The number of registers is not a number from 0 to 10. -/
  | invalidRegisters (text : String)
  /-- An option that may be given once is given twice. -/
  | repeatedOption
  /-- A value is attached to an option that takes none. -/
  | unwantedValue (text : String)
deriving DecidableEq

namespace UsageError

/-- The error in words. -/
def message : UsageError → String
  | missingInput => "the following required arguments were not provided: <INPUT>"
  | unknownArgument text => "unexpected argument '" ++ text ++ "' found"
  | invalidValue text => "invalid value '" ++ text ++ "'"
  | invalidRegisters text => "invalid value '" ++ text ++ "' for '--registers <REGISTERS>'"
  | repeatedOption => "an argument cannot be used multiple times"
  | unwantedValue text => "unexpected value '" ++ text ++ "' found"

end UsageError

/-- Why reading stops without settings. -/
inductive Stop where
  | help
  | version
  | usage (e : UsageError)
deriving DecidableEq

/-- What an argument may give a value for. -/
inductive Slot where
  | input | output | emit | registers
deriving DecidableEq

/-- The options without a value. -/
inductive Flag where
  | interpret | noSsa | noMinimize | noOpt | noVerify | verbose | help | version
deriving DecidableEq

/-- The meaning of an option. -/
inductive OptionName where
  | valued (s : Slot)
  | flag (f : Flag)

namespace OptionName

/-- The option with this long name. -/
def ofLong? : String → Option OptionName
  | "output" => some (.valued .output)
  | "emit" => some (.valued .emit)
  | "registers" => some (.valued .registers)
  | "interpret" => some (.flag .interpret)
  | "no-ssa" => some (.flag .noSsa)
  | "no-minimize" => some (.flag .noMinimize)
  | "no-opt" => some (.flag .noOpt)
  | "no-verify" => some (.flag .noVerify)
  | "verbose" => some (.flag .verbose)
  | "help" => some (.flag .help)
  | "version" => some (.flag .version)
  | _ => none

/-- The option with this short name. -/
def ofShort? : Char → Option OptionName
  | 'o' => some (.valued .output)
  | 'v' => some (.flag .verbose)
  | 'h' => some (.flag .help)
  | 'V' => some (.flag .version)
  | _ => none

end OptionName

/-! ## Values -/

/-- The number of registers that a text denotes: an integer, perhaps with a sign. -/
def registerCount? (text : String) : Option Nat :=
  let number :=
    match text.toList with
    | '+' :: digits =>
      if !digits.isEmpty && digits.all Char.isDigit then some (decimalValue digits : Int) else none
    | _ => Literal.integer? text
  number.bind fun i => if 0 ≤ i ∧ i ≤ Target.Register.palette.length then some i.toNat else none

/-! ## Reading -/

/-- An option or a name whose value is not examined yet. -/
structure Pending where
  slot : Slot
  value? : Option String

/-- What the arguments said so far. -/
structure Reading where
  input? : Option String
  output? : Option String
  emit? : Option Emit
  registers? : Option Nat
  flags : List Flag
  pending : Option Pending
  /-- Has the name of the source text begun? -/
  named : Bool
  /-- Is every further argument a name? -/
  escaped : Bool

namespace Reading

/-- Nothing was said. -/
def start : Reading := ⟨none, none, none, none, [], none, false, false⟩

/-- Is there a value for this already? -/
def has (r : Reading) : Slot → Bool
  | .input => r.input?.isSome
  | .output => r.output?.isSome
  | .emit => r.emit?.isSome
  | .registers => r.registers?.isSome

/-- Take a value. -/
def store (r : Reading) (slot : Slot) (value : String) : Except Stop Reading :=
  if r.has slot then .error (.usage .repeatedOption)
  else
    match slot with
    | .input =>
      if value.isEmpty then .error (.usage (.invalidValue value))
      else .ok { r with input? := some value }
    | .output =>
      if value.isEmpty then .error (.usage (.invalidValue value))
      else .ok { r with output? := some value }
    | .emit =>
      match Emit.ofName? value with
      | some e => .ok { r with emit? := some e }
      | none => .error (.usage (.invalidValue value))
    | .registers =>
      match registerCount? value with
      | some n => .ok { r with registers? := some n }
      | none => .error (.usage (.invalidRegisters value))

/-- Examine the value that is pending. -/
def settle (r : Reading) : Except Stop Reading :=
  match r.pending with
  | none => .ok r
  | some ⟨slot, some value⟩ => { r with pending := none }.store slot value
  | some ⟨_, none⟩ => .error (.usage (.invalidValue ""))

/-- Take an option that has a value, attached or still to come. -/
def takeValued (r : Reading) (slot : Slot) (attached : Option String) : Except Stop Reading := do
  let r ← r.settle
  match attached with
  | some value => r.store slot value
  | none => return { r with pending := some ⟨slot, none⟩ }

/-- Take an option without a value. Only `--verbose` may be repeated. -/
def takeFlag (r : Reading) (f : Flag) : Except Stop Reading := do
  let r ← r.settle
  match f with
  | .help => .error .help
  | .version => .error .version
  | .verbose => return { r with flags := f :: r.flags }
  | f =>
    if f ∈ r.flags then .error (.usage .repeatedOption) else return { r with flags := f :: r.flags }

/-- Take an option by its long name, which begins behind `--`. -/
def takeLong (r : Reading) (text : List Char) : Except Stop Reading :=
  let name := String.ofList (text.takeWhile (· != '='))
  let attached :=
    match text.dropWhile (· != '=') with
    | _ :: value => some (String.ofList value)
    | [] => none
  match OptionName.ofLong? name, attached with
  | some (.valued slot), attached => r.takeValued slot attached
  | some (.flag f), none => r.takeFlag f
  | some (.flag _), some value => .error (.usage (.unwantedValue value))
  | none, _ => .error (.usage (.unknownArgument ("--" ++ name)))

/-- Take options by their short names, which follow each other behind `-`. What follows an option
with a value is its value, perhaps behind an equals sign. -/
def takeShorts (r : Reading) : List Char → Except Stop Reading
  | [] => .ok r
  | c :: rest =>
    match OptionName.ofShort? c with
    | some (.valued slot) =>
      match rest with
      | [] => r.takeValued slot none
      | '=' :: value => r.takeValued slot (some (String.ofList value))
      | value => r.takeValued slot (some (String.ofList value))
    | some (.flag f) => do
      let r ← r.takeFlag f
      r.takeShorts rest
    | none => .error (.usage (.unknownArgument (String.ofList ['-', c])))

/-- Take a name; there is only one. -/
def takeName (r : Reading) (arg : String) : Except Stop Reading :=
  if r.named then .error (.usage (.unknownArgument arg))
  else do
    let r ← r.settle
    return { r with pending := some ⟨.input, some arg⟩, named := true }

/-- Take an argument that is no option: the value that is awaited, or a name. -/
def takePlain (r : Reading) (arg : String) : Except Stop Reading :=
  match r.pending with
  | some ⟨slot, none⟩ => .ok { r with pending := some ⟨slot, some arg⟩ }
  | _ => r.takeName arg

/-- Take one argument. -/
def take (r : Reading) (arg : String) : Except Stop Reading :=
  if r.escaped then r.takeName arg
  else
    match arg.toList with
    | ['-', '-'] => .ok { r with escaped := true }
    | '-' :: '-' :: text => r.takeLong text
    | ['-'] => r.takePlain arg
    | '-' :: names => r.takeShorts names
    | _ => r.takePlain arg

/-- The severity of what is logged, by the number of `--verbose`. -/
def level (r : Reading) : Severity :=
  match r.flags.count .verbose with
  | 0 => .warning
  | 1 => .debug
  | _ => .trace

/-- The settings that were expressed. -/
def settings (r : Reading) : Except Stop Settings := do
  let r ← r.settle
  match r.input? with
  | none => .error (.usage .missingInput)
  | some input =>
    return {
      input
      target? := r.output?
      emit := r.emit?.getD .asm
      interpret := r.flags.contains .interpret
      options :=
        { singleAssignment := !r.flags.contains .noSsa
          minimize := !r.flags.contains .noMinimize
          optimizer := if r.flags.contains .noOpt then .none else .all
          registers := r.registers?.getD Target.Register.palette.length
          check := !r.flags.contains .noVerify }
      level := r.level }

end Reading

/-- The settings that the arguments express. -/
def Settings.ofArguments (args : List String) : Except Stop Settings := do
  let r ← args.foldlM Reading.take Reading.start
  r.settings

end CommandLine

end ThreeAddress
