import JavaAbi.Config.Basic

namespace JavaAbi

/-!
# Command lines

A command line is options, a command, and the options and operands of the command. Some options may
stand before and after the command; the one after it counts.

* `Invocation` — what a command line asks for;
* `Invocation.ofArguments` — the invocation of a list of arguments, or why there is none.

Arguments are taken from left to right. An option without its value stays pending until something
settles it: the next option or operand of its level, or the end of the level.
-/

/-! ### Invocations -/

/-- Whether diagnostics are coloured; by default, if a terminal shows them. -/
inductive ColorChoice where
  | auto
  | always
  | never
  deriving DecidableEq, Inhabited, Repr

/-- The word for a colour choice. -/
def ColorChoice.word : ColorChoice → String
  | auto => "auto"
  | always => "always"
  | never => "never"

/-- The colour choice of a word. -/
def ColorChoice.ofWord? (word : String) : Option ColorChoice :=
  [auto, always, never].find? (·.word == word)

/-- Sources and symbol files that a command line names. -/
structure Inputs where
  paths : List String := []
  symbols : List String := []
  noPlatform : Bool := false
  deriving DecidableEq, Inhabited, Repr

/-- What is to be done: write the stubs of all types, or show one type. -/
inductive Command where
  | stubs (inputs : Inputs) (out : Option String) (format : Option StubFormat)
  | lookup (inputs : Inputs) (name : String)
  deriving DecidableEq, Inhabited, Repr

/-- What a command line asks for. -/
structure Invocation where
  quiet : Bool := false
  verbose : Bool := false
  color : ColorChoice := .auto
  config : Option String := none
  logFormat : Option LogFormat := none
  command : Command
  deriving DecidableEq, Inhabited, Repr

/-- Why a command line asks for no command: it asks for help, or it is not well formed. -/
inductive Refusal where
  | help
  | misuse
  deriving DecidableEq, Inhabited, Repr

/-- The exit code for a command line without a command. -/
def Refusal.exitCode : Refusal → Nat
  | .help => 0
  | .misuse => 2

/-! ### Options -/

/-- The options of all levels. -/
inductive Switch where
  | quiet
  | verbose
  | color
  | config
  | logFormat
  | symbols
  | noPlatform
  | out
  | format
  | help
  | version
  deriving DecidableEq, Inhabited, Repr

namespace Switch

/-- The name of an option, which follows two dashes. -/
def name : Switch → String
  | quiet => "quiet"
  | verbose => "verbose"
  | color => "color"
  | config => "config"
  | logFormat => "log-format"
  | symbols => "symbols"
  | noPlatform => "no-platform"
  | out => "out"
  | format => "format"
  | help => "help"
  | version => "version"

/-- The letter of an option, which follows one dash. -/
def letter? : Switch → Option Char
  | quiet => some 'q'
  | verbose => some 'v'
  | out => some 'o'
  | format => some 'f'
  | help => some 'h'
  | version => some 'V'
  | _ => none

/-- Whether an option has a value. -/
def takesValue : Switch → Bool
  | color | config | logFormat | symbols | out | format => true
  | _ => false

/-- Whether an option may be given more than once in a level. -/
def isRepeatable (s : Switch) : Bool := s = symbols

/-- Whether an option ends the command line by asking for help or the version. -/
def asksHelp (s : Switch) : Bool := s = help || s = version

/-- Whether a text may be the value of an option. -/
def admits (s : Switch) (value : String) : Bool :=
  match s with
  | color => (ColorChoice.ofWord? value).isSome
  | logFormat => (LogFormat.ofWord? value).isSome
  | format => (StubFormat.ofWord? value).isSome
  | _ => true

end Switch

/-- A level of a command line: what stands before the command, and what follows each command. -/
inductive Level where
  | top
  | stubs
  | lookup
  deriving DecidableEq, Inhabited, Repr

namespace Level

/-- The options of a level. -/
def switches (l : Level) : List Switch :=
  [.quiet, .verbose, .color, .config, .logFormat, .help] ++
    match l with
    | top => [.version]
    | stubs => [.symbols, .noPlatform, .out, .format]
    | lookup => [.symbols, .noPlatform]

/-- The level of a command. -/
def ofCommand? (word : String) : Option Level :=
  match word with
  | "stubs" => some stubs
  | "lookup" => some lookup
  | _ => none

end Level

/-! ### Scanning a level -/

/-- What was read of a level: the options with their values, a pending option that may have its
    value, the operands, and whether only operands follow. -/
structure Scan where
  options : List (Switch × String) := []
  pending : Option (Switch × Option String) := none
  operands : List String := []
  onlyOperands : Bool := false
  deriving DecidableEq, Inhabited, Repr

namespace Scan

/-- The values of an option. -/
def values (s : Scan) (o : Switch) : List String :=
  s.options.filterMap fun (p, value) => if p = o then some value else none

/-- Whether an option is given. -/
def has (s : Scan) (o : Switch) : Bool := !(s.values o).isEmpty

/-- Whether the next argument is the value of the pending option. -/
def awaitsValue (s : Scan) : Bool :=
  match s.pending with
  | some (_, none) => true
  | _ => false

/-- Adds an option with a value that it admits. -/
def give (s : Scan) (o : Switch) (value : String) : Except Refusal Scan :=
  if s.has o && !o.isRepeatable || !o.admits value then .error .misuse
  else .ok { s with options := s.options ++ [(o, value)] }

/-- Adds the pending option, which has to have its value. -/
def settle (s : Scan) : Except Refusal Scan :=
  match s.pending with
  | none => .ok s
  | some (_, none) => .error .misuse
  | some (o, some value) => give { s with pending := none } o value

/-- Adds an option that has no value. -/
def giveFlag (s : Scan) (o : Switch) : Except Refusal Scan := do
  let s ← s.settle
  if o.asksHelp then throw .help
  s.give o ""

/-- Adds an option with the value that is written with it, or makes it pending. -/
def giveValue (s : Scan) (o : Switch) (attached : Option String) : Except Refusal Scan := do
  let s ← s.settle
  match attached with
  | some value => s.give o value
  | none => return { s with pending := some (o, none) }

/-- Adds an operand. Before the command there are none. -/
def giveOperand (l : Level) (s : Scan) (value : String) : Except Refusal Scan := do
  let s ← s.settle
  if l = .top then throw .misuse
  return { s with operands := s.operands ++ [value] }

/-- The letters after one dash: options without a value, then perhaps one with a value, which is
    the rest of the argument; a sign `=` in front of the value does not belong to it. -/
def letters (l : Level) (s : Scan) : List Char → Except Refusal Scan
  | [] => .ok s
  | c :: rest =>
    match l.switches.find? (·.letter? = some c) with
    | none => .error .misuse
    | some o =>
      if o.takesValue then
        s.giveValue o <|
          match rest with
          | [] => none
          | '=' :: value => some (String.ofList value)
          | value => some (String.ofList value)
      else do letters l (← s.giveFlag o) rest

/-- The characters after two dashes: the name of an option, and perhaps the sign `=` and its
    value. -/
def named (l : Level) (s : Scan) (cs : List Char) : Except Refusal Scan :=
  let attached :=
    match cs.dropWhile (· ≠ '=') with
    | [] => none
    | _ :: value => some (String.ofList value)
  match l.switches.find? (·.name.toList = cs.takeWhile (· ≠ '=')) with
  | none => .error .misuse
  | some o =>
    if o.takesValue then s.giveValue o attached
    else if attached.isSome then .error .misuse
    else s.giveFlag o

/-- Takes an argument. -/
def take (l : Level) (s : Scan) (argument : String) : Except Refusal Scan :=
  if s.onlyOperands then s.giveOperand l argument
  else
    match argument.toList with
    | ['-', '-'] => .ok { s with onlyOperands := true }
    | '-' :: '-' :: cs => s.named l cs
    | '-' :: c :: cs => s.letters l (c :: cs)
    | _ =>
      match s.pending with
      | some (o, none) => .ok { s with pending := some (o, some argument) }
      | _ => s.giveOperand l argument

/-- Takes the arguments of a command. -/
def takeAll (l : Level) (arguments : List String) : Except Refusal Scan := do
  (← arguments.foldlM (take l) {}).settle

/-- Takes the arguments up to a command; gives also the command with what follows it. -/
def takeTop (s : Scan) : List String → Except Refusal (Scan × Option (String × List String))
  | [] => .ok (s, none)
  | argument :: rest =>
    if !s.onlyOperands && !s.awaitsValue
        && (argument == "help" || (Level.ofCommand? argument).isSome) then
      .ok (s, some (argument, rest))
    else do takeTop (← s.take .top argument) rest

end Scan

/-! ### Reading a command line -/

/-- The command of its level, with its options and operands. -/
def Command.ofScan (l : Level) (s : Scan) : Except Refusal Command :=
  let inputs (paths : List String) : Inputs :=
    { paths := paths, symbols := s.values .symbols, noPlatform := s.has .noPlatform }
  match l, s.operands with
  | .stubs, paths =>
    .ok (.stubs (inputs paths) (s.values .out).head?
      ((s.values .format).head?.bind StubFormat.ofWord?))
  | .lookup, name :: paths => .ok (.lookup (inputs paths) name)
  | _, _ => .error .misuse

/-- What to answer when help is asked for a list of commands: there are none below a command. -/
def Refusal.ofHelp : List String → Refusal
  | [] => .help
  | [word] => if word == "help" || (Level.ofCommand? word).isSome then .help else .misuse
  | _ => .misuse

/-- The invocation of a list of arguments. What stands pending before the command is settled after
    the command is read. -/
def Invocation.ofArguments (arguments : List String) : Except Refusal Invocation := do
  let (top, found) ← Scan.takeTop {} arguments
  match found with
  | none => throw .misuse
  | some (word, rest) =>
    match Level.ofCommand? word with
    | none => throw (.ofHelp rest)
    | some l =>
      let own ← Scan.takeAll l rest
      let command ← Command.ofScan l own
      let top ← top.settle
      let value? (o : Switch) : Option String := (own.values o ++ top.values o).head?
      return {
        quiet := (value? .quiet).isSome
        verbose := (value? .verbose).isSome
        color := ((value? .color).bind ColorChoice.ofWord?).getD .auto
        config := value? .config
        logFormat := (value? .logFormat).bind LogFormat.ofWord?
        command := command }

end JavaAbi
