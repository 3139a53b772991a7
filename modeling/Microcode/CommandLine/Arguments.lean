import Microcode.Text.Numeral

/-!
The arguments of a command line: one file, flags, and options that take a value.  A value stands behind
its option, as the next argument or in the same one.
-/

namespace Microcode.CommandLine

inductive Flag where
  | stdout
  | noOptimize
  | noWrapper
  | sourceComments
  | noColor
deriving DecidableEq, Repr

inductive Field where
  | output
  | scheduleRounds
  | config
  | define
deriving DecidableEq, Repr

inductive Switch where
  | flag (f : Flag)
  | field (f : Field)
  | verbose
  | version
  | help
deriving DecidableEq, Repr

def Flag.name : Flag → String
  | stdout => "--stdout"
  | noOptimize => "--no-optimize"
  | noWrapper => "--no-wrapper"
  | sourceComments => "--source-comments"
  | noColor => "--no-color"

def Field.name : Field → String
  | output => "--output"
  | scheduleRounds => "--schedule-rounds"
  | config => "--config"
  | define => "-D"

def Switch.ofWord? : String → Option Switch
  | "stdout" => some (.flag .stdout)
  | "no-optimize" => some (.flag .noOptimize)
  | "no-wrapper" => some (.flag .noWrapper)
  | "source-comments" => some (.flag .sourceComments)
  | "no-color" => some (.flag .noColor)
  | "output" => some (.field .output)
  | "schedule-rounds" => some (.field .scheduleRounds)
  | "config" => some (.field .config)
  | "verbose" => some .verbose
  | "version" => some .version
  | "help" => some .help
  | _ => none

def Switch.ofLetter? : Char → Option Switch
  | 'o' => some (.field .output)
  | 'D' => some (.field .define)
  | 'v' => some .verbose
  | 'V' => some .version
  | 'h' => some .help
  | _ => none

inductive UsageError where
  | unexpected (argument : String)
  | repeated (name : String)
  | valueMissing (name : String)
  | valueUnexpected (argument : String)
  | invalidValue (name value : String)
  | conflict (one other : String)
  | fileMissing
deriving DecidableEq, Repr

def UsageError.message : UsageError → String
  | unexpected argument => "unexpected argument '" ++ argument ++ "' found"
  | repeated name => "the argument '" ++ name ++ "' cannot be used multiple times"
  | valueMissing name => "a value is required for '" ++ name ++ "' but none was supplied"
  | valueUnexpected argument => "unexpected value in '" ++ argument ++ "' found; no more were expected"
  | invalidValue name value => "invalid value '" ++ value ++ "' for '" ++ name ++ "'"
  | conflict one other => "the argument '" ++ one ++ "' cannot be used with '" ++ other ++ "'"
  | fileMissing => "the following required arguments were not provided: <FILE>"

structure Arguments where
  file : Option String := none
  flags : List Flag := []
  output : Option String := none
  config : Option String := none
  scheduleRounds : Option Nat := none
  defines : List String := []
  verbosity : Nat := 0
deriving DecidableEq, Repr

inductive Request where
  | compile (file : String) (arguments : Arguments)
  | version
  | help
deriving DecidableEq, Repr

/-- A number of rounds: decimal digits of a 64-bit word, perhaps behind a plus sign. -/
def rounds? (value : String) : Option Nat :=
  let digits := match value.toList with
    | '+' :: rest => rest
    | cs => cs
  let n := Text.numberOf 10 digits
  if digits ≠ [] ∧ digits.all Char.isDigit ∧ n < UInt64.size then some n else none

namespace Arguments

def addFlag (a : Arguments) (f : Flag) : Except UsageError Arguments :=
  if a.flags.contains f then .error (.repeated f.name) else .ok { a with flags := f :: a.flags }

def oncePath (name : String) (old : Option String) (path : String) : Except UsageError (Option String) :=
  if old.isSome then .error (.repeated name)
  else if path.isEmpty then .error (.invalidValue name path)
  else .ok (some path)

def addField (a : Arguments) (f : Field) (value : String) : Except UsageError Arguments := match f with
  | .output => return { a with output := ← oncePath f.name a.output value }
  | .config => return { a with config := ← oncePath f.name a.config value }
  | .define => .ok { a with defines := a.defines ++ [value] }
  | .scheduleRounds =>
    if a.scheduleRounds.isSome then .error (.repeated f.name)
    else
      match rounds? value with
      | some n => .ok { a with scheduleRounds := some n }
      | none => .error (.invalidValue f.name value)

def addFile (a : Arguments) (path : String) : Except UsageError Arguments :=
  if a.file.isSome then .error (.unexpected path)
  else return { a with file := ← oncePath "<FILE>" none path }

def finish (a : Arguments) : Except UsageError Request := if a.flags.contains .stdout && a.output.isSome then
    .error (.conflict Flag.stdout.name Field.output.name)
  else
    match a.file with
    | some file => .ok (.compile file a)
    | none => .error .fileMissing

end Arguments

inductive Step where
  | next (a : Arguments)
  | value (a : Arguments) (f : Field)
  | stop (r : Request)

/-- Reads letters behind one dash.  The letter of an option takes the rest of them as its value. -/
def readLetters (a : Arguments) : List Char → Except UsageError Step
  | [] => .ok (.next a)
  | c :: rest =>
    match Switch.ofLetter? c with
    | none => .error (.unexpected (String.ofList ['-', c]))
    | some .version => .ok (.stop .version)
    | some .help => .ok (.stop .help)
    | some .verbose => readLetters { a with verbosity := a.verbosity + 1 } rest
    | some (.flag f) => do readLetters (← a.addFlag f) rest
    | some (.field f) =>
      match rest with
      | [] => .ok (.value a f)
      | '=' :: value => return .next (← a.addField f (String.ofList value))
      | value => return .next (← a.addField f (String.ofList value))

def readWord (a : Arguments) (text : List Char) : Except UsageError Step :=
  let argument := "--" ++ String.ofList text
  let value := (text.dropWhile (· != '=')).drop 1
  let bare (step : Except UsageError Step) : Except UsageError Step :=
    if text.contains '=' then .error (.valueUnexpected argument) else step
  match Switch.ofWord? (String.ofList (text.takeWhile (· != '='))) with
  | none => .error (.unexpected argument)
  | some .version => bare (.ok (.stop .version))
  | some .help => bare (.ok (.stop .help))
  | some .verbose => bare (.ok (.next { a with verbosity := a.verbosity + 1 }))
  | some (.flag f) => bare (return .next (← a.addFlag f))
  | some (.field f) =>
    if text.contains '=' then return .next (← a.addField f (String.ofList value))
    else .ok (.value a f)

def readArgument (a : Arguments) (argument : String) : Except UsageError Step := match argument.toList with
  | '-' :: '-' :: text => readWord a text
  | '-' :: c :: rest => readLetters a (c :: rest)
  | _ => return .next (← a.addFile argument)

def isSwitch (argument : String) : Bool := argument.startsWith "-" && argument.length > 1

def read (a : Arguments) : List String → Except UsageError Request
  | [] => a.finish
  | "--" :: rest => do (← rest.foldlM Arguments.addFile a).finish
  | argument :: rest =>
    match readArgument a argument with
    | .error e => .error e
    | .ok (.stop r) => .ok r
    | .ok (.next a) => read a rest
    | .ok (.value a f) =>
      match rest with
      | [] => .error (.valueMissing f.name)
      | value :: rest =>
        if isSwitch value then .error (.valueMissing f.name)
        else
          match a.addField f value with
          | .error e => .error e
          | .ok a => read a rest

def Request.ofArguments (arguments : List String) : Except UsageError Request := read {} arguments

end Microcode.CommandLine
