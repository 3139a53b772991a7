import Microcode.FileTree
import Microcode.Options
import Microcode.Path
import Microcode.Settings.Table

/-!
Settings of a project: the options of its compilations and the names that are defined in all its
sources.  They are in a file next to the source or in a directory above it.
-/

namespace Microcode

structure Settings where
  options : Options := {}
  /-- Names that are defined before a source is read; each at most once. -/
  defines : List (String × String) := []
deriving DecidableEq, Repr

inductive SettingsError where
  | unreadable (path : String) (cause : FileError)
  | malformed (path : String)
deriving DecidableEq, Repr

def SettingsError.message : SettingsError → String
  | unreadable path cause => "cannot read '" ++ path ++ "': " ++ cause.message
  | malformed path => "invalid toml in '" ++ path ++ "'"

namespace Settings

/-- The options after a key of their table.  A key that is not known changes nothing. -/
def optionOf? (o : Options) (key : String) (value : Value) : Option Options := match key, value with
  | "optimize", .bool b => some { o with optimize := b }
  | "dispatch_wrapper", .bool b => some { o with dispatchWrapper := b }
  | "source_comments", .bool b => some { o with sourceComments := b }
  | "schedule_rounds", .int n => if 0 ≤ n then some { o with scheduleRounds := n.toNat } else none
  | key, _ =>
    if ["optimize", "dispatch_wrapper", "source_comments", "schedule_rounds"].contains key then none
    else some o

def defineOf? : String × Value → Option (String × String)
  | (name, .string text) => some (name, text)
  | _ => none

def addTable? (s : Settings) (table : String × Table) : Option Settings := match table with
  | ("compile", keys) => do
    let options ← keys.foldlM (fun o (key, value) => optionOf? o key value) s.options
    pure { s with options }
  | ("defines", keys) => do
    let defines ← keys.mapM defineOf?
    pure { s with defines }
  | _ => none

/-- The settings that a text holds.  All keys are in one of two tables. -/
def ofText? (text : String) : Option Settings := do
  let (top, tables) ← tablesOfText? text
  if top.isEmpty then tables.foldlM addTable? {} else none

def fileName : String := "rspl.toml"

def load (disk : Disk) (path : String) : Except SettingsError Settings := match disk.read path with
  | .error cause => .error (.unreadable path cause)
  | .ok text =>
    match ofText? text with
    | some s => .ok s
    | none => .error (.malformed path)

def candidates (directory : String) : List String := (Path.selfAndAncestors directory).map (Path.join · fileName)

def find? (disk : Disk) (directory : String) : Option String := (candidates directory).find? disk.isFile

/-- The settings for a directory, and their path.  Without a file they are the usual ones. -/
def findAndLoad (disk : Disk) (directory : String) : Except SettingsError (Option String × Settings) :=
  match find? disk directory with
  | some path => (load disk path).map fun s => (some path, s)
  | none => .ok (none, {})

def definition (text : String) : String × String :=
  let cs := text.toList
  let trimmed (cs : List Char) := String.ofList (Text.trim cs)
  (trimmed (cs.takeWhile (· != '=')), trimmed ((cs.dropWhile (· != '=')).drop 1))

def define (s : Settings) (name value : String) : Settings :=
  { s with defines := s.defines.filter (·.1 != name) ++ [(name, value)] }

def applyDefines (s : Settings) (definitions : List String) : Settings :=
  definitions.foldl (fun s text => s.define (definition text).1 (definition text).2) s

end Settings
end Microcode
