import Microcode.CommandLine.Arguments
import Microcode.Compiler
import Microcode.Diagnostic
import Microcode.Settings

/-!
The command: it reads a source file and its settings, compiles it, and reports.  What it writes it
returns; a caller writes it and reports with what came of that.
-/

namespace Microcode.CommandLine

structure Report where
  exit : Nat := 0
  out : String := ""
  err : String := ""
deriving DecidableEq, Repr

inductive Outcome where
  | report (r : Report)
  /-- A text is to be written; the report depends on whether that succeeds. -/
  | write (path text : String) (after : Except FileError Unit → Report)

def versionText : String := "rsplc 0.3.0\n"

def helpText : String := "Compile RSPL sources into RSP overlay assembly\n\nUsage: rsplc [OPTIONS] <FILE>\n"

def usageReport (e : UsageError) : Report :=
  { exit := 2, err := "error: " ++ e.message ++ "\n\nUsage: rsplc [OPTIONS] <FILE>\n" }

namespace Arguments

def has (a : Arguments) (f : Flag) : Bool := a.flags.contains f

def palette (a : Arguments) : Palette := ⟨!a.has .noColor⟩

def override (a : Arguments) (s : Settings) : Settings :=
  let o := s.options
  let options : Options :=
    { optimize := o.optimize && !a.has .noOptimize
      dispatchWrapper := o.dispatchWrapper && !a.has .noWrapper
      sourceComments := o.sourceComments || a.has .sourceComments
      scheduleRounds := a.scheduleRounds.getD o.scheduleRounds }
  Settings.applyDefines { s with options } a.defines

def settings (a : Arguments) (disk : Disk) (directory : String) : Except SettingsError Settings := do
  let s ← match a.config with
    | some path => Settings.load disk path
    | none => (Settings.findAndLoad disk directory).map (·.2)
  pure (a.override s)

def failure (a : Arguments) (text : String) (r : Report) : Report :=
  { r with exit := 1, err := r.err ++ a.palette.red "error:" ++ " " ++ text ++ "\n" }

end Arguments

def sourceDirectory (file : String) : String := match Path.parent? file with
  | none | some "" => "."
  | some directory => directory

def loaderFrom (disk : Disk) (directory : String) : Source.Loader := fun path =>
  let full := Path.join directory path
  (disk.read full).mapError fun e => full ++ ": " ++ e.message

def writtenLine (p : Palette) (path : String) (compiled : Compiled) : String :=
  let summary := toString (Text.lines compiled.text.toList).length ++ " lines, "
    ++ toString compiled.warnings.length ++ " warning(s)"
  p.status "Writing" ++ " " ++ p.green path ++ " (" ++ p.gray summary ++ ")\n"

def deliver (file : String) (a : Arguments) (compiled : Compiled) (r : Report) : Outcome :=
  if a.has .stdout then .report { r with out := r.out ++ compiled.text }
  else
    let path := a.output.getD (Path.withExtension file "S")
    .write path compiled.text fun
      | .error e => a.failure ("writing to '" ++ path ++ "': " ++ e.message) r
      | .ok () => { r with out := r.out ++ writtenLine a.palette path compiled }

def compileFile (disk : Disk) (file : String) (a : Arguments) : Outcome := match disk.read file with
  | .error e => .report (a.failure ("cannot read file '" ++ file ++ "': " ++ e.message) {})
  | .ok source =>
    let directory := sourceDirectory file
    match a.settings disk directory with
    | .error e => .report (a.failure e.message {})
    | .ok s =>
      let start : Report := if a.has .stdout then {} else { out := a.palette.status "Compiling" ++ " " ++ file ++ "\n" }
      match compile source s.options (.ofList s.defines) (loaderFrom disk directory) with
      | .error e =>
        .report { start with exit := 1, err := (Diagnostic.ofError e source file).render a.palette }
      | .ok compiled =>
        let warnings := compiled.warnings.map fun w => (Diagnostic.ofWarning w source file).render a.palette
        deliver file a compiled { start with err := String.join warnings }

def run (disk : Disk) (arguments : List String) : Outcome := match Request.ofArguments arguments with
  | .error e => .report (usageReport e)
  | .ok .version => .report { out := versionText }
  | .ok .help => .report { out := helpText }
  | .ok (.compile file a) => compileFile disk file a

end Microcode.CommandLine
