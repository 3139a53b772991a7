import Microcode.CommandLine

/-!
The program.  It reads every file that a command may ask for, lets the command decide on them, and
prints and writes what comes of it.
-/

namespace Microcode.CommandLine

def fileErrorOf : IO.Error → FileError
  | .noFileOrDirectory .. => .notFound
  | .inappropriateType _ 20 _ => .notDirectory
  | .inappropriateType _ 21 _ => .isDirectory
  | .userError _ => .other "stream did not contain valid UTF-8"
  | e => .other (toString e)

abbrev Contents := List (String × Except FileError String)

def Contents.disk (c : Contents) : Disk := ⟨fun path => (c.lookup path).getD (.error .notFound)⟩

def Contents.add (c : Contents) (path : String) : IO Contents := do
  if (c.lookup path).isSome then return c
  let result ← (IO.FS.readFile path).toBaseIO
  return (path, result.mapError fileErrorOf) :: c

def Contents.addIncluded (directory : String) : Nat → List String → Contents → IO Contents
  | 0, _, c => return c
  | depth + 1, texts, c => do
    let paths := texts.flatMap Source.includedPaths |>.map (Path.join directory)
    let fresh := paths.eraseDups.filter fun path => (c.lookup path).isNone
    let c ← fresh.foldlM Contents.add c
    let included := fresh.filterMap fun path => (c.disk.read path).toOption
    if included.isEmpty then return c else Contents.addIncluded directory depth included c

def Contents.forRequest : Request → IO Contents
  | .version | .help => return []
  | .compile file a => do
    let directory := sourceDirectory file
    let settings := match a.config with
      | some path => [path]
      | none => Settings.candidates directory
    let c ← (file :: settings).foldlM Contents.add []
    match c.disk.read file with
    | .ok text => c.addIncluded directory Source.includeDepth [text]
    | .error _ => return c

def writeFile (path text : String) : IO (Except FileError Unit) := do
  let result ← (IO.FS.writeFile path text).toBaseIO
  return result.mapError fileErrorOf

def Report.print (r : Report) : IO UInt32 := do
  IO.print r.out
  IO.eprint r.err
  return r.exit.toUInt32

end Microcode.CommandLine

open Microcode.CommandLine in
def main (arguments : List String) : IO UInt32 := do
  let contents ← match Request.ofArguments arguments with
    | .ok request => Contents.forRequest request
    | .error _ => pure []
  match run (Contents.disk contents) arguments with
  | .report r => r.print
  | .write path text after => do (after (← writeFile path text)).print
