import Microcode.Machine.Code
import Microcode.Program

/-!
The text of an overlay: header, command table, saved state and code.
-/

namespace Microcode

def overlayHeader : String := "## Auto-generated file, only edit the .rspl source instead."

/-- The power of two that an alignment is a multiple of, for a 32-bit number. -/
def alignExponent (align : Nat) : Nat := ((List.range 32).find? align.testBit).getD 32

structure CommandEntry where
  target : String
  argSize : Nat
deriving DecidableEq, Repr

/-- The command table, by index.  A command defined by code comes before one that is only announced; of
two by code the latter counts, of two announced the former. -/
def commandTable (p : Program) (codes : List Code) : List (Nat × CommandEntry) :=
  let defined := codes.filterMap fun c =>
    c.command.map fun index => (index, ⟨c.aliasOf.getD c.name, c.argSize⟩)
  let announced := p.routines.filterMap fun r =>
    match r.kind, r.body with
    | .command index, none => some (index, ⟨r.name, max (r.params.length * 4) 4⟩)
    | _, _ => none
  defined.reverse ++ announced

def commandLine (table : List (Nat × CommandEntry)) (index : Nat) : String := match table.lookup index with
  | some e => "    RSPQ_DefineCommand " ++ e.target ++ ", " ++ toString e.argSize
  | none =>
    "    RSPQ_DefineCommand " ++ dispatchLoop ++ ", 4  ## Warning: unused command index " ++ toString index

def commandLines (table : List (Nat × CommandEntry)) : List String := match (table.map Prod.fst).max? with
  | none => []
  | some last => (List.range (last + 1)).map (commandLine table)

def StateVariable.lines (v : StateVariable) : List String :=
  let place := "    .align " ++ toString (alignExponent (v.align.getD v.type.alignment))
  if v.init.isEmpty then
    [place, "    " ++ v.name ++ ": .ds.b " ++ toString v.byteSize]
  else
    let (directive, unit) := v.type.dataUnit
    let values := v.init.map fun c => toString ((c.toInt?.getD 0).toInt)
    let rest := v.byteSize - v.init.length * unit
    [place, "    " ++ v.name ++ ": " ++ directive ++ " " ++ ", ".intercalate values]
      ++ if 0 < rest then ["    .ds.b " ++ toString rest] else []

/-- The lines of a routine; one that an entry stands for has none. -/
def Code.text (c : Code) : List String := if c.aliasOf.isSome then []
  else
    (c.align.map fun a => ".align " ++ toString (alignExponent a)).toList
      ++ (c.name ++ ":") :: c.lines.map Line.text ++ [""]

def textOfLines (lines : List String) : String := String.join (lines.map (· ++ "\n"))

def routinesText (codes : List Code) : String := textOfLines (codes.flatMap Code.text)

def includeLine (path : String) : String := "#include <" ++ path ++ ">"

def overlayText (p : Program) (codes : List Code) : String := textOfLines <| overlayHeader :: p.includes.map includeLine
      ++ [".set noreorder", ".set noat", ".set nomacro", "", ".data", "  RSPQ_BeginOverlayHeader"]
      ++ commandLines (commandTable p codes)
      ++ ["  RSPQ_EndOverlayHeader", "", "  RSPQ_BeginSavedState", "    STATE_MEM_START:"]
      ++ (p.state.filter (! ·.isExtern)).flatMap StateVariable.lines
      ++ ["    STATE_MEM_END:", "  RSPQ_EndSavedState", "", ".text", "OVERLAY_CODE_START:", ""]
      ++ codes.flatMap Code.text
      ++ "OVERLAY_CODE_END:" :: p.trailingIncludes.map includeLine

end Microcode
