import Microcode.Machine.Code
import Microcode.Text.Occurrence

/-!
Labels and comments.  Of labels that stand together only the last is needed.
-/

namespace Microcode

def stripComments (lines : List Line) : Edited := ⟨lines.filter (! ·.isComment), lines.countP Line.isComment⟩

def rawTexts (lines : List Line) : List String := lines.filterMap fun
    | .raw text => some text
    | _ => none

def Line.rename (before after : String) : Line → Line
  | .op i => .op { i with args := i.args.map (Arg.rename before after) }
  | l => l

/-- The lines without labels that another follows, and the names that change by that, in order.  A label
that a text mentions stays. -/
def joinLabels (texts : List String) : List Line → List Line × List (String × String)
  | .label first :: .label second :: rest =>
    let (lines, names) := joinLabels texts (.label second :: rest)
    if texts.any (Text.mentions · first) then (.label first :: lines, names)
    else (lines, (first, second) :: names)
  | l :: rest =>
    let (lines, names) := joinLabels texts rest
    (l :: lines, names)
  | [] => ([], [])

def dedupeLabels (lines : List Line) : Edited := let (kept, names) := joinLabels (rawTexts lines) lines
  ⟨names.foldl (fun lines (before, after) => lines.map (·.rename before after)) kept, names.length⟩

end Microcode
