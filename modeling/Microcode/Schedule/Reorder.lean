import Microcode.Schedule.Cost
import Microcode.Schedule.Range

/-!
Reordering instructions.  One instruction after another is moved to the first of the best positions in
its range, if the estimate for the lines around that range gets strictly smaller.
-/

namespace Microcode

/-- Lines that the estimate looks at on each side of the range of a move. -/
def windowMargin : Nat := 4

def cheapest (cost : Nat → Nat) : Nat → List Nat → Option Nat
  | _, [] => none
  | bound, j :: rest =>
    let c := cost j
    if c < bound then some ((cheapest cost c rest).getD j) else cheapest cost bound rest

def bestMove (lines : List Line) (i : Nat) : Option Nat := let (first, last) := moveRange lines i
  if first = last then none
  else
    let start := first - windowMargin
    let stop := min (last + windowMargin + 1) lines.length
    let window := (lines.take stop).drop start
    let cost (j : Nat) := estimateCycles (moveLine window (i - start) (j - start))
    let positions := ((List.range (last + 1 - first)).map (· + first)).filter (· ≠ i)
    cheapest cost (estimateCycles window) positions

def improve (e : Edited) (i : Nat) : Edited := match bestMove e.lines i with
  | some j => ⟨moveLine e.lines i j, e.count + 1⟩
  | none => e

def reorderOnce (lines : List Line) : Edited := (List.range lines.length).foldl improve ⟨lines, 0⟩

/-- The lines after at most some rounds; a round without a move is the last. -/
def reorder : Nat → List Line → Edited
  | 0, lines => ⟨lines, 0⟩
  | rounds + 1, lines =>
    let once := reorderOnce lines
    if once.count = 0 then once
    else
      let more := reorder rounds once.lines
      ⟨more.lines, once.count + more.count⟩

end Microcode
