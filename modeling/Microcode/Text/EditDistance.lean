/-!
How far apart two texts are: the fewest characters to insert, delete or exchange that turn one into the
other.  The distances between all beginnings of the two are computed row by row.
-/

namespace Microcode.Text

/-- The rest of a row after an entry: the distances from a beginning that ends in `c`, given those from
the beginning without it. -/
def rowFrom (c : Char) : Nat → List Char → List Nat → List Nat
  | left, d :: rest, diagonal :: above :: more =>
    let here := min (min (above + 1) (left + 1)) (diagonal + if c = d then 0 else 1)
    here :: rowFrom c here rest (above :: more)
  | _, _, _ => []

def nextRow (b : List Char) (row : List Nat) (c : Char) : List Nat :=
  let first := row.headD 0 + 1
  first :: rowFrom c first b row

def editDistance (a b : List Char) : Nat := (a.foldl (nextRow b) (List.range (b.length + 1))).getLastD 0

/-- Names that are nearly the one given: at most three, the nearest first.  One change is allowed for
every three bytes, and always one. -/
def similar (name : String) (candidates : List String) : List String :=
  let limit := max (name.utf8ByteSize / 3) 1
  let near := (candidates.map fun c => (editDistance name.toList c.toList, c)).filter fun (d, _) =>
    0 < d && d ≤ limit
  let before (a b : Nat × String) : Bool := a.1 < b.1 || (a.1 == b.1 && !(b.2 < a.2))
  ((near.mergeSort before).take 3).map Prod.snd

end Microcode.Text
