import Microcode.Decimal.Shortest

/-!
How a decimal is laid out as text.  The digits are those of `Decimal.Shortest`; a `Layout` says when
the point stands among them and when an exponent follows.  Two layouts are in use: plain text for
listings and messages, and the number format of statement snapshots.
-/

namespace Microcode.Decimal

structure Layout where
  tie : Tie
  /-- Whether a value with this many digits before its point is written without exponent. -/
  positional : Int → Bool
  /-- Whether a whole number ends in `.0`. -/
  wholePoint : Bool
  notANumber : String
  /-- The text of an infinite value, after its sign if it has one. -/
  infinite : Bool → String

def Layout.plain : Layout where
  tie := .away
  positional := fun _ => true
  wholePoint := false
  notANumber := "NaN"
  infinite := fun negative => if negative then "-inf" else "inf"

/-- The number format of snapshots: always a point or an exponent, positional from `0.00001` up to
sixteen digits before the point; what is not finite is `null`. -/
def Layout.snapshot : Layout where
  tie := .toEven
  positional := fun point => -4 ≤ point && point ≤ 16
  wholePoint := true
  notANumber := "null"
  infinite := fun _ => "null"

/-- Digits with a point after the first `point` of them, zeros filled in where none stand. -/
def positionalText (wholePoint : Bool) (digits : List Char) (point : Int) : List Char :=
  let count := digits.length
  if point ≤ 0 then
    '0' :: '.' :: (List.replicate (-point).toNat '0' ++ digits)
  else if point.toNat < count then
    digits.take point.toNat ++ '.' :: digits.drop point.toNat
  else
    let whole := digits ++ List.replicate (point.toNat - count) '0'
    if wholePoint then whole ++ ['.', '0'] else whole

def exponentText (digits : List Char) (point : Int) : List Char :=
  let fraction := match digits.drop 1 with
    | [] => []
    | more => '.' :: more
  let power := point - 1
  let sign := if power < 0 then '-' else '+'
  digits.take 1 ++ fraction ++ 'e' :: sign :: (toString power.natAbs).toList

def Layout.magnitude (layout : Layout) (x : Dyadic) : List Char :=
  let d := x.shortest layout.tie
  let digits := (toString d.digits).toList
  let point := (digits.length : Int) + d.exponent
  if layout.positional point then positionalText layout.wholePoint digits point
  else exponentText digits point

def Layout.write (layout : Layout) (x : Float) : String :=
  let negative := x.toBits >>> 63 == 1
  if x.isNaN then layout.notANumber
  else if x.isInf then layout.infinite negative
  else
    let digits := if x == 0 then positionalText layout.wholePoint ['0'] 1
      else layout.magnitude (Dyadic.ofBits x.toBits)
    String.ofList (if negative then '-' :: digits else digits)

end Microcode.Decimal
