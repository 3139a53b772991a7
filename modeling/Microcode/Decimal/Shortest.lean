/-!
The fewest decimal digits that read back as a given binary fraction.

A binary64 value stands for all reals that round to it.  Of the decimals among them the one with
the fewest digits is chosen, and of two with equally few the nearer.  Everything is compared in
exact integer arithmetic, so no rounding enters but the one that the definition speaks of.
-/

namespace Microcode.Decimal

structure Dyadic where
  mantissa : Nat
  exponent : Int
  /-- The value below is only half as far away as the value above. -/
  narrowBelow : Bool
deriving DecidableEq

def Dyadic.ofBits (bits : UInt64) : Dyadic :=
  let biased := ((bits >>> 52) &&& 0x7FF).toNat
  let fraction := (bits &&& 0xFFFFFFFFFFFFF).toNat
  if biased = 0 then ⟨fraction, -1074, false⟩
  else ⟨0x10000000000000 + fraction, (biased : Int) - 1075, fraction == 0 && biased > 1⟩

structure Scaled where
  digits : Nat
  exponent : Int
deriving DecidableEq

inductive Tie where
  | toEven
  | away
deriving DecidableEq

def factor (base : Nat) (k : Int) : Nat := base.pow k.toNat

def compareScaled (d : Nat) (k : Int) (n : Nat) (j : Int) : Ordering :=
  compare (d * factor 10 k * factor 2 (-j)) (n * factor 2 j * factor 10 (-k))

/-- Whether a decimal reads back as the value: it lies between the midpoints to the two
neighbours, which themselves belong to the value exactly when its mantissa is even. -/
def Dyadic.readsBack (x : Dyadic) (d : Scaled) : Bool :=
  let quarter := x.exponent - 2
  let below := if x.narrowBelow then 4 * x.mantissa - 1 else 4 * x.mantissa - 2
  let fromBelow := compareScaled d.digits d.exponent below quarter
  let fromAbove := compareScaled d.digits d.exponent (4 * x.mantissa + 2) quarter
  if x.mantissa % 2 = 0 then fromBelow != .lt && fromAbove != .gt
  else fromBelow == .gt && fromAbove == .lt

/-- The number of digits before the decimal point; zero or less for a value below one tenth.
The shift by 343 places makes the least positive value a whole number. -/
def Dyadic.scale (x : Dyadic) : Int :=
  let whole := x.mantissa * factor 10 343 * factor 2 x.exponent / factor 2 (-x.exponent)
  ((Nat.toDigits 10 whole).length : Int) - 343

def Dyadic.floorAt (x : Dyadic) (k : Int) : Nat :=
  x.mantissa * factor 2 x.exponent * factor 10 (-k) / (factor 2 (-x.exponent) * factor 10 k)

/-- The decimal in units of `10 ^ k` that reads back and is nearest, if one does. -/
def Dyadic.onGrid? (tie : Tie) (x : Dyadic) (k : Int) : Option Scaled :=
  let low : Scaled := ⟨x.floorAt k, k⟩
  let high : Scaled := ⟨x.floorAt k + 1, k⟩
  match x.readsBack low, x.readsBack high with
  | true, true =>
    match compareScaled (low.digits + high.digits) k (2 * x.mantissa) x.exponent with
    | .lt => some high
    | .gt => some low
    | .eq =>
      match tie with
      | .away => some high
      | .toEven => some (if low.digits % 2 = 0 then low else high)
  | true, false => some low
  | false, true => some high
  | false, false => none

/-- The digits without zeros at their end; at most `fuel` zeros are taken. -/
def Scaled.strip : Nat → Scaled → Scaled
  | 0, d => d
  | fuel + 1, d =>
    if d.digits % 10 = 0 && d.digits != 0 then strip fuel ⟨d.digits / 10, d.exponent + 1⟩ else d

/-- The shortest decimal that reads back as a positive value.  Seventeen digits always suffice. -/
def Dyadic.shortest (tie : Tie) (x : Dyadic) : Scaled :=
  let grids := (List.range 17).map fun n : Nat => x.scale - (n + 1 : Nat)
  ((grids.findSome? (x.onGrid? tie)).getD ⟨x.floorAt (x.scale - 17), x.scale - 17⟩).strip 20

end Microcode.Decimal
