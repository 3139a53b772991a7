/-!
Numerals as the assembly text and the messages write them: decimal, hexadecimal with a fixed
width, and columns padded on the left.
-/

namespace Microcode.Text

def padLeft (fill : Char) (width : Nat) (text : String) : String :=
  String.ofList (List.replicate (width - text.length) fill) ++ text

def decimalPadded (width n : Nat) : String := padLeft '0' width (toString n)

def hexWord (w : UInt32) : String :=
  let digits := (Nat.toDigits 16 w.toNat).map Char.toUpper
  "0x" ++ padLeft '0' 4 (String.ofList digits)

def digitValue? (base : Nat) (c : Char) : Option Nat :=
  let value? :=
    if '0' ≤ c && c ≤ '9' then some (c.toNat - 48)
    else if 'a' ≤ c && c ≤ 'f' then some (c.toNat - 87)
    else if 'A' ≤ c && c ≤ 'F' then some (c.toNat - 55)
    else none
  value?.filter (· < base)

/-- The number that a list of digits denotes; characters that are no digits count as nothing. -/
def numberOf (base : Nat) (digits : List Char) : Nat :=
  digits.foldl (fun n c => n * base + (digitValue? base c).getD 0) 0

end Microcode.Text
