import Microcode.Text.Numeral

/-!
The registers of the machine: 32 scalar ones with the usual names, and 32 vector ones named by number.
-/

namespace Microcode

/-- Registers are numbered below 32, and numerals stand for their numbers. -/
instance Register.neZeroCount : @NeZero Nat Zero.ofOfNat0 32 := ⟨Nat.succ_ne_zero 31⟩

inductive Register where
  | scalar (index : Fin 32)
  | vector (index : Fin 32)
deriving DecidableEq, Repr

namespace Register

def scalarNames : List String := ["$zero", "$at", "$v0", "$v1", "$a0", "$a1", "$a2", "$a3",
   "$t0", "$t1", "$t2", "$t3", "$t4", "$t5", "$t6", "$t7",
   "$s0", "$s1", "$s2", "$s3", "$s4", "$s5", "$s6", "$s7",
   "$t8", "$t9", "$k0", "$k1", "$gp", "$sp", "$fp", "$ra"]

def zero : Register := scalar 0

/-- The scalar register that multi-instruction sequences may overwrite. -/
def scratch : Register := scalar 1

def firstArgument : Register := scalar 4

def returnAddress : Register := scalar 31

def zeroVector : Register := vector 0

/-- The vector register that multi-instruction sequences may overwrite. -/
def scratchVector : Register := vector 27

def index : Register → Nat
  | scalar i | vector i => i.val

def isVector : Register → Bool
  | scalar _ => false
  | vector _ => true

def text : Register → String
  | scalar i => scalarNames.getD i.val ""
  | vector i => "$v" ++ Text.decimalPadded 2 i.val

def ofIndex? (number : Nat) (vectorClass : Bool) : Option Register :=
  if h : number < 32 then
    some (if vectorClass then vector ⟨number, h⟩ else scalar ⟨number, h⟩)
  else none

def vectorOfName? (name : List Char) : Option Register := match name with
  | ['$', 'v', tens, ones] =>
    if tens.isDigit && ones.isDigit then ofIndex? (Text.numberOf 10 [tens, ones]) true else none
  | _ => none

/-- The register that a name stands for.  A vector register has exactly two digits, so `$v0` is a
scalar and `$v00` a vector. -/
def ofName? (name : String) : Option Register := match scalarNames.findIdx? (· == name) with
  | some i => ofIndex? i false
  | none => vectorOfName? name.toList

/-- The register after this one in its class: the second half of a `vec32`. -/
def next? : Register → Option Register
  | scalar i => ofIndex? (i.val + 1) false
  | vector i => ofIndex? (i.val + 1) true

end Register
end Microcode
