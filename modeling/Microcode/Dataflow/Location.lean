import Microcode.Machine.Instruction

/-!
The places in the machine that instructions read and write: scalar registers, lanes of vector registers,
and the registers inside the vector unit.  Sets of locations are bit masks over their numbers.
-/

namespace Microcode

inductive Location where
  | scalar (register : Fin 32)
  | lane (register : Fin 32) (lane : Fin 8)
  | accumulator
  /-- The result of the last comparison of vectors. -/
  | compareFlags
  /-- The carries of the last addition of vectors. -/
  | carryFlags
  | clipFlags
  | divider
deriving DecidableEq, Repr

namespace Location

def number : Location → Nat
  | scalar r => r.val
  | lane r l => 32 + 8 * r.val + l.val
  | accumulator => 288
  | compareFlags => 289
  | carryFlags => 290
  | clipFlags => 291
  | divider => 292

def flags : List Location := [compareFlags, carryFlags, clipFlags]

def returnAddress : Location := scalar 31

def count : Nat := 293

end Location

structure LocationSet where
  bits : Nat
deriving DecidableEq, Repr

namespace LocationSet

def ofList (locations : List Location) : LocationSet := ⟨locations.foldl (fun bits l => bits ||| (1 <<< l.number)) 0⟩

def contains (s : LocationSet) (l : Location) : Bool := s.bits.testBit l.number

def isEmpty (s : LocationSet) : Bool := s.bits == 0

def intersects (s t : LocationSet) : Bool := s.bits &&& t.bits != 0

def without (s t : LocationSet) : LocationSet := ⟨s.bits ^^^ (s.bits &&& t.bits)⟩

def numbers (s : LocationSet) : List Nat := (List.range Location.count).filter s.bits.testBit

end LocationSet

/-- The locations of a register, given the lanes that count.  The constant registers have none. -/
def Register.locations (lanes : List (Fin 8)) : Register → List Location
  | scalar r => if r = 0 then [] else [.scalar r]
  | vector r => if r = 0 then [] else lanes.map (.lane r)

/-- The locations of an argument.  For a vector these are the lanes that it selects, or all. -/
def Arg.locations (whole : Bool) : Arg → List Location
  | reg r => r.locations (List.finRange 8)
  | lanes r none => r.locations (List.finRange 8)
  | lanes r (some s) => r.locations (if whole then List.finRange 8 else s.lanes)
  | mem _ _ base => base.locations (List.finRange 8)
  | _ => []

end Microcode
