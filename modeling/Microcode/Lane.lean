/-!
Selecting lanes of a vector.  Source text writes a swizzle after a variable (`.x`, `.xxxxXXXX`);
assembly writes a selector after a register (`.e0`, `.h0`).  Each swizzle has one selector.
-/

namespace Microcode

/-- The lanes that an operand of an instruction reads, as assembly writes them. -/
inductive Selector where
  | lane (n : Fin 8)
  | half (n : Fin 4)
  | quarter (n : Fin 2)
deriving DecidableEq, Repr

namespace Selector

def text : Selector → String
  | lane n => ".e" ++ toString n.val
  | half n => ".h" ++ toString n.val
  | quarter n => ".q" ++ toString n.val

def covers : Selector → Fin 8 → Bool
  | lane n, l => l == n
  | half n, l => l.val % 4 == n.val
  | quarter n, l => l.val % 2 == n.val

def lanes (s : Selector) : List (Fin 8) := (List.finRange 8).filter s.covers

def mask (s : Selector) : Nat := s.lanes.foldl (fun m l => m + 1 <<< l.val) 0

end Selector

inductive Swizzle where
  /-- `.x` to `.W`. -/
  | lane (n : Fin 8)
  /-- `.xxxxxxxx` to `.WWWWWWWW`. -/
  | broadcast (n : Fin 8)
  /-- `.xxxxXXXX` to `.wwwwWWWW`. -/
  | half (n : Fin 4)
  /-- `.xxzzXXZZ` and `.yywwYYWW`. -/
  | quarter (n : Fin 2)
deriving DecidableEq, Repr

namespace Swizzle

def letters : List Char := ['x', 'y', 'z', 'w', 'X', 'Y', 'Z', 'W']

def letter (n : Nat) : Char := letters.getD n 'x'

def all : List Swizzle := (List.finRange 8).map lane ++ (List.finRange 8).map broadcast
    ++ (List.finRange 4).map half ++ (List.finRange 2).map quarter

def pattern : Swizzle → List Char
  | lane n => [letter n]
  | broadcast n => List.replicate 8 (letter n)
  | half n => List.replicate 4 (letter n) ++ List.replicate 4 (letter (n.val + 4))
  | quarter n =>
    [n.val, n.val + 2, n.val + 4, n.val + 6].flatMap fun l => List.replicate 2 (letter l)

def text (s : Swizzle) : String := String.ofList ('.' :: s.pattern)

def ofPattern? (cs : List Char) : Option Swizzle := all.find? (·.pattern == cs)

def isSingleLane : Swizzle → Bool
  | lane _ => true
  | _ => false

def lane? : Swizzle → Option (Fin 8)
  | lane n | broadcast n => some n
  | half _ | quarter _ => none

def selector : Swizzle → Selector
  | lane n | broadcast n => .lane n
  | half n => .half n
  | quarter n => .quarter n

end Swizzle
end Microcode
