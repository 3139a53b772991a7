import Microcode.Program

/-!
Expressions as levels.  A level is a run of terms joined by operators of one tier of precedence and
evaluated from left to right; a group inside it is a level of its own.  An expression as written is
flat; operators that bind tighter are gathered into groups, tier by tier.
-/

namespace Microcode

/-- A term of a level: an operand, or a group with its first term and the operators and terms that
follow. -/
inductive Term where
  | leaf (operand : Operand)
  | group (first : Term) (rest : List (BinaryOp × Term))

structure Level where
  first : Term
  rest : List (BinaryOp × Term)

namespace Term

def ofConstant (c : Constant) : Term := leaf (.ofConstant c)

def constant? : Term → Option Constant
  | leaf o => o.constant?
  | group .. => none

def isLeaf : Term → Bool
  | leaf _ => true
  | group .. => false

def operand? : Term → Option Operand
  | leaf o => some o
  | group .. => none

end Term

namespace Level

def ops (l : Level) : List BinaryOp := l.rest.map Prod.fst

def toTerm (l : Level) : Term := match l.rest with
  | [] => l.first
  | rest => .group l.first rest

def tiers : List Nat := [0, 1, 2, 3, 4, 5]

/-- A run split at the operators of one tier: what belongs to its first piece, and then each operator
of the tier with the piece that follows it. -/
def splitAtTier (tier : Nat) : List (BinaryOp × Term) →
      List (BinaryOp × Term) × List (BinaryOp × Term × List (BinaryOp × Term))
  | [] => ([], [])
  | (op, t) :: more =>
    let (run, pieces) := splitAtTier tier more
    if op.precedence = tier then ([], (op, t, run) :: pieces) else ((op, t) :: run, pieces)

/-- A flat run gathered into levels: split at its weakest operators, with the pieces gathered by the
tighter tiers. -/
def gather : List Nat → Term → List (BinaryOp × Term) → Level
  | [], first, rest => ⟨first, rest⟩
  | tier :: tighter, first, rest =>
    if rest.all (·.1.precedence = tier) then ⟨first, rest⟩
    else if rest.all (·.1.precedence ≠ tier) then gather tighter first rest
    else
      let (run, pieces) := splitAtTier tier rest
      ⟨(gather tighter first run).toTerm, pieces.map fun (op, t, run) => (op, (gather tighter t run).toTerm)⟩

/-- A flat run with an operator left over at its end.  Operators of one tier take a term each, so alone
they are malformed; among several tiers the one left over joins nothing, and still counts as one of the
weakest that the run is split at. -/
def gatherOpen? : List Nat → Term → List (BinaryOp × Term) → BinaryOp → Option Level
  | [], _, _, _ => none
  | tier :: tighter, first, rest, last =>
    let precedences := last.precedence :: rest.map (·.1.precedence)
    if precedences.all (· = tier) then none
    else if precedences.all (· ≠ tier) then gatherOpen? tighter first rest last
    else
      let (run, pieces) := splitAtTier tier rest
      some ⟨(gather tighter first run).toTerm, pieces.map fun (op, t, run) => (op, (gather tighter t run).toTerm)⟩

structure Run where
  first : Term
  rest : List (BinaryOp × Term) := []
  extra : Option BinaryOp := none

def ofRun? (r : Run) : Option Level := match r.extra with
  | none => some (gather tiers r.first r.rest)
  | some op => gatherOpen? tiers r.first r.rest op

mutual

def termOf? : Part → Option Term
  | .operand o => some (.leaf o)
  | .group parts => do
    let r ← runOf? parts
    let l ← ofRun? r
    pure l.toTerm
  | .op _ => none

def runOf? : List Part → Option Run
  | [] => none
  | [p] => (termOf? p).map fun t => { first := t }
  | [p, .op op] => (termOf? p).map fun t => { first := t, extra := some op }
  | p :: .op op :: rest => do
    let t ← termOf? p
    let r ← runOf? rest
    pure { r with first := t, rest := (op, r.first) :: r.rest }
  | _ :: _ :: _ => none

end

/-- The level that an expression spells; none if operands and operators do not alternate,
or an operator is left over where it may not be. -/
def ofParts? (parts : List Part) : Option Level := (runOf? parts).bind ofRun?

end Level
end Microcode
