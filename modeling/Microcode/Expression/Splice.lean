import Microcode.Expression.Level

/-!
Brackets that change nothing.  A group in front of a level of its own tier is just its beginning, a
sum inside a sum only changes signs, and a run of one associative operator may be grouped at will.
-/

namespace Microcode.Level

/-- Whether a group in front of a run may be merged with it: all operators are of one tier. -/
def leads (group : Level) (ops : List BinaryOp) : Bool := match group.ops with
  | [] => false
  | op :: _ => !ops.isEmpty && (group.ops ++ ops).all (·.precedence == op.precedence)

def absorb (op : BinaryOp) (group : Level) : List (BinaryOp × Term) :=
  if op.isAdditive && group.ops.all BinaryOp.isAdditive then
    (op, group.first) :: group.rest.map fun (inner, t) => (if op = .sub then inner.flipSign else inner, t)
  else if op.isAssociative && group.ops.all (· == op) then (op, group.first) :: group.rest
  else [(op, .group group.first group.rest)]

def assemble (start : Term × List (BinaryOp × Term)) (rest : List (BinaryOp × Term)) : Level :=
  ⟨start.1, start.2 ++ rest⟩

mutual

/-- The first term of a level without the brackets it can do without, and what joins the level in
front of the rest. -/
def spliceFirst (ops : List BinaryOp) : Term → Term × List (BinaryOp × Term)
  | .leaf o => (.leaf o, [])
  | .group first rest =>
    let group := assemble (spliceFirst (rest.map Prod.fst) first) (spliceRest rest)
    if leads group ops then (group.first, group.rest)
    else (.group group.first group.rest, [])

def spliceRest : List (BinaryOp × Term) → List (BinaryOp × Term)
  | [] => []
  | (op, .leaf o) :: more => (op, .leaf o) :: spliceRest more
  | (op, .group first rest) :: more =>
    absorb op (assemble (spliceFirst (rest.map Prod.fst) first) (spliceRest rest)) ++ spliceRest more

end

def splice (l : Level) : Level := assemble (spliceFirst l.ops l.first) (spliceRest l.rest)

end Microcode.Level
