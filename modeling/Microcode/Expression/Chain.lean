import Microcode.Expression.Fold
import Microcode.Expression.Splice

/-!
An expression as a chain of assignments to its target, each of two operands at most.  The target holds
every intermediate value, so there is room for one group only, and that has to come first.
-/

namespace Microcode

inductive ExpressionError where
  | nestedBrackets
  | malformed
  | arithmetic (fault : ArithmeticFault)
  /-- The target's old value is needed after a step has overwritten it. -/
  | targetClobbered (name : String)
deriving DecidableEq, Repr

def ExpressionError.message : ExpressionError → String
  | nestedBrackets => "nested brackets are not supported"
  | malformed => "malformed expression"
  | arithmetic .divisionByZero => "division by zero in constant expression"
  | arithmetic (.floatOperator op) =>
    "operator '" ++ op.text ++ "' cannot be applied to float constants"
  | targetClobbered name =>
    "variable '" ++ name ++ "' is overwritten before it is read in this expression"

namespace Level

/-- Whether a term after this operator may change places with the first: the operator is commutative,
and the level is a run of it, or a sum that the term is added to. -/
def canRotate (l : Level) (op : BinaryOp) : Bool :=
  op.isCommutative && (l.ops.all (· == op) || (op == .add && l.ops.all BinaryOp.isAdditive))

def rotate (l : Level) (i : Nat) : Level := match l.rest[i]? with
  | none => l
  | some (op, t) => ⟨t, (op, l.first) :: l.rest.eraseIdx i⟩

def groupFirst (l : Level) : Except ExpressionError Level := match l.rest.filter (! ·.2.isLeaf) with
  | [] => .ok l
  | [(op, _)] =>
    if l.first.isLeaf && l.canRotate op then .ok (l.rotate (l.rest.findIdx (! ·.2.isLeaf)))
    else .error .nestedBrackets
  | _ => .error .nestedBrackets

/-- The level with a constant in front exchanged for the variable after it, where that may be. -/
def variableFirst (l : Level) : Level := match l.first.constant?, l.rest with
  | some _, (op, .leaf o) :: _ =>
    if o.constant?.isNone && l.canRotate op then l.rotate 0 else l
  | _, _ => l

def leaves? : List (BinaryOp × Term) → Option (List (BinaryOp × Operand))
  | [] => some []
  | (op, t) :: more => do
    let o ← t.operand?
    let more ← leaves? more
    pure ((op, o) :: more)

def steps? (l : Level) : Option (Operand × List (BinaryOp × Operand)) := do
  let tail ← leaves? l.rest
  match l.first with
  | .leaf o => pure (o, tail)
  | .group first rest =>
    let head ← first.operand?
    let lead ← leaves? rest
    pure (head, lead ++ tail)

end Level

namespace Expr

def ofOperand (o : Operand) : Expr := match o.constant? with
  | some c => .constant c
  | none => .copy o

def ofStep (op : BinaryOp) (left right : Operand) : Expr := match right.constant? with
  | some c => .withConstant op left c
  | none => .binary op left right

end Expr

/-- The steps that go on from the value in the target.  The target itself may no longer be read. -/
def laterSteps (target : String) : List (BinaryOp × Operand) → Except ExpressionError (List Expr)
  | [] => .ok []
  | (op, right) :: more =>
    if right.name? = some target then .error (.targetClobbered target)
    else do
      let more ← laterSteps target more
      .ok (Expr.ofStep op (.ofName target) right :: more)

/-- The right-hand sides of a chain.  A constant in front is loaded first; an operand in front takes
part in the first step. -/
def chainSteps (target : String) (head : Operand) : List (BinaryOp × Operand) → Except ExpressionError (List Expr)
  | [] => .ok [.ofOperand head]
  | (op, right) :: more =>
    if head.constant?.isSome then do
      let steps ← laterSteps target ((op, right) :: more)
      .ok (.ofOperand head :: steps)
    else do
      let steps ← laterSteps target more
      .ok (Expr.ofStep op head right :: steps)

def Level.chain (target : String) (swizzle : Option Swizzle) (l : Level) :
    Except ExpressionError (List Assignment) := do
  let l ← l.groupFirst
  match l.variableFirst.steps? with
  | none => .error .nestedBrackets
  | some (head, steps) =>
    let values ← chainSteps target head steps
    .ok (values.map fun v => ⟨target, swizzle, none, v, false⟩)

def chainOfParts (target : String) (swizzle : Option Swizzle) (parts : List Part) :
    Except ExpressionError (List Assignment) := do
  match Level.ofParts? parts with
  | none => .error .malformed
  | some l =>
    let l ← l.splice.fold.mapError .arithmetic
    l.chain target swizzle

end Microcode
