import Microcode.Expression.Level

/-!
Folding constants in a level, groups first.  A sum collects its constants into one term at its end, a
run of one associative operator does likewise, and any other run folds the constants it starts with.
-/

namespace Microcode.Level

/-- A sum under way: the constants added up, and the other terms with their signs, last first. -/
def sumConstants : List (BinaryOp × Term) → Except ArithmeticFault (Option Constant × List (BinaryOp × Term)) := go none
where
  go (sum : Option Constant) :
      List (BinaryOp × Term) → Except ArithmeticFault (Option Constant × List (BinaryOp × Term))
    | [] => .ok (sum, [])
    | (op, t) :: more =>
      match t.constant? with
      | some c => do
        let sum ← Constant.combine op (sum.getD (.int 0)) c
        go (some sum) more
      | none => do
        let (sum, terms) ← go sum more
        .ok (sum, (op, t) :: terms)

def signedTerm : Constant → BinaryOp × Term
  | .int v => if v < 0 then (.sub, .ofConstant (.int (wrap32 (-v)))) else (.add, .ofConstant (.int v))
  | .float x =>
    if x < 0 then (.sub, .ofConstant (.float (-x))) else (.add, .ofConstant (.float x))

/-- A sum with its constants collected.  Nothing can negate a first term, so a sum of subtracted terms
only starts with its constant, zero if there is none. -/
def foldSum (l : Level) : Except ArithmeticFault Level := do
  let (sum, terms) ← sumConstants ((.add, l.first) :: l.rest)
  let sum := sum.filter (! ·.isZero)
  let start := Term.ofConstant (sum.getD (.int 0))
  match terms with
  | [] => .ok ⟨start, []⟩
  | (.sub, t) :: more => .ok ⟨start, (.sub, t) :: more⟩
  | (_, t) :: more => .ok ⟨t, more ++ (sum.map signedTerm).toList⟩

def productConstants (op : BinaryOp) :
    List Term → Option Constant → Except ArithmeticFault (Option Constant × List Term)
  | [], product => .ok (product, [])
  | t :: more, product =>
    match t.constant? with
    | some c => do
      let product ← match product with
        | some p => Constant.combine op p c
        | none => .ok c
      productConstants op more (some product)
    | none => do
      let (product, terms) ← productConstants op more product
      .ok (product, t :: terms)

def isIdentity : BinaryOp → Constant → Bool
  | .mul, .int v => v == 1
  | .or, .int v | .xor, .int v => v == 0
  | .and, .int v => v == -1
  | _, _ => false

def foldProduct (op : BinaryOp) (l : Level) : Except ArithmeticFault Level := do
  let (product, terms) ← productConstants op (l.first :: l.rest.map Prod.snd) none
  let kept := product.filter fun c => !isIdentity op c || terms.isEmpty
  match terms ++ (kept.map Term.ofConstant).toList with
  | [] => .ok l
  | first :: rest => .ok ⟨first, rest.map fun t => (op, t)⟩

def foldStart (first : Term) : List (BinaryOp × Term) → Except ArithmeticFault Level
  | [] => .ok ⟨first, []⟩
  | (op, t) :: more =>
    match first.constant?, t.constant? with
    | some a, some b => do
      let c ← Constant.combine op a b
      foldStart (.ofConstant c) more
    | _, _ => .ok ⟨first, (op, t) :: more⟩

def foldOwn (l : Level) : Except ArithmeticFault Level := match l.ops with
  | [] => .ok l
  | op :: _ =>
    if l.ops.all BinaryOp.isAdditive then foldSum l
    else if op.isAssociative && l.ops.all (· == op) then foldProduct op l
    else foldStart l.first l.rest

mutual

def foldTerm : Term → Except ArithmeticFault Term
  | .leaf o => .ok (.leaf o)
  | .group first rest => do
    let first ← foldTerm first
    let rest ← foldTerms rest
    let l ← foldOwn ⟨first, rest⟩
    .ok l.toTerm

def foldTerms : List (BinaryOp × Term) → Except ArithmeticFault (List (BinaryOp × Term))
  | [] => .ok []
  | (op, t) :: more => do
    let t ← foldTerm t
    let more ← foldTerms more
    .ok ((op, t) :: more)

end

def fold (l : Level) : Except ArithmeticFault Level := do
  let first ← foldTerm l.first
  let rest ← foldTerms l.rest
  foldOwn ⟨first, rest⟩

end Microcode.Level
