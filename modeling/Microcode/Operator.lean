/-!
The operators of the language: twelve binary ones, three unary ones and six comparisons, with the
spelling of each.
-/

namespace Microcode

inductive BinaryOp where
  | add
  | sub
  | mul
  | div
  | mod
  | and
  | or
  | xor
  | nor
  | shl
  | shr
  | mulAdd
deriving DecidableEq, Repr

namespace BinaryOp

def all : List BinaryOp := [add, sub, mul, div, mod, and, or, xor, nor, shl, shr, mulAdd]

def text : BinaryOp → String
  | add => "+"
  | sub => "-"
  | mul => "*"
  | div => "/"
  | mod => "%"
  | and => "&"
  | or => "|"
  | xor => "^"
  | nor => "~|"
  | shl => "<<"
  | shr => ">>"
  | mulAdd => "+*"

def ofText? (text : String) : Option BinaryOp := all.find? (·.text == text)

/-- How tightly the operator binds; a higher number binds tighter. -/
def precedence : BinaryOp → Nat
  | mul | div | mod | mulAdd => 5
  | add | sub => 4
  | shl | shr => 3
  | and => 2
  | xor => 1
  | or | nor => 0

def isCommutative : BinaryOp → Bool
  | add | mul | and | or | xor | nor => true
  | sub | div | mod | shl | shr | mulAdd => false

def isAdditive : BinaryOp → Bool
  | add | sub => true
  | _ => false

def isAssociative : BinaryOp → Bool
  | mul | and | or | xor => true
  | _ => false

def flipSign (op : BinaryOp) : BinaryOp := if op = add then sub else add

end BinaryOp

inductive UnaryOp where
  | neg
  | not
  | logicalNot
deriving DecidableEq, Repr

namespace UnaryOp

def all : List UnaryOp := [neg, not, logicalNot]

def text : UnaryOp → String
  | neg => "-"
  | not => "~"
  | logicalNot => "!"

end UnaryOp

inductive CompareOp where
  | eq
  | ne
  | lt
  | le
  | gt
  | ge
deriving DecidableEq, Repr

namespace CompareOp

def all : List CompareOp := [eq, ne, lt, le, gt, ge]

def text : CompareOp → String
  | eq => "=="
  | ne => "!="
  | lt => "<"
  | le => "<="
  | gt => ">"
  | ge => ">="

def negate : CompareOp → CompareOp
  | eq => ne
  | ne => eq
  | lt => ge
  | ge => lt
  | gt => le
  | le => gt

def swap : CompareOp → CompareOp
  | lt => gt
  | gt => lt
  | le => ge
  | ge => le
  | op => op

end CompareOp
end Microcode
