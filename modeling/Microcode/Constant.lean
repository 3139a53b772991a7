import Microcode.Decimal.Layout
import Microcode.Operator

/-!
Constants of the language and their arithmetic.  Whole numbers are 64-bit words in a source text, and
every operation on them leaves a 32-bit result, as the machine's registers do; a fraction on either
side makes the operation one on binary fractions.
-/

namespace Microcode

inductive Constant where
  | int (value : Int64)
  | float (value : Float)
deriving DecidableEq

namespace Constant

def text : Constant → String
  | int v => toString v.toInt
  | float x => Decimal.Layout.plain.write x

/-- The whole number that the constant denotes, if it does; beyond 64 bits the nearest word. -/
def toInt? : Constant → Option Int64
  | int v => some v
  | float x => if x.isFinite && x.floor == x then some x.toInt64 else none

def isZero : Constant → Bool
  | int v => v == 0
  | float x => x == 0

def toFloat : Constant → Float
  | int v => v.toFloat
  | float x => x

def negate : Constant → Constant
  | int v => int (-v)
  | float x => float (-x)

end Constant

/-- The low 32 bits of a word, read with their sign. -/
def wrap32 (v : Int64) : Int64 := v.toInt32.toInt64

def lowWord (v : Int64) : UInt32 := v.toUInt64.toUInt32

def signedWord (w : UInt32) : Int64 := w.toInt32.toInt64

inductive ArithmeticFault where
  | divisionByZero
  | floatOperator (op : BinaryOp)
deriving DecidableEq, Repr

namespace Constant

/-- Two whole numbers combined, before the result is cut to 32 bits.  Shifts work on the low 32 bits
and take the amount modulo 32. -/
def combineInt (op : BinaryOp) (a b : Int64) : Except ArithmeticFault Int64 := match op with
  | .add => .ok (a + b)
  | .sub => .ok (a - b)
  | .mul | .mulAdd => .ok (a * b)
  | .div => if b = 0 then .error .divisionByZero else .ok (a / b)
  | .mod => if b = 0 then .error .divisionByZero else .ok (a % b)
  | .and => .ok (a &&& b)
  | .or => .ok (a ||| b)
  | .xor => .ok (a ^^^ b)
  | .nor => .ok (~~~(a ||| b))
  | .shl => .ok (signedWord (lowWord a <<< lowWord b))
  | .shr => .ok (signedWord (lowWord a >>> lowWord b))

def combineFloat (op : BinaryOp) (a b : Float) : Except ArithmeticFault Float := match op with
  | .add => .ok (a + b)
  | .sub => .ok (a - b)
  | .mul => .ok (a * b)
  | .div => if b == 0 then .error .divisionByZero else .ok (a / b)
  | op => .error (.floatOperator op)

def combine (op : BinaryOp) : Constant → Constant → Except ArithmeticFault Constant
  | int a, int b => (combineInt op a b).map fun v => int (wrap32 v)
  | a, b => (combineFloat op a.toFloat b.toFloat).map float

end Constant
end Microcode
