import Microcode.Fault
import Microcode.Selection.Immediate

/-!
What the operands of a statement are once their names are looked up, and how registers are chosen for
the names that declarations introduce.
-/

namespace Microcode

structure Place where
  register : Register
  type : DataType
  swizzle : Option Swizzle := none
deriving DecidableEq

namespace Place

def ofVariable (v : Variable) (swizzle : Option Swizzle) : Place := ⟨v.register, v.type, swizzle⟩

def fraction (p : Place) : Register := p.register.next?.getD p.register

def selector (p : Place) : Option Selector := p.swizzle.map Swizzle.selector

def isWide (p : Place) : Bool := p.type == .vec32

def isVector (p : Place) : Bool := p.type.isVector

def lane? (p : Place) : Option (Fin 8) := match p.swizzle with
  | some (.lane n) => some n
  | _ => none

/-- The fractional halves as the last operand of an instruction; a narrow vector has zeros. -/
def fractionOperand (p : Place) : Register × Option Selector :=
  if p.isWide then (p.fraction, p.selector) else (.zeroVector, none)

end Place

structure Target where
  name : String
  place : Place

inductive Source where
  | variable (place : Place)
  | constant (value : Constant)
  | address (name : String)

namespace Source

def place? : Source → Option Place
  | .variable p => some p
  | _ => none

def isVariable (s : Source) : Bool := s.place?.isSome

def isSigned (s : Source) (default : DataType) : Bool := ((s.place?.map Place.type).getD default).isSigned

end Source

def ScopeStack.variableNamed (scopes : ScopeStack) (name : String) : Except Fault Variable :=
  (scopes.lookup name).mapError .scope

def Operand.source (scopes : ScopeStack) (o : Operand) : Except Fault Source := match o.atom with
  | .variable name => do
    let v ← scopes.variableNamed name
    if o.swizzle.isSome && !v.type.isVector then
      throw (.statement (.swizzleOnScalar name v.type))
    pure (.variable (.ofVariable v o.swizzle))
  | .constant c =>
    if o.swizzle.isSome then throw (.statement .swizzleOnNumber) else pure (.constant c)
  | .address name => pure (.address name)

def orient (left : Source) (op : CompareOp) (right : Source) : Source × CompareOp × Source :=
  if !left.isVariable && right.isVariable then (right, op.swap, left) else (left, op, right)

def Binding.register (type : DataType) (b : Binding) : Except Fault Register := do
  let r ← match b with
    | named name =>
      match Register.ofName? name with
      | some r => pure r
      | none => throw (.register (.unknown name))
    | index number =>
      match Register.ofIndex? number type.isVector with
      | some r => pure r
      | none => throw (.register (.indexRange number))
  if r.isVector ≠ type.isVector then throw (.register (.wrongClass r type))
  if type = .vec32 ∧ r.next?.isNone then throw (.register (.noSecondHalf r))
  pure r

/-- The register that a parameter is passed in: the one it asks for, or else one of four by its
position. -/
def Parameter.binding? (p : Parameter) (position : Nat) : Option Binding := match p.register with
  | some b => some b
  | none =>
    if !p.type.isVector && position < 4 then some (.index (Register.firstArgument.index + position))
    else none

def ScopeStack.aliasOf (scopes : ScopeStack) (target : String) (type : Option DataType) :
    Except Fault Variable := do
  let v ← scopes.variableNamed target
  let type := type.getD v.type
  if type.isVector ≠ v.type.isVector ∨ type.registerCount ≠ v.type.registerCount then
    throw (.register (.aliasType target v.type type))
  pure { v with type }

end Microcode
