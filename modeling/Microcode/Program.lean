import Microcode.Constant
import Microcode.DataType
import Microcode.Lane

/-!
Programs of the language.

A program holds the variables that live in memory, and routines: functions, commands that a dispatch
table reaches by index, and macros that are copied into their callers.  The statements of a routine
are control flow around blocks, and actions, which hold no further statement.
-/

namespace Microcode

inductive Atom where
  | variable (name : String)
  | address (name : String)
  | constant (value : Constant)
deriving DecidableEq

structure Operand where
  atom : Atom
  swizzle : Option Swizzle
deriving DecidableEq

namespace Operand

def ofName (name : String) : Operand := ⟨.variable name, none⟩

def ofConstant (c : Constant) : Operand := ⟨.constant c, none⟩

def constant? : Operand → Option Constant
  | ⟨.constant c, none⟩ => some c
  | _ => none

def name? (o : Operand) : Option String := match o.atom with
  | .variable name => some name
  | _ => none

def text (o : Operand) : String :=
  let base := match o.atom with
    | .variable name => name
    | .address name => s!"%lo({name})"
    | .constant c => c.text
  base ++ (o.swizzle.map Swizzle.text).getD ""

end Operand

structure Comparison where
  left : Operand
  op : CompareOp
  right : Operand
deriving DecidableEq

def Comparison.negate (c : Comparison) : Comparison := { c with op := c.op.negate }

inductive CallArg where
  | operand (value : Operand)
  | string (text : String)
deriving DecidableEq

/-- A piece of an expression as it is written: operands and operators in turn, brackets as groups. -/
inductive Part where
  | operand (value : Operand)
  | op (op : BinaryOp)
  | group (parts : List Part)

inductive Expr where
  | constant (value : Constant)
  | copy (operand : Operand)
  | unary (op : UnaryOp) (operand : Operand)
  | binary (op : BinaryOp) (left right : Operand)
  | withConstant (op : BinaryOp) (left : Operand) (right : Constant)
  | call (name : String) (args : List CallArg) (swizzle : Option Swizzle)
  | test (comparison : Comparison)
  | choose (comparison : Comparison) (yes no : Operand)
  | flat (parts : List Part)

inductive Binding where
  | named (name : String)
  | index (number : Nat)
deriving DecidableEq

inductive MarkerKind where
  | barrier
  | align
  | noReturn
  | unlikely
deriving DecidableEq

namespace MarkerKind

def all : List MarkerKind := [barrier, align, noReturn, unlikely]

def name : MarkerKind → String
  | barrier => "Barrier"
  | align => "Align"
  | noReturn => "NoReturn"
  | unlikely => "Unlikely"

def ofName? (name : String) : Option MarkerKind := all.find? (·.name == name)

end MarkerKind

inductive MarkerValue where
  | int (value : Int64)
  | string (text : String)
deriving DecidableEq

structure Marker where
  kind : MarkerKind
  value : Option MarkerValue
deriving DecidableEq

structure Declaration where
  name : String
  type : DataType
  register : Option Binding
  isConst : Bool
deriving DecidableEq

structure Assignment where
  target : String
  swizzle : Option Swizzle
  op : Option BinaryOp
  value : Expr
  /-- Whether it gives a declared variable its first value. -/
  isInit : Bool := false

inductive Action where
  | declare (declaration : Declaration)
  | declareInit (declaration : Declaration) (value : Expr)
  | declareMany (names : List String) (type : DataType) (register : Option Binding) (isConst : Bool)
  /-- A second name for the register of a variable, possibly of another type. -/
  | declareAlias (name : String) (target : String) (type : Option DataType)
  | undefine (name : String)
  | assign (assignment : Assignment)
  | call (name : String) (args : List CallArg)
  | goto (target : String)
  | label (name : String)
  | breakLoop
  | continueLoop
  | exit
  | asm (text : String)

structure Tag where
  line : Nat
  markers : List Marker := []
deriving DecidableEq

inductive Statement where
  | block (tag : Tag) (body : List Statement)
  | branch (tag : Tag) (condition : Comparison) (yes : List Statement)
      (no : Option (List Statement))
  | whileLoop (tag : Tag) (condition : Comparison) (body : List Statement)
  | loop (tag : Tag) (body : List Statement) (condition : Option Comparison)
  | action (tag : Tag) (action : Action)

namespace Statement

def tag : Statement → Tag
  | block t _ | branch t _ _ _ | whileLoop t _ _ | loop t _ _ | action t _ => t

def line (s : Statement) : Nat := s.tag.line

def header : Statement → Statement
  | block t _ => block t []
  | branch t c _ no => branch t c [] (no.map fun _ => [])
  | whileLoop t c _ => whileLoop t c []
  | loop t _ c => loop t [] c
  | action t a => action t a

end Statement

structure Parameter where
  name : String
  type : DataType
  register : Option Binding
deriving DecidableEq

inductive RoutineKind where
  | function
  | command (index : Nat)
  | template
deriving DecidableEq

/-- A routine; without body it is only announced. -/
structure Routine where
  kind : RoutineKind
  name : String
  params : List Parameter
  body : Option (List Statement)
  markers : List Marker
  line : Nat

structure StateVariable where
  name : String
  type : DataType
  isExtern : Bool
  align : Option Nat
  dims : List Nat
  init : List Constant
  line : Nat
deriving DecidableEq

namespace StateVariable

def elementCount (v : StateVariable) : Nat := max (v.dims.foldl (· * ·) 1) 1

def byteSize (v : StateVariable) : Nat := v.type.byteSize * v.elementCount

end StateVariable

structure Program where
  includes : List String := []
  state : List StateVariable := []
  routines : List Routine := []
  trailingIncludes : List String := []

end Microcode
