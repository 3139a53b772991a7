import Microcode.Expression.Chain
import Microcode.Machine.Instruction
import Microcode.Scope

/-!
What can be wrong with a program that reads well.  Each fault names its cause; the wording of every
message is in this module, one function per family of faults.
-/

namespace Microcode

def numeral (n : Nat) : String := toString n

def signedNumeral (v : Int64) : String := toString v.toInt

inductive PlainFault where
  | stateAssigned (name : String)
  | compoundValue (op : BinaryOp)
  | expansionTooDeep (name : String)
  | macroArity (name : String) (expected got : Nat)
  | macroArgument (name : String)
  | macroWithoutBody (name : String)
  | invalidRegister (name : String) (type : DataType)
deriving DecidableEq

def PlainFault.message : PlainFault → String
  | stateAssigned name =>
    "State variable '" ++ name ++ "' lives in memory, use store() to write it"
  | compoundValue op => "Operator '" ++ op.text ++ "=' needs an arithmetic right-hand side"
  | expansionTooDeep name => "Macro expansion too deep while expanding '" ++ name ++ "'"
  | macroArity name expected got =>
    "Macro '" ++ name ++ "' expects " ++ numeral expected ++ " arguments, got " ++ numeral got
  | macroArgument name => "Arguments of macro '" ++ name ++ "' must be variables"
  | macroWithoutBody name => "Macro '" ++ name ++ "' has no body"
  | invalidRegister name type => "Invalid register " ++ name ++ " for type " ++ type.name

inductive OutlineFault where
  | stateTwice (name : String)
  | alignNotPower (align : Nat) (name : String)
  | tooManyInitialisers (name : String)
  | initialiserNotInteger (name : String)
  | functionTwice (name : String)
  | commandTwice (index : Nat) (first second : String)
  | alignArgument
  | markerOnFunction (kind : MarkerKind)
  | commandArity (name : String) (count : Nat)
  | parameterRegister (name : String)
  | labelTwice (name : String)
deriving DecidableEq

def OutlineFault.message : OutlineFault → String
  | stateTwice name => "State variable '" ++ name ++ "' is declared twice"
  | alignNotPower align name =>
    "alignas(" ++ numeral align ++ ") of '" ++ name ++ "' is not a power of two"
  | tooManyInitialisers name => "Too many initialisers for state variable '" ++ name ++ "'"
  | initialiserNotInteger name => "Initialisers of '" ++ name ++ "' must be integers"
  | functionTwice name => "Function '" ++ name ++ "' is defined twice"
  | commandTwice index first second =>
    "Command index " ++ numeral index ++ " is used by both '" ++ first ++ "' and '" ++ second ++ "'"
  | alignArgument => "@Align needs a power-of-two integer argument"
  | markerOnFunction kind => "Annotation @" ++ kind.name ++ " is not allowed on functions"
  | commandArity name count =>
    "Command '" ++ name ++ "' has " ++ numeral count ++ " arguments, at most 4 are supported"
  | parameterRegister name => "Argument '" ++ name ++ "' needs an explicit register"
  | labelTwice name => "Label '" ++ name ++ "' is defined twice"

inductive RegisterFault where
  | unknown (name : String)
  | indexRange (number : Nat)
  | wrongClass (register : Register) (type : DataType)
  | noSecondHalf (register : Register)
  | reserved (register : Register)
  | aliasType (target : String) (targetType type : DataType)
deriving DecidableEq

def RegisterFault.message : RegisterFault → String
  | unknown name => "Unknown register " ++ name
  | indexRange number => "Register index $" ++ numeral number ++ " is out of range"
  | wrongClass register type =>
    "Register " ++ register.text ++ " cannot hold a value of type " ++ type.name
  | noSecondHalf register => "Register " ++ register.text ++ " cannot be the base of a vec32"
  | reserved register => "Register " ++ register.text ++ " is reserved for internal use"
  | aliasType target targetType type =>
    "Cannot alias '" ++ target ++ "' of type " ++ targetType.name ++ " as " ++ type.name

inductive StatementFault where
  | barrierName
  | markerHere (kind : MarkerKind)
  | targetUnknown (name : String)
  | breakOutsideLoop
  | continueOutsideLoop
  | constAssigned (name : String)
  | swizzleOnScalar (name : String) (type : DataType)
  | swizzleOnNumber
deriving DecidableEq

def StatementFault.message : StatementFault → String
  | barrierName => "@Barrier needs a name, e.g. @Barrier(\"dma\")"
  | markerHere kind => "Annotation @" ++ kind.name ++ " is not allowed here"
  | targetUnknown name => "Label or function '" ++ name ++ "' not known!"
  | breakOutsideLoop => "'break' used outside of a loop"
  | continueOutsideLoop => "'continue' used outside of a loop"
  | constAssigned name => "Cannot assign to constant '" ++ name ++ "'"
  | swizzleOnScalar name type =>
    "Swizzle is only allowed on vector variables, '" ++ name ++ "' is " ++ type.name
  | swizzleOnNumber => "Swizzle is not allowed on numbers"

inductive CallFault where
  | valueUnused (name : String)
  | builtinWithoutValue (name : String)
  | functionWithoutValue (name : String)
  | unknown (name : String)
  | commandCalled (name : String)
  | arity (name : String) (expected got : Nat)
  | noRegister (parameter name : String)
  | stringArgument (name : String)
  | argumentType (expected got : DataType)
  | floatArgument
  | vectorArgument
deriving DecidableEq

def CallFault.message : CallFault → String
  | valueUnused name => "Builtin '" ++ name ++ "' returns a value and must be assigned"
  | builtinWithoutValue name => "Builtin '" ++ name ++ "' does not return a value"
  | functionWithoutValue name => "Function '" ++ name ++ "' does not return a value"
  | unknown name => "Function '" ++ name ++ "' not known!"
  | commandCalled name => "Command '" ++ name ++ "' cannot be called, use goto instead"
  | arity name expected got =>
    "Function '" ++ name ++ "' expects " ++ numeral expected ++ " arguments, got " ++ numeral got
  | noRegister parameter name => "Argument '" ++ parameter ++ "' of '" ++ name ++ "' has no register"
  | stringArgument name => "Function '" ++ name ++ "' does not take string arguments"
  | argumentType expected got =>
    "Argument type mismatch: expected " ++ expected.name ++ ", got " ++ got.name
  | floatArgument => "Float arguments need a vector type"
  | vectorArgument => "Vector arguments must be variables"

inductive ConditionFault where
  | vectorOperand
  | stateWithConstant
  | stateOperand (name : String)
  | floatConstant
deriving DecidableEq

def ConditionFault.message : ConditionFault → String
  | vectorOperand => "Conditions need scalar operands, compare vectors with an assignment instead"
  | stateWithConstant => "State variables cannot be compared directly, load() them first"
  | stateOperand name =>
    "State variable '" ++ name ++ "' cannot be compared directly, load() it first"
  | floatConstant => "Float constants cannot be compared with scalar variables"

inductive ScalarFault where
  | floatConstant (c : Constant)
  | vectorIntoScalar
  | typeMismatch (target : String) (op : BinaryOp) (operand result : DataType)
  | unexpectedExpression
  | twoTemporaries
  | powersOnly (op : BinaryOp)
  | multiplyAdd
  | multiplication (value : Int64)
  | divisionByZero
  | division (value : Int64)
  | modulo (value : Int64)
  | shiftRange (amount : Int64)
deriving DecidableEq

def ScalarFault.message : ScalarFault → String
  | floatConstant c => "Float constant " ++ c.text ++ " needs a vector type"
  | vectorIntoScalar => "Moving a vector into a scalar needs a single-lane swizzle"
  | typeMismatch target op operand result =>
    "Type mismatch in '" ++ target ++ "': operator '" ++ op.text ++ "' on " ++ operand.name
      ++ " with " ++ result.name ++ " result"
  | unexpectedExpression => "Unexpected expression kind for a scalar assignment"
  | twoTemporaries => "Expression needs two temporaries, split it into two statements"
  | powersOnly op => "Operator '" ++ op.text ++ "' on scalars only supports constant powers of two"
  | multiplyAdd => "Operator '+*' is only supported for vector types"
  | multiplication v =>
    "Multiplication by " ++ signedNumeral v ++ " is not supported, only powers of two"
  | divisionByZero => "Division by zero"
  | division v => "Division by " ++ signedNumeral v ++ " is not supported, only powers of two"
  | modulo v => "Modulo by " ++ signedNumeral v ++ " is not supported, only powers of two"
  | shiftRange v => "Shift amount " ++ signedNumeral v ++ " is out of range (0-31)"

inductive VectorFault where
  | beyond16Bits (value : Int64)
  | floatRange16 (value : Float)
  | beyondVec32 (c : Constant)
  | fractionalConstant
  | scalarOperand (operand : Operand)
  | stateOperand (name : String)
  | leftSwizzled
  | targetSwizzled
  | moveMismatch (target : String) (source result : DataType)
  | typeMismatch (target : String) (op : BinaryOp) (left right result : DataType)
  | logicalNot
  | constantLanes
  | scalarIntoVector
  | laneMove
  | unsupported (op : BinaryOp)
  | selectSwizzled
  | rightSwizzled (op : CompareOp)
  | unexpectedExpression
deriving DecidableEq

def VectorFault.message : VectorFault → String
  | beyond16Bits v => "Constant " ++ signedNumeral v ++ " does not fit into 16 bits"
  | floatRange16 x =>
    "Float constant " ++ (Constant.float x).text ++ " is out of range for vec16 (-1.0 to 1.0)"
  | beyondVec32 c => "Constant " ++ c.text ++ " does not fit into vec32"
  | fractionalConstant =>
    "Operations with a fractional vec32 constant need a variable operand"
  | scalarOperand o =>
    "Scalar variable '" ++ o.text ++ "' cannot be used in a vector operation"
  | stateOperand name => "State variable '" ++ name ++ "' must be read with load()"
  | leftSwizzled => "Left operand of a vector operation cannot be swizzled"
  | targetSwizzled =>
    "Swizzle on the destination is only supported for lane moves and constants"
  | moveMismatch target source result =>
    "Type mismatch in '" ++ target ++ "': " ++ source.name ++ " into " ++ result.name
  | typeMismatch target op left right result =>
    "Type mismatch in '" ++ target ++ "': operator '" ++ op.text ++ "' on " ++ left.name ++ " and "
      ++ right.name ++ " with " ++ result.name ++ " result"
  | logicalNot => "Operator '!' is not supported for vector types"
  | constantLanes => "Constants can only be written to a single lane or the whole vector"
  | scalarIntoVector =>
    "Assigning a scalar to a vector needs a single-lane swizzle on the target"
  | laneMove => "Vector lane moves need a single-lane swizzle on both operands"
  | unsupported op => "Operator '" ++ op.text ++ "' is not supported for vector types"
  | selectSwizzled => "First operand of a vector select cannot be swizzled"
  | rightSwizzled op =>
    "Comparison '" ++ op.text ++ "' needs an unswizzled right operand, rewrite it with '" ++ op.swap.text ++ "'"
  | unexpectedExpression => "Unexpected expression kind for a vector assignment"

/-- A builtin that is used in a way it does not support.  Most faults name the builtin; arguments are
counted from one. -/
inductive BuiltinFault where
  | arity (name : String) (least most got : Nat)
  | stringArgument (number : Nat) (name : String)
  | missingArgument (name : String) (number : Nat)
  | notConstant (number : Nat) (name : String)
  | notVariable (number : Nat) (name : String)
  | notVector (number : Nat) (name : String)
  | address (name : String)
  | offsetMultiple (name : String) (offset align : Int64)
  | offsetRange (name : String) (offset : Int64)
  | resultSwizzled (name : String)
  | vectorTarget (name target : String) (type : DataType)
  | targetSwizzled (name : String)
  | vec16Target (name : String)
  | vec32Target (name target : String) (type : DataType)
  | selectSecond
  | loadOneLane
  | loadLanes
  | transposeRegister (name : String)
  | transposeRow (name : String)
  | reciprocalLanes (name : String)
  | vec16Source (name : String)
  | swapOperands
  | assertCode (code : Int64)
  | storeSource
  | storeLanes
deriving DecidableEq

def BuiltinFault.message : BuiltinFault → String
  | arity name least most got =>
    let expected := if least = most then numeral least else numeral least ++ "-" ++ numeral most
    name ++ "() expects " ++ expected ++ " arguments, got " ++ numeral got
  | stringArgument number name =>
    "Argument " ++ numeral number ++ " of " ++ name ++ "() cannot be a string"
  | missingArgument name number => name ++ "() is missing argument " ++ numeral number
  | notConstant number name =>
    "Argument " ++ numeral number ++ " of " ++ name ++ "() must be an integer constant"
  | notVariable number name =>
    "Argument " ++ numeral number ++ " of " ++ name ++ "() must be a variable"
  | notVector number name =>
    "Argument " ++ numeral number ++ " of " ++ name ++ "() must be a vector"
  | address name => name ++ "() needs a scalar register or state variable as address"
  | offsetMultiple name offset align =>
    name ++ "() offset " ++ signedNumeral offset ++ " must be a multiple of " ++ signedNumeral align
  | offsetRange name offset => name ++ "() offset " ++ signedNumeral offset ++ " is out of range"
  | resultSwizzled name => name ++ "() does not support a swizzle on its result"
  | vectorTarget name target type =>
    name ++ "() needs a vector destination, '" ++ target ++ "' is " ++ type.name
  | targetSwizzled name => name ++ "() cannot write to a swizzled destination"
  | vec16Target name => name ++ "() needs a vec16 destination"
  | vec32Target name target type =>
    name ++ "() needs a vec32 destination, '" ++ target ++ "' is " ++ type.name
  | selectSecond => "Argument 2 of select() must be a vector or a constant"
  | loadOneLane => "Single-lane load() is only supported for vec16"
  | loadLanes => "load() can only write a single lane or the whole vector"
  | transposeRegister name =>
    name ++ "() needs an unswizzled vec16 in $v00, $v08, $v16 or $v24"
  | transposeRow name => name ++ "() row must be a constant between 0 and 7"
  | reciprocalLanes name =>
    name ++ "() works on a single lane (.x to .W) or on the whole vector"
  | vec16Source name => name ++ "() needs an unswizzled vec16 source"
  | swapOperands => "swap() needs two unswizzled variables of the same type"
  | assertCode code =>
    "assert() code " ++ signedNumeral code ++ " must be between 0 and 0xFFFF"
  | storeSource => "store() needs a variable as source, not a constant or state variable"
  | storeLanes => "store() can only write a whole vector or a single vec16 lane"

inductive Fault where
  | scope (cause : ScopeError)
  | expression (cause : ExpressionError)
  | plain (cause : PlainFault)
  | outline (cause : OutlineFault)
  | register (cause : RegisterFault)
  | statement (cause : StatementFault)
  | call (cause : CallFault)
  | condition (cause : ConditionFault)
  | scalar (cause : ScalarFault)
  | vector (cause : VectorFault)
  | builtin (cause : BuiltinFault)
  | note (text : String)
deriving DecidableEq

def Fault.message : Fault → String
  | scope c => c.message
  | expression c => c.message
  | plain c => c.message
  | outline c => c.message
  | register c => c.message
  | statement c => c.message
  | call c => c.message
  | condition c => c.message
  | scalar c => c.message
  | vector c => c.message
  | builtin c => c.message
  | note text => text

end Microcode
