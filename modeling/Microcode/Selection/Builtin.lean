import Microcode.Machine.Code
import Microcode.Selection.Vector

/-!
The builtin functions: access to memory, lane selection, reciprocals, `swap` and `assert`.
-/

namespace Microcode

inductive Builtin where
  | store
  | storeUnsigned
  | storeSigned
  | storeTransposed
  | swap
  | assertion
  | load
  | loadUnsigned
  | loadSigned
  | loadTransposed
  | select
  | invert
  | invertHalf
  | invertHalfSqrt
deriving DecidableEq, Repr

namespace Builtin

/-- Every builtin; those that return no value come first. -/
def all : List Builtin := [store, storeUnsigned, storeSigned, storeTransposed, swap, assertion,
   load, loadUnsigned, loadSigned, loadTransposed, select, invert, invertHalf, invertHalfSqrt]

def name : Builtin → String
  | store => "store"
  | storeUnsigned => "store_vec_u8"
  | storeSigned => "store_vec_s8"
  | storeTransposed => "store_transposed"
  | swap => "swap"
  | assertion => "assert"
  | load => "load"
  | loadUnsigned => "load_vec_u8"
  | loadSigned => "load_vec_s8"
  | loadTransposed => "load_transposed"
  | select => "select"
  | invert => "invert"
  | invertHalf => "invert_half"
  | invertHalfSqrt => "invert_half_sqrt"

def ofName? (name : String) : Option Builtin := all.find? (·.name == name)

def returnsValue : Builtin → Bool
  | store | storeUnsigned | storeSigned | storeTransposed | swap | assertion => false
  | _ => true

def checkArity (b : Builtin) (args : List CallArg) (least most : Nat) : Except Fault Unit :=
  if args.length < least ∨ most < args.length then
    .error (.builtin (.arity b.name least most args.length))
  else .ok ()

def operandAt (b : Builtin) (args : List CallArg) (i : Nat) : Except Fault Operand := match args[i]? with
  | some (.operand o) => .ok o
  | some (.string _) => .error (.builtin (.stringArgument (i + 1) b.name))
  | none => .error (.builtin (.missingArgument b.name (i + 1)))

def wholeAt (b : Builtin) (args : List CallArg) (i : Nat) (default : Int64) : Except Fault Int64 :=
  if args.length ≤ i then .ok default
  else do
    let o ← b.operandAt args i
    match o.constant?.bind Constant.toInt? with
    | some v => pure v
    | none => throw (.builtin (.notConstant (i + 1) b.name))

def variableAt (b : Builtin) (scopes : ScopeStack) (args : List CallArg) (i : Nat) :
    Except Fault Place := do
  let o ← b.operandAt args i
  match ← o.source scopes with
  | .variable p => pure p
  | _ => throw (.builtin (.notVariable (i + 1) b.name))

def vectorAt (b : Builtin) (scopes : ScopeStack) (args : List CallArg) (i : Nat) :
    Except Fault Place := do
  let p ← b.variableAt scopes args i
  if !p.isVector then throw (.builtin (.notVector (i + 1) b.name))
  pure p

/-! ### Memory -/

inductive Base where
  | register (r : Register)
  | label (name : String)

namespace Base

def cell (base : Base) (offset : Int64) : Arg := match base with
  | register r => .mem offset none r
  | label name => .mem offset (some name) .zero

def vectorBase : Base → Register × List Instruction
  | register r => (r, [])
  | label name => (.scratch, [.address .scratch name 0])

end Base

def baseAt (b : Builtin) (scopes : ScopeStack) (args : List CallArg) (i : Nat) :
    Except Fault Base := do
  let o ← b.operandAt args i
  match ← o.source scopes with
  | .variable p =>
    if p.isVector then throw (.builtin (.address b.name)) else pure (.register p.register)
  | .address name => pure (.label name)
  | .constant _ => throw (.builtin (.address b.name))

def checkOffset (b : Builtin) (offset size : Int64) : Except Fault Unit :=
  if offset % size ≠ 0 then .error (.builtin (.offsetMultiple b.name offset size))
  else if -64 * size ≤ offset ∧ offset < 64 * size then .ok ()
  else .error (.builtin (.offsetRange b.name offset))

def vectorAccess (opcode : Opcode) (register : Arg) (offset : Int64) (base : Register) : Instruction :=
  ⟨opcode, [register, .imm offset, .reg base], {}⟩

def accessAt (b : Builtin) (opcode : Opcode) (register : Arg) (base : Base) (offset size : Int64) :
    Except Fault (List Instruction) := do
  b.checkOffset offset size
  let (r, code) := base.vectorBase
  pure (code ++ [vectorAccess opcode register offset r])

/-- An access to a whole vector; the fractions of a wide one follow its integers. -/
def accessWhole (b : Builtin) (opcode : Opcode) (p : Place) (base : Base) (offset : Int64) :
    Except Fault (List Instruction) := do
  b.checkOffset offset 16
  if p.isWide then b.checkOffset (offset + 16) 16
  let (r, code) := base.vectorBase
  pure (code ++ vectorAccess opcode (.vec p.register) offset r
    :: if p.isWide then [vectorAccess opcode (.vec p.fraction) (offset + 16) r] else [])

def checkResult (b : Builtin) (swizzle : Option Swizzle) : Except Fault Unit :=
  if swizzle.isSome then .error (.builtin (.resultSwizzled b.name)) else .ok ()

def checkTransposable (b : Builtin) (p : Place) : Except Fault Unit :=
  if p.type ≠ .vec16 ∨ p.swizzle.isSome ∨ p.register.index % 8 ≠ 0 then
    .error (.builtin (.transposeRegister b.name))
  else .ok ()

def rowAt (b : Builtin) (args : List CallArg) (i : Nat) : Except Fault (Fin 8) := match b.wholeAt args i (-1) with
  | .ok row =>
    if h : 0 ≤ row.toInt ∧ row.toInt.toNat < 8 then .ok ⟨row.toInt.toNat, h.2⟩
    else .error (.builtin (.transposeRow b.name))
  | .error _ => .error (.builtin (.transposeRow b.name))

def loadOpcode : DataType → Opcode
  | .u8 => .lbu
  | .s8 => .lb
  | .u16 => .lhu
  | .s16 => .lh
  | _ => .lw

def storeOpcode : DataType → Opcode
  | .u8 | .s8 => .sb
  | .u16 | .s16 => .sh
  | _ => .sw

def loadValue (scopes : ScopeStack) (d : Place) (args : List CallArg) (swizzle : Option Swizzle) :
    Except Fault (List Instruction) := do
  load.checkArity args 1 2
  load.checkResult swizzle
  let base ← load.baseAt scopes args 0
  let offset ← load.wholeAt args 1 0
  if !d.isVector then
    pure [.scalarWith (loadOpcode d.type) [d.register] (base.cell offset)]
  else
    match d.swizzle with
    | none => load.accessWhole .lqv d base offset
    | some (.lane l) =>
      if d.isWide then throw (.builtin .loadOneLane)
      load.accessAt .lsv (.lane d.register l) base offset 2
    | some _ => throw (.builtin .loadLanes)

def storeValue (scopes : ScopeStack) (args : List CallArg) : Except Fault (List Instruction) := do
  store.checkArity args 2 3
  let o ← store.operandAt args 0
  match ← o.source scopes with
  | .variable p =>
    let base ← store.baseAt scopes args 1
    let offset ← store.wholeAt args 2 0
    if !p.isVector then
      pure [.scalarWith (storeOpcode p.type) [p.register] (base.cell offset)]
    else
      match p.swizzle with
      | none => store.accessWhole .sqv p base offset
      | some (.lane l) =>
        if p.isWide then throw (.builtin .storeLanes)
        store.accessAt .ssv (.lane p.register l) base offset 2
      | some _ => throw (.builtin .storeLanes)
  | _ => throw (.builtin .storeSource)

def loadBytes (b : Builtin) (opcode : Opcode) (scopes : ScopeStack) (d : Place)
    (args : List CallArg) (swizzle : Option Swizzle) : Except Fault (List Instruction) := do
  b.checkArity args 1 2
  b.checkResult swizzle
  if d.type ≠ .vec16 then throw (.builtin (.vec16Target b.name))
  let base ← b.baseAt scopes args 0
  let offset ← b.wholeAt args 1 0
  b.accessAt opcode (.vec d.register) base offset 8

def storeBytes (b : Builtin) (opcode : Opcode) (scopes : ScopeStack) (args : List CallArg) :
    Except Fault (List Instruction) := do
  b.checkArity args 2 3
  let p ← b.vectorAt scopes args 0
  if p.type ≠ .vec16 ∨ p.swizzle.isSome then throw (.builtin (.vec16Source b.name))
  let base ← b.baseAt scopes args 1
  let offset ← b.wholeAt args 2 0
  b.accessAt opcode (.vec p.register) base offset 8

def loadRow (scopes : ScopeStack) (d : Place) (args : List CallArg) (swizzle : Option Swizzle) :
    Except Fault (List Instruction) := do
  let b := loadTransposed
  b.checkArity args 2 3
  b.checkResult swizzle
  b.checkTransposable d
  let row ← b.rowAt args 0
  let base ← b.baseAt scopes args 1
  let offset ← b.wholeAt args 2 0
  b.accessAt .ltv (.lane d.register row) base offset 16

def storeRow (scopes : ScopeStack) (args : List CallArg) : Except Fault (List Instruction) := do
  let b := storeTransposed
  b.checkArity args 3 4
  let p ← b.vectorAt scopes args 0
  b.checkTransposable p
  let row ← b.rowAt args 1
  let base ← b.baseAt scopes args 2
  let offset ← b.wholeAt args 3 0
  b.accessAt .stv (.lane p.register row) base offset 16

def selectLanes (scopes : ScopeStack) (target : Target) (args : List CallArg)
    (swizzle : Option Swizzle) : Except Fault (List Instruction) := do
  let d := target.place
  select.checkArity args 2 2
  select.checkResult swizzle
  if !d.isVector then throw (.builtin (.vectorTarget select.name target.name d.type))
  let x ← select.vectorAt scopes args 0
  let o ← select.operandAt args 1
  let (y, code) ← match ← o.source scopes with
    | .variable p => if p.isVector then pure (p, []) else throw (.builtin .selectSecond)
    | .constant c => broadcastConstant c d.type
    | .address _ => throw (.builtin .selectSecond)
  let merge ← mergeLanes d x y
  pure (code ++ merge)

def reciprocalSteps (high low : Opcode) (d : Place) (sourceHigh sourceLow : Register) (l : Fin 8) : List Instruction :=
  [.laneMove high d.register l sourceHigh l, .laneMove low d.fraction l sourceLow l,
   .laneMove high d.register l .zeroVector l]

/-- A reciprocal of one lane or of all; the full one doubles the half that the machine computes. -/
def reciprocal (b : Builtin) (scopes : ScopeStack) (target : Target) (args : List CallArg)
    (swizzle : Option Swizzle) : Except Fault (List Instruction) := do
  let d := target.place
  b.checkArity args 1 1
  if d.type ≠ .vec32 then throw (.builtin (.vec32Target b.name target.name d.type))
  let s ← b.vectorAt scopes args 0
  let lanes ← match swizzle, s.swizzle with
    | some (.lane l), none | none, some (.lane l) => pure [l]
    | none, none => pure (List.finRange 8)
    | _, _ => throw (.builtin (.reciprocalLanes b.name))
  let (high, low) : Opcode × Opcode := if b = invertHalfSqrt then (.vrsqh, .vrsql) else (.vrcph, .vrcpl)
  let (sourceHigh, sourceLow) := if s.isWide then (s.register, s.fraction) else (Register.zeroVector, s.register)
  let double : List Instruction := [.vector .vaddc d.fraction d.fraction d.fraction none,
     .vector .vadd d.register d.register d.register none]
  pure (lanes.flatMap (reciprocalSteps high low d sourceHigh sourceLow) ++ if b = invert then double else [])

def exchange (opcode : Opcode) (arg : Register → Arg) (x y : Register) : List Instruction :=
  [⟨opcode, [arg x, arg x, arg y], {}⟩, ⟨opcode, [arg y, arg x, arg y], {}⟩, ⟨opcode, [arg x, arg x, arg y], {}⟩]

def swapVariables (scopes : ScopeStack) (args : List CallArg) : Except Fault (List Instruction) := do
  swap.checkArity args 2 2
  let x ← swap.variableAt scopes args 0
  let y ← swap.variableAt scopes args 1
  if x.type ≠ y.type ∨ x.swizzle.isSome ∨ y.swizzle.isSome then throw (.builtin .swapOperands)
  if x.register = y.register then pure []
  else if !x.isVector then pure (exchange .xor .reg x.register y.register)
  else
    pure (exchange .vxor .vec x.register y.register
      ++ if x.isWide then exchange .vxor .vec x.fraction y.fraction else [])

def stop (args : List CallArg) : Except Fault (List Instruction) := do
  assertion.checkArity args 1 1
  let code ← assertion.wholeAt args 0 0
  if !fitsUnsigned code then throw (.builtin (.assertCode code))
  pure (.scalarWith .lui [.scratch] (.hex (lowWord code)) :: Instruction.jump .j assertHandler)

def run (b : Builtin) (scopes : ScopeStack) (args : List CallArg) : Except Fault (List Instruction) := match b with
  | store => storeValue scopes args
  | storeUnsigned => b.storeBytes .suv scopes args
  | storeSigned => b.storeBytes .spv scopes args
  | storeTransposed => storeRow scopes args
  | swap => swapVariables scopes args
  | assertion => stop args
  | b => .error (.call (.valueUnused b.name))

def value (b : Builtin) (scopes : ScopeStack) (target : Target) (args : List CallArg)
    (swizzle : Option Swizzle) : Except Fault (List Instruction) :=
  match b with
  | load => loadValue scopes target.place args swizzle
  | loadUnsigned => b.loadBytes .luv scopes target.place args swizzle
  | loadSigned => b.loadBytes .lpv scopes target.place args swizzle
  | loadTransposed => loadRow scopes target.place args swizzle
  | select => selectLanes scopes target args swizzle
  | invert | invertHalf | invertHalfSqrt => b.reciprocal scopes target args swizzle
  | b => .error (.call (.builtinWithoutValue b.name))

end Builtin
end Microcode
