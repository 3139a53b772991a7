import Microcode.Selection.Builtin

/-!
Calls.  The arguments of a function are moved into the registers of its parameters, from left to right,
and a jump leaves the return address behind.
-/

namespace Microcode

structure Signature where
  kind : RoutineKind
  params : List Parameter

/-- The routines that a program knows by name, the latest in front. -/
abbrev Signatures := List (String × Signature)

def moveArgument (register : Register) (type : DataType) : Source → Except Fault (List Instruction)
  | .variable p => do
    if p.isVector ≠ type.isVector ∨ p.type.registerCount ≠ type.registerCount then
      throw (.call (.argumentType type p.type))
    if p.register = register then pure []
    else if !type.isVector then pure [.scalar .or [register, p.register, .zero]]
    else
      let d : Place := ⟨register, type, none⟩
      pure (.vector .vor d.register .zeroVector p.register p.selector
        :: if d.isWide then [.vector .vor d.fraction .zeroVector p.fraction p.selector] else [])
  | .constant c =>
    if type.isVector then .error (.call .vectorArgument)
    else
      match c.toInt? with
      | some v => .ok (loadConstant register v)
      | none => .error (.call .floatArgument)
  | .address name =>
    if type.isVector then .error (.call .vectorArgument) else .ok [.address register name 0]

def passArgument (scopes : ScopeStack) (routine : String) (p : Parameter) (position : Nat)
    (arg : CallArg) : Except Fault (List Instruction) := do
  let register ← match p.binding? position with
    | some b => b.register p.type
    | none => throw (.call (.noRegister p.name routine))
  match arg with
  | .operand o =>
    let s ← o.source scopes
    moveArgument register p.type s
  | .string _ => throw (.call (.stringArgument routine))

def passArguments (scopes : ScopeStack) (routine : String) :
    Nat → List Parameter → List CallArg → Except Fault (List Instruction)
  | position, p :: params, a :: args => do
    let first ← passArgument scopes routine p position a
    let rest ← passArguments scopes routine (position + 1) params args
    pure (first ++ rest)
  | _, _, _ => .ok []

def callFunction (scopes : ScopeStack) (routine : String) (params : List Parameter)
    (args : List CallArg) : Except Fault (List Instruction) := do
  if params.length ≠ args.length then
    throw (.call (.arity routine params.length args.length))
  let moves ← passArguments scopes routine 0 params args
  pure (moves ++ Instruction.jump .jal routine)

def callValue (scopes : ScopeStack) (signatures : Signatures) (target : Target) (name : String)
    (args : List CallArg) (swizzle : Option Swizzle) : Except Fault (List Instruction) :=
  if target.place.swizzle.isSome ∧ name ≠ Builtin.load.name then
    .error (.builtin (.targetSwizzled name))
  else
    match Builtin.ofName? name with
    | some b => b.value scopes target args swizzle
    | none =>
      match signatures.lookup name with
      | some _ => .error (.call (.functionWithoutValue name))
      | none => .error (.call (.unknown name))

end Microcode
