import Microcode.Session

/-!
Programs in plain form.

A plain program has no macros, declares one variable at a time without giving it a value, assigns with
`=` only and computes at most one operation per assignment; where it names a variable that lives in
memory it means its address.  Every program that is free of faults has a plain form: macro calls become
blocks that hold the macro's body, and the other statements become runs of plain ones with the same
line and annotations.
-/

namespace Microcode

def Operand.resolve (state : List String) (o : Operand) : Operand := match o.atom with
  | .variable name => if state.contains name then ⟨.address name, o.swizzle⟩ else o
  | _ => o

def Comparison.resolve (state : List String) (c : Comparison) : Comparison :=
  ⟨c.left.resolve state, c.op, c.right.resolve state⟩

def CallArg.resolve (state : List String) : CallArg → CallArg
  | operand o => operand (o.resolve state)
  | string text => string text

mutual

def Part.resolve (state : List String) : Part → Part
  | .operand o => .operand (o.resolve state)
  | .op op => .op op
  | .group parts => .group (resolveParts state parts)

def resolveParts (state : List String) : List Part → List Part
  | [] => []
  | p :: rest => p.resolve state :: resolveParts state rest

end

def Expr.resolve (state : List String) : Expr → Expr
  | constant c => constant c
  | copy o => copy (o.resolve state)
  | unary op o => unary op (o.resolve state)
  | binary op l r => binary op (l.resolve state) (r.resolve state)
  | withConstant op l c => withConstant op (l.resolve state) c
  | call name args z => call name (args.map (·.resolve state)) z
  | test c => test (c.resolve state)
  | choose c yes no => choose (c.resolve state) (yes.resolve state) (no.resolve state)
  | flat parts => flat (resolveParts state parts)

/-- The right-hand side of `x = x op value`, for the value of a compound assignment.  Only arithmetic
has one. -/
def Expr.compound? (target : String) (op : BinaryOp) (value : Expr) : Option Expr :=
  let after (parts : List Part) : Expr := flat [.operand (.ofName target), .op op, .group parts]
  match value with
  | constant c => some (withConstant op (.ofName target) c)
  | copy o => some (binary op (.ofName target) o)
  | binary inner l r => some (after [.operand l, .op inner, .operand r])
  | withConstant inner l c => some (after [.operand l, .op inner, .operand (.ofConstant c)])
  | flat parts => some (after parts)
  | _ => none

def Assignment.plain (state : List String) (a : Assignment) : Except Fault (List Assignment) := do
  if state.contains a.target then throw (.plain (.stateAssigned a.target))
  let value ← match a.op with
    | none => pure a.value
    | some op =>
      match a.value.compound? a.target op with
      | some value => pure value
      | none => throw (.plain (.compoundValue op))
  match value.resolve state with
  | .flat parts =>
    match chainOfParts a.target a.swizzle parts with
    | .ok steps => pure (steps.map fun step => { step with isInit := a.isInit })
    | .error e => throw (.expression e)
  | value => pure [{ a with op := none, value }]

def Binding.base (type : DataType) : Binding → Except Fault Nat
  | index number => pure number
  | named name =>
    match Register.ofName? name with
    | some r =>
      if r.isVector = type.isVector then pure r.index
      else throw (.plain (.invalidRegister name type))
    | none => throw (.plain (.invalidRegister name type))

def consecutive (type : DataType) (isConst : Bool) : Option Nat → List String → List Action
  | _, [] => []
  | base, name :: rest =>
    .declare ⟨name, type, base.map Binding.index, isConst⟩
      :: consecutive type isConst (base.map (· + type.registerCount)) rest

def Action.plain (state : List String) : Action → Except Fault (List Action)
  | declareInit d value => do
    let steps ← Assignment.plain state ⟨d.name, none, none, value, true⟩
    pure (declare d :: steps.map assign)
  | declareMany names type register isConst => do
    let base ← match register with
      | none => pure none
      | some binding => some <$> binding.base type
    pure (consecutive type isConst base names)
  | assign a => do
    let steps ← a.plain state
    pure (steps.map assign)
  | call name args => pure [call name (args.map (·.resolve state))]
  | other => pure [other]

structure Surroundings where
  macros : List Routine
  state : List String

namespace Surroundings

/-- The macro with a name; of several the last counts. -/
def template? (s : Surroundings) (name : String) : Option Routine := s.macros.reverse.find? (·.name == name)

end Surroundings

structure Misstep where
  fault : Fault
  statement : Statement

def CallArg.aliased? (state : List String) : CallArg → Option String
  | operand ⟨.variable name, none⟩ => if state.contains name then none else some name
  | _ => none

def aliases (state : List String) (line : Nat) : List Parameter → List CallArg → Option (List Statement)
  | p :: params, a :: args => do
    let target ← a.aliased? state
    let rest ← aliases state line params args
    pure (.action ⟨line, []⟩ (.declareAlias p.name target (some p.type)) :: rest)
  | _, _ => some []

/-- Finds the statements that stand for a call of a macro: the aliases of its parameters and its body,
not yet in plain form. -/
def Routine.instantiate (state : List String) (m : Routine) (args : List CallArg) (line : Nat) :
    Except PlainFault (List Statement × List Statement) :=
  if args.length ≠ m.params.length then
    .error (.macroArity m.name m.params.length args.length)
  else
    match aliases state line m.params args, m.body with
    | none, _ => .error (.macroArgument m.name)
    | some _, none => .error (.macroWithoutBody m.name)
    | some names, some body => .ok (names, body)

abbrev Expander := Routine → List CallArg → Tag → Except Misstep Statement

mutual

def Statement.plain (s : Surroundings) (expandCall : Expander) : Statement → Except Misstep (List Statement)
  | .block tag body => do
    let body ← plainBlock s expandCall body
    pure [.block tag body]
  | .branch tag condition yes no => do
    let yes ← plainBlock s expandCall yes
    match no with
    | none => pure [.branch tag (condition.resolve s.state) yes none]
    | some no =>
      let no ← plainBlock s expandCall no
      pure [.branch tag (condition.resolve s.state) yes (some no)]
  | .whileLoop tag condition body => do
    let body ← plainBlock s expandCall body
    pure [.whileLoop tag (condition.resolve s.state) body]
  | .loop tag body condition => do
    let body ← plainBlock s expandCall body
    pure [.loop tag body (condition.map (·.resolve s.state))]
  | .action tag a =>
    match a with
    | .call name args =>
      match s.template? name with
      | some m => do
        let expanded ← expandCall m args tag
        pure [expanded]
      | none => .ok [.action tag (.call name (args.map (·.resolve s.state)))]
    | a =>
      match a.plain s.state with
      | .ok actions => .ok (actions.map (.action tag))
      | .error fault => .error ⟨fault, .action tag a⟩

def plainBlock (s : Surroundings) (expandCall : Expander) : List Statement → Except Misstep (List Statement)
  | [] => .ok []
  | statement :: rest => do
    let first ← statement.plain s expandCall
    let rest ← plainBlock s expandCall rest
    pure (first ++ rest)

end

def macroDepth : Nat := 64

/-- Macro calls expanded while depth is left.  A call keeps its line and loses its annotations. -/
def expander (s : Surroundings) : Nat → Expander
  | 0 => fun m args tag =>
    .error ⟨.plain (.expansionTooDeep m.name), .action tag (.call m.name args)⟩
  | depth + 1 => fun m args tag =>
    match m.instantiate s.state args tag.line with
    | .error fault => .error ⟨.plain fault, .action tag (.call m.name args)⟩
    | .ok (names, body) => do
      let body ← plainBlock s (expander s depth) body
      pure (.block ⟨tag.line, []⟩ (names ++ body))

namespace Program

def surroundings (p : Program) : Surroundings :=
  ⟨p.routines.filter (·.kind == .template), p.state.map StateVariable.name⟩

def plainRoutine (s : Surroundings) (r : Routine) : Except CompileError Routine := match r.body with
  | none => .ok r
  | some body =>
    match plainBlock s (expander s macroDepth) body with
    | .ok body => .ok { r with body := some body }
    | .error ⟨fault, statement⟩ =>
      .error (.semantic fault ⟨r.name, statement.line, some statement.header⟩)

def plain (p : Program) : Except CompileError Program := do
  let routines ← (p.routines.filter (·.kind != .template)).mapM (plainRoutine p.surroundings)
  pure { p with routines }

end Program
end Microcode
