import Microcode.Selection.Call
import Microcode.Selection.Scalar
import Microcode.Session

/-!
From plain statements to lines of code.

A statement's instructions carry the line of the statement visited last and the innermost barrier
around it.  Control flow becomes labels and branches, each branch with an empty slot behind it.
-/

namespace Microcode

/-- The labels that leave a round of a loop: on to its next round, or past its end. -/
structure LoopExits where
  next : String
  done : String

structure Frame where
  routine : String
  isCommand : Bool
  labels : List String
  signatures : Signatures
  comments : Bool
  barrier : Option String := none
  innermost : Option LoopExits := none

structure Progress where
  session : Session := {}
  scopes : ScopeStack := {}

abbrev Lower := StateT Progress (Except CompileError)

namespace Lower

def scopes : Lower ScopeStack := do
  let p ← get
  pure p.scopes

def modifyScopes (f : ScopeStack → ScopeStack) : Lower Unit := modify fun p => { p with scopes := f p.scopes }

def modifySession (f : Session → Session) : Lower Unit := modify fun p => { p with session := f p.session }

def fail {α : Type} (fault : Fault) : Lower α := do
  let p ← get
  throw (p.session.error fault)

def checked {α : Type} (result : Except Fault α) : Lower α := match result with
  | .ok a => pure a
  | .error fault => fail fault

def changeScopes (f : ScopeStack → Except ScopeError Unit × ScopeStack) : Lower Unit := do
  let p ← get
  match f p.scopes with
  | (.ok (), scopes) => set { p with scopes }
  | (.error e, _) => fail (.scope e)

def freshLabel : Lower String := do
  let p ← get
  let (label, session) := p.session.freshLabel
  set { p with session }
  pure label

def emit (f : Frame) (code : List Instruction) : Lower (List Line) := do
  let p ← get
  pure (code.map fun i => .op { i with provenance := ⟨p.session.site.line, f.barrier⟩ })

def emitChecked (f : Frame) (code : ScopeStack → Except Fault (List Instruction)) : Lower (List Line) := do
  let code ← checked (code (← scopes))
  emit f code

def emitJump (f : Frame) (target : String) : Lower (List Line) := emit f (Instruction.jump .j target)

end Lower

open Lower

/-- Refuses registers that code generation uses itself, and warns of those that it may overwrite. -/
def checkReserved : List Register → Lower Unit
  | [] => pure ()
  | r :: rest => do
    if [.zero, .scratch, .zeroVector, .vector 30, .vector 31].contains r then
      fail (.register (.reserved r))
    if r = .scratchVector then modifySession (·.warn (.scratchRegister r))
    if r = .returnAddress then modifySession (·.warn (.callRegister r))
    checkReserved rest

/-- Declares a variable in the register that it asks for, or in the first that is free. -/
def declareVariable (name : String) (type : DataType) (binding : Option Binding) (isConst : Bool) :
    Lower Unit := do
  let register ← match binding with
    | some b => checked (b.register type)
    | none => checked (((← scopes).allocate name type).mapError .scope)
  let v : Variable := ⟨register, type, isConst⟩
  checkReserved v.registers
  changeScopes (·.declare name v false)

def Frame.localLabel (f : Frame) (name : String) : String := f.routine ++ "_" ++ name

def emitReturn (f : Frame) : Lower (List Line) := if f.isCommand then emitJump f dispatchLoop
  else emit f (Instruction.withSlot (.scalar .jr [.returnAddress]))

def lowerAssignment (f : Frame) (a : Assignment) : Lower (List Line) := do
  if a.op.isSome then throw (.internal .compoundAssignment)
  let v ← checked ((← scopes).variableNamed a.target)
  if v.isConst && !a.isInit then fail (.statement (.constAssigned a.target))
  if a.swizzle.isSome && !v.type.isVector then
    fail (.statement (.swizzleOnScalar a.target v.type))
  let target : Target := ⟨a.target, .ofVariable v a.swizzle⟩
  match a.value with
  | .call name args swizzle =>
    emitChecked f (callValue · f.signatures target name args swizzle)
  | .flat _ => throw (.internal .flatExpression)
  | value =>
    if v.type.isVector then emitChecked f (vectorValue · target value)
    else
      match value with
      | .choose c yes no => do
        let otherwise ← freshLabel
        let done ← freshLabel
        let choice ← checked (scalarChoice (← scopes) target c yes no otherwise)
        let first ← emit f (choice.test ++ choice.yes ++ Instruction.jump .j done)
        let second ← emit f choice.no
        pure (first ++ .label otherwise :: second ++ [.label done])
      | value => emitChecked f (scalarValue · target value)

def lowerCall (f : Frame) (name : String) (args : List CallArg) : Lower (List Line) := match Builtin.ofName? name with
  | some b => emitChecked f (b.run · args)
  | none =>
    match f.signatures.lookup name with
    | none => fail (.call (.unknown name))
    | some ⟨.command _, _⟩ => fail (.call (.commandCalled name))
    | some ⟨.template, _⟩ => throw (.internal .macroCall)
    | some ⟨.function, params⟩ => emitChecked f (callFunction · name params args)

def lowerAlias (name target : String) (type : Option DataType) : Lower Unit := do
  let v ← checked ((← scopes).aliasOf target type)
  changeScopes (·.declare name v true)

def lowerAction (f : Frame) : Action → Lower (List Line)
  | .declare d => do
    declareVariable d.name d.type d.register d.isConst
    pure []
  | .declareAlias name target type => do
    lowerAlias name target type
    pure []
  | .undefine name => do
    changeScopes (·.undefine name)
    pure []
  | .assign a => lowerAssignment f a
  | .call name args => lowerCall f name args
  | .goto target =>
    if f.labels.contains target then emitJump f (f.localLabel target)
    else if (f.signatures.lookup target).isSome then emitJump f target
    else fail (.statement (.targetUnknown target))
  | .label name => pure [.label (f.localLabel name)]
  | .breakLoop =>
    match f.innermost with
    | some exits => emitJump f exits.done
    | none => fail (.statement .breakOutsideLoop)
  | .continueLoop =>
    match f.innermost with
    | some exits => emitJump f exits.next
    | none => fail (.statement .continueOutsideLoop)
  | .exit => emitReturn f
  | .asm text => pure [.raw text]
  | .declareInit .. | .declareMany .. => throw (.internal .unsplitDeclaration)

def Statement.alias? : Statement → Option (String × String × Option DataType)
  | .action _ (.declareAlias name target type) => some (name, target, type)
  | _ => none

/-- The variables that the aliases at the start of a block stand for, looked up before any of them is
declared, so that two names can be exchanged. -/
def lookUpAliases : List Statement → Lower (List (Statement × String × Variable))
  | [] => pure []
  | s :: rest =>
    match s.alias? with
    | none => pure []
    | some (name, target, type) => do
      modifySession (·.visit s)
      let v ← checked ((← scopes).aliasOf target type)
      let rest ← lookUpAliases rest
      pure ((s, name, v) :: rest)

def declareAliases : List (Statement × String × Variable) → Lower Unit
  | [] => pure ()
  | (s, name, v) :: rest => do
    modifySession (·.visit s)
    changeScopes (·.declare name v true)
    declareAliases rest

def Frame.annotated (f : Frame) (isBranch : Bool) : List Marker → Lower Frame
  | [] => pure f
  | ⟨.barrier, some (.string name)⟩ :: rest =>
    { f with barrier := some name }.annotated isBranch rest
  | ⟨.barrier, _⟩ :: _ => fail (.statement .barrierName)
  | ⟨.unlikely, none⟩ :: rest =>
    if isBranch then f.annotated isBranch rest else fail (.statement (.markerHere .unlikely))
  | ⟨kind, _⟩ :: _ => fail (.statement (.markerHere kind))

def Statement.isBranch : Statement → Bool
  | .branch .. => true
  | _ => false

def Statement.isBlock : Statement → Bool
  | .block .. => true
  | _ => false

def Frame.enter (f : Frame) (s : Statement) : Lower (Frame × List Line) := do
  modifySession (·.visit s)
  let inner ← f.annotated s.isBranch s.tag.markers
  pure (inner, if f.comments && !s.isBlock then [.comment ("L" ++ numeral s.line)] else [])

/-- The lines of a block, which is a scope of its own: the aliases that it starts with are declared,
and then come the lines of its other statements. -/
def inScope (body : List Statement) (rest : Lower (List Line)) : Lower (List Line) := do
  modifyScopes ScopeStack.push
  let bound ← lookUpAliases body
  declareAliases bound
  let code ← rest
  modifyScopes ScopeStack.pop
  pure code

mutual

def Statement.lower (f : Frame) (s : Statement) : Lower (List Line) := do
  let (f, comment) ← f.enter s
  match s with
  | .block _ body =>
    let body ← inScope body (lowerStatements f true body)
    pure (comment ++ body)
  | .branch _ condition yes no =>
    match no with
    | none =>
      let done ← freshLabel
      let test ← emitChecked f (branchIf · condition.negate done)
      let yes ← inScope yes (lowerStatements f true yes)
      pure (comment ++ test ++ yes ++ [.label done])
    | some no =>
      let otherwise ← freshLabel
      let done ← freshLabel
      let test ← emitChecked f (branchIf · condition.negate otherwise)
      let yes ← inScope yes (lowerStatements f true yes)
      let skip ← emitJump f done
      let no ← inScope no (lowerStatements f true no)
      pure (comment ++ test ++ yes ++ skip ++ .label otherwise :: no ++ [.label done])
  | .whileLoop _ condition body =>
    let again ← freshLabel
    let done ← freshLabel
    let test ← emitChecked f (branchIf · condition.negate done)
    let body ← inScope body (lowerStatements { f with innermost := some ⟨again, done⟩ } true body)
    let back ← emitJump f again
    pure (comment ++ .label again :: test ++ body ++ back ++ [.label done])
  | .loop _ body condition =>
    match condition with
    | none =>
      let start ← freshLabel
      let done ← freshLabel
      let body ← inScope body (lowerStatements { f with innermost := some ⟨start, done⟩ } true body)
      let back ← emitJump f start
      pure (comment ++ .label start :: body ++ back ++ [.label done])
    | some condition =>
      let start ← freshLabel
      let next ← freshLabel
      let done ← freshLabel
      let body ← inScope body (lowerStatements { f with innermost := some ⟨next, done⟩ } true body)
      let back ← emitChecked f (branchIf · condition start)
      pure (comment ++ .label start :: body ++ .label next :: back ++ [.label done])
  | .action _ a =>
    let code ← lowerAction f a
    pure (comment ++ code)
termination_by structural s

def lowerStatements (f : Frame) (atStart : Bool) (statements : List Statement) : Lower (List Line) :=
  match statements with
  | [] => pure []
  | s :: rest =>
    if atStart && s.alias?.isSome then lowerStatements f true rest
    else do
      let first ← s.lower f
      let rest ← lowerStatements f false rest
      pure (first ++ rest)
termination_by structural statements

end

def lowerBlock (f : Frame) (body : List Statement) : Lower (List Line) := inScope body (lowerStatements f true body)

end Microcode
