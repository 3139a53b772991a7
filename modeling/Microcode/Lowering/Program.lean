import Microcode.Lowering.Statement
import Microcode.Options

/-!
From a plain program to the code of its routines.  The parts of the program are first checked against
one another; then each routine that has a body is lowered, in order.
-/

namespace Microcode

open Lower

def isPowerOfTwo (n : Nat) : Bool := 0 < n && n &&& (n - 1) == 0

def StateVariable.fault? (v : StateVariable) (earlier : List String) : Option OutlineFault :=
  let badAlign := v.align.filter (! isPowerOfTwo ·)
  if earlier.contains v.name then some (.stateTwice v.name)
  else if let some align := badAlign then some (.alignNotPower align v.name)
  else if v.byteSize / v.type.dataUnit.2 < v.init.length then some (.tooManyInitialisers v.name)
  else if v.init.any (·.toInt?.isNone) then some (.initialiserNotInteger v.name)
  else none

def checkState : List StateVariable → Lower Unit
  | [] => pure ()
  | v :: rest => do
    modifySession (·.enter "state" v.line)
    match v.fault? (← get).session.state with
    | some fault => fail (.outline fault)
    | none => pure ()
    modifySession fun s => { s with state := v.name :: s.state }
    checkState rest

def commandAt (index : Nat) (commands : List (Nat × String)) : Option String := commands.lookup index

/-- Checks the routines against one another, and collects the indices of the commands that are defined,
the latest in front. -/
def checkRoutines : List Routine → List String → List (Nat × String) → Lower (List (Nat × String))
  | [], _, commands => pure commands
  | r :: rest, defined, commands => do
    modifySession (·.enter r.name r.line)
    match r.body, r.kind with
    | none, _ => checkRoutines rest defined commands
    | some _, kind =>
      if defined.contains r.name then fail (.outline (.functionTwice r.name))
      match kind with
      | .command index =>
        match commandAt index commands with
        | some other => fail (.outline (.commandTwice index other r.name))
        | none => checkRoutines rest (r.name :: defined) ((index, r.name) :: commands)
      | _ => checkRoutines rest (r.name :: defined) commands

/-- Warns of the indices below the largest that no command has. -/
def warnUnused (commands : List (Nat × String)) : Lower Unit := match (commands.map Prod.fst).max? with
  | none => pure ()
  | some last => do
    modifySession (·.enter "commands" 0)
    ((List.range last).filter fun i => (commandAt i commands).isNone).forM fun i =>
      modifySession (·.warn (.unusedCommand i))

def signaturesOf (routines : List Routine) : Signatures := (routines.map fun r => (r.name, ⟨r.kind, r.params⟩)).reverse

mutual

def Statement.labels : Statement → List String
  | .action _ (.label name) => [name]
  | .action .. => []
  | .block _ body | .whileLoop _ _ body | .loop _ body _ => labelsOf body
  | .branch _ _ yes no =>
    match no with
    | none => labelsOf yes
    | some no => labelsOf yes ++ labelsOf no

def labelsOf : List Statement → List String
  | [] => []
  | s :: rest => s.labels ++ labelsOf rest

end

def firstRepeated : List String → List String → Option String
  | _, [] => none
  | seen, name :: rest =>
    if seen.contains name then some name else firstRepeated (name :: seen) rest

structure Layout where
  align : Option Nat := none
  noReturn : Bool := false

def readMarkers (l : Layout) : List Marker → Except OutlineFault Layout
  | [] => .ok l
  | ⟨.align, some (.int n)⟩ :: rest =>
    if 0 < n && isPowerOfTwo n.toNatClampNeg then
      readMarkers { l with align := some (lowWord n).toNat } rest
    else .error .alignArgument
  | ⟨.align, _⟩ :: _ => .error .alignArgument
  | ⟨.noReturn, none⟩ :: rest => readMarkers { l with noReturn := true } rest
  | ⟨kind, _⟩ :: _ => .error (.markerOnFunction kind)

def declareParameters : Nat → List Parameter → Lower Unit
  | _, [] => pure ()
  | position, p :: rest => do
    match p.binding? position with
    | none => fail (.outline (.parameterRegister p.name))
    | some b => declareVariable p.name p.type (some b) false
    declareParameters (position + 1) rest

def endsWithExit (body : List Statement) : Bool := match body.getLast? with
  | some (.action _ .exit) => true
  | _ => false

def Routine.command? (r : Routine) : Option Nat := match r.kind with
  | .command index => some index
  | _ => none

/-- Bytes of arguments that the dispatch table records: four for each, and at least four. -/
def Routine.argSize (r : Routine) : Nat := if r.command?.isSome then max (4 * r.params.length) 4 else 0

def lowerRoutine (o : Options) (signatures : Signatures) (r : Routine) (body : List Statement) :
    Lower Code := do
  modify fun p => ⟨p.session.enter r.name r.line, {}⟩
  let layout ← checked ((readMarkers {} r.markers).mapError .outline)
  if r.command?.isSome && 4 < r.params.length then
    fail (.outline (.commandArity r.name r.params.length))
  declareParameters 0 r.params
  let labels := labelsOf body
  if let some name := firstRepeated [] labels then fail (.outline (.labelTwice name))
  let f : Frame := ⟨r.name, r.command?.isSome, labels, signatures, o.sourceComments, none, none⟩
  let lines ← lowerBlock f body
  let leave ← if endsWithExit body || layout.noReturn then pure [] else emitReturn f
  pure ⟨r.name, r.command?, r.argSize, layout.align, lines ++ leave, none⟩

def lowerRoutines (o : Options) (signatures : Signatures) : List Routine → Lower (List Code)
  | [] => pure []
  | r :: rest =>
    match r.body with
    | none => lowerRoutines o signatures rest
    | some body => do
      let first ← lowerRoutine o signatures r body
      let rest ← lowerRoutines o signatures rest
      pure (first :: rest)

def lowerProgram (o : Options) (p : Program) : Lower (List Code) := do
  checkState p.state
  let commands ← checkRoutines p.routines [] []
  warnUnused commands
  lowerRoutines o (signaturesOf p.routines) p.routines

def Program.lower (p : Program) (o : Options) : Except CompileError (List Code × List Warning) := do
  let (code, progress) ← (lowerProgram o p).run {}
  pure (code, progress.session.warnings)

end Microcode
