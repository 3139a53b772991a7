import Microcode.Lowering.Program
import Microcode.Proofs.Execution
import Microcode.Proofs.Plain

/-!
What the body of a routine does, said without labels and branches.

`Runs` is a big-step semantics on the statements themselves: a piece of a body, started in a state, ends in
another state with an outcome, which says where control goes next.
-/

namespace Microcode

/-! ### Scopes along a body -/

namespace ScopeStack

def withName (σ : ScopeStack) (name : String) (v : Except Fault Variable) (shares : Bool) : ScopeStack := match v with
  | .ok v => (σ.declare name v shares).2
  | .error _ => σ

/-- The variable that a declaration brings: in the register that it asks for, or in the first that is
free. -/
def newVariable (σ : ScopeStack) (name : String) (type : DataType) (binding : Option Binding)
    (isConst : Bool) : Except Fault Variable := do
  let register ← match binding with
    | some b => b.register type
    | none => (σ.allocate name type).mapError .scope
  pure ⟨register, type, isConst⟩

def withVariable (σ : ScopeStack) (name : String) (type : DataType) (binding : Option Binding)
    (isConst : Bool) : ScopeStack :=
  σ.withName name (σ.newVariable name type binding isConst) false

def withParameters (σ : ScopeStack) : Nat → List Parameter → ScopeStack
  | _, [] => σ
  | position, p :: rest => (σ.withVariable p.name p.type (p.binding? position) false).withParameters (position + 1) rest

end ScopeStack

def Action.after (σ : ScopeStack) : Action → ScopeStack
  | .declare d => σ.withVariable d.name d.type d.register d.isConst
  | .declareAlias name target type => σ.withName name (σ.aliasOf target type) true
  | .undefine name => (σ.undefine name).2
  | _ => σ

/-- The scopes behind a statement; what a block declares ends with it. -/
def Statement.after (σ : ScopeStack) : Statement → ScopeStack
  | .action _ a => a.after σ
  | _ => σ

def leadingAliases : List Statement → List (String × String × Option DataType)
  | [] => []
  | s :: rest =>
    match s.alias? with
    | none => []
    | some a => a :: leadingAliases rest

def withoutAliases : List Statement → List Statement
  | [] => []
  | s :: rest => if s.alias?.isSome then withoutAliases rest else s :: rest

/-- The scopes behind the aliases that a block starts with.  What they stand for is looked up before any
of them is declared. -/
def ScopeStack.enter (σ : ScopeStack) (body : List Statement) : ScopeStack := (leadingAliases body).foldl
    (fun inner (name, target, type) => inner.withName name (σ.push.aliasOf target type) true) σ.push

def wordNumber (signed : Bool) (w : BitVec 32) : Int := if signed then w.toInt else w.toNat

def CompareOp.onNumbers (op : CompareOp) (a b : Int) : Bool := match op with
  | eq => a = b
  | ne => a ≠ b
  | lt => a < b
  | le => a ≤ b
  | gt => a > b
  | ge => a ≥ b

def Operand.variable? (σ : ScopeStack) (o : Operand) : Option Variable := o.name?.bind σ.top.get?

section
variable {Value Memory : Type} (M : Machine Value Memory)

def Machine.wordOf (v : Variable) (s : MachineState Value Memory) : BitVec 32 := match v.register with
  | .scalar r => M.word (s.registers (.scalar r))
  | .vector _ => 0

/-- Whether a comparison of two scalar variables holds in a state.  The sign of the left one counts for
both. -/
def Comparison.holds (σ : ScopeStack) (s : MachineState Value Memory) (c : Comparison) : Bool :=
  match c.left.variable? σ, c.right.variable? σ with
  | some l, some r =>
    let number (v : Variable) := wordNumber l.type.isSigned (M.wordOf v s)
    c.op.onNumbers (number l) (number r)
  | _, _ => false

/-- The instructions that an assignment executes, given how comparisons turn out.  Only a choice between
two scalars asks for that; it executes the copy of the operand that is chosen. -/
def Assignment.code (σ : ScopeStack) (signatures : Signatures) (holds : Comparison → Bool)
    (a : Assignment) : Except Fault (List Instruction) := do
  let v ← σ.variableNamed a.target
  let target : Target := ⟨a.target, .ofVariable v a.swizzle⟩
  match a.value with
  | .call name args swizzle => callValue σ signatures target name args swizzle
  | value =>
    if v.type.isVector then vectorValue σ target value
    else
      match value with
      | .choose c yes no => scalarCopy σ target (if holds c then yes else no)
      | value => scalarValue σ target value

def Interpretation.execAll (I : Interpretation Value Memory) (code : List Instruction)
    (s : MachineState Value Memory) : MachineState Value Memory :=
  code.foldl (fun s i => I.exec i s) s

inductive Outcome where
  /-- To what follows. -/
  | done
  /-- Past the end of the innermost loop. -/
  | broke
  /-- To the next round of the innermost loop. -/
  | continued
  /-- Out of the routine. -/
  | exited
deriving DecidableEq

/-- The outcome of a loop one of whose rounds has an outcome that ends it. -/
def Outcome.ofLoop? : Outcome → Option Outcome
  | done | continued => none
  | broke => some done
  | exited => some exited

/-- The piece, started in the first state, ends in the second with the outcome. -/
inductive Runs (signatures : Signatures) :
    ScopeStack → Piece → MachineState Value Memory → Outcome → MachineState Value Memory → Prop
  | nil {σ s} : Runs signatures σ (.all []) s .done s
  | cons {σ first rest s t o u} (hfirst : Runs signatures σ (.one first) s .done t)
      (hrest : Runs signatures (first.after σ) (.all rest) t o u) :
      Runs signatures σ (.all (first :: rest)) s o u
  | stop {σ first rest s o t} (hfirst : Runs signatures σ (.one first) s o t) (ho : o ≠ .done) :
      Runs signatures σ (.all (first :: rest)) s o t
  | block {σ tag body s o t} (hbody : Runs signatures (σ.enter body) (.all (withoutAliases body)) s o t) :
      Runs signatures σ (.one (.block tag body)) s o t
  | yes {σ tag c yes no s o t} (hc : c.holds M σ s)
      (hyes : Runs signatures (σ.enter yes) (.all (withoutAliases yes)) s o t) :
      Runs signatures σ (.one (.branch tag c yes no)) s o t
  | skip {σ tag c yes s} (hc : c.holds M σ s = false) : Runs signatures σ (.one (.branch tag c yes none)) s .done s
  | no {σ tag c yes no s o t} (hc : c.holds M σ s = false)
      (hno : Runs signatures (σ.enter no) (.all (withoutAliases no)) s o t) :
      Runs signatures σ (.one (.branch tag c yes (some no))) s o t
  | whileEnd {σ tag c body s} (hc : c.holds M σ s = false) : Runs signatures σ (.one (.whileLoop tag c body)) s .done s
  | whileRound {σ tag c body s o t o' u} (hc : c.holds M σ s)
      (hbody : Runs signatures (σ.enter body) (.all (withoutAliases body)) s o t)
      (ho : o.ofLoop? = none) (hmore : Runs signatures σ (.one (.whileLoop tag c body)) t o' u) :
      Runs signatures σ (.one (.whileLoop tag c body)) s o' u
  | whileLeft {σ tag c body s o t o'} (hc : c.holds M σ s)
      (hbody : Runs signatures (σ.enter body) (.all (withoutAliases body)) s o t)
      (ho : o.ofLoop? = some o') :
      Runs signatures σ (.one (.whileLoop tag c body)) s o' t
  | loopRound {σ tag body s o t o' u} (hbody : Runs signatures (σ.enter body) (.all (withoutAliases body)) s o t)
      (ho : o.ofLoop? = none) (hmore : Runs signatures σ (.one (.loop tag body none)) t o' u) :
      Runs signatures σ (.one (.loop tag body none)) s o' u
  | loopLeft {σ tag body condition s o t o'} (hbody : Runs signatures (σ.enter body) (.all (withoutAliases body)) s o t)
      (ho : o.ofLoop? = some o') :
      Runs signatures σ (.one (.loop tag body condition)) s o' t
  | untilEnd {σ tag body c s o t} (hbody : Runs signatures (σ.enter body) (.all (withoutAliases body)) s o t)
      (ho : o.ofLoop? = none) (hc : c.holds M σ t = false) :
      Runs signatures σ (.one (.loop tag body (some c))) s .done t
  | untilRound {σ tag body c s o t o' u} (hbody : Runs signatures (σ.enter body) (.all (withoutAliases body)) s o t)
      (ho : o.ofLoop? = none) (hc : c.holds M σ t)
      (hmore : Runs signatures σ (.one (.loop tag body (some c))) t o' u) :
      Runs signatures σ (.one (.loop tag body (some c))) s o' u
  | declare {σ tag d s} : Runs signatures σ (.one (.action tag (.declare d))) s .done s
  | declareAlias {σ tag name target type s} :
      Runs signatures σ (.one (.action tag (.declareAlias name target type))) s .done s
  | undefine {σ tag name s} : Runs signatures σ (.one (.action tag (.undefine name))) s .done s
  | assign {σ tag a code s} (hcode : a.code σ signatures (·.holds M σ s) = .ok code) :
      Runs signatures σ (.one (.action tag (.assign a))) s .done (M.execAll code s)
  | breakLoop {σ tag s} : Runs signatures σ (.one (.action tag .breakLoop)) s .broke s
  | continueLoop {σ tag s} : Runs signatures σ (.one (.action tag .continueLoop)) s .continued s
  | exit {σ tag s} : Runs signatures σ (.one (.action tag .exit)) s .exited s

def Routine.Runs (signatures : Signatures) (r : Routine) (body : List Statement)
    (s : MachineState Value Memory) (o : Outcome) (t : MachineState Value Memory) : Prop :=
  Microcode.Runs M signatures ((ScopeStack.withParameters {} 0 r.params).enter body) (.all (withoutAliases body)) s o t

end

theorem endsWithExit_cons_cons (first second : Statement) (rest : List Statement) :
    endsWithExit (first :: second :: rest) = endsWithExit (second :: rest) := by
  unfold endsWithExit
  rw [List.getLast?_cons_cons]

theorem endsWithExit_singleton {s} (h : ∀ tag, s ≠ .action tag .exit) : endsWithExit [s] = false := by
  unfold endsWithExit
  split
  next tag heq => exact absurd (Option.some.inj heq) (h tag)
  · rfl

theorem endsWithExit_withoutAliases (body : List Statement) :
    endsWithExit (withoutAliases body) = endsWithExit body := by
  induction body with
  | nil => rfl
  | cons first rest ih =>
    unfold withoutAliases
    split
    next halias =>
      rw [ih]
      cases rest with
      | cons second rest => rw [endsWithExit_cons_cons]
      | nil =>
        rw [endsWithExit_singleton]
        · rfl
        · rintro tag rfl
          cases halias
    · rfl

theorem Runs.endsWithExit {Value Memory : Type} {M} {signatures : Signatures}
    {σ} {body : List Statement} {s t : MachineState Value Memory}
    (h : Runs M signatures σ (.all body) s .done t) : endsWithExit body = false := by
  generalize hpiece : Piece.all body = piece at h
  generalize ho : Outcome.done = o at h
  induction h generalizing body with
  | nil =>
    cases hpiece
    rfl
  | @cons _ first rest _ _ _ _ hfirst hrest _ ih =>
    cases hpiece
    subst ho
    cases rest with
    | cons second rest =>
      rw [endsWithExit_cons_cons]
      exact ih rfl rfl
    | nil =>
      refine endsWithExit_singleton ?_
      rintro tag rfl
      cases hfirst
  | stop _ hne => exact absurd ho.symm hne
  | _ => cases hpiece

def Comparison.OfVariables (c : Comparison) : Prop := c.left.name?.isSome ∧ c.right.name?.isSome

def Action.IsStructured : Action → Prop
  | .declare _ | .declareAlias .. | .undefine _ | .breakLoop | .continueLoop | .exit => True
  | .assign a => ∀ c yes no, a.value = .choose c yes no → c.OfVariables
  | _ => False

/-- The statements are structured: no jumps, calls or texts, and only variables are compared. -/
def IsStructured (body : List Statement) : Prop := everyIn Action.IsStructured Comparison.OfVariables body

end Microcode
