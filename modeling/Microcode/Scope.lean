import Microcode.DataType
import Microcode.Register

/-!
Which variable is in which register.

Scopes form a stack.  A new scope starts with the bindings of the one around it; leaving it brings
those back as they were.  In a scope each register has at most one owner; a second name for a variable
shares its registers without owning them.
-/

namespace Microcode

inductive ScopeError where
  | notKnown (name : String)
  | redeclared (name : String)
  | registerInUse (name : String) (register : Register) (owner : String)
  | exhausted (name : String)
deriving DecidableEq, Repr

def ScopeError.message : ScopeError → String
  | notKnown name => "Variable '" ++ name ++ "' not known!"
  | redeclared name => "Variable '" ++ name ++ "' is already declared in this scope"
  | registerInUse name register owner =>
    "Register " ++ register.text ++ " of '" ++ name ++ "' is already used by variable '" ++ owner ++ "'"
  | exhausted name => "No free register left for '" ++ name ++ "'"

structure Variable where
  register : Register
  type : DataType
  isConst : Bool
deriving DecidableEq, Repr

def Register.span (first : Register) (type : DataType) : List Register :=
  if type.registerCount = 2 then first :: first.next?.toList else [first]

def Variable.registers (v : Variable) : List Register := v.register.span v.type

theorem Variable.register_mem_registers (v : Variable) : v.register ∈ v.registers := by
  unfold registers Register.span
  split <;> exact List.mem_cons_self

theorem Variable.fraction_mem_registers (v : Variable) (h : v.type = .vec32) :
    v.register.next?.getD v.register ∈ v.registers := by
  rw [registers, Register.span, h]
  cases v.register.next? with
  | none => exact List.mem_cons_self
  | some r => exact List.mem_cons_of_mem _ List.mem_cons_self

structure Scope where
  bindings : List (String × Variable) := []
  owners : List (Register × String) := []
  locals : List String := []

namespace Scope

def get? (s : Scope) (name : String) : Option Variable := s.bindings.lookup name

def owner (s : Scope) (r : Register) : Option String := s.owners.lookup r

def isFree (s : Scope) (r : Register) : Bool := (s.owner r).isNone

def unbind (s : Scope) (name : String) : Scope := match s.get? name with
  | none => s
  | some v =>
    { s with
      bindings := s.bindings.filter (·.1 != name)
      owners := s.owners.filter fun (r, owner) => !(v.registers.contains r && owner == name) }

/-- The scope with a register owned by a name, unless it has an owner already. -/
def own (name : String) (s : Scope) (r : Register) : Scope :=
  if s.isFree r then { s with owners := (r, name) :: s.owners } else s

/-- The scope with a name bound.  Registers that have an owner keep it. -/
def bind (s : Scope) (name : String) (v : Variable) : Scope :=
  let s := v.registers.foldl (own name) s
  { s with
    bindings := (name, v) :: s.bindings.filter (·.1 != name)
    locals := name :: s.locals }

def clash? (s : Scope) (v : Variable) : Option (Register × String) :=
  v.registers.findSome? fun r => (s.owner r).map (r, ·)

/-- A declaration: what it answers and the scope after it.  A name of an outer scope is hidden; that
happens also if the declaration then fails for want of its register. -/
def declare (s : Scope) (name : String) (v : Variable) (shares : Bool) : Except ScopeError Unit × Scope :=
  if s.locals.contains name then (.error (.redeclared name), s)
  else
    let s := s.unbind name
    match if shares then none else s.clash? v with
    | some (r, owner) => (.error (.registerInUse name r owner), s)
    | none => (.ok (), s.bind name v)

def undefine (s : Scope) (name : String) : Except ScopeError Unit × Scope :=
  let known := (s.get? name).isSome
  let s := { s with locals := s.locals.filter (· != name) }
  (if known then .ok () else .error (.notKnown name), s.unbind name)

end Scope

def scalarPool : List Register := (List.range 18).filterMap fun i => Register.ofIndex? (i + 8) false

def vectorPool : List Register := (List.range 26).filterMap fun i => Register.ofIndex? (i + 1) true

def pool (type : DataType) : List Register := if type.isVector then vectorPool else scalarPool

/-- The stack of scopes, the innermost in front.  There is always one. -/
structure ScopeStack where
  top : Scope := {}
  outer : List Scope := []

namespace ScopeStack

/-- The stack with a new scope, which sees what the innermost saw and has declared nothing itself. -/
def push (s : ScopeStack) : ScopeStack := ⟨{ s.top with locals := [] }, s.top :: s.outer⟩

def pop (s : ScopeStack) : ScopeStack := match s.outer with
  | [] => s
  | top :: outer => ⟨top, outer⟩

def depth (s : ScopeStack) : Nat := s.outer.length + 1

def lookup (s : ScopeStack) (name : String) : Except ScopeError Variable := match s.top.get? name with
  | some v => .ok v
  | none => .error (.notKnown name)

def owner (s : ScopeStack) (r : Register) : Option String := s.top.owner r

/-- A declaration in the innermost scope; a name that shares registers may share any. -/
def declare (s : ScopeStack) (name : String) (v : Variable) (shares : Bool) : Except ScopeError Unit × ScopeStack :=
  let (answer, top) := s.top.declare name v shares
  (answer, { s with top })

def undefine (s : ScopeStack) (name : String) : Except ScopeError Unit × ScopeStack :=
  let (answer, top) := s.top.undefine name
  (answer, { s with top })

/-- Whether a value of a type may be put at a register: all it takes is in the pool and free. -/
def fits (s : ScopeStack) (type : DataType) (r : Register) : Bool := s.top.isFree r && (type.registerCount == 1 ||
      match r.next? with
      | some second => (pool type).contains second && s.top.isFree second
      | none => false)

def allocate (s : ScopeStack) (name : String) (type : DataType) : Except ScopeError Register :=
  match (pool type).find? (s.fits type) with
  | some r => .ok r
  | none => .error (.exhausted name)

end ScopeStack
end Microcode
