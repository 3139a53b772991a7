import Microcode.Selection.Branch

/-!
Scalar values: the instructions that leave the value of a right-hand side in a scalar register.  Apart
from the target only the scratch register is overwritten.
-/

namespace Microcode

def Constant.whole (c : Constant) : Except Fault Int64 := match c.toInt? with
  | some v => .ok v
  | none => .error (.scalar (.floatConstant c))

def log2? (v : Int64) : Option Int64 :=
  if 0 < v ∧ v &&& (v - 1) = 0 then some (Int64.ofNat (Nat.log2 v.toNatClampNeg)) else none

def copyScalar (target source : Register) : List Instruction :=
  if target = source then [] else [.scalar .or [target, source, .zero]]

/-- The register that holds a source, and the instructions that bring it there.  What is not in a
scalar register goes into the one offered. -/
def Source.scalar (offered : Register) : Source → Except Fault (Register × List Instruction)
  | .variable p =>
    if !p.isVector then .ok (p.register, [])
    else
      match p.lane? with
      | some _ => .ok (offered, [⟨.mfc2, [.reg offered, .lanes p.register p.selector], {}⟩])
      | none => .error (.scalar .vectorIntoScalar)
  | .constant c => do
    let v ← c.whole
    pure (offered, loadConstant offered v)
  | .address name => .ok (offered, [.address offered name 0])

def Source.checkType (s : Source) (target : Target) (op : BinaryOp) : Except Fault Unit := match s with
  | .variable p =>
    if p.type = target.place.type then .ok ()
    else .error (.scalar (.typeMismatch target.name op p.type target.place.type))
  | _ => .ok ()

def BinaryOp.scalarOpcode (op : BinaryOp) (signed : Bool) : Except Fault Opcode := match op with
  | add => .ok .addu
  | sub => .ok .subu
  | and => .ok .and
  | or => .ok .or
  | xor => .ok .xor
  | nor => .ok .nor
  | shl => .ok .sllv
  | shr => .ok (if signed then .srav else .srlv)
  | mul | div | mod => .error (.scalar (.powersOnly op))
  | mulAdd => .error (.scalar .multiplyAdd)

/-- An operation on two operands.  A left operand that is in no register goes into the target, unless
the right operand is still there. -/
def scalarBinary (scopes : ScopeStack) (target : Target) (op : BinaryOp) (left right : Operand) :
    Except Fault (List Instruction) := do
  let d := target.place.register
  let l ← left.source scopes
  let r ← right.source scopes
  l.checkType target op
  r.checkType target op
  let rightIsTarget := r.place?.map Place.register = some d
  let (ls, leftCode) ← l.scalar (if rightIsTarget then .scratch else d)
  if !r.isVariable && ls = .scratch then throw (.scalar .twoTemporaries)
  let (rs, rightCode) ← r.scalar .scratch
  let opcode ← op.scalarOpcode (l.isSigned target.place.type)
  pure (leftCode ++ rightCode ++ [.scalar opcode [d, ls, rs]])

def addConstant (d s : Register) (op : BinaryOp) (v : Int64) : List Instruction :=
  let add := if op = .sub then -v else v
  if add = 0 then copyScalar d s
  else if fitsSigned add then [.scalarWith .addiu [d, s] (.imm add)]
  else
    loadConstant .scratch v ++ [.scalar (if op = .sub then .subu else .addu) [d, s, .scratch]]

def bitsConstant (d s : Register) (immediate register : Opcode) (v : Int64) : List Instruction :=
  if fitsUnsigned v then [.scalarWith immediate [d, s] (.hex (lowWord v))]
  else loadConstant .scratch v ++ [.scalar register [d, s, .scratch]]

/-- A shift by a power of two's exponent; none is needed for the first. -/
def shiftConstant (d s : Register) (opcode : Opcode) (amount : Int64) : List Instruction :=
  if amount = 0 then copyScalar d s else [.scalarWith opcode [d, s] (.imm amount)]

def constantStep (d s : Register) (signed : Bool) (op : BinaryOp) (v : Int64) : Except Fault (List Instruction) :=
  let shiftRight : Opcode := if signed then .sra else .srl
  match op with
  | .add | .sub => .ok (addConstant d s op v)
  | .mul =>
    if v = 0 then .ok (loadConstant d 0)
    else
      match log2? v with
      | some amount => .ok (shiftConstant d s .sll amount)
      | none => .error (.scalar (.multiplication v))
  | .div =>
    if v = 0 then .error (.scalar .divisionByZero)
    else
      match log2? v with
      | some amount => .ok (shiftConstant d s shiftRight amount)
      | none => .error (.scalar (.division v))
  | .mod =>
    match log2? v with
    | some _ => .ok (bitsConstant d s .andi .and (v - 1))
    | none => .error (.scalar (.modulo v))
  | .and => .ok (bitsConstant d s .andi .and v)
  | .or => .ok (bitsConstant d s .ori .or v)
  | .xor => .ok (bitsConstant d s .xori .xor v)
  | .nor =>
    .ok (if v = 0 then [.scalar .nor [d, s, .zero]]
      else loadConstant .scratch v ++ [.scalar .nor [d, s, .scratch]])
  | .shl | .shr =>
    if 0 ≤ v ∧ v < 32 then
      .ok [.scalarWith (if op = .shl then .sll else shiftRight) [d, s] (.imm v)]
    else .error (.scalar (.shiftRange v))
  | .mulAdd => .error (.scalar .multiplyAdd)

/-- An operation on an operand and a constant.  A constant added to an address is part of it. -/
def scalarWithConstant (scopes : ScopeStack) (target : Target) (op : BinaryOp) (left : Operand)
    (right : Constant) : Except Fault (List Instruction) := do
  let d := target.place.register
  let v ← right.whole
  let l ← left.source scopes
  l.checkType target op
  match l, op with
  | .address name, .add => pure [.address d name v]
  | .address name, .sub => pure [.address d name (-v)]
  | _, _ =>
    let (ls, code) ← l.scalar d
    let step ← constantStep d ls (l.isSigned target.place.type) op v
    pure (code ++ step)

def testZero (d difference : Register) (isZero : Bool) : List Instruction :=
  if isZero then [.scalarWith .sltiu [d, difference] (.imm 1)]
  else [.scalar .sltu [d, .zero, difference]]

def flipTruth (d : Register) (flip : Bool) : List Instruction :=
  if flip then [.scalarWith .xori [d, d] (.imm 1)] else []

def Source.whole? : Source → Except Fault (Option Int64)
  | .constant c => some <$> c.whole
  | _ => .ok none

/-- The register that is zero exactly if a register equals a right operand, and the instructions that
leave it so. -/
def differenceFrom (d ls : Register) (constant : Option Int64)
    (rightOperand : Except Fault (Register × List Instruction)) :
    Except Fault (Register × List Instruction) :=
  match constant.filter fitsUnsigned with
  | some 0 => .ok (ls, [])
  | some v => .ok (d, [.scalarWith .xori [d, ls] (.hex (lowWord v))])
  | none => do
    let (rs, rightCode) ← rightOperand
    pure (d, rightCode ++ [.scalar .xor [d, ls, rs]])

def lessThanOperand (signed : Bool) (d ls : Register) (constant : Option Int64)
    (rightOperand : Except Fault (Register × List Instruction)) : Except Fault (List Instruction) :=
  match constant.filter fitsSigned with
  | some v => .ok [.scalarWith (lessThanConstant signed) [d, ls] (.imm v)]
  | none => do
    let (rs, rightCode) ← rightOperand
    pure (rightCode ++ [.scalar (lessThan signed) [d, ls, rs]])

def scalarTest (scopes : ScopeStack) (target : Target) (c : Comparison) : Except Fault (List Instruction) := do
  let d := target.place.register
  let left ← c.left.source scopes
  let right ← c.right.source scopes
  let (l, op, r) := orient left c.op right
  let signed := l.isSigned target.place.type
  let (ls, leftCode) ← l.scalar .scratch
  let constant ← r.whole?
  let rightOperand := r.scalar (if ls = .scratch then d else .scratch)
  match op with
  | .eq | .ne => do
    let (difference, code) ← differenceFrom d ls constant rightOperand
    pure (leftCode ++ code ++ testZero d difference (op == .eq))
  | .lt | .ge => do
    let code ← lessThanOperand signed d ls constant rightOperand
    pure (leftCode ++ code ++ flipTruth d (op == .ge))
  | .gt | .le => do
    let (rs, rightCode) ← rightOperand
    pure (leftCode ++ rightCode ++ .scalar (lessThan signed) [d, rs, ls] :: flipTruth d (op == .le))

def UnaryOp.apply (op : UnaryOp) (v : Int64) : Int64 := match op with
  | neg => -v
  | not => ~~~v
  | logicalNot => if v = 0 then 1 else 0

def UnaryOp.scalarStep (op : UnaryOp) (d s : Register) : Instruction := match op with
  | neg => .scalar .subu [d, .zero, s]
  | not => .scalar .nor [d, s, .zero]
  | logicalNot => .scalarWith .sltiu [d, s] (.imm 1)

def scalarCopy (scopes : ScopeStack) (target : Target) (o : Operand) : Except Fault (List Instruction) := do
  let s ← o.source scopes
  let (r, code) ← s.scalar target.place.register
  pure (code ++ copyScalar target.place.register r)

/-- The instructions that leave a value in a scalar variable.  A choice between two operands needs
labels and is not among them. -/
def scalarValue (scopes : ScopeStack) (target : Target) : Expr → Except Fault (List Instruction)
  | .constant c => do
    let v ← c.whole
    pure (loadConstant target.place.register v)
  | .copy o => scalarCopy scopes target o
  | .unary op o => do
    let s ← o.source scopes
    match s with
    | .constant c =>
      let v ← c.whole
      pure (loadConstant target.place.register (op.apply v))
    | s =>
      let (r, code) ← s.scalar target.place.register
      pure (code ++ [op.scalarStep target.place.register r])
  | .binary op l r => scalarBinary scopes target op l r
  | .withConstant op l c => scalarWithConstant scopes target op l c
  | .test c => scalarTest scopes target c
  | .choose .. | .call .. | .flat _ => .error (.scalar .unexpectedExpression)

/-- The instructions of a choice: to the first label unless the comparison holds, the one value, to
the second label, the other value. -/
structure Choice where
  test : List Instruction
  yes : List Instruction
  no : List Instruction

def scalarChoice (scopes : ScopeStack) (target : Target) (c : Comparison) (yes no : Operand)
    (otherwise : String) : Except Fault Choice := do
  let test ← branchIf scopes c.negate otherwise
  let yes ← scalarCopy scopes target yes
  let no ← scalarCopy scopes target no
  pure ⟨test, yes, no⟩

end Microcode
