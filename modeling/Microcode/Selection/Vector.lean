import Microcode.Selection.Source

/-!
Vector values: the instructions that leave the value of a right-hand side in a vector variable.  An
operation on `vec32` works on both halves, the fractions first, so that carries reach the integers.
A constant operand stands in the first lane of the scratch vector.
-/

namespace Microcode

def Constant.lanePatterns (c : Constant) (type : DataType) : Except VectorFault (UInt16 × UInt16) := match type, c with
  | .vec16, .int v =>
    if -0x8000 ≤ v ∧ v ≤ 0xFFFF then .ok (v.toUInt64.toUInt16, 0) else .error (.beyond16Bits v)
  | .vec16, .float x =>
    if -1.0 ≤ x ∧ x < 1.0 then .ok ((x * 32768.0).round.toInt64.toUInt64.toUInt16, 0)
    else .error (.floatRange16 x)
  | _, c =>
    let fixed : Int64 := match c with
      | .int v => v <<< 16
      | .float x => (x * 65536.0).round.toInt64
    if -0x80000000 ≤ fixed ∧ fixed < 0x100000000 then
      .ok ((fixed >>> 16).toUInt64.toUInt16, fixed.toUInt64.toUInt16)
    else .error (.beyondVec32 c)

def fillLanes (r : Register) (pattern : UInt16) (lane : Option (Fin 8)) : List Instruction := match lane with
  | none =>
    if pattern = 0 then [.vector .vxor r .zeroVector .zeroVector none]
    else
      loadWord .scratch pattern.toUInt32 ++ [.toLane .scratch r 0, .vector .vor r .zeroVector r (some (.lane 0))]
  | some l =>
    if pattern = 0 then [.laneMove .vmov r l .zeroVector l]
    else loadWord .scratch pattern.toUInt32 ++ [.toLane .scratch r l]

def fillConstant (p : Place) (c : Constant) (lane : Option (Fin 8)) : Except Fault (List Instruction) := do
  let (whole, fraction) ← (c.lanePatterns p.type).mapError .vector
  pure (fillLanes p.register whole lane ++ if p.isWide then fillLanes p.fraction fraction lane else [])

/-- A constant as an operand of every lane, and the instructions that prepare it.  Zero is always at
hand. -/
def broadcastConstant (c : Constant) (type : DataType) : Except Fault (Place × List Instruction) := do
  let (whole, fraction) ← (c.lanePatterns type).mapError .vector
  if fraction ≠ 0 then throw (.vector .fractionalConstant)
  if whole = 0 then pure (⟨.zeroVector, .vec16, none⟩, [])
  else
    pure (⟨.scratchVector, .vec16, some (.broadcast 0)⟩,
      loadWord .scratch whole.toUInt32 ++ [.toLane .scratch .scratchVector 0])

def vectorOperand (scopes : ScopeStack) (o : Operand) (type : DataType) : Except Fault (Place × List Instruction) := do
  match ← o.source scopes with
  | .variable p =>
    if p.isVector then pure (p, []) else throw (.vector (.scalarOperand o))
  | .constant c => broadcastConstant c type
  | .address name => throw (.vector (.stateOperand name))

def leftOperand (scopes : ScopeStack) (o : Operand) (type : DataType) : Except Fault (Place × List Instruction) := do
  let (p, code) ← vectorOperand scopes o type
  if p.swizzle.isSome then throw (.vector .leftSwizzled)
  pure (p, code)

def Place.holdsConstant (p : Place) : Bool := p.register == .scratchVector || p.register == .zeroVector

/-- Refuses operands whose types do not fit the operation.  A product may take a narrow factor. -/
def checkVectorTypes (target : Target) (op : BinaryOp) (l r : Place) : Except Fault Unit :=
  let type := target.place.type
  let widens := (op == .mul || op == .mulAdd) && target.place.isWide && r.type == .vec16
  if l.type ≠ type ∨ (r.type ≠ type ∧ !r.holdsConstant ∧ !widens) then
    .error (.vector (.typeMismatch target.name op l.type r.type type))
  else .ok ()

def bothHalves (onFractions onIntegers : Opcode) (d l r : Place) : List Instruction :=
  let (fraction, lanes) := r.fractionOperand
  (if d.isWide then [.vector onFractions d.fraction l.fraction fraction lanes] else [])
    ++ [.vector onIntegers d.register l.register r.register r.selector]

def product (accumulate : Bool) (d l r : Place) : List Instruction :=
  let s := r.selector
  if !d.isWide then
    [.vector (if accumulate then .vmadh else .vmudh) d.register l.register r.register s]
  else if r.isWide then
    [.vector (if accumulate then .vmadl else .vmudl) .scratchVector l.fraction r.fraction s,
     .vector .vmadm .scratchVector l.register r.fraction s,
     .vector .vmadn d.fraction l.fraction r.register s,
     .vector .vmadh d.register l.register r.register s]
  else
    [.vector (if accumulate then .vmadn else .vmudn) d.fraction l.fraction r.register s,
     .vector .vmadh d.register l.register r.register s]

def vectorStep (d : Place) (op : BinaryOp) (l r : Place) : Except Fault (List Instruction) := match op with
  | .add => .ok (bothHalves .vaddc .vadd d l r)
  | .sub => .ok (bothHalves .vsubc .vsub d l r)
  | .mul => .ok (product false d l r)
  | .mulAdd => .ok (product true d l r)
  | .and => .ok (bothHalves .vand .vand d l r)
  | .or => .ok (bothHalves .vor .vor d l r)
  | .xor => .ok (bothHalves .vxor .vxor d l r)
  | .nor => .ok (bothHalves .vnor .vnor d l r)
  | .div | .mod | .shl | .shr => .error (.vector (.unsupported op))

def vectorUnary (d : Place) (op : UnaryOp) (s : Place) : Except Fault (List Instruction) :=
  let onZero (onFractions onIntegers : Opcode) : List Instruction := let (fraction, lanes) := s.fractionOperand
    (if d.isWide then [.vector onFractions d.fraction .zeroVector fraction lanes] else [])
      ++ [.vector onIntegers d.register .zeroVector s.register s.selector]
  match op with
  | .neg => .ok (onZero .vsubc .vsub)
  | .not => .ok (onZero .vnor .vnor)
  | .logicalNot => .error (.vector .logicalNot)

def mergeLanes (d x y : Place) : Except Fault (List Instruction) :=
  if x.swizzle.isSome then .error (.vector .selectSwizzled)
  else
    let (fraction, lanes) := y.fractionOperand
    .ok (.vector .vmrg d.register x.register y.register y.selector
      :: if d.isWide then [.vector .vmrg d.fraction x.fractionOperand.1 fraction lanes] else [])

def orderOperands (op : CompareOp) (l r : Place) : Except Fault (Opcode × Place × Place) :=
  let turned (opcode : Opcode) : Except Fault (Opcode × Place × Place) :=
    if r.swizzle.isSome then .error (.vector (.rightSwizzled op)) else .ok (opcode, r, l)
  match op with
  | .lt => .ok (.vlt, l, r)
  | .ge => .ok (.vge, l, r)
  | .eq => .ok (.veq, l, r)
  | .ne => .ok (.vne, l, r)
  | .gt => turned .vlt
  | .le => turned .vge

def comparedPlaces (scopes : ScopeStack) (d : Place) (c : Comparison) :
    Except Fault (Opcode × Place × Place × List Instruction) := do
  let (l, leftCode) ← leftOperand scopes c.left d.type
  let (r, rightCode) ← vectorOperand scopes c.right d.type
  let (opcode, a, b) ← orderOperands c.op l r
  pure (opcode, a, b, leftCode ++ rightCode)

def vectorTest (scopes : ScopeStack) (d : Place) (c : Comparison) : Except Fault (List Instruction) := do
  let (opcode, a, b, code) ← comparedPlaces scopes d c
  let (fraction, lanes) := b.fractionOperand
  pure (code ++ .vector opcode d.register a.register b.register b.selector
    :: if d.isWide then [.vector .vmrg d.fraction a.fractionOperand.1 fraction lanes] else [])

def vectorChoice (scopes : ScopeStack) (d : Place) (c : Comparison) (yes no : Operand) :
    Except Fault (List Instruction) := do
  let (opcode, a, b, code) ← comparedPlaces scopes d c
  let (x, yesCode) ← vectorOperand scopes yes d.type
  let (y, noCode) ← vectorOperand scopes no d.type
  let merge ← mergeLanes d x y
  pure (code ++ .vector opcode .scratchVector a.register b.register b.selector :: (yesCode ++ noCode ++ merge))

def vectorConstant (d : Place) (c : Constant) : Except Fault (List Instruction) := match d.swizzle with
  | none => fillConstant d c none
  | some (.lane l) => fillConstant d c (some l)
  | some _ => .error (.vector .constantLanes)

def scalarToLane (d : Place) (source : Register) : Except Fault (List Instruction) := match d.lane? with
  | none => .error (.vector .scalarIntoVector)
  | some l =>
    .ok (.toLane source d.register l :: if d.isWide then [.toLane .zero d.fraction l] else [])

/-- A copy of one lane to another.  A narrow source has the fraction zero. -/
def laneToLane (d s : Place) : Except Fault (List Instruction) := match d.lane?, s.lane? with
  | some dl, some sl =>
    let fraction := s.fractionOperand.1
    .ok (.laneMove .vmov d.register dl s.register sl :: if d.isWide then
          [.laneMove .vmov d.fraction dl fraction (if fraction = .zeroVector then dl else sl)]
        else [])
  | _, _ => .error (.vector .laneMove)

/-- A copy of all lanes.  A narrow source leaves the fractions zero. -/
def copyLanes (d s : Place) : List Instruction :=
  if s.swizzle.isNone && s.register == d.register && s.type == d.type then []
  else
    .vector .vor d.register .zeroVector s.register s.selector :: if d.isWide then
          if s.isWide then [.vector .vor d.fraction .zeroVector s.fraction s.selector]
          else [.vector .vxor d.fraction .zeroVector .zeroVector none]
        else []

def vectorCopy (scopes : ScopeStack) (d : Place) (o : Operand) : Except Fault (List Instruction) := do
  match ← o.source scopes with
  | .constant c => vectorConstant d c
  | .address name => throw (.vector (.stateOperand name))
  | .variable s =>
    if !s.isVector then scalarToLane d s.register
    else if d.swizzle.isSome then laneToLane d s
    else pure (copyLanes d s)

def Expr.fitsLanes : Expr → Bool
  | constant _ | copy _ => true
  | _ => false

def vectorValue (scopes : ScopeStack) (target : Target) (e : Expr) : Except Fault (List Instruction) := do
  let d := target.place
  if d.swizzle.isSome && !e.fitsLanes then throw (.vector .targetSwizzled)
  match e with
  | .constant c => vectorConstant d c
  | .copy o => vectorCopy scopes d o
  | .unary op o =>
    let (s, code) ← vectorOperand scopes o d.type
    if s.type ≠ d.type ∧ !s.holdsConstant then
      throw (.vector (.moveMismatch target.name s.type d.type))
    let step ← vectorUnary d op s
    pure (code ++ step)
  | .binary op left right =>
    let (l, leftCode) ← leftOperand scopes left d.type
    let (r, rightCode) ← vectorOperand scopes right d.type
    checkVectorTypes target op l r
    let step ← vectorStep d op l r
    pure (leftCode ++ rightCode ++ step)
  | .withConstant op left right =>
    let (l, leftCode) ← leftOperand scopes left d.type
    checkVectorTypes target op l l
    let (r, rightCode) ← broadcastConstant right d.type
    let step ← vectorStep d op l r
    pure (leftCode ++ rightCode ++ step)
  | .test c => vectorTest scopes d c
  | .choose c yes no => vectorChoice scopes d c yes no
  | .call .. | .flat _ => throw (.vector .unexpectedExpression)

end Microcode
