import Microcode.Selection.Source

/-!
Branches on a comparison.  Equality is tested by the branch itself; an order is first put into the
scratch register.  An order with a constant is turned into one of `<` and `>=` by adding one.
-/

namespace Microcode

def CompareOp.holds (op : CompareOp) (a b : Float) : Bool := match op with
  | eq => a == b
  | ne => a != b
  | lt => a < b
  | le => a ≤ b
  | gt => a > b
  | ge => a ≥ b

def branchOn (opcode : Opcode) (a b : Register) (target : String) : List Instruction :=
  Instruction.withSlot (.scalarWith opcode [a, b] (.label target))

def lessThan (signed : Bool) : Opcode := if signed then .slt else .sltu

def lessThanConstant (signed : Bool) : Opcode := if signed then .slti else .sltiu

def branchRegisters (signed : Bool) (left : Register) (op : CompareOp) (right : Register)
    (target : String) : List Instruction :=
  match op with
  | .eq => branchOn .beq left right target
  | .ne => branchOn .bne left right target
  | .lt => .scalar (lessThan signed) [.scratch, left, right] :: branchOn .bne .scratch .zero target
  | .ge => .scalar (lessThan signed) [.scratch, left, right] :: branchOn .beq .scratch .zero target
  | .gt => .scalar (lessThan signed) [.scratch, right, left] :: branchOn .bne .scratch .zero target
  | .le => .scalar (lessThan signed) [.scratch, right, left] :: branchOn .beq .scratch .zero target

/-- A comparison with a number left in the scratch register: whether the register is less. -/
def testBelow (signed : Bool) (left : Register) (bound : Int64) : List Instruction :=
  let bound := lowWord bound
  if fitsSigned (signedWord bound) then
    [.scalarWith (lessThanConstant signed) [.scratch, left] (.imm (signedWord bound))]
  else loadWord .scratch bound ++ [.scalar (lessThan signed) [.scratch, left, .scratch]]

def branchConstant (signed : Bool) (left : Register) (op : CompareOp) (value : Int64)
    (target : String) : List Instruction :=
  let equality (opcode : Opcode) := if value = 0 then branchOn opcode left .zero target
    else loadConstant .scratch value ++ branchOn opcode left .scratch target
  match op with
  | .eq => equality .beq
  | .ne => equality .bne
  | .lt => testBelow signed left value ++ branchOn .bne .scratch .zero target
  | .ge => testBelow signed left value ++ branchOn .beq .scratch .zero target
  | .le => testBelow signed left (value + 1) ++ branchOn .bne .scratch .zero target
  | .gt => testBelow signed left (value + 1) ++ branchOn .beq .scratch .zero target

def branchIf (scopes : ScopeStack) (c : Comparison) (target : String) : Except Fault (List Instruction) := do
  let left ← c.left.source scopes
  let right ← c.right.source scopes
  match orient left c.op right with
  | (.variable l, op, right) =>
    if l.isVector then throw (.condition .vectorOperand)
    match right with
    | .variable r =>
      if r.isVector then throw (.condition .vectorOperand)
      pure (branchRegisters l.type.isSigned l.register op r.register target)
    | .constant c =>
      match c.toInt? with
      | none => throw (.condition .floatConstant)
      | some v => pure (branchConstant l.type.isSigned l.register op v target)
    | .address name =>
      pure (.address .scratch name 0 :: branchRegisters l.type.isSigned l.register op .scratch target)
  | (.constant a, op, .constant b) =>
    pure (if op.holds a.toFloat b.toFloat then Instruction.jump .j target else [])
  | (.constant _, _, _) => throw (.condition .stateWithConstant)
  | (.address name, _, _) => throw (.condition (.stateOperand name))

end Microcode
