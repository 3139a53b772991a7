import Microcode.Json
import Microcode.Program

/-!
Programs and statements as JSON.  A report of a fault shows the statement at fault in this form, its
blocks emptied.
-/

namespace Microcode

def BinaryOp.name : BinaryOp → String
  | add => "Add"
  | sub => "Sub"
  | mul => "Mul"
  | div => "Div"
  | mod => "Mod"
  | and => "And"
  | or => "Or"
  | xor => "Xor"
  | nor => "Nor"
  | shl => "Shl"
  | shr => "Shr"
  | mulAdd => "MulAdd"

def UnaryOp.name : UnaryOp → String
  | neg => "Neg"
  | not => "Not"
  | logicalNot => "LogicalNot"

def CompareOp.name : CompareOp → String
  | eq => "Eq"
  | ne => "Ne"
  | lt => "Lt"
  | le => "Le"
  | gt => "Gt"
  | ge => "Ge"

def Swizzle.kindName : Swizzle → String
  | lane _ => "Lane"
  | broadcast _ => "Broadcast"
  | half _ => "Half"
  | quarter _ => "Quarter"

namespace Json

def nat (n : Nat) : Json := int n

def strings (items : List String) : Json := ofList string items

end Json

open Json (variant object ofOption ofList)

def Constant.json : Constant → Json
  | .int v => variant "Int" (.int v.toInt)
  | .float x => variant "Float" (.float x)

def Swizzle.json (s : Swizzle) : Json := variant s.kindName <| .nat <| match s with
    | lane n | broadcast n => n.val
    | half n => n.val
    | quarter n => n.val

def swizzleJson (s : Option Swizzle) : Json := ofOption Swizzle.json s

def Atom.json : Atom → Json
  | .variable name => variant "Var" (.string name)
  | .address name => variant "Label" (.string name)
  | .constant c => variant "Num" c.json

def Operand.json (o : Operand) : Json := object [("kind", o.atom.json), ("swizzle", swizzleJson o.swizzle)]

def Comparison.json (c : Comparison) : Json :=
  object [("left", c.left.json), ("op", .string c.op.name), ("right", c.right.json)]

def CallArg.json : CallArg → Json
  | .operand o => variant "Operand" o.json
  | .string s => variant "Str" (.string s)

mutual

def Part.json : Part → Json
  | .operand o => variant "Operand" o.json
  | .op op => variant "Op" (.string op.name)
  | .group parts => variant "Group" (.array (partsJson parts))

def partsJson : List Part → List Json
  | [] => []
  | p :: rest => p.json :: partsJson rest

end

def unaryJson (op : Option UnaryOp) (o : Operand) : Json :=
  variant "Var" (object [("op", ofOption (fun u => .string u.name) op), ("operand", o.json)])

def Expr.json : Expr → Json
  | .constant c => variant "Num" c.json
  | .copy o => unaryJson none o
  | .unary op o => unaryJson (some op) o
  | .binary op l r =>
    variant "VarVar" (object [("op", .string op.name), ("left", l.json), ("right", r.json)])
  | .withConstant op l c =>
    variant "VarNum" (object [("op", .string op.name), ("left", l.json), ("right", c.json)])
  | .call name args s =>
    variant "Func" (object [("name", .string name), ("args", ofList CallArg.json args), ("swizzle", swizzleJson s)])
  | .test c => variant "Compare" (object [("cmp", c.json), ("ternary", .null)])
  | .choose c a b =>
    variant "Compare" (object [("cmp", c.json), ("ternary", .array [a.json, b.json])])
  | .flat parts => variant "Multi" (.array (partsJson parts))

def Binding.json : Binding → Json
  | .named name => variant "Named" (.string name)
  | .index n => variant "Index" (.nat n)

def bindingJson (b : Option Binding) : Json := ofOption Binding.json b

def DataType.json (t : DataType) : Json := .string t.name

def Marker.json (a : Marker) : Json :=
  let value : MarkerValue → Json
    | .int v => variant "Int" (.int v.toInt)
    | .string s => variant "Str" (.string s)
  object [("kind", .string a.kind.name), ("value", ofOption value a.value)]

def Declaration.json (d : Declaration) : Json :=
  object [("name", .string d.name), ("ty", d.type.json), ("reg", bindingJson d.register), ("is_const", .bool d.isConst)]

def Assignment.json (a : Assignment) : Json :=
  let op : Json := match a.op with
    | none => .string "Set"
    | some op => variant "Compound" (.string op.name)
  let init := if a.isInit then [("init", Json.bool true)] else []
  object ([("target", .string a.target), ("swizzle", swizzleJson a.swizzle), ("op", op),
    ("calc", a.value.json)] ++ init)

def Action.json : Action → Json
  | .declare d => variant "VarDecl" d.json
  | .declareInit d v => variant "VarDeclAssign" (object [("decl", d.json), ("calc", v.json)])
  | .declareMany names t r isConst =>
    variant "VarDeclMulti" (object [("names", .strings names), ("ty", t.json),
      ("reg", bindingJson r), ("is_const", .bool isConst)])
  | .declareAlias name target t =>
    variant "VarDeclAlias" (object [("name", .string name), ("alias_of", .string target),
      ("ty", ofOption DataType.json t)])
  | .undefine name => variant "VarUndef" (.string name)
  | .assign a => variant "VarAssign" a.json
  | .call name args =>
    variant "FuncCall" (object [("name", .string name), ("args", ofList CallArg.json args)])
  | .goto target => variant "Goto" (.string target)
  | .label name => variant "Label" (.string name)
  | .breakLoop => .string "Break"
  | .continueLoop => .string "Continue"
  | .exit => .string "Exit"
  | .asm text => variant "Asm" (.string text)

def Tag.json (t : Tag) (kind : Json) : Json := let markers :=
    if t.markers.isEmpty then [] else [("annotations", ofList Marker.json t.markers)]
  object ([("kind", kind), ("line", .nat t.line)] ++ markers)

def blockJson (statements : List Json) : Json := object [("stmts", .array statements)]

mutual

def Statement.json : Statement → Json
  | .block t body => t.json (variant "Block" (blockJson (statementsJson body)))
  | .branch t c yes no =>
    t.json (variant "If" (object [("cond", c.json), ("then_block", blockJson (statementsJson yes)),
      ("else_block", match no with
        | none => .null
        | some body => blockJson (statementsJson body))]))
  | .whileLoop t c body =>
    t.json (variant "While" (object [("cond", c.json), ("body", blockJson (statementsJson body))]))
  | .loop t body c =>
    t.json (variant "Loop" (object [("body", blockJson (statementsJson body)), ("cond", ofOption Comparison.json c)]))
  | .action t a => t.json a.json

def statementsJson : List Statement → List Json
  | [] => []
  | s :: rest => s.json :: statementsJson rest

end

def Parameter.json (p : Parameter) : Json :=
  object [("name", .string p.name), ("ty", p.type.json), ("reg", bindingJson p.register)]

def RoutineKind.json : RoutineKind → Json
  | .function => .string "Function"
  | .command n => variant "Command" (.nat n)
  | .template => .string "Macro"

def Routine.json (r : Routine) : Json :=
  object [("kind", r.kind.json), ("name", .string r.name), ("args", ofList Parameter.json r.params),
    ("body", ofOption (fun body => blockJson (statementsJson body)) r.body),
    ("annotations", ofList Marker.json r.markers), ("line", .nat r.line)]

def StateVariable.json (v : StateVariable) : Json :=
  object [("name", .string v.name), ("ty", v.type.json), ("is_extern", .bool v.isExtern),
    ("align", ofOption Json.nat v.align), ("dims", ofList Json.nat v.dims),
    ("init", ofList Constant.json v.init), ("line", .nat v.line)]

def Program.json (p : Program) : Json :=
  object [("includes", .strings p.includes), ("state", ofList StateVariable.json p.state),
    ("items", ofList Routine.json p.routines), ("post_includes", .strings p.trailingIncludes)]

end Microcode
