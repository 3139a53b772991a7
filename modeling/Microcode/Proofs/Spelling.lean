import Microcode.Program.Parser

/-!
How a program is written down, and which programs can be.

`Program.spelling` is the canonical way to write a program: braces around every body, the state block even
when it is empty, brackets for groups and nowhere else, and a negative constant as a minus sign with the
constant of the other sign behind it.
-/

namespace Microcode

def spellListed {α : Type} (spell : α → List TokenKind) : List α → List TokenKind
  | [] => []
  | a :: more => spell a ++ more.flatMap fun b => .sign .comma :: spell b

/-! ### Operands and expressions -/

def BinaryOp.sign : BinaryOp → Sign
  | add => .plus
  | sub => .minus
  | mul => .star
  | div => .slash
  | mod => .percent
  | and => .amp
  | or => .pipe
  | xor => .caret
  | nor => .nor
  | shl => .shl
  | shr => .shr
  | mulAdd => .mulAdd

def UnaryOp.sign : UnaryOp → Sign
  | neg => .minus
  | not => .tilde
  | logicalNot => .bang

def CompareOp.sign : CompareOp → Sign
  | eq => .eqEq
  | ne => .notEq
  | lt => .lt
  | le => .ltEq
  | gt => .gt
  | ge => .gtEq

namespace Constant

def isNegative : Constant → Bool
  | int v => v < 0
  | float x => x.toBits >>> 63 == 1

def literal : Constant → TokenKind
  | int v => .int v
  | float x => .float x

def spelling (c : Constant) : List TokenKind := if c.isNegative then [.sign .minus, c.negate.literal] else [c.literal]

end Constant

def spellSwizzle (s : Option Swizzle) : List TokenKind := (s.map TokenKind.swizzle).toList

namespace Operand

def spelling (o : Operand) : List TokenKind := match o.atom with
  | .variable name => .ident name :: spellSwizzle o.swizzle
  | .constant c => c.spelling
  | .address _ => []

def IsVariable (o : Operand) : Prop := ∃ name, o.atom = .variable name

def Writable (o : Operand) : Prop := o.IsVariable ∨ ∃ c, o = .ofConstant c

end Operand

namespace Comparison

def spelling (c : Comparison) : List TokenKind := c.left.spelling ++ .sign c.op.sign :: c.right.spelling

def Writable (c : Comparison) : Prop := c.left.Writable ∧ c.right.Writable

end Comparison

namespace CallArg

def spelling : CallArg → List TokenKind
  | operand o => o.spelling
  | string text => [.string text]

def Writable : CallArg → Prop
  | operand o => o.Writable
  | string _ => True

end CallArg

def spellArgs (args : List CallArg) : List TokenKind :=
  .sign .lParen :: (spellListed CallArg.spelling args ++ [.sign .rParen])

mutual

def Part.spelling : Part → List TokenKind
  | .operand o => o.spelling
  | .op op => [.sign op.sign]
  | .group parts => .sign .lParen :: (spellParts parts ++ [.sign .rParen])

def spellParts : List Part → List TokenKind
  | [] => []
  | p :: rest => p.spelling ++ spellParts rest

end

mutual

def Part.IsTerm : Part → Prop
  | .operand o => o.Writable
  | .op _ => False
  | .group parts => Alternating parts

def Alternating : List Part → Prop
  | [] => False
  | t :: rest => t.IsTerm ∧ Continues rest

def Continues : List Part → Prop
  | [] => True
  | .op _ :: t :: rest => t.IsTerm ∧ Continues rest
  | _ => False

end

namespace Expr

def spelling : Expr → List TokenKind
  | constant c => c.spelling
  | copy o => o.spelling
  | unary op o => .sign op.sign :: o.spelling
  | binary op left right => left.spelling ++ .sign op.sign :: right.spelling
  | withConstant op left c => left.spelling ++ .sign op.sign :: c.spelling
  | call name args swizzle => .ident name :: (spellArgs args ++ spellSwizzle swizzle)
  | test c => c.spelling
  | choose c yes no => c.spelling ++ .sign .question :: (yes.spelling ++ .sign .colon :: no.spelling)
  | flat parts => spellParts parts

def Writable : Expr → Prop
  | constant _ => True
  | copy o => o.IsVariable
  | unary op o => o.Writable ∧ (op = .neg → o.IsVariable)
  | binary _ left right => left.IsVariable ∧ right.IsVariable
  | withConstant _ left _ => left.IsVariable
  | call _ args _ => ∀ a ∈ args, a.Writable
  | test c => c.Writable
  | choose c yes no => c.Writable ∧ yes.Writable ∧ no.Writable
  | flat parts => Alternating parts ∧ ofParts parts = flat parts

end Expr

namespace Binding

def token : Binding → TokenKind
  | named name => .register name
  | index n => .register ("$" ++ toString n)

def Writable : Binding → Prop
  | named name => (name.toList.drop 1).all Char.isDigit = false
  | index n => n < UInt32.size

end Binding

def spellBinding : Option Binding → List TokenKind
  | none => []
  | some b => [.sign .lt, b.token, .sign .gt]

/-- What a declaration starts with: `const` if it is one, the type and the register. -/
def spellType (isConst : Bool) (type : DataType) (register : Option Binding) : List TokenKind :=
  (if isConst then [.keyword .constKw] else []) ++ .type type :: spellBinding register

def spellAssign : Option BinaryOp → TokenKind
  | none => .sign .assign
  | some op => .compound op

namespace Action

def spelling : Action → List TokenKind
  | declare d => spellType d.isConst d.type d.register ++ [.ident d.name, .sign .semicolon]
  | declareInit d v =>
    spellType d.isConst d.type d.register ++ .ident d.name :: .sign .assign :: (v.spelling ++ [.sign .semicolon])
  | declareMany names type register isConst =>
    spellType isConst type register ++ (spellListed (fun name => [.ident name]) names ++ [.sign .semicolon])
  | declareAlias _ _ _ => []
  | undefine name => [.keyword .undefKw, .ident name, .sign .semicolon]
  | assign a =>
    .ident a.target :: (spellSwizzle a.swizzle ++ spellAssign a.op :: (a.value.spelling ++ [.sign .semicolon]))
  | call name args => .ident name :: (spellArgs args ++ [.sign .semicolon])
  | goto target => [.keyword .gotoKw, .ident target, .sign .semicolon]
  | label name => [.ident name, .sign .colon]
  | breakLoop => [.keyword .breakKw, .sign .semicolon]
  | continueLoop => [.keyword .continueKw, .sign .semicolon]
  | exit => [.keyword .exitKw, .sign .semicolon]
  | asm text => [.keyword .asmKw, .sign .lParen, .string text, .sign .rParen, .sign .semicolon]

/-- The action has a spelling: it is no second name for a register, which only a macro call brings in. -/
def Writable : Action → Prop
  | declare d => ∀ b, d.register = some b → b.Writable
  | declareInit d v => (∀ b, d.register = some b → b.Writable) ∧ v.Writable
  | declareMany names _ register _ => 2 ≤ names.length ∧ ∀ b, register = some b → b.Writable
  | declareAlias _ _ _ => False
  | assign a => a.isInit = false ∧ a.value.Writable
  | call _ args => ∀ a ∈ args, a.Writable
  | _ => True

end Action

def spellMarkerValue : Option MarkerValue → List TokenKind
  | none => []
  | some (.int v) => [.sign .lParen, .int v, .sign .rParen]
  | some (.string text) => [.sign .lParen, .string text, .sign .rParen]

def Marker.spelling (m : Marker) : List TokenKind := .sign .atSign :: .ident m.kind.name :: spellMarkerValue m.value

def spellCondition (c : Comparison) : List TokenKind := .sign .lParen :: (c.spelling ++ [.sign .rParen])

def spellBraces (inner : List TokenKind) : List TokenKind := .sign .lBrace :: (inner ++ [.sign .rBrace])

mutual

def Statement.bareSpelling : Statement → List TokenKind
  | .block _ body => spellBraces (spellBlock body)
  | .branch _ c yes none => .keyword .ifKw :: (spellCondition c ++ spellBraces (spellBlock yes))
  | .branch _ c yes (some no) =>
    .keyword .ifKw :: (spellCondition c ++ (spellBraces (spellBlock yes)
      ++ .keyword .elseKw :: spellBraces (spellBlock no)))
  | .whileLoop _ c body => .keyword .whileKw :: (spellCondition c ++ spellBraces (spellBlock body))
  | .loop _ body none => .keyword .loopKw :: spellBraces (spellBlock body)
  | .loop _ body (some c) =>
    .keyword .loopKw :: (spellBraces (spellBlock body) ++ .keyword .whileKw :: (spellCondition c ++ [.sign .semicolon]))
  | .action _ a => a.spelling

def spellBlock : List Statement → List TokenKind
  | [] => []
  | s :: rest => s.tag.markers.flatMap Marker.spelling ++ (s.bareSpelling ++ spellBlock rest)

end

def Statement.spelling (s : Statement) : List TokenKind := s.tag.markers.flatMap Marker.spelling ++ s.bareSpelling

theorem spellBlock_eq (body : List Statement) : spellBlock body = body.flatMap Statement.spelling := by
  induction body with
  | nil => rw [spellBlock, List.flatMap_nil]
  | cons s rest ih => rw [spellBlock, List.flatMap_cons, Statement.spelling, ih, List.append_assoc]

def Statement.IsOpenLoop : Statement → Prop
  | .loop _ _ none => True
  | _ => False

def Statement.StartsWithWhile : Statement → Prop
  | .whileLoop tag _ _ => tag.markers = []
  | _ => False

mutual

def Statement.Writable : Statement → Prop
  | .block _ body => writableBlock body
  | .branch _ c yes none => c.Writable ∧ writableBlock yes
  | .branch _ c yes (some no) => c.Writable ∧ writableBlock yes ∧ writableBlock no
  | .whileLoop _ c body => c.Writable ∧ writableBlock body
  | .loop _ body none => writableBlock body
  | .loop _ body (some c) => writableBlock body ∧ c.Writable
  | .action _ a => a.Writable

def writableBlock : List Statement → Prop
  | [] => True
  | s :: rest => s.Writable ∧ (s.IsOpenLoop → ∀ next ∈ rest.head?, ¬ next.StartsWithWhile) ∧ writableBlock rest

end

/-! ### Programs -/

namespace Parameter

def spelling (p : Parameter) : List TokenKind := .type p.type :: (spellBinding p.register ++ [.ident p.name])

def Writable (p : Parameter) : Prop := ∀ b, p.register = some b → b.Writable

end Parameter

namespace RoutineKind

def spelling : RoutineKind → List TokenKind
  | function => [.keyword .functionKw]
  | template => [.keyword .macroKw]
  | command index => [.keyword .commandKw, .sign .lt, .int (Int64.ofNat index), .sign .gt]

def Writable : RoutineKind → Prop
  | command index => index < UInt32.size
  | _ => True

end RoutineKind

namespace Routine

def spellBody : Option (List Statement) → List TokenKind
  | none => [.sign .semicolon]
  | some body => spellBraces (spellBlock body)

def spelling (r : Routine) : List TokenKind := r.markers.flatMap Marker.spelling ++ (r.kind.spelling
    ++ .ident r.name :: .sign .lParen :: (spellListed Parameter.spelling r.params ++ .sign .rParen :: spellBody r.body))

structure Writable (r : Routine) : Prop where
  kind : r.kind.Writable
  params : ∀ p ∈ r.params, p.Writable
  body : ∀ b, r.body = some b → writableBlock b

end Routine

namespace StateVariable

def spellAlign : Option Nat → List TokenKind
  | none => []
  | some n => [.keyword .alignasKw, .sign .lParen, .int (Int64.ofNat n), .sign .rParen]

def spellDim (n : Nat) : List TokenKind := [.sign .lBracket, .int (Int64.ofNat n), .sign .rBracket]

def spellInit : List Constant → List TokenKind
  | [] => []
  | c :: more => .sign .assign :: .sign .lBrace :: (spellListed Constant.spelling (c :: more) ++ [.sign .rBrace])

def spelling (v : StateVariable) : List TokenKind :=
  (if v.isExtern then [.keyword .externKw] else []) ++ (spellAlign v.align
    ++ .type v.type :: .ident v.name :: (v.dims.flatMap spellDim ++ (spellInit v.init ++ [.sign .semicolon])))

structure Writable (v : StateVariable) : Prop where
  align : ∀ n, v.align = some n → n < UInt32.size
  dims : ∀ n ∈ v.dims, n < UInt32.size

end StateVariable

def spellInclude (path : String) : List TokenKind := [.keyword .includeKw, .string path, .sign .semicolon]

namespace Program

def spelling (p : Program) : List TokenKind := p.includes.flatMap spellInclude
    ++ .keyword .stateKw :: (spellBraces (p.state.flatMap StateVariable.spelling)
      ++ (p.routines.flatMap Routine.spelling ++ (p.trailingIncludes.flatMap spellInclude ++ [.eof])))

structure Writable (p : Program) : Prop where
  state : ∀ v ∈ p.state, v.Writable
  routines : ∀ r ∈ p.routines, r.Writable

end Program

mutual

def Statement.unlined : Statement → Statement
  | .block tag body => .block ⟨0, tag.markers⟩ (unlinedBlock body)
  | .branch tag c yes none => .branch ⟨0, tag.markers⟩ c (unlinedBlock yes) none
  | .branch tag c yes (some no) => .branch ⟨0, tag.markers⟩ c (unlinedBlock yes) (some (unlinedBlock no))
  | .whileLoop tag c body => .whileLoop ⟨0, tag.markers⟩ c (unlinedBlock body)
  | .loop tag body c => .loop ⟨0, tag.markers⟩ (unlinedBlock body) c
  | .action tag a => .action ⟨0, tag.markers⟩ a

def unlinedBlock : List Statement → List Statement
  | [] => []
  | s :: rest => s.unlined :: unlinedBlock rest

end

theorem unlinedBlock_eq (body : List Statement) : unlinedBlock body = body.map Statement.unlined := by
  induction body with
  | nil => rw [unlinedBlock, List.map_nil]
  | cons s rest ih => rw [unlinedBlock, List.map_cons, ih]

def Routine.unlined (r : Routine) : Routine := { r with body := r.body.map unlinedBlock, line := 0 }

def StateVariable.unlined (v : StateVariable) : StateVariable := { v with line := 0 }

def Program.unlined (p : Program) : Program :=
  { p with state := p.state.map StateVariable.unlined, routines := p.routines.map Routine.unlined }

end Microcode
