import Microcode.Program
import Microcode.Text.Numeral
import Microcode.Token

/-!
Reading a program from its tokens.

The reader looks at most two tokens ahead: a statement that starts with a name is a label, a call or an
assignment by what follows the name.  Statements nest in blocks and expressions in brackets; both
readers take the nesting they may still enter as a bound, and since every level takes a token, the
number of tokens bounds them all.
-/

namespace Microcode

inductive Expectation where
  | identifier
  | stringLiteral
  | integer
  | dataType
  | markerValue
  | routine
  | register
  | statement
  | assignmentOperator
  | number
  | operand
  | comparison
  | endOfFile
  | keyword (word : Keyword)
  | sign (sign : Sign)
deriving DecidableEq, Repr

def Expectation.text : Expectation → String
  | identifier => "identifier"
  | stringLiteral => "string literal"
  | integer => "integer"
  | dataType => "data type"
  | markerValue => "annotation value"
  | routine => "function, command or macro"
  | register => "register"
  | statement => "statement"
  | assignmentOperator => "assignment operator"
  | number => "number"
  | operand => "variable or number"
  | comparison => "comparison operator"
  | endOfFile => "end of file after trailing includes"
  | keyword w => w.text
  | sign s => s.text

inductive ParseError where
  | unexpected (found : TokenKind) (expected : Expectation) (line col : Nat)
  | unknownMarker (name : String) (line : Nat)
  | invalidRegister (name : String) (line : Nat)
  | unexpectedEnd
deriving DecidableEq

namespace ParseError

def line? : ParseError → Option Nat
  | unexpected _ _ line _ | unknownMarker _ line | invalidRegister _ line => some line
  | unexpectedEnd => none

def message : ParseError → String
  | unexpected found expected line col =>
    "unexpected token " ++ found.text ++ " at line " ++ toString line ++ ", col " ++ toString col
      ++ "; expected " ++ expected.text
  | unknownMarker name line =>
    "unknown annotation '@" ++ name ++ "' at line " ++ toString line
  | invalidRegister name line => "invalid register '" ++ name ++ "' at line " ++ toString line
  | unexpectedEnd => "unexpected end of input"

end ParseError

abbrev Parser := StateT (List Token) (Except ParseError)

namespace Parser

/-! ### Single tokens -/

def peek : Parser TokenKind := do
  match ← get with
  | [] => pure .eof
  | t :: _ => pure t.kind

def peekSecond : Parser TokenKind := do
  match ← get with
  | _ :: t :: _ => pure t.kind
  | _ => pure .eof

def line : Parser Nat := do
  match ← get with
  | [] => pure 0
  | t :: _ => pure t.start.line

def advance : Parser Unit := modify (·.drop 1)

def fail {α : Type} (expected : Expectation) : Parser α := do
  match ← get with
  | [] => throw .unexpectedEnd
  | t :: _ =>
    if t.kind = .eof then throw .unexpectedEnd
    else throw (.unexpected t.kind expected t.start.line t.start.col)

def eat (kind : TokenKind) : Parser Bool := do
  if (← peek) = kind then
    advance
    pure true
  else pure false

def expectSign (s : Sign) : Parser Unit := do
  if (← peek) = .sign s then advance else fail (.sign s)

def expectKeyword (w : Keyword) : Parser Unit := do
  if (← peek) = .keyword w then advance else fail (.keyword w)

def identifier : Parser String := do
  match ← peek with
  | .ident name => advance; pure name
  | _ => fail .identifier

def stringLiteral : Parser String := do
  match ← peek with
  | .string text => advance; pure text
  | _ => fail .stringLiteral

def integer : Parser Int64 := do
  match ← peek with
  | .int v => advance; pure v
  | _ => fail .integer

def word : Parser Nat := do
  pure (lowWord (← integer)).toNat

def dataType : Parser DataType := do
  match ← peek with
  | .type t => advance; pure t
  | _ => fail .dataType

def swizzle? : Parser (Option Swizzle) := do
  match ← peek with
  | .swizzle s => advance; pure (some s)
  | _ => pure none

def repeated {α : Type} (asks : TokenKind → Bool) (item : Parser α) : Nat → Parser (List α)
  | 0 => throw .unexpectedEnd
  | bound + 1 => do
    if asks (← peek) then
      let a ← item
      let more ← repeated asks item bound
      pure (a :: more)
    else pure []

/-- Items while the next token asks for one.  Each takes a token, so there are no more than tokens. -/
def many {α : Type} (asks : TokenKind → Bool) (item : Parser α) : Parser (List α) := do
  repeated asks item ((← get).length + 1)

def manyUntil {α : Type} (close : Sign) (item : Parser α) : Parser (List α) := do
  let items ← many (· ≠ .sign close) item
  advance
  pure items

def listedItems {α : Type} (close : Sign) (item : Parser α) : Nat → Parser (List α)
  | 0 => throw .unexpectedEnd
  | bound + 1 => do
    let a ← item
    if ← eat (.sign close) then pure [a]
    else
      expectSign .comma
      let more ← listedItems close item bound
      pure (a :: more)

/-- Items with commas between them, up to a closing sign; there may be none. -/
def listed {α : Type} (close : Sign) (item : Parser α) : Parser (List α) := do
  if ← eat (.sign close) then pure []
  else listedItems close item ((← get).length + 1)

def number : Parser Constant := do
  let negative ← eat (.sign .minus)
  let c : Constant ← match ← peek with
    | .int v => pure (.int v)
    | .float x => pure (.float x)
    | _ => fail .number
  advance
  pure (if negative then c.negate else c)

def operand : Parser Operand := do
  match ← peek with
  | .ident name =>
    advance
    pure ⟨.variable name, ← swizzle?⟩
  | .int _ | .float _ | .sign .minus => pure (.ofConstant (← number))
  | _ => fail .operand

def comparison : Parser Comparison := do
  let left ← operand
  match (← peek).compareOp? with
  | none => fail .comparison
  | some op =>
    advance
    pure ⟨left, op, ← operand⟩

def condition : Parser Comparison := do
  expectSign .lParen
  let c ← comparison
  expectSign .rParen
  pure c

def callArgs : Parser (List CallArg) := do
  expectSign .lParen
  listed .rParen do
    match ← peek with
    | .string text => advance; pure (.string text)
    | _ => pure (.operand (← operand))

def arithmetic (term : Parser Part) : Parser (List Part) := do
  let first ← term
  let more ← many (·.binaryOp?.isSome) do
    let op := (← peek).binaryOp?.getD .add
    advance
    pure [Part.op op, ← term]
  pure (first :: more.flatten)

def term : Nat → Parser Part
  | 0 => throw .unexpectedEnd
  | bound + 1 => do
    if ← eat (.sign .lParen) then
      let inner ← arithmetic (term bound)
      expectSign .rParen
      pure (.group inner)
    else pure (.operand (← operand))

end Parser

/-- The simplest form of an expression as it is written.  Brackets around the whole of it go; one
operator with a variable on its left has a form of its own. -/
def Expr.ofParts : List Part → Expr
  | [.operand o] =>
    match o.constant? with
    | some c => .constant c
    | none => .copy o
  | [.operand left, .op op, .operand right] =>
    match left.name?, right.constant? with
    | some _, some c => .withConstant op left c
    | some _, none => .binary op left right
    | none, _ => .flat [.operand left, .op op, .operand right]
  | [.group inner] => Expr.ofParts inner
  | parts => .flat parts

namespace Parser

/-- The unary operator that the next two tokens start with; a minus sign before a number belongs to
the number. -/
def unaryOp? : TokenKind → TokenKind → Option UnaryOp
  | .sign .minus, .ident _ => some .neg
  | .sign .tilde, _ => some .not
  | .sign .bang, _ => some .logicalNot
  | _, _ => none

def comparisonValue (left : Operand) (op : CompareOp) : Parser Expr := do
  let right ← operand
  let c : Comparison := ⟨left, op, right⟩
  if ← eat (.sign .question) then
    let yes ← operand
    expectSign .colon
    let no ← operand
    pure (.choose c yes no)
  else pure (.test c)

def valueOfParts : Parser Expr := do
  let parts ← arithmetic (term ((← get).length + 1))
  match parts, (← peek).compareOp? with
  | [.operand left], some op =>
    advance
    comparisonValue left op
  | _, _ => pure (Expr.ofParts parts)

def value : Parser Expr := do
  let first ← peek
  let second ← peekSecond
  match first, second with
  | .ident name, .sign .lParen =>
    advance
    let args ← callArgs
    pure (.call name args (← swizzle?))
  | _, _ =>
    match unaryOp? first second with
    | some op =>
      advance
      pure (.unary op (← operand))
    | none => valueOfParts

/-! ### Statements -/

def markerValue? : Parser (Option MarkerValue) := do
  if ← eat (.sign .lParen) then
    let v : MarkerValue ← match ← peek with
      | .int v => pure (.int v)
      | .string text => pure (.string text)
      | _ => fail .markerValue
    advance
    expectSign .rParen
    pure (some v)
  else pure none

def marker : Parser Marker := do
  let line ← line
  advance
  let name ← identifier
  match MarkerKind.ofName? name with
  | none => throw (.unknownMarker name line)
  | some kind => pure ⟨kind, ← markerValue?⟩

def markers : Parser (List Marker) := many (· = .sign .atSign) marker

/-- The register that a name with its dollar sign asks for: by number if it is all digits. -/
def bindingOf (name : String) (line : Nat) : Except ParseError Binding :=
  let digits := name.toList.drop 1
  if digits.all Char.isDigit then
    let n := Text.numberOf 10 digits
    if n < UInt32.size then .ok (.index n) else .error (.invalidRegister name line)
  else .ok (.named name)

def binding? : Parser (Option Binding) := do
  if ← eat (.sign .lt) then
    let line ← line
    match ← peek with
    | .register name =>
      advance
      let b ← bindingOf name line
      expectSign .gt
      pure (some b)
    | _ => fail .register
  else pure none

def declaration : Parser Action := do
  let isConst ← eat (.keyword .constKw)
  let type ← dataType
  let register ← binding?
  let first ← identifier
  let others ← many (· = .sign .comma) do
    advance
    identifier
  if others.isEmpty then
    let d : Declaration := ⟨first, type, register, isConst⟩
    if ← eat (.sign .assign) then
      let v ← value
      expectSign .semicolon
      pure (.declareInit d v)
    else
      expectSign .semicolon
      pure (.declare d)
  else
    expectSign .semicolon
    pure (.declareMany (first :: others) type register isConst)

def assignment : Parser Action := do
  let target ← identifier
  let swizzle ← swizzle?
  let op : Option BinaryOp ← match ← peek with
    | .sign .assign => pure none
    | .compound op => pure (some op)
    | _ => fail .assignmentOperator
  advance
  let v ← value
  expectSign .semicolon
  pure (.assign ⟨target, swizzle, op, v, false⟩)

def wordAction (a : Action) : Parser Action := do
  advance
  expectSign .semicolon
  pure a

def nameAction (make : String → Action) : Parser Action := do
  advance
  let name ← identifier
  expectSign .semicolon
  pure (make name)

def asmAction : Parser Action := do
  advance
  expectSign .lParen
  let text ← stringLiteral
  expectSign .rParen
  expectSign .semicolon
  pure (.asm text)

def namedAction (name : String) : Parser Action := do
  match ← peekSecond with
  | .sign .colon =>
    advance
    advance
    pure (.label name)
  | .sign .lParen =>
    advance
    let args ← callArgs
    expectSign .semicolon
    pure (.call name args)
  | _ => assignment

def action : Parser Action := do
  match ← peek with
  | .keyword .constKw | .type _ => declaration
  | .keyword .gotoKw => nameAction .goto
  | .keyword .breakKw => wordAction .breakLoop
  | .keyword .continueKw => wordAction .continueLoop
  | .keyword .exitKw => wordAction .exit
  | .keyword .undefKw => nameAction .undefine
  | .keyword .asmKw => asmAction
  | .ident name => namedAction name
  | _ => fail .statement

def block (inner : Parser Statement) : Parser (List Statement) := do
  expectSign .lBrace
  manyUntil .rBrace inner

def body (inner : Parser Statement) : Parser (List Statement) := do
  if (← peek) = .sign .lBrace then block inner
  else pure [← inner]

def bareStatement (inner : Parser Statement) (tag : Tag) : Parser Statement := do
  match ← peek with
  | .sign .lBrace => pure (.block tag (← block inner))
  | .keyword .ifKw =>
    advance
    let c ← condition
    let yes ← body inner
    if ← eat (.keyword .elseKw) then pure (.branch tag c yes (some (← body inner)))
    else pure (.branch tag c yes none)
  | .keyword .whileKw =>
    advance
    let c ← condition
    pure (.whileLoop tag c (← body inner))
  | .keyword .loopKw =>
    advance
    let b ← body inner
    if ← eat (.keyword .whileKw) then
      let c ← condition
      expectSign .semicolon
      pure (.loop tag b (some c))
    else pure (.loop tag b none)
  | _ => pure (.action tag (← action))

def statementWith (inner : Parser Statement) : Parser Statement := do
  let markers ← markers
  bareStatement inner ⟨← line, markers⟩

def statement : Nat → Parser Statement
  | 0 => throw .unexpectedEnd
  | bound + 1 => statementWith (statement bound)

def includePath : Parser String := do
  expectKeyword .includeKw
  let path ← stringLiteral
  expectSign .semicolon
  pure path

def alignment? : Parser (Option Nat) := do
  if ← eat (.keyword .alignasKw) then
    expectSign .lParen
    let a ← word
    expectSign .rParen
    pure (some a)
  else pure none

def dimension : Parser Nat := do
  advance
  let n ← word
  expectSign .rBracket
  pure n

def initialValues : Parser (List Constant) := do
  if ← eat (.sign .assign) then
    expectSign .lBrace
    listed .rBrace number
  else pure []

def stateVariable : Parser StateVariable := do
  let line ← line
  let isExtern ← eat (.keyword .externKw)
  let align ← alignment?
  let type ← dataType
  let name ← identifier
  let dims ← many (· = .sign .lBracket) dimension
  let init ← initialValues
  expectSign .semicolon
  pure ⟨name, type, isExtern, align, dims, init, line⟩

def stateBlock : Parser (List StateVariable) := do
  expectKeyword .stateKw
  expectSign .lBrace
  manyUntil .rBrace stateVariable

def parameter : Parser Parameter := do
  let type ← dataType
  let register ← binding?
  pure ⟨← identifier, type, register⟩

def routineKind : Parser RoutineKind := do
  match ← peek with
  | .keyword .functionKw => advance; pure .function
  | .keyword .macroKw => advance; pure .template
  | .keyword .commandKw =>
    advance
    expectSign .lt
    let index ← word
    expectSign .gt
    pure (.command index)
  | _ => fail .routine

def routineBody : Parser (Option (List Statement)) := do
  if ← eat (.sign .semicolon) then pure none
  else pure (some (← block (statement ((← get).length + 1))))

def routine : Parser Routine := do
  let markers ← markers
  let line ← line
  let kind ← routineKind
  let name ← identifier
  expectSign .lParen
  let params ← listed .rParen parameter
  let body ← routineBody
  pure ⟨kind, name, params, body, markers, line⟩

def program : Parser Program := do
  let includes ← many (· = .keyword .includeKw) includePath
  let state ← if (← peek) = .keyword .stateKw then stateBlock else pure []
  let routines ← many (fun k => k ≠ .eof && k ≠ .keyword .includeKw) routine
  let trailingIncludes ← many (· = .keyword .includeKw) includePath
  if (← peek) = .eof then pure ⟨includes, state, routines, trailingIncludes⟩
  else fail .endOfFile

end Parser

def Program.ofTokens (tokens : List Token) : Except ParseError Program := (Parser.program.run tokens).map Prod.fst

end Microcode
