import Microcode.Constant
import Microcode.DataType
import Microcode.Lane

/-!
Tokens of a source text.  Register names, type names and swizzles are tokens of their own, so that a
reader never has to tell them from other words.
-/

namespace Microcode

inductive Keyword where
  | includeKw | stateKw | externKw | alignasKw | functionKw | commandKw | macroKw
  | ifKw | elseKw | whileKw | loopKw | breakKw | continueKw | exitKw | gotoKw
  | undefKw | constKw | asmKw
deriving DecidableEq, Repr

namespace Keyword

def all : List Keyword := [includeKw, stateKw, externKw, alignasKw, functionKw, commandKw, macroKw,
   ifKw, elseKw, whileKw, loopKw, breakKw, continueKw, exitKw, gotoKw, undefKw, constKw, asmKw]

def text : Keyword → String
  | includeKw => "include"
  | stateKw => "state"
  | externKw => "extern"
  | alignasKw => "alignas"
  | functionKw => "function"
  | commandKw => "command"
  | macroKw => "macro"
  | ifKw => "if"
  | elseKw => "else"
  | whileKw => "while"
  | loopKw => "loop"
  | breakKw => "break"
  | continueKw => "continue"
  | exitKw => "exit"
  | gotoKw => "goto"
  | undefKw => "undef"
  | constKw => "const"
  | asmKw => "asm"

def ofText? (text : String) : Option Keyword := all.find? (·.text == text)

end Keyword

inductive Sign where
  | plus | minus | star | slash | percent | amp | pipe | caret | tilde | bang
  | shl | shr | mulAdd | nor
  | eqEq | notEq | lt | ltEq | gt | gtEq
  | assign
  | question | colon | semicolon | comma | atSign
  | lParen | rParen | lBracket | rBracket | lBrace | rBrace
deriving DecidableEq, Repr

namespace Sign

def text : Sign → String
  | plus => "+"
  | minus => "-"
  | star => "*"
  | slash => "/"
  | percent => "%"
  | amp => "&"
  | pipe => "|"
  | caret => "^"
  | tilde => "~"
  | bang => "!"
  | shl => "<<"
  | shr => ">>"
  | mulAdd => "+*"
  | nor => "~|"
  | eqEq => "=="
  | notEq => "!="
  | lt => "<"
  | ltEq => "<="
  | gt => ">"
  | gtEq => ">="
  | assign => "="
  | question => "?"
  | colon => ":"
  | semicolon => ";"
  | comma => ","
  | atSign => "@"
  | lParen => "("
  | rParen => ")"
  | lBracket => "["
  | rBracket => "]"
  | lBrace => "\x7b"
  | rBrace => "\x7d"

def binaryOp? : Sign → Option BinaryOp
  | plus => some .add
  | minus => some .sub
  | star => some .mul
  | slash => some .div
  | percent => some .mod
  | amp => some .and
  | pipe => some .or
  | caret => some .xor
  | nor => some .nor
  | shl => some .shl
  | shr => some .shr
  | mulAdd => some .mulAdd
  | _ => none

def compareOp? : Sign → Option CompareOp
  | eqEq => some .eq
  | notEq => some .ne
  | lt => some .lt
  | ltEq => some .le
  | gt => some .gt
  | gtEq => some .ge
  | _ => none

end Sign

inductive TokenKind where
  | int (value : Int64)
  | float (value : Float)
  | string (text : String)
  | ident (name : String)
  | register (name : String)
  | type (type : DataType)
  | swizzle (swizzle : Swizzle)
  | keyword (word : Keyword)
  | sign (sign : Sign)
  | compound (op : BinaryOp)
  | eof
deriving DecidableEq

namespace TokenKind

def text : TokenKind → String
  | int v => (Constant.int v).text
  | float x => (Constant.float x).text
  | string s => "\"" ++ s ++ "\""
  | ident s => s
  | register s => s
  | type t => t.name
  | swizzle s => s.text
  | keyword w => w.text
  | sign s => s.text
  | compound op => op.text ++ "="
  | eof => "EOF"

def binaryOp? : TokenKind → Option BinaryOp
  | sign s => s.binaryOp?
  | _ => none

def compareOp? : TokenKind → Option CompareOp
  | sign s => s.compareOp?
  | _ => none

end TokenKind

/-- A place in a text: bytes before it, its line and its column, both counted from one. -/
structure Position where
  byte : Nat
  line : Nat
  col : Nat
deriving DecidableEq, Repr

namespace Position

def start : Position := ⟨0, 1, 1⟩

def after (p : Position) (c : Char) : Position := if c = '\n' then ⟨p.byte + c.utf8Size, p.line + 1, 1⟩
  else ⟨p.byte + c.utf8Size, p.line, p.col + 1⟩

def afterAll (p : Position) (cs : List Char) : Position := cs.foldl after p

end Position

structure Token where
  kind : TokenKind
  start : Position
  stop : Nat
deriving DecidableEq

end Microcode
