import Microcode.Text.Letter
import Microcode.Text.Numeral
import Microcode.Token

/-!
Cutting a text into tokens.

A lexeme is read from the characters at hand alone: what kind of token it is and how many characters
it covers never depends on where it stands.  The place is added afterwards, by walking over the
characters covered, and so every lexical fault is reported at the start of its lexeme.
-/

namespace Microcode

inductive LexFault where
  | unexpectedChar (c : Char)
  | unterminatedString
  | unterminatedComment
  | invalidNumber
  | invalidSwizzle (text : String)
deriving DecidableEq, Repr

structure LexError where
  fault : LexFault
  place : Position
deriving DecidableEq, Repr

namespace LexError

def line (e : LexError) : Nat := e.place.line

/-- The column that the error is reported at; a comment is reported by its line only. -/
def col? (e : LexError) : Option Nat := match e.fault with
  | .unterminatedComment => none
  | _ => some e.place.col

def message (e : LexError) : String :=
  let line := toString e.place.line
  let place := "at line " ++ line ++ ", col " ++ toString e.place.col
  match e.fault with
  | .unexpectedChar c => "unexpected character '" ++ c.toString ++ "' " ++ place
  | .unterminatedString => "unterminated string " ++ place
  | .unterminatedComment => "unterminated block comment starting at line " ++ line
  | .invalidNumber => "invalid number " ++ place
  | .invalidSwizzle text => "invalid swizzle '." ++ text ++ "' " ++ place

end LexError

/-- What stands at the start of a text: a token, or blanks and comments, which are none. -/
structure Lexeme where
  kind? : Option TokenKind
  more : Nat

namespace Lexeme

def token (kind : TokenKind) (more : Nat) : Lexeme := ⟨some kind, more⟩

def skip (more : Nat) : Lexeme := ⟨none, more⟩

def commentLength? : List Char → Option Nat
  | [] => none
  | '*' :: '/' :: _ => some 2
  | _ :: rest => (commentLength? rest).map (· + 1)

/-- The text of a string and the number of characters up to and with its closing quote.  After a
backslash `n`, `t`, a backslash and a quote have their usual meaning, and any other character, a line
feed too, stands for itself with the backslash. -/
def stringBody? : List Char → Option (List Char × Nat)
  | [] => none
  | '\n' :: _ => none
  | '"' :: _ => some ([], 1)
  | '\\' :: [] => none
  | '\\' :: c :: rest =>
    let meaning := match c with
      | 'n' => ['\n']
      | 't' => ['\t']
      | '\\' => ['\\']
      | '"' => ['"']
      | c => ['\\', c]
    (stringBody? rest).map fun (text, n) => (meaning ++ text, n + 2)
  | c :: rest => (stringBody? rest).map fun (text, n) => (c :: text, n + 1)

/-- The digits that a text starts with and the number of characters they take.  Once a digit has been
seen, an apostrophe between or after digits groups them and counts for nothing. -/
def digitRun (base : Nat) (seen : Bool) : List Char → List Char × Nat
  | [] => ([], 0)
  | c :: rest =>
    if (Text.digitValue? base c).isSome then
      let (digits, n) := digitRun base true rest
      (c :: digits, n + 1)
    else if c = '\'' && seen then
      let (digits, n) := digitRun base true rest
      (digits, n + 1)
    else ([], 0)

/-- A number in base two or sixteen: up to 64 bits, read as a signed word. -/
def basedNumber (base : Nat) (rest : List Char) : Except LexFault (TokenKind × Nat) :=
  let (digits, n) := digitRun base false rest
  let value := Text.numberOf base digits
  if digits.isEmpty || UInt64.size ≤ value then .error .invalidNumber
  else .ok (.int value.toUInt64.toInt64, n + 2)

/-- A decimal number: a whole number of at most 63 bits, or, with a point and a digit after it, a
fraction. -/
def decimalNumber (cs : List Char) : Except LexFault (TokenKind × Nat) := let (whole, n) := digitRun 10 false cs
  match cs.drop n with
  | '.' :: d :: rest =>
    if d.isDigit then
      let (fraction, k) := digitRun 10 false (d :: rest)
      let value := Float.ofScientific (Text.numberOf 10 (whole ++ fraction)) true fraction.length
      .ok (.float value, n + 1 + k)
    else wholeNumber whole n
  | _ => wholeNumber whole n
where
  wholeNumber (digits : List Char) (n : Nat) : Except LexFault (TokenKind × Nat) :=
    let value := Text.numberOf 10 digits
    if Int64.maxValue.toInt < value then .error .invalidNumber
    else .ok (.int value.toUInt64.toInt64, n)

/-- The number that a text starts with, and the characters it covers.  Nothing that continues a word
may follow directly. -/
def number (cs : List Char) : Except LexFault (TokenKind × Nat) := do
  let (kind, n) ← match cs with
    | '0' :: 'x' :: rest | '0' :: 'X' :: rest => basedNumber 16 rest
    | '0' :: 'b' :: rest | '0' :: 'B' :: rest => basedNumber 2 rest
    | _ => decimalNumber cs
  match cs.drop n with
  | c :: _ => if Text.isWordChar c then .error .invalidNumber else .ok (kind, n)
  | [] => .ok (kind, n)

def word (cs : List Char) : List Char := cs.takeWhile Text.isWordChar

def wordKind (name : String) : TokenKind := match Keyword.ofText? name with
  | some w => .keyword w
  | none =>
    match DataType.ofName? name with
    | some t => .type t
    | none => .ident name

def withEquals (op : BinaryOp) (plain : Sign) : List Char → Lexeme
  | '=' :: _ => token (.compound op) 1
  | _ => token (.sign plain) 0

def orLonger (next : Char) (longer plain : Sign) : List Char → Lexeme
  | c :: _ => if c = next then token (.sign longer) 1 else token (.sign plain) 0
  | [] => token (.sign plain) 0

def angle (bracket : Char) (op : BinaryOp) (shift plain orEqual : Sign) : List Char → Lexeme
  | '=' :: _ => token (.sign orEqual) 1
  | c :: '=' :: _ => if c = bracket then token (.compound op) 2 else token (.sign plain) 0
  | c :: _ => if c = bracket then token (.sign shift) 1 else token (.sign plain) 0
  | [] => token (.sign plain) 0

def simpleSign? : Char → Option Sign
  | '?' => some .question
  | ':' => some .colon
  | ';' => some .semicolon
  | ',' => some .comma
  | '@' => some .atSign
  | '(' => some .lParen
  | ')' => some .rParen
  | '[' => some .lBracket
  | ']' => some .rBracket
  | '\x7b' => some .lBrace
  | '\x7d' => some .rBrace
  | _ => none

def slash (rest : List Char) : Except LexFault Lexeme := match rest with
  | '/' :: line => .ok (skip (1 + (line.takeWhile (· != '\n')).length))
  | '*' :: body =>
    match commentLength? body with
    | some n => .ok (skip (1 + n))
    | none => .error .unterminatedComment
  | _ => .ok (withEquals .div .slash rest)

def read (c : Char) (rest : List Char) : Except LexFault Lexeme := match c with
  | ' ' | '\t' | '\r' | '\n' => .ok (skip 0)
  | '/' => slash rest
  | '"' =>
    match stringBody? rest with
    | some (text, n) => .ok (token (.string (String.ofList text)) n)
    | none => .error .unterminatedString
  | '$' =>
    let name := word rest
    if name.isEmpty then .error (.unexpectedChar '$')
    else .ok (token (.register (String.ofList ('$' :: name))) name.length)
  | '.' =>
    let name := word rest
    match Swizzle.ofPattern? name with
    | some s => .ok (token (.swizzle s) name.length)
    | none => .error (.invalidSwizzle (String.ofList name))
  | '+' =>
    match rest with
    | '*' :: _ => .ok (token (.sign .mulAdd) 1)
    | _ => .ok (withEquals .add .plus rest)
  | '-' => .ok (withEquals .sub .minus rest)
  | '*' => .ok (withEquals .mul .star rest)
  | '%' => .ok (withEquals .mod .percent rest)
  | '&' => .ok (withEquals .and .amp rest)
  | '|' => .ok (withEquals .or .pipe rest)
  | '^' => .ok (withEquals .xor .caret rest)
  | '~' => .ok (orLonger '|' .nor .tilde rest)
  | '!' => .ok (orLonger '=' .notEq .bang rest)
  | '=' => .ok (orLonger '=' .eqEq .assign rest)
  | '<' => .ok (angle '<' .shl .shl .lt .ltEq rest)
  | '>' => .ok (angle '>' .shr .shr .gt .gtEq rest)
  | c =>
    if c.isDigit then
      (number (c :: rest)).map fun (kind, n) => token kind (n - 1)
    else if c.isAlpha || c = '_' then
      let name := word (c :: rest)
      .ok (token (wordKind (String.ofList name)) (name.length - 1))
    else
      match simpleSign? c with
      | some s => .ok (token (.sign s) 0)
      | none => .error (.unexpectedChar c)

end Lexeme

namespace Token

def listFrom (place : Position) (text : List Char) : Except LexError (List Token) := match text with
  | [] => .ok [⟨.eof, place, place.byte⟩]
  | c :: rest =>
    match Lexeme.read c rest with
    | .error fault => .error ⟨fault, place⟩
    | .ok lexeme =>
      let next := (place.after c).afterAll (rest.take lexeme.more)
      match lexeme.kind? with
      | none => listFrom next (rest.drop lexeme.more)
      | some kind =>
        (listFrom next (rest.drop lexeme.more)).map (⟨kind, place, next.byte⟩ :: ·)
termination_by text.length
decreasing_by all_goals simp +arith

def ofText (source : String) : Except LexError (List Token) := listFrom .start source.toList

end Token
end Microcode
