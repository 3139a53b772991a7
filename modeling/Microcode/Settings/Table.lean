import Microcode.Text.Blank
import Microcode.Text.Line
import Microcode.Text.Numeral

/-!
Tables of settings as text: headers in brackets, and below each header lines that give a key a value.
Values are truth values, numbers and strings of one line; a comment starts with a number sign.
-/

namespace Microcode.Settings

inductive Value where
  | bool (value : Bool)
  | int (value : Int)
  | string (text : String)
  | fraction
deriving DecidableEq, Repr

inductive Entry where
  | blank
  | header (name : String)
  | pair (key : String) (value : Value)
deriving DecidableEq, Repr

def isSpace (c : Char) : Bool := c == ' ' || c == '\t'

def skipSpace (cs : List Char) : List Char := cs.dropWhile isSpace

def isKeyChar (c : Char) : Bool := c.isAlphanum || c == '_' || c == '-'

def isPrintable (c : Char) : Bool := c == '\t' || (0x20 ≤ c.toNat && c.toNat != 0x7F)

def endsLine (cs : List Char) : Bool := match skipSpace cs with
  | [] => true
  | c :: rest => c == '#' && rest.all isPrintable

/-! ### Values -/

/-- Digits of a base, where single underscores may stand between two. -/
def isDigits (base : Nat) : List Char → Bool
  | [c] => (Text.digitValue? base c).isSome
  | c :: '_' :: rest => (Text.digitValue? base c).isSome && isDigits base rest
  | c :: rest => (Text.digitValue? base c).isSome && isDigits base rest
  | [] => false

def digitsValue (base : Nat) (cs : List Char) : Nat := Text.numberOf base (cs.filter (· != '_'))

/-- A decimal number without a needless zero in front. -/
def decimal? (cs : List Char) : Option Nat :=
  if isDigits 10 cs && (cs.length = 1 || cs.head? != some '0') then some (digitsValue 10 cs) else none

def whole? : List Char → Option Int
  | '0' :: 'x' :: cs => if isDigits 16 cs then some (digitsValue 16 cs : Int) else none
  | '0' :: 'o' :: cs => if isDigits 8 cs then some (digitsValue 8 cs : Int) else none
  | '0' :: 'b' :: cs => if isDigits 2 cs then some (digitsValue 2 cs : Int) else none
  | '+' :: cs => (decimal? cs).map fun n => (n : Int)
  | '-' :: cs => (decimal? cs).map fun n => -(n : Int)
  | cs => (decimal? cs).map fun n => (n : Int)

def isWord (n : Int) : Bool := Int64.minValue.toInt ≤ n && n ≤ Int64.maxValue.toInt

def dropSign : List Char → List Char
  | '+' :: cs | '-' :: cs => cs
  | cs => cs

def isFraction (cs : List Char) : Bool :=
  let cs := dropSign cs
  let isExponentMark (c : Char) := c == 'e' || c == 'E'
  let front := cs.takeWhile (! isExponentMark ·)
  let exponent := cs.dropWhile (! isExponentMark ·)
  let whole := front.takeWhile (· != '.')
  let fraction := front.dropWhile (· != '.')
  cs == "inf".toList || cs == "nan".toList
    || ((decimal? whole).isSome && !(fraction.isEmpty && exponent.isEmpty)
      && (fraction.isEmpty || isDigits 10 (fraction.drop 1))
      && (exponent.isEmpty || isDigits 10 (dropSign (exponent.drop 1))))

def word? (cs : List Char) : Option Value := if cs = "true".toList then some (.bool true)
  else if cs = "false".toList then some (.bool false)
  else
    match whole? cs with
    | some n => if isWord n then some (.int n) else none
    | none => if isFraction cs then some .fraction else none

def codePoint? (digits : List Char) : Option Char :=
  let n := Text.numberOf 16 digits
  if digits.all (fun c => (Text.digitValue? 16 c).isSome) && n.isValidChar then some (Char.ofNat n)
  else none

def quoted? : List Char → Option (List Char × List Char)
  | [] => none
  | '"' :: rest => some ([], rest)
  | '\\' :: 'u' :: a :: b :: c :: d :: rest => do
    let x ← codePoint? [a, b, c, d]
    let (text, rest) ← quoted? rest
    pure (x :: text, rest)
  | '\\' :: 'U' :: a :: b :: c :: d :: e :: f :: g :: h :: rest => do
    let x ← codePoint? [a, b, c, d, e, f, g, h]
    let (text, rest) ← quoted? rest
    pure (x :: text, rest)
  | '\\' :: c :: rest => do
    let x ← match c with
      | 'b' => some '\x08'
      | 't' => some '\t'
      | 'n' => some '\n'
      | 'f' => some '\x0c'
      | 'r' => some '\r'
      | '"' => some '"'
      | '\\' => some '\\'
      | _ => none
    let (text, rest) ← quoted? rest
    pure (x :: text, rest)
  | c :: rest =>
    if isPrintable c then do
      let (text, rest) ← quoted? rest
      pure (c :: text, rest)
    else none

def literalQuote : Char := '\x27'

def literal? (cs : List Char) : Option (List Char × List Char) :=
  let text := cs.takeWhile (· != literalQuote)
  match cs.dropWhile (· != literalQuote) with
  | _ :: rest => if text.all isPrintable then some (text, rest) else none
  | [] => none

def value? (cs : List Char) : Option (Value × List Char) := match cs with
  | '"' :: rest => (quoted? rest).map fun (text, rest) => (.string (String.ofList text), rest)
  | c :: rest =>
    if c = literalQuote then
      (literal? rest).map fun (text, rest) => (.string (String.ofList text), rest)
    else
      let isWordChar (c : Char) := !isSpace c && c != '#'
      (word? (cs.takeWhile isWordChar)).map fun v => (v, cs.dropWhile isWordChar)
  | [] => none

def key? (cs : List Char) : Option (String × List Char) := match cs.takeWhile isKeyChar with
  | [] => none
  | key => some (String.ofList key, skipSpace (cs.dropWhile isKeyChar))

def Entry.ofLine? (line : List Char) : Option Entry := match skipSpace line with
  | '[' :: rest => do
    let (name, rest) ← key? (skipSpace rest)
    match rest with
    | ']' :: rest => if endsLine rest then some (.header name) else none
    | _ => none
  | cs =>
    if endsLine cs then some .blank
    else do
      let (key, rest) ← key? cs
      match rest with
      | '=' :: rest =>
        let (value, rest) ← value? (skipSpace rest)
        if endsLine rest then some (.pair key value) else none
      | _ => none

abbrev Table := List (String × Value)

/-- The tables of entries, with the keys in front of the first header.  A header or a key within a table
may come only once. -/
def tables? : List Entry → Option (Table × List (String × Table))
  | [] => some ([], [])
  | entry :: rest => do
    let (keys, tables) ← tables? rest
    match entry with
    | .blank => pure (keys, tables)
    | .pair key value =>
      if (keys.lookup key).isSome then none else pure ((key, value) :: keys, tables)
    | .header name =>
      if (tables.lookup name).isSome then none else pure ([], (name, keys) :: tables)

def tablesOfText? (text : String) : Option (Table × List (String × Table)) := do
  let entries ← (Text.lines text.toList).mapM Entry.ofLine?
  tables? entries

end Microcode.Settings
