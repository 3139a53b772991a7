import Microcode.Palette
import Microcode.Selection.Builtin
import Microcode.Session
import Microcode.Text.EditDistance
import Microcode.Text.Occurrence

/-!
Errors and warnings with the source line that they are about, and suggestions.
-/

namespace Microcode

inductive Severity where
  | error
  | warning
deriving DecidableEq, Repr

def Severity.name : Severity → String
  | error => "error"
  | warning => "warning"

structure Excerpt where
  text : String
  underline : String
deriving DecidableEq, Repr

structure Diagnostic where
  severity : Severity
  code : String
  message : String
  file : String
  line : Option Nat := none
  col : Option Nat := none
  excerpt : Option Excerpt := none
  suggestions : List String := []
deriving DecidableEq, Repr

namespace Diagnostic

def underlineAt (start width : Nat) : String :=
  String.ofList (List.replicate (start - 1) ' ' ++ List.replicate (max width 1) '^')

/-- The mark under a line.  Without a column it is the whole line without the white space around it,
counted in bytes. -/
def underlineOf (text : List Char) (col : Option Nat) (width : Nat) : String := match col with
  | some col => underlineAt col width
  | none =>
    let bytes (cs : List Char) := (String.ofList cs).utf8ByteSize
    underlineAt (bytes text - bytes (Text.trimStart text) + 1) (bytes (Text.trim text))

/-- The diagnostic with its place in a source text.  A text without the line leaves only its number. -/
def located (d : Diagnostic) (source : String) (line : Nat) (col : Option Nat) (width : Nat) : Diagnostic :=
  let excerpt := (Text.lines source.toList)[line - 1]?.map fun text =>
    ⟨String.ofList text, underlineOf text col width⟩
  { d with line := some line, col, excerpt }

def location? (d : Diagnostic) : Option String := d.line.map fun line =>
    d.file ++ ":" ++ toString line ++ (d.col.map fun col => ":" ++ toString col).getD ""

def render (d : Diagnostic) (p : Palette) : String :=
  let label := match d.severity with
    | .error => p.red d.severity.name
    | .warning => p.yellow d.severity.name
  let head := label ++ "[" ++ p.bold d.code ++ "]: " ++ p.bold d.message ++ "\n"
  let place := match d.location? with
    | some place => "  " ++ p.cyan "-->" ++ " " ++ place ++ "\n"
    | none => ""
  let bar := p.cyan "|"
  let excerpt := match d.line, d.excerpt with
    | some line, some e =>
      "   " ++ bar ++ "\n" ++ Text.padLeft ' ' 3 (p.cyan (toString line)) ++ " " ++ bar ++ " " ++ e.text ++ "\n"
        ++ "   " ++ bar ++ " " ++ p.red e.underline ++ "\n"
    | _, _ => ""
  let help := d.suggestions.map fun text =>
    "   " ++ p.cyan "=" ++ " " ++ p.cyan "help" ++ ": " ++ text ++ "\n"
  head ++ place ++ excerpt ++ String.join help

def plain (d : Diagnostic) : String := d.render ⟨false⟩

def coloured (d : Diagnostic) : String := d.render ⟨true⟩

def syntaxError (message file : String) : Diagnostic := ⟨.error, "E0001", message, file, none, none, none, []⟩

def ofLexError (e : LexError) (source file : String) : Diagnostic :=
  (syntaxError e.message file).located source e.line e.col? 1

def ofParseError (e : ParseError) (source file : String) : Diagnostic :=
  let d := syntaxError e.message file
  match e with
  | .unexpected found _ line col =>
    let types := Text.similar found.text (DataType.all.map DataType.name)
    { d.located source line (some col) found.text.length with
      suggestions := types.map fun name => "did you mean the type '" ++ name ++ "'?" }
  | .unknownMarker _ line =>
    { d.located source line none 0 with
      suggestions := ["known annotations: @Barrier, @Align, @NoReturn, @Unlikely"] }
  | .invalidRegister _ line => d.located source line none 0
  | .unexpectedEnd => d

def ofSourceError (e : Source.SourceError) (source file : String) : Diagnostic :=
  let d := syntaxError e.message file
  match e.line? with
  | some line => d.located source line none 0
  | none => d

def nameQuote : Char := '\x27'

def quotedName? (message : String) : Option String :=
  let rest := (message.toList.dropWhile (· != nameQuote)).drop 1
  if rest.contains nameQuote then some (String.ofList (rest.takeWhile (· != nameQuote))) else none

def builtinsMeant (message : String) : List String := if Text.mentions message "not known" then
    match quotedName? message with
    | some name =>
      if (Builtin.ofName? name).isSome then []
      else Text.similar name (Builtin.all.map Builtin.name)
    | none => []
  else []

def ofFault (fault : Fault) (site : Site) (source file : String) : Diagnostic :=
  let d : Diagnostic := ⟨.error, "E0100", fault.message, file, none, none, none, []⟩
  { d.located source site.line none 0 with
    suggestions := (builtinsMeant fault.message).map (fun name => "did you mean the builtin '" ++ name ++ "'?")
        ++ ["in function '" ++ site.routine ++ "'"] }

def ofDefect (pass message file : String) : Diagnostic :=
  { severity := .error
    code := "E0900"
    message := "internal compiler error in " ++ pass ++ ": " ++ message
    file
    suggestions := ["compile with optimizations disabled to work around it"] }

def ofError (e : CompileError) (source file : String) : Diagnostic := match e with
  | .source e => ofSourceError e source file
  | .lex e => ofLexError e source file
  | .parse e => ofParseError e source file
  | .semantic fault site => ofFault fault site source file
  | .internal d => ofDefect d.pass d.message file

def ofWarning (w : Warning) (source file : String) : Diagnostic :=
  let d : Diagnostic := ⟨.warning, "W0001", w.message, file, none, none, none, []⟩
  if 0 < w.line then d.located source w.line none 0 else d

end Diagnostic
end Microcode
