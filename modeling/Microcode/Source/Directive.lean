import Microcode.Source.Define
import Microcode.Text.Blank
import Microcode.Text.Line

/-!
Directives in a source text: lines that start with `#`.  They define names, leave lines out, and
include other texts.  A directive's own line and every line left out become empty, so the lines that
stay keep their numbers.
-/

namespace Microcode.Source

def includeDepth : Nat := 32

inductive SourceError where
  | unknownDirective (name : String) (line : Nat)
  | malformed (directive : String) (line : Nat)
  | nestedConditional (line : Nat)
  | unmatched (directive : String) (line : Nat)
  | unterminated (line : Nat)
  | includeFailed (path reason : String)
  | includeTooDeep (path : String)
deriving DecidableEq, Repr

namespace SourceError

def line? : SourceError → Option Nat
  | unknownDirective _ line | malformed _ line | nestedConditional line | unmatched _ line
  | unterminated line => some line
  | includeFailed .. | includeTooDeep _ => none

def message : SourceError → String
  | unknownDirective name line => "unknown directive '#" ++ name ++ "' at line " ++ toString line
  | malformed directive line => "malformed #" ++ directive ++ " at line " ++ toString line
  | nestedConditional line =>
    "nested #ifdef/#ifndef at line " ++ toString line ++ " is not supported"
  | unmatched directive line =>
    "#" ++ directive ++ " without matching #ifdef at line " ++ toString line
  | unterminated line =>
    "missing #endif for the conditional opened at line " ++ toString line
  | includeFailed path reason => "cannot include '" ++ path ++ "': " ++ reason
  | includeTooDeep path =>
    "includes nested deeper than " ++ toString includeDepth ++ " levels at '" ++ path ++ "'"

end SourceError

/-- Finds the text behind an include path, or says why it cannot. -/
abbrev Loader := String → Except String String

def Loader.refuse : Loader := fun path =>
  .error ("includes are not available here (requested '" ++ path ++ "')")

structure Conditional where
  line : Nat
  isActive : Bool
  seenElse : Bool
deriving DecidableEq

structure Reading where
  defines : Defines
  conditional : Option Conditional := none

def Reading.isActive (r : Reading) : Bool := match r.conditional with
  | none => true
  | some c => c.isActive

structure Directive where
  name : String
  rest : List Char

def Directive.ofLine? (line : List Char) : Option Directive := match Text.trimStart line with
  | '#' :: text =>
    let (name, rest) := Text.splitAtBlank (Text.trimStart text)
    some ⟨String.ofList name, Text.trim rest⟩
  | _ => none

def quotedPath? : List Char → Option String
  | '"' :: rest =>
    match rest.getLast? with
    | some '"' => some (String.ofList rest.dropLast)
    | _ => none
  | _ => none

namespace Reading

def openConditional (r : Reading) (d : Directive) (ifDefined : Bool) (line : Nat) : Except SourceError Reading :=
  if r.conditional.isSome then .error (.nestedConditional line)
  else if d.rest.isEmpty then .error (.malformed d.name line)
  else .ok { r with conditional := some ⟨line, r.defines.contains d.rest == ifDefined, false⟩ }

def otherBranch (r : Reading) (d : Directive) (line : Nat) : Except SourceError Reading := match r.conditional with
  | none => .error (.unmatched d.name line)
  | some c =>
    if c.seenElse then .error (.malformed d.name line)
    else .ok { r with conditional := some { c with isActive := !c.isActive, seenElse := true } }

def closeConditional (r : Reading) (d : Directive) (line : Nat) : Except SourceError Reading := match r.conditional with
  | none => .error (.unmatched d.name line)
  | some _ => .ok { r with conditional := none }

def define (r : Reading) (d : Directive) (line : Nat) : Except SourceError Reading :=
  let (key, value) := Text.splitAtBlank d.rest
  match key with
  | [] => .error (.malformed d.name line)
  | c :: _ =>
    if isNameStart c then .ok { r with defines := r.defines.insert key (Text.trim value) }
    else .error (.malformed d.name line)

def undefine (r : Reading) (d : Directive) (line : Nat) : Except SourceError Reading :=
  if d.rest.isEmpty then .error (.malformed d.name line)
  else .ok { r with defines := r.defines.erase d.rest }

end Reading

/-- Expands an included text: from its path and the names defined so far to its expansion and the
names defined after it. -/
abbrev Includer := String → Defines → Except SourceError (List Char × Defines)

/-- What a directive does, and what stands in its place.  In lines that are left out only the
directives of conditionals count. -/
def Directive.apply (d : Directive) (includeText : Includer) (line : Nat) (r : Reading) :
    Except SourceError (List Char × Reading) :=
  let silent (result : Except SourceError Reading) := result.map fun r => ([], r)
  match d.name with
  | "ifdef" => silent (r.openConditional d true line)
  | "ifndef" => silent (r.openConditional d false line)
  | "else" => silent (r.otherBranch d line)
  | "endif" => silent (r.closeConditional d line)
  | name =>
    if !r.isActive then .ok ([], r)
    else match name with
    | "define" => silent (r.define d line)
    | "undef" => silent (r.undefine d line)
    | "include" =>
      match quotedPath? d.rest with
      | none => .error (.malformed name line)
      | some path => do
        let (text, defines) ← includeText path r.defines
        .ok (text, { r with defines })
    | _ => .error (.unknownDirective name line)

def expandLines (includeText : Includer) :
    Nat → Reading → List (List Char) → Except SourceError (List (List Char) × Reading)
  | _, r, [] => .ok ([], r)
  | number, r, line :: rest => do
    let (text, r) ← match Directive.ofLine? line with
      | some d => d.apply includeText number r
      | none => .ok (if r.isActive then r.defines.expandLine line else [], r)
    let (texts, r) ← expandLines includeText (number + 1) r rest
    .ok (text :: texts, r)

/-- The expansion of a text, and the names defined after it.  Every conditional has to be closed. -/
def expandText (includeText : Includer) (text : List Char) (defines : Defines) :
    Except SourceError (List Char × Defines) := do
  let (texts, r) ← expandLines includeText 1 { defines } (Text.lines text)
  match r.conditional with
  | some c => .error (.unterminated c.line)
  | none => .ok (Text.joinLines texts, r.defines)

def includer (loader : Loader) : Nat → Includer
  | 0 => fun path _ => .error (.includeTooDeep path)
  | depth + 1 => fun path defines =>
    match loader path with
    | .error reason => .error (.includeFailed path reason)
    | .ok text => expandText (includer loader depth) text.toList defines

def includedPaths (text : String) : List String := (Text.lines text.toList).filterMap fun line => do
    let d ← Directive.ofLine? line
    if d.name = "include" then quotedPath? d.rest else none

def expand (source : String) (defines : Defines) (loader : Loader) : Except SourceError String := do
  let (text, _) ← expandText (includer loader includeDepth) source.toList defines
  .ok (String.ofList text)

end Microcode.Source
