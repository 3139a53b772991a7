import Microcode.Fault
import Microcode.Machine.Code
import Microcode.Program.Parser
import Microcode.Program.Snapshot
import Microcode.Source.Directive
import Microcode.Token.Lexer

/-!
What a compilation carries along: the labels it has made up, the warnings it has given, and the place it
has reached.  The place is the statement visited last, also after the blocks inside it are done, and
every warning and fault is reported there.
-/

namespace Microcode

structure Site where
  routine : String := ""
  line : Nat := 0
  statement : Option Statement := none

def Site.snapshot (s : Site) : String := match s.statement with
  | none => ""
  | some statement => statement.json.text

inductive Concern where
  | unusedCommand (index : Nat)
  | scratchRegister (register : Register)
  | callRegister (register : Register)
  | note (text : String)
deriving DecidableEq

def Concern.message : Concern → String
  | unusedCommand index =>
    "Command index " ++ numeral index ++ " is unused and dispatches to " ++ dispatchLoop
  | scratchRegister register =>
    "Register " ++ register.text ++ " is used as a temporary by vector operations and may be clobbered"
  | callRegister register => "Register " ++ register.text ++ " is overwritten by function calls"
  | note text => text

def placed (message routine : String) (line : Nat) : String :=
  message ++ " (function '" ++ routine ++ "', line " ++ numeral line ++ ")"

structure Warning where
  routine : String
  line : Nat
  concern : Concern
deriving DecidableEq

def Warning.message (w : Warning) : String := w.concern.message

def Warning.text (w : Warning) : String := placed w.message w.routine w.line

inductive Defect where
  | unsplitDeclaration
  | compoundAssignment
  | flatExpression
  | macroCall
  | jumpMergeInverse (branch : Instruction)
  | assertMergeInverse (branch : Instruction)
  | missingDelaySlot (branch : Instruction)
deriving DecidableEq

namespace Defect

def pass : Defect → String
  | unsplitDeclaration | compoundAssignment | flatExpression | macroCall =>
    "codegen"
  | jumpMergeInverse _ => "branch-merge"
  | assertMergeInverse _ => "assert-merge"
  | missingDelaySlot _ => "delay-slot"

def message : Defect → String
  | unsplitDeclaration => "declaration reached code generation without normalization"
  | compoundAssignment => "compound assignment reached code generation"
  | flatExpression => "expression reached code generation without normalization"
  | macroCall => "macro call reached code generation"
  | jumpMergeInverse branch | assertMergeInverse branch =>
    "branch '" ++ branch.text ++ "' has no inverse"
  | missingDelaySlot branch => "branch '" ++ branch.text ++ "' has no delay slot"

end Defect

inductive CompileError where
  | source (error : Source.SourceError)
  | lex (error : LexError)
  | parse (error : ParseError)
  | semantic (fault : Fault) (site : Site)
  | internal (defect : Defect)

namespace CompileError

def line? : CompileError → Option Nat
  | source e => e.line?
  | lex e => some e.line
  | parse e => e.line?
  | semantic _ site => some site.line
  | internal _ => none

def message : CompileError → String
  | source e => "preprocessor error: " ++ e.message
  | lex e => "syntax error: " ++ e.message
  | parse e => "syntax error: " ++ e.message
  | semantic fault site => placed fault.message site.routine site.line
  | internal d => "internal compiler error in " ++ d.pass ++ ": " ++ d.message

end CompileError

structure Session where
  labels : Nat := 0
  warnings : List Warning := []
  site : Site := {}
  state : List String := []

namespace Session

def freshLabel (s : Session) : String × Session :=
  ("LABEL_" ++ Text.decimalPadded 4 (s.labels + 1), { s with labels := s.labels + 1 })

def enter (s : Session) (routine : String) (line : Nat) : Session := { s with site := ⟨routine, line, none⟩ }

def visit (s : Session) (statement : Statement) : Session :=
  { s with site := ⟨s.site.routine, statement.line, some statement.header⟩ }

def warn (s : Session) (concern : Concern) : Session :=
  { s with warnings := s.warnings ++ [⟨s.site.routine, s.site.line, concern⟩] }

def error (s : Session) (fault : Fault) : CompileError := .semantic fault s.site

end Session
end Microcode
