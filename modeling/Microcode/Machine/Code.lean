import Microcode.Machine.Instruction

/-!
The code of a routine: a list of lines, each an instruction, a label, a comment or a text taken over
as it stands.
-/

namespace Microcode

inductive Line where
  | op (instruction : Instruction)
  | label (name : String)
  | comment (text : String)
  | raw (text : String)
deriving DecidableEq, Repr

namespace Line

def instr (opcode : Opcode) (args : List Arg) : Line := op ⟨opcode, args, {}⟩

def nop : Line := op .nop

def instruction? : Line → Option Instruction
  | op i => some i
  | _ => none

def opcode? (l : Line) : Option Opcode := l.instruction?.map Instruction.opcode

def isNop : Line → Bool
  | op i => i.isNop
  | _ => false

def isBranch : Line → Bool
  | op i => i.isBranch
  | _ => false

def isInstruction : Line → Bool
  | op _ => true
  | _ => false

def isLabel : Line → Bool
  | label _ => true
  | _ => false

def isComment : Line → Bool
  | comment _ => true
  | _ => false

def isLeaving (l : Line) : Bool := l.opcode? == some .j || l.opcode? == some .jr

def isRaw : Line → Bool
  | raw _ => true
  | _ => false

def text : Line → String
  | op i => "    " ++ i.text
  | label l => "  " ++ l ++ ":"
  | comment c => "    ## " ++ c
  | raw r => "    " ++ r

def stamp (provenance : Provenance) : Line → Line
  | op i => op { i with provenance }
  | l => l

end Line

structure Edited where
  lines : List Line
  count : Nat

def dispatchLoop : String := "RSPQ_Loop"

def assertHandler : String := "assertion_failed"

structure Code where
  name : String
  /-- The index of a command in the dispatch table; a function has none. -/
  command : Option Nat
  argSize : Nat
  align : Option Nat
  lines : List Line
  /-- The symbol that the dispatch entry points at in place of this code. -/
  aliasOf : Option String := none
deriving DecidableEq

def Code.isCommand (c : Code) : Bool := c.command.isSome

end Microcode
