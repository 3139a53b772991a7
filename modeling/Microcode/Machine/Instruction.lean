import Microcode.Lane
import Microcode.Machine.Opcode
import Microcode.Register

/-!
Instructions with their arguments.  Beside its text an instruction keeps where it comes from: the line
of its statement, and the barrier that it stands in, which pins it to its place.
-/

namespace Microcode

inductive Arg where
  | reg (register : Register)
  | lanes (register : Register) (selector : Option Selector)
  | imm (value : Int64)
  | hex (value : UInt32)
  | label (name : String)
  | low (name : String) (offset : Int64)
  /-- A memory cell relative to a register, or to a label and a register. -/
  | mem (offset : Int64) (label : Option String) (base : Register)
deriving DecidableEq, Repr

namespace Arg

def vec (register : Register) : Arg := lanes register none

def lane (register : Register) (n : Fin 8) : Arg := lanes register (some (.lane n))

def lowText (name : String) (offset : Int64) : String := if offset = 0 then s!"%lo({name})"
  else if 0 < offset then "%lo(" ++ name ++ " + " ++ toString offset.toInt ++ ")"
  else "%lo(" ++ name ++ " - " ++ toString (-offset).toInt ++ ")"

def text : Arg → String
  | reg r => r.text
  | lanes r none => r.text
  | lanes r (some s) => r.text ++ s.text
  | imm v => toString v.toInt
  | hex v => Text.hexWord v
  | label l => l
  | low l o => lowText l o
  | mem o (some l) base => lowText l o ++ "(" ++ base.text ++ ")"
  | mem o none base => toString o.toInt ++ "(" ++ base.text ++ ")"

def label? : Arg → Option String
  | label l => some l
  | _ => none

def symbol? : Arg → Option String
  | label l | low l _ => some l
  | _ => none

def rename (before after : String) : Arg → Arg
  | label l => label (if l = before then after else l)
  | low l o => low (if l = before then after else l) o
  | a => a

end Arg

structure Provenance where
  /-- The line of the statement; zero for an instruction that a pass made. -/
  line : Nat := 0
  /-- The barrier around the statement.  Such an instruction is never reordered. -/
  barrier : Option String := none
deriving DecidableEq, Repr

structure Instruction where
  opcode : Opcode
  args : List Arg
  provenance : Provenance := {}
deriving DecidableEq, Repr

namespace Instruction

def nop : Instruction := ⟨.nop, [], {}⟩

def scalar (opcode : Opcode) (registers : List Register) : Instruction := ⟨opcode, registers.map .reg, {}⟩

def scalarWith (opcode : Opcode) (registers : List Register) (last : Arg) : Instruction :=
  ⟨opcode, registers.map .reg ++ [last], {}⟩

def vector (opcode : Opcode) (target left right : Register) (selector : Option Selector) : Instruction :=
  ⟨opcode, [.vec target, .vec left, .lanes right selector], {}⟩

def laneMove (opcode : Opcode) (target : Register) (place : Fin 8) (source : Register) (start : Fin 8) : Instruction :=
  ⟨opcode, [.lane target place, .lane source start], {}⟩

def toLane (source target : Register) (lane : Fin 8) : Instruction := ⟨.mtc2, [.reg source, .lane target lane], {}⟩

def address (target : Register) (name : String) (offset : Int64) : Instruction :=
  scalarWith .ori [target, .zero] (.low name offset)

def withSlot (branch : Instruction) : List Instruction := [branch, nop]

def jump (opcode : Opcode) (target : String) : List Instruction := withSlot ⟨opcode, [.label target], {}⟩

def isNop (i : Instruction) : Bool := i.opcode == .nop

def isBranch (i : Instruction) : Bool := i.opcode.isBranch

def isPinned (i : Instruction) : Bool := i.provenance.barrier.isSome

def target? (i : Instruction) : Option String := if i.isBranch then i.args.getLast?.bind Arg.label? else none

def withTarget (i : Instruction) (name : String) : Instruction := match i.args.getLast? with
  | some (.label _) => { i with args := i.args.dropLast ++ [.label name] }
  | _ => i

def text (i : Instruction) : String := match i.args with
  | [] => i.opcode.name
  | args => i.opcode.name ++ " " ++ ", ".intercalate (args.map Arg.text)

end Instruction
end Microcode
