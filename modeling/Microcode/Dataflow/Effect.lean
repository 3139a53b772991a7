import Microcode.Dataflow.Location
import Microcode.Machine.Code

/-!
What an instruction reads and writes, and when two instructions cannot change places.
-/

namespace Microcode

inductive MemoryUse where
  | none
  | load
  | store
deriving DecidableEq, Repr

/-- Whether two accesses to memory have to keep their order: one of them is a store. -/
def MemoryUse.conflicts : MemoryUse → MemoryUse → Bool
  | load, store | store, load | store, store => true
  | _, _ => false

structure Effect where
  reads : LocationSet
  writes : LocationSet
  memory : MemoryUse
  isBranch : Bool
  isPinned : Bool
deriving DecidableEq

def Effect.conflicts (e f : Effect) : Bool :=
  e.writes.intersects f.reads || e.reads.intersects f.writes || e.writes.intersects f.writes
    || e.memory.conflicts f.memory

namespace Opcode

def memoryUse (o : Opcode) : MemoryUse := if o.isLoad then .load else if o.isStore then .store else .none

def flagsRead : Opcode → List Location
  | vadd | vsub | vlt | veq | vne | vge => [.carryFlags]
  | vcl | vch | vcr => Location.flags
  | vmrg => [.compareFlags]
  | _ => []

def flagsWritten : Opcode → List Location
  | vadd | vsub | vaddc | vsubc => [.carryFlags]
  | vlt | veq | vne | vge => [.compareFlags, .carryFlags]
  | vcl | vch | vcr => Location.flags
  | _ => []

end Opcode

namespace Instruction

def wholeAt (i : Instruction) (position : Nat) : List Location := match i.args[position]? with
  | some a => a.locations true
  | none => []

/-- The locations of the argument at a position, only the lanes that it selects. -/
def lanesAt (i : Instruction) (position : Nat) : List Location := match i.args[position]? with
  | some a => a.locations false
  | none => []

/-- The locations of a transposed access: eight registers from the one that it names on. -/
def transposedAt (i : Instruction) (position : Nat) : List Location := match i.args[position]? with
  | some (.lanes (.vector first) _) =>
    ((List.finRange 32).filter fun r => first ≤ r ∧ r.val < first.val + 8).flatMap fun r =>
      (Register.vector r).locations (List.finRange 8)
  | _ => []

def accessed (i : Instruction) : List Location := match i.opcode with
  | .ltv | .stv => i.transposedAt 0
  | .lsv | .ssv => i.lanesAt 0
  | _ => i.wholeAt 0

def reads (i : Instruction) : List Location := match i.opcode with
  | .nop | .vnop | .j | .jal | .lui => []
  | .jr | .blez | .bgtz | .bltz | .bgez | .mtc2 | .ctc2 => i.wholeAt 0
  | .beq | .bne => i.wholeAt 0 ++ i.wholeAt 1
  | .mfc2 => i.lanesAt 1
  | .cfc2 => Location.flags
  | .vmov => i.lanesAt 1
  | o =>
    match o.kind with
    | .scalarLoad => i.wholeAt 1
    | .scalarStore => i.wholeAt 0 ++ i.wholeAt 1
    | .vectorLoad => i.wholeAt 2
    | .vectorStore => i.accessed ++ i.wholeAt 2
    | .reciprocal => .divider :: i.lanesAt 1
    | .multiply | .compute =>
      i.wholeAt 1 ++ i.lanesAt 2 ++ o.flagsRead ++ if o.accumulates then [.accumulator] else []
    | _ => (i.args.drop 1).flatMap (Arg.locations true)

def writes (i : Instruction) : List Location := match i.opcode with
  | .nop | .vnop | .j | .jr | .blez | .bgtz | .bltz | .bgez | .beq | .bne => []
  | .jal => [.returnAddress]
  | .mtc2 => i.lanesAt 1
  | .ctc2 => Location.flags
  | .vmov => .accumulator :: i.lanesAt 0
  | o =>
    match o.kind with
    | .scalarStore | .vectorStore => []
    | .vectorLoad => i.accessed
    | .reciprocal => .divider :: .accumulator :: i.lanesAt 0
    | .multiply | .compute => .accumulator :: i.wholeAt 0 ++ o.flagsWritten
    | _ => i.wholeAt 0

def effect (i : Instruction) : Effect where
  reads := .ofList i.reads
  writes := .ofList i.writes
  memory := i.opcode.memoryUse
  isBranch := i.isBranch
  isPinned := i.isPinned

end Instruction

def Line.effect? (l : Line) : Option Effect := l.instruction?.map Instruction.effect

end Microcode
