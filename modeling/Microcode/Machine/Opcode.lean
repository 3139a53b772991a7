/-!
The instructions of the machine by mnemonic, sorted into kinds.  A kind says which unit executes an
instruction, what it does to memory and control, and so which of its arguments it reads and writes.
-/

namespace Microcode

inductive Opcode where
  | addu | addiu | subu | and | andi | or | ori | xor | xori | nor | sll | srl | sra | sllv
  | srlv | srav | slt | sltu | slti | sltiu | lui
  | lb | lbu | lh | lhu | lw
  | sb | sh | sw
  | beq | bne | blez | bgtz | bltz | bgez
  | j | jal | jr
  | nop
  | mtc2 | mfc2 | ctc2 | cfc2
  | lbv | lsv | llv | ldv | lqv | lrv | lpv | luv | ltv
  | sbv | ssv | slv | sdv | sqv | srv | spv | suv | stv
  | vmulf | vmulu | vmudl | vmudm | vmudn | vmudh | vmacf | vmacu | vmadl | vmadm | vmadn
  | vmadh
  | vadd | vsub | vaddc | vsubc | vabs | vsar | vlt | veq | vne | vge | vcl | vch | vcr | vmrg
  | vand | vnand | vor | vnor | vxor | vnxor
  | vrcp | vrcpl | vrcph
  | vmov
  | vrsq | vrsql | vrsqh
  | vnop
deriving DecidableEq, Repr

namespace Opcode

inductive Kind where
  | alu
  | scalarLoad
  | scalarStore
  | branch
  | jump
  | idle
  | move
  | vectorLoad
  | vectorStore
  | multiply
  | compute
  | reciprocal
deriving DecidableEq, Repr

def kind : Opcode → Kind
  | lb | lbu | lh | lhu | lw => .scalarLoad
  | sb | sh | sw => .scalarStore
  | beq | bne | blez | bgtz | bltz | bgez => .branch
  | j | jal | jr => .jump
  | nop => .idle
  | mtc2 | mfc2 | ctc2 | cfc2 => .move
  | lbv | lsv | llv | ldv | lqv | lrv | lpv | luv | ltv => .vectorLoad
  | sbv | ssv | slv | sdv | sqv | srv | spv | suv | stv => .vectorStore
  | vmulf | vmulu | vmudl | vmudm | vmudn | vmudh | vmacf | vmacu | vmadl | vmadm | vmadn
  | vmadh => .multiply
  | vadd | vsub | vaddc | vsubc | vabs | vsar | vlt | veq | vne | vge | vcl | vch | vcr
  | vmrg | vand | vnand | vor | vnor | vxor | vnxor | vmov | vnop => .compute
  | vrcp | vrcpl | vrcph | vrsq | vrsql | vrsqh => .reciprocal
  | _ => .alu

def all : List Opcode := [addu, addiu, subu, and, andi, or, ori, xor, xori, nor, sll, srl, sra, sllv, srlv, srav, slt,
   sltu, slti, sltiu, lui, lb, lbu, lh, lhu, lw, sb, sh, sw, beq, bne, blez, bgtz, bltz, bgez, j,
   jal, jr, nop, mtc2, mfc2, ctc2, cfc2, lbv, lsv, llv, ldv, lqv, lrv, lpv, luv, ltv, sbv, ssv,
   slv, sdv, sqv, srv, spv, suv, stv, vmulf, vmulu, vmudl, vmudm, vmudn, vmudh, vmacf, vmacu,
   vmadl, vmadm, vmadn, vmadh, vadd, vsub, vaddc, vsubc, vabs, vsar, vlt, veq, vne, vge, vcl, vch,
   vcr, vmrg, vand, vnand, vor, vnor, vxor, vnxor, vrcp, vrcpl, vrcph, vmov, vrsq, vrsql, vrsqh,
   vnop]

def name : Opcode → String
  | addu => "addu"
  | addiu => "addiu"
  | subu => "subu"
  | and => "and"
  | andi => "andi"
  | or => "or"
  | ori => "ori"
  | xor => "xor"
  | xori => "xori"
  | nor => "nor"
  | sll => "sll"
  | srl => "srl"
  | sra => "sra"
  | sllv => "sllv"
  | srlv => "srlv"
  | srav => "srav"
  | slt => "slt"
  | sltu => "sltu"
  | slti => "slti"
  | sltiu => "sltiu"
  | lui => "lui"
  | lb => "lb"
  | lbu => "lbu"
  | lh => "lh"
  | lhu => "lhu"
  | lw => "lw"
  | sb => "sb"
  | sh => "sh"
  | sw => "sw"
  | beq => "beq"
  | bne => "bne"
  | blez => "blez"
  | bgtz => "bgtz"
  | bltz => "bltz"
  | bgez => "bgez"
  | j => "j"
  | jal => "jal"
  | jr => "jr"
  | nop => "nop"
  | mtc2 => "mtc2"
  | mfc2 => "mfc2"
  | ctc2 => "ctc2"
  | cfc2 => "cfc2"
  | lbv => "lbv"
  | lsv => "lsv"
  | llv => "llv"
  | ldv => "ldv"
  | lqv => "lqv"
  | lrv => "lrv"
  | lpv => "lpv"
  | luv => "luv"
  | ltv => "ltv"
  | sbv => "sbv"
  | ssv => "ssv"
  | slv => "slv"
  | sdv => "sdv"
  | sqv => "sqv"
  | srv => "srv"
  | spv => "spv"
  | suv => "suv"
  | stv => "stv"
  | vmulf => "vmulf"
  | vmulu => "vmulu"
  | vmudl => "vmudl"
  | vmudm => "vmudm"
  | vmudn => "vmudn"
  | vmudh => "vmudh"
  | vmacf => "vmacf"
  | vmacu => "vmacu"
  | vmadl => "vmadl"
  | vmadm => "vmadm"
  | vmadn => "vmadn"
  | vmadh => "vmadh"
  | vadd => "vadd"
  | vsub => "vsub"
  | vaddc => "vaddc"
  | vsubc => "vsubc"
  | vabs => "vabs"
  | vsar => "vsar"
  | vlt => "vlt"
  | veq => "veq"
  | vne => "vne"
  | vge => "vge"
  | vcl => "vcl"
  | vch => "vch"
  | vcr => "vcr"
  | vmrg => "vmrg"
  | vand => "vand"
  | vnand => "vnand"
  | vor => "vor"
  | vnor => "vnor"
  | vxor => "vxor"
  | vnxor => "vnxor"
  | vrcp => "vrcp"
  | vrcpl => "vrcpl"
  | vrcph => "vrcph"
  | vmov => "vmov"
  | vrsq => "vrsq"
  | vrsql => "vrsql"
  | vrsqh => "vrsqh"
  | vnop => "vnop"

def ofName? (name : String) : Option Opcode := all.find? (·.name == name)

def isBranch (op : Opcode) : Bool := op.kind == .branch || op.kind == .jump

def isConditional (op : Opcode) : Bool := op.kind == .branch

/-- The branch that is taken exactly when this one is not. -/
def negated? : Opcode → Option Opcode
  | beq => some bne
  | bne => some beq
  | blez => some bgtz
  | bgtz => some blez
  | bltz => some bgez
  | bgez => some bltz
  | _ => none

def isScalarLoad (op : Opcode) : Bool := op.kind == .scalarLoad

def isScalarStore (op : Opcode) : Bool := op.kind == .scalarStore

def isVectorLoad (op : Opcode) : Bool := op.kind == .vectorLoad

def isVectorStore (op : Opcode) : Bool := op.kind == .vectorStore

def isLoad (op : Opcode) : Bool := op.isScalarLoad || op.isVectorLoad

def isStore (op : Opcode) : Bool := op.isScalarStore || op.isVectorStore

def isVectorUnit (op : Opcode) : Bool := op.kind == .multiply || op.kind == .compute || op.kind == .reciprocal

def isMultiply (op : Opcode) : Bool := op.kind == .multiply

def accumulates : Opcode → Bool
  | vmacf | vmacu | vmadl | vmadm | vmadn | vmadh | vsar => true
  | _ => false

def isReciprocal (op : Opcode) : Bool := op.kind == .reciprocal

def isMove (op : Opcode) : Bool := op.kind == .move

def latency (op : Opcode) : Nat := if op.isMove || (op.isVectorUnit && op != vnop) then 4
  else if op.isVectorLoad || op.isVectorStore then 3
  else if op.isScalarLoad || op.isScalarStore then 2
  else 1

end Opcode
end Microcode
