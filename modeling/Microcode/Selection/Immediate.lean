import Microcode.Constant
import Microcode.Machine.Instruction

/-!
Constants in scalar registers: one instruction where there is one that does it, otherwise two.
-/

namespace Microcode

def fitsSigned (v : Int64) : Bool := -0x8000 ≤ v && v ≤ 0x7FFF

def fitsUnsigned (v : Int64) : Bool := 0 ≤ v && v ≤ 0xFFFF

def loadWord (target : Register) (value : UInt32) : List Instruction :=
  if value = 0 then [.scalar .or [target, .zero, .zero]]
  else if fitsSigned (signedWord value) then
    [.scalarWith .addiu [target, .zero] (.imm (signedWord value))]
  else if value ≤ 0xFFFF then [.scalarWith .ori [target, .zero] (.hex value)]
  else if value &&& 0xFFFF = 0 then [.scalarWith .lui [target] (.hex (value >>> 16))]
  else
    [.scalarWith .lui [target] (.hex (value >>> 16)), .scalarWith .ori [target, target] (.hex (value &&& 0xFFFF))]

def loadConstant (target : Register) (value : Int64) : List Instruction := loadWord target (lowWord value)

end Microcode
