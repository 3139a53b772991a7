/-!
The data types of the language.  Six scalar integers, and two vectors of eight lanes: `vec16` keeps
its lanes in one vector register, `vec32` keeps the integer halves in one and the fractional halves in
the next.
-/

namespace Microcode

inductive DataType where
  | u8
  | s8
  | u16
  | s16
  | u32
  | s32
  | vec16
  | vec32
deriving DecidableEq, Repr

namespace DataType

def all : List DataType := [u8, s8, u16, s16, u32, s32, vec16, vec32]

def name : DataType → String
  | u8 => "u8"
  | s8 => "s8"
  | u16 => "u16"
  | s16 => "s16"
  | u32 => "u32"
  | s32 => "s32"
  | vec16 => "vec16"
  | vec32 => "vec32"

def ofName? (name : String) : Option DataType := all.find? (·.name == name)

def byteSize : DataType → Nat
  | u8 | s8 => 1
  | u16 | s16 => 2
  | u32 | s32 => 4
  | vec16 => 16
  | vec32 => 32

/-- Bytes that a value's address is a multiple of; always a power of two. -/
def alignment : DataType → Nat
  | vec16 | vec32 => 16
  | t => t.byteSize

def registerCount : DataType → Nat
  | vec32 => 2
  | _ => 1

/-- Whether comparisons and right shifts respect a sign.  Vector lanes are signed. -/
def isSigned : DataType → Bool
  | s8 | s16 | s32 | vec16 | vec32 => true
  | u8 | u16 | u32 => false

def isVector : DataType → Bool
  | vec16 | vec32 => true
  | _ => false

/-- The directive that writes values of the type to memory, and the bytes that one number takes in it.
A vector is written lane by lane. -/
def dataUnit : DataType → String × Nat
  | u8 | s8 => (".byte", 1)
  | u16 | s16 | vec16 | vec32 => (".half", 2)
  | u32 | s32 => (".word", 4)

end DataType
end Microcode
