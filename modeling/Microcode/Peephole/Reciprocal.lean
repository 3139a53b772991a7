import Microcode.Machine.Code

/-!
Reciprocals lane by lane.  The first step for a narrow vector puts a zero into the high input; the last
step for the lane before has left one there already.
-/

namespace Microcode

def Instruction.zeroLane? (i : Instruction) : Option (Fin 8) := match i.args with
  | _ :: .lanes (.vector 0) (some (.lane l)) :: _ => some l
  | _ => none

def Instruction.targetLane? (i : Instruction) : Option (Fin 8) := match i.args with
  | .lanes _ (some (.lane l)) :: _ => some l
  | _ => none

/-- The step with the low input that goes with one with the high input. -/
def Opcode.lowStep? : Opcode → Option Opcode
  | vrcph => some vrcpl
  | vrsqh => some vrsql
  | _ => none

def repeatsInput (before first low last : Instruction) : Bool := match first.opcode.lowStep?, first.zeroLane? with
  | some lowStep, some lane =>
    before.opcode == first.opcode && before.zeroLane?.isSome && first.targetLane? == some lane
      && low.opcode == lowStep && low.targetLane? == some lane
      && last.opcode == first.opcode && last.args == first.args && !first.isPinned
  | _, _ => false

def foldReciprocals : List Line → Edited
  | .op before :: .op first :: .op low :: .op last :: rest =>
    if repeatsInput before first low last then
      let more := foldReciprocals (.op low :: .op last :: rest)
      ⟨.op before :: more.lines, more.count + 1⟩
    else
      let more := foldReciprocals (.op first :: .op low :: .op last :: rest)
      ⟨.op before :: more.lines, more.count⟩
  | l :: rest =>
    let more := foldReciprocals rest
    ⟨l :: more.lines, more.count⟩
  | [] => ⟨[], 0⟩

end Microcode
