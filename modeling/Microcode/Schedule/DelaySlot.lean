import Microcode.Schedule.Reorder
import Microcode.Session

/-!
Delay slots.  The instruction behind a branch is executed before the branch takes effect, so an
instruction before the branch may go there in place of one without effect.
-/

namespace Microcode

/-- Whether an instruction may pass a branch: it decides nothing about it, and a call leaves its return
address before the slot is executed. -/
def Instruction.passesBranch (i branch : Instruction) : Bool :=
  let e := i.effect
  let touchesReturn := e.reads.contains .returnAddress || e.writes.contains .returnAddress
  !e.writes.intersects branch.effect.reads && !(branch.opcode == .jal && touchesReturn)

def slotCandidate (lines : List Line) (branch : Instruction) (b : Nat) : Nat → Option Nat
  | 0 => none
  | i + 1 =>
    match lines[i]? with
    | some (.op candidate) =>
      if candidate.isBranch || inDelaySlot lines i then none
      else if !candidate.isNop && !candidate.isPinned && b ≤ (moveRange lines i).2 + 1
          && candidate.passesBranch branch then
        some i
      else slotCandidate lines branch b i
    | _ => none

def fillSlot (e : Edited) (b : Nat) : Edited := match e.lines[b]?, e.lines[b + 1]? with
  | some (.op branch), some slot =>
    if branch.isBranch && !branch.isPinned && slot.isNop then
      match slotCandidate e.lines branch b b with
      | some i =>
        match e.lines[i]? with
        | some l => ⟨(e.lines.eraseIdx i).set b l, e.count + 1⟩
        | none => e
      | none => e
    else e
  | _, _ => e

def fillDelaySlots (lines : List Line) : Edited := (List.range lines.length).foldl fillSlot ⟨lines, 0⟩

def Line.fitsSlot : Line → Bool
  | .op i => !i.isBranch
  | .raw _ => true
  | _ => false

def checkDelaySlots : List Line → Except Defect Unit
  | [] => .ok ()
  | l :: rest =>
    match l with
    | .op i =>
      if i.isBranch && !rest.head?.any Line.fitsSlot then .error (.missingDelaySlot i)
      else checkDelaySlots rest
    | _ => checkDelaySlots rest

end Microcode
