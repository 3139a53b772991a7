import Microcode.Dataflow.Effect

/-!
The end of a routine: calls that come last, and code behind the last jump.
-/

namespace Microcode

def isTailCall (call slot jump jumpSlot : Instruction) : Bool :=
  call.opcode == .jal && slot.isNop && jump.opcode == .j && jump.target? == some dispatchLoop
    && jumpSlot.isNop && !call.isPinned

/-- Calls that come last turned into jumps.  The dispatcher has left its own address for the return. -/
def jumpTailCalls : List Line → Edited
  | .op call :: .op slot :: .op jump :: .op jumpSlot :: rest =>
    if isTailCall call slot jump jumpSlot then
      let more := jumpTailCalls rest
      ⟨.op { call with opcode := .j } :: .op slot :: more.lines, more.count + 1⟩
    else
      let more := jumpTailCalls (.op slot :: .op jump :: .op jumpSlot :: rest)
      ⟨.op call :: more.lines, more.count⟩
  | l :: rest =>
    let more := jumpTailCalls rest
    ⟨l :: more.lines, more.count⟩
  | [] => ⟨[], 0⟩

def Line.writesReturn (l : Line) : Bool := match l.effect? with
  | some e => e.writes.contains .returnAddress
  | none => false

/-- Calls that come last in a command turned into jumps, unless something else may write the return
address. -/
def tailCalls (lines : List Line) : Edited :=
  let jumped := jumpTailCalls lines
  if lines.any Line.isRaw || lines.countP Line.writesReturn ≠ jumped.count then ⟨lines, 0⟩
  else jumped

def cutAfterJump : Bool → List Line → List Line
  | afterBranch, l :: slot :: rest =>
    if l.isLeaving && !afterBranch then [l, slot] else l :: cutAfterJump l.isBranch (slot :: rest)
  | _, lines => lines

def splitTail : List Line → List Line × List Line
  | [] => ([], [])
  | l :: rest =>
    let (front, tail) := splitTail rest
    if front.isEmpty && l.isInstruction then ([], l :: tail) else (l :: front, tail)

def cutDeadTail (lines : List Line) : Edited := let (front, tail) := splitTail lines
  let kept := cutAfterJump false tail
  ⟨front ++ kept, tail.length - kept.length⟩

end Microcode
