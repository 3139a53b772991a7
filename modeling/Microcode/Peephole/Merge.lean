import Microcode.Session
import Microcode.Text.Occurrence

/-!
Branches around a jump.  A branch that only skips the jump behind it is turned round and takes the
jump's target itself.  These passes expect that every branch is followed by an instruction without
effect.
-/

namespace Microcode

def Line.refersTo (name : String) : Line → Bool
  | .op i => i.args.any (·.symbol? == some name)
  | .raw text => Text.mentions text name
  | _ => false

def Instruction.turned? (i : Instruction) (target : String) : Option Instruction :=
  i.opcode.negated?.map fun opcode => { i with opcode }.withTarget target

def skipsJump (branch slot jump jumpSlot : Instruction) (after : String) (isCommand : Bool) : Bool :=
  branch.opcode.isConditional && (jump.opcode == .j || (jump.opcode == .jal && isCommand))
    && slot.isNop && jumpSlot.isNop && branch.target? == some after
    && !branch.isPinned && !jump.isPinned

/-- The slot of a branch that takes a jump's target; one that takes a call's sets the return address. -/
def mergedSlot (jump : Instruction) (after : String) : Instruction := if jump.opcode = .jal then
    { Instruction.address .returnAddress after 0 with provenance := jump.provenance }
  else .nop

/-- Branches around jumps merged in the rest of some lines; the lines before are given last first.  A
label that nothing names any more is left out. -/
def mergeJumpsFrom (isCommand : Bool) (before : List Line) (rest : List Line) (count : Nat) : Except Defect Edited :=
  match rest with
  | [] => .ok ⟨before.reverse, count⟩
  | .op branch :: .op slot :: .op jump :: .op jumpSlot :: .label after :: tail =>
    match jump.target? with
    | some target =>
      if skipsJump branch slot jump jumpSlot after isCommand then
        match branch.turned? target with
        | none => .error (.jumpMergeInverse branch)
        | some turned =>
          let merged := .op (mergedSlot jump after) :: .op turned :: before
          if (merged ++ tail).any (·.refersTo after) then
            mergeJumpsFrom isCommand merged (.label after :: tail) (count + 1)
          else mergeJumpsFrom isCommand merged tail (count + 1)
      else
        mergeJumpsFrom isCommand (.op branch :: before)
          (.op slot :: .op jump :: .op jumpSlot :: .label after :: tail) count
    | none =>
      mergeJumpsFrom isCommand (.op branch :: before)
        (.op slot :: .op jump :: .op jumpSlot :: .label after :: tail) count
  | l :: tail => mergeJumpsFrom isCommand (l :: before) tail count

/-- Branches around jumps merged.  In a command also branches around calls are, since a command does not
return. -/
def mergeJumps (isCommand : Bool) (lines : List Line) : Except Defect Edited := mergeJumpsFrom isCommand [] lines 0

def skipsAssert (branch slot code jump jumpSlot : Instruction) (after : String) : Bool :=
  branch.opcode.isConditional && slot.isNop && code.opcode == .lui && code.args.head? == some (.reg .scratch)
    && jump.opcode == .j && jump.target? == some assertHandler && jumpSlot.isNop
    && branch.target? == some after && !branch.isPinned

def mergeAsserts (lines : List Line) : Except Defect Edited := match lines with
  | [] => .ok ⟨[], 0⟩
  | .op branch :: .op slot :: .op code :: .op jump :: .op jumpSlot :: .label after :: tail =>
    if skipsAssert branch slot code jump jumpSlot after then
      match branch.turned? assertHandler with
      | none => .error (.assertMergeInverse branch)
      | some turned => do
        let rest ← mergeAsserts (.label after :: tail)
        pure ⟨.op turned :: .op code :: rest.lines, rest.count + 1⟩
    else do
      let rest ← mergeAsserts (.op slot :: .op code :: .op jump :: .op jumpSlot :: .label after :: tail)
      pure ⟨.op branch :: rest.lines, rest.count⟩
  | l :: tail => do
    let rest ← mergeAsserts tail
    pure ⟨l :: rest.lines, rest.count⟩

end Microcode
