import Microcode.Dataflow.Effect

/-!
Constants that a register holds already.  What the registers hold is known from the loads since the last
label, branch or text.
-/

namespace Microcode

inductive Loaded where
  | word (value : UInt32)
  | low (name : String) (offset : Int64)
deriving DecidableEq, Repr

def Instruction.loaded? (i : Instruction) : Option (Fin 32 × Loaded) := match i.args with
  | .reg (.scalar d) :: args =>
    if d = 0 then none
    else
      match i.opcode, args with
      | .or, .reg (.scalar 0) :: .reg (.scalar 0) :: _ => some (d, .word 0)
      | .addiu, .reg (.scalar 0) :: .imm v :: _ => some (d, .word v.toUInt64.toUInt32)
      | .ori, .reg (.scalar 0) :: .hex v :: _ => some (d, .word v)
      | .ori, .reg (.scalar 0) :: .low name offset :: _ => some (d, .low name offset)
      | .lui, .hex v :: _ => some (d, .word (v <<< 16))
      | _, _ => none
  | _ => none

def Instruction.lowHalf? (i : Instruction) (d : Fin 32) : Option UInt32 := match i.opcode, i.args with
  | .ori, .reg (.scalar a) :: .reg (.scalar b) :: .hex v :: _ =>
    if a = d ∧ b = d then some v else none
  | _, _ => none

/-- The load that lines start with: the register, its value, and whether it takes two lines. -/
def loadAt? : List Line → Option (Fin 32 × Loaded × Bool)
  | .op i :: rest => do
    let (d, value) ← i.loaded?
    match i.opcode, value, rest with
    | .lui, .word high, .op next :: _ =>
      match next.lowHalf? d with
      | some low => pure (d, .word (high ||| low), true)
      | none => pure (d, value, false)
    | _, _, _ => pure (d, value, false)
  | _ => none

abbrev Known := List (Fin 32 × Loaded)

def Known.insert (k : Known) (d : Fin 32) (value : Loaded) : Known := (d, value) :: k.filter (·.1 ≠ d)

def Known.after (k : Known) (i : Instruction) : Known :=
  let writes := i.effect.writes
  k.filter fun (d, _) => !writes.contains (.scalar d)

def dropLoads (known : Known) (inSlot : Bool) (lines : List Line) : Edited := match lines with
  | [] => ⟨[], 0⟩
  | .op i :: rest =>
    if i.isBranch then
      let more := dropLoads [] true rest
      ⟨.op i :: more.lines, more.count⟩
    else
      match loadAt? (.op i :: rest), rest with
      | some (d, value, true), next :: rest =>
        if !i.isPinned && !inSlot && known.lookup d = some value then
          let more := dropLoads known inSlot rest
          ⟨more.lines, more.count + 1⟩
        else
          let more := dropLoads (known.insert d value) false rest
          ⟨.op i :: next :: more.lines, more.count⟩
      | some (d, value, _), rest =>
        if !i.isPinned && !inSlot && known.lookup d = some value then
          let more := dropLoads known inSlot rest
          ⟨more.lines, more.count + 1⟩
        else
          let more := dropLoads (known.insert d value) false rest
          ⟨.op i :: more.lines, more.count⟩
      | none, rest =>
        let more := dropLoads (known.after i) false rest
        ⟨.op i :: more.lines, more.count⟩
  | l :: rest =>
    let more := dropLoads [] false rest
    ⟨l :: more.lines, more.count⟩

def dedupeImmediates (lines : List Line) : Edited := dropLoads [] false lines

end Microcode
