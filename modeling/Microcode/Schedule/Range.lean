import Microcode.Dataflow.Effect

/-!
How far an instruction may move.  It stays between the labels, texts, branches and pinned instructions
around it, and passes only instructions that it does not conflict with.
-/

namespace Microcode

def inDelaySlot (lines : List Line) (i : Nat) : Bool := match i with
  | 0 => false
  | i + 1 => (lines[i]?).any Line.isBranch

def Effect.passes (e : Effect) (l : Line) : Bool := match l.effect? with
  | some other => !other.isBranch && !other.isPinned && !e.conflicts other
  | none => false

def Effect.reachAfter (e : Effect) (after : List Line) : Nat := (after.takeWhile e.passes).length

/-- How many of the lines before an instruction, the nearest first, it may pass.  What is in a delay
slot stays there. -/
def Effect.reachBefore (e : Effect) : List Line → Nat
  | [] => 0
  | l :: earlier =>
    if e.passes l && !earlier.head?.any Line.isBranch then e.reachBefore earlier + 1 else 0

def Instruction.isMovable (i : Instruction) : Bool := !i.isBranch && !i.isPinned && !i.isNop

def moveRange (lines : List Line) (i : Nat) : Nat × Nat := match lines[i]? with
  | some (.op instruction) =>
    if instruction.isMovable && !inDelaySlot lines i then
      let e := instruction.effect
      (i - e.reachBefore (lines.take i).reverse, i + e.reachAfter (lines.drop (i + 1)))
    else (i, i)
  | _ => (i, i)

def moveLine (lines : List Line) (start stop : Nat) : List Line := match lines[start]? with
  | some l => (lines.eraseIdx start).insertIdx stop l
  | none => lines

end Microcode
