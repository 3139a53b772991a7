import Microcode.Machine.Code

/-!
Jumps to jumps.  A branch to a label that a jump follows goes to the jump's target instead, and what
stands between a jump and the next label is never reached.
-/

namespace Microcode

def nextJump? : List Line → Option String
  | .label _ :: rest => nextJump? rest
  | .op i :: _ => if i.opcode = .j && !i.isPinned then i.target? else none
  | _ => none

/-- Where a jump to a label goes on to at once; of two entries for a label the first counts. -/
def hops : List Line → List (String × String)
  | [] => []
  | .label name :: rest =>
    hops rest ++ match nextJump? rest with
      | some target => if target = name then [] else [(name, target)]
      | none => []
  | _ :: rest => hops rest

def withoutHop (hops : List (String × String)) (name : String) : List (String × String) := hops.filter (·.1 != name)

/-- A label that hops are known for makes them more than they are without it. -/
theorem length_withoutHop_lt {name next : String} {hops : List (String × String)}
    (h : hops.lookup name = some next) : (withoutHop hops name).length < hops.length := by
  induction hops with
  | nil => simp at h
  | cons p rest ih =>
    obtain ⟨key, value⟩ := p
    by_cases hk : key = name
    · have := List.length_filter_le (fun p : String × String => p.1 != name) rest
      simp only [withoutHop, hk, List.filter_cons, bne_self_eq_false, Bool.false_eq_true, if_false, List.length_cons]
      omega
    · have hb : (name == key) = false := by simpa using fun e : name = key => hk e.symm
      rw [List.lookup_cons, hb] at h
      have := ih h
      have hne : (key != name) = true := by simpa using hk
      simp only [withoutHop, List.filter_cons, hne, if_true, List.length_cons] at this ⊢
      omega

/-- The label that a chain of hops ends at; a chain that comes back to a label ends there. -/
def chainEnd (hops : List (String × String)) (name : String) : String :=
  match _h : hops.lookup name with
  | none => name
  | some next => chainEnd (withoutHop hops name) next
termination_by hops.length
decreasing_by exact length_withoutHop_lt _h

def Line.followHops (hops : List (String × String)) : Line → Line
  | .op i =>
    match i.target? with
    | some target => .op (i.withTarget (chainEnd hops target))
    | none => .op i
  | l => l

def Line.hasHop (hops : List (String × String)) (l : Line) : Bool := match l.instruction?.bind Instruction.target? with
  | some target => chainEnd hops target ≠ target
  | none => false

inductive Reach where
  /-- The line may be reached; whether the line before it was a branch. -/
  | code (afterBranch : Bool)
  | slot
  /-- Instructions are not reached. -/
  | dead
deriving DecidableEq, Repr

/-- The lines without the instructions that follow a jump and its slot, up to the next line that is
none. -/
def dropUnreached : Reach → List Line → Edited
  | _, [] => ⟨[], 0⟩
  | .slot, l :: rest =>
    let rest := dropUnreached .dead rest
    ⟨l :: rest.lines, rest.count⟩
  | .dead, l :: rest =>
    if l.isInstruction then
      let rest := dropUnreached .dead rest
      ⟨rest.lines, rest.count + 1⟩
    else
      let rest := dropUnreached (.code false) rest
      ⟨l :: rest.lines, rest.count⟩
  | .code afterBranch, l :: rest =>
    let rest := dropUnreached (if l.isLeaving && !afterBranch then .slot else .code l.isBranch) rest
    ⟨l :: rest.lines, rest.count⟩

def collapseJumps (lines : List Line) : Edited :=
  let table := hops lines
  let reached := dropUnreached (.code false) (lines.map (·.followHops table))
  ⟨reached.lines, lines.countP (·.hasHop table) + reached.count⟩

end Microcode
