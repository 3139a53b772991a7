import Microcode.Proofs.Linking
import Microcode.Proofs.Lowering

/-!
The command table and the warnings about it.

A command is defined by a body or only announced.  The table knows both: its lines go up to the largest
index of either, a command that is defined comes before those that are announced, and of these the first
counts.
-/

namespace Microcode

open Lower List Routine Option Nat Prod

variable {s : Surroundings} {o : Options} {n : Nat} {codes : List Code} {line : String}
  {table : List (Nat × CommandEntry)}

def Code.command? (c : Code) : Option (Nat × String) := c.command.map (·, c.name)

theorem TranslatedRoutines.commands {signatures} {m : Nat} {routines}
    (h : TranslatedRoutines o signatures n routines codes m) :
    codes.filterMap Code.command? = definedCommands routines := by
  induction h with
  | nil => rfl
  | declared hbody _ ih => simpa [definedCommands, defined?, hbody] using ih
  | defined hbody hfirst _ ih =>
    simp only [definedCommands, filterMap_cons, defined?, hbody, Code.command?, hfirst.name, hfirst.command] at ih ⊢
    rw [← ih]
    rfl

variable {p : Program} {out : List Code}

theorem Lower.Behaves.unused {α : Type} {m : Lower α} (h : m.Behaves False) (p : Progress) :
    GivesFrom m p fun _ q => ∀ n, WarnsOf q.session.warnings n ↔ WarnsOf p.session.warnings n := by
  intro a q hrun
  have hbehaves := h p
  unfold BehavesAt at hbehaves
  rw [show m p = .ok (a, q) from hrun] at hbehaves
  exact hbehaves.resolve_left id

end Microcode
