import Microcode.Proofs.Execution

/-!
When one body of code does the same as another.

A `Simulation` is a relation between the places in the two bodies under which each step of the new one is matched by
at least one step of the old one.
-/

namespace Microcode.Machine

variable {Value Memory : Type} (M : Machine Value Memory)

/-- Every stage of the run in the new body corresponds to a stage of the run in the old body that is not
earlier. -/
def Follows (Seen : List (Event Value Memory) → List (Event Value Memory) → Prop)
    (Meets : Control Value Memory → Control Value Memory → Prop) (new old : List Line)
    (c d : Control Value Memory) : Prop :=
  ∀ n, ∃ m, n ≤ m ∧ Seen (M.run new n c).1 (M.run old m d).1 ∧ Meets (M.run new n c).2 (M.run old m d).2

/-- A relation between places that each step of the new body keeps, for one or more of the old. -/
structure Simulation (Seen : List (Event Value Memory) → List (Event Value Memory) → Prop)
    (Meets : Control Value Memory → Control Value Memory → Prop) (new old : List Line) : Prop where
  nil : Seen [] []
  append : ∀ {a b a' b'}, Seen a b → Seen a' b' → Seen (a ++ a') (b ++ b')
  left : ∀ {e s d}, Meets (.left e s) d → ∃ e' t, d = .left e' t
  step : ∀ {rest s d}, Meets (.running rest s) d → ∃ k, Seen (M.step new (.running rest s)).1 (M.run old (k + 1) d).1 ∧
      Meets (M.step new (.running rest s)).2 (M.run old (k + 1) d).2

variable {M} {Seen : List (Event Value Memory) → List (Event Value Memory) → Prop}
  {Meets : Control Value Memory → Control Value Memory → Prop} {new old : List Line}

theorem Simulation.follows (h : M.Simulation Seen Meets new old) {c d}
    (hcd : Meets c d) : M.Follows Seen Meets new old c d := by
  intro n
  induction n generalizing c d with
  | zero => exact ⟨0, Nat.le_refl 0, h.nil, hcd⟩
  | succ n ih =>
    cases c with
    | left e s =>
      obtain ⟨e', t, rfl⟩ := h.left hcd
      refine ⟨n + 1, Nat.le_refl _, ?_, ?_⟩
      · rw [run_left, run_left]
        exact h.nil
      · rw [run_left, run_left]
        exact hcd
    | running rest s =>
      obtain ⟨k, hseen, hmeets⟩ := h.step hcd
      obtain ⟨m, hm, hseen', hmeets'⟩ := ih hmeets
      refine ⟨k + 1 + m, by omega, ?_, ?_⟩
      · rw [M.run_add old]
        exact h.append hseen hseen'
      · rw [M.run_add old]
        exact hmeets'

namespace Follows

variable {c d : Control Value Memory}

theorem left_old (h : M.Follows Seen Meets new old c d) {n : Nat} {e s} (hn : (M.run new n c).2 = .left e s) :
    ∃ m, Seen (M.run new n c).1 (M.run old m d).1 ∧ Meets (.left e s) (M.run old m d).2 := by
  obtain ⟨m, -, hseen, hmeets⟩ := h n
  rw [hn] at hmeets
  exact ⟨m, hseen, hmeets⟩

theorem left_new (h : M.Follows Seen Meets new old c d) {m : Nat} {e s} (hm : (M.run old m d).2 = .left e s) :
    Seen (M.run new m c).1 (M.run old m d).1 ∧ Meets (M.run new m c).2 (.left e s) := by
  obtain ⟨n, hn, hseen, hmeets⟩ := h m
  rw [M.run_of_left old hm hn] at hseen hmeets
  rw [hm] at hmeets
  exact ⟨hseen, hmeets⟩

end Follows

/-- Control is at corresponding places in the same state, or has left in the same way. -/
inductive Matches (Place : List Line → List Line → Prop) : Control Value Memory → Control Value Memory → Prop
  | running {a b} (h : Place a b) (s : MachineState Value Memory) :
      Matches Place (.running a s) (.running b s)
  | left (e : Exit Value) (s : MachineState Value Memory) : Matches Place (.left e s) (.left e s)

section
variable (M) {Place : List Line → List Line → Prop} {a b : List Line}

theorem leave_matches (hab : Place a b) (i : Instruction) (name : String) (s : MachineState Value Memory) :
    (M.leave i name a s).1 = (M.leave i name b s).1 ∧ Matches Place (M.leave i name a s).2 (M.leave i name b s).2 := by
  unfold leave
  split
  · cases M.callee name s with
    | none => exact ⟨rfl, .left _ s⟩
    | some t => exact ⟨rfl, .running hab t⟩
  · exact ⟨rfl, .left _ s⟩

variable (hlabels : ∀ name, Option.Rel Place (locate name new) (locate name old))
include hlabels

theorem goto_matches (name : String) (s : MachineState Value Memory) :
    Matches Place (goto new name s) (goto old name s) := by
  unfold goto
  match locate name new, locate name old, hlabels name with
  | _, _, .none => exact .left _ s
  | _, _, .some h => exact .running h s

theorem transfer_matches (hab : Place a b) (i : Instruction) (address : Option Value) (s : MachineState Value Memory) :
    (M.transfer new i address a s).1 = (M.transfer old i address b s).1 ∧
      Matches Place (M.transfer new i address a s).2 (M.transfer old i address b s).2 := by
  unfold transfer
  split
  · exact ⟨rfl, .left _ s⟩
  · cases i.target? with
    | none => exact ⟨rfl, .left _ s⟩
    | some name =>
      dsimp only
      match locate name new, locate name old, hlabels name with
      | _, _, .some h => exact ⟨rfl, .running h s⟩
      | _, _, .none => exact M.leave_matches hab i name s

theorem branch_matches (hab : Place a b) (i slot : Instruction) (s : MachineState Value Memory) :
    (M.branch new i slot a s).1 = (M.branch old i slot b s).1 ∧
      Matches Place (M.branch new i slot a s).2 (M.branch old i slot b s).2 := by
  unfold branch
  dsimp only
  split
  · obtain ⟨hevents, hmatch⟩ := M.transfer_matches hlabels hab i (operand? i 0 s) (M.exec slot (M.linked i s))
    exact ⟨by rw [hevents], hmatch⟩
  · exact ⟨rfl, .running hab _⟩

/-- A line in front of corresponding places.  In front of a branch the places behind the slot have to
correspond as well. -/
theorem step_matches {l : Line} (hab : Place a b) (hslot : l.isBranch →
      a = [] ∧ b = [] ∨ ∃ x a' b', a = x :: a' ∧ b = x :: b' ∧ Place a' b')
    (s : MachineState Value Memory) :
    (M.step new (.running (l :: a) s)).1 = (M.step old (.running (l :: b) s)).1 ∧
      Matches Place (M.step new (.running (l :: a) s)).2 (M.step old (.running (l :: b) s)).2 := by
  cases l with
  | label name | comment c => exact ⟨rfl, .running hab s⟩
  | raw text =>
    simp only [step]
    split
    · exact ⟨rfl, .running hab _⟩
    · exact ⟨rfl, goto_matches hlabels _ _⟩
  | op i =>
    by_cases hi : i.isBranch
    · rcases hslot hi with ⟨rfl, rfl⟩ | ⟨x, a', b', rfl, rfl, hrest⟩
      · rw [M.step_undefined _ _ _ hi (by simp), M.step_undefined _ _ _ hi (by simp)]
        exact ⟨rfl, .left _ s⟩
      · simp only [step, hi, if_true]
        cases x with
        | op slot =>
          dsimp only
          split
          · exact ⟨rfl, .left _ s⟩
          · exact M.branch_matches hlabels hrest i slot s
        | _ => exact ⟨rfl, .left _ s⟩
    · rw [Bool.not_eq_true] at hi
      rw [M.step_plain _ _ _ hi, M.step_plain _ _ _ hi]
      exact ⟨rfl, .running hab _⟩

end
end Microcode.Machine
