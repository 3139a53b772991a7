import Microcode.Proofs.Reorder

/-!
Reordering and the estimate of cycles.

A move is judged by the estimate for its window alone: the lines around the range of the instruction.  What was
started before the window and what waits for a result behind it are not seen, so the estimate of a whole body may
rise.
-/

namespace Microcode

def windowStart (lines : List Line) (i : Nat) : Nat := (moveRange lines i).1 - windowMargin

def window (lines : List Line) (i : Nat) : List Line :=
  (lines.take (min ((moveRange lines i).2 + windowMargin + 1) lines.length)).drop (windowStart lines i)

/-- The second lines come from the first by moves, each within the range of a line and each for a smaller
estimate of its window. -/
inductive Improves : List Line → List Line → Prop
  | refl (lines : List Line) : Improves lines lines
  | trans {old mid new} (h : Improves old mid) (h' : Improves mid new) : Improves old new
  | move {lines i j} (hlo : (moveRange lines i).1 ≤ j) (hhi : j ≤ (moveRange lines i).2)
      (hcost : estimateCycles (moveLine (window lines i) (i - windowStart lines i) (j - windowStart lines i))
        < estimateCycles (window lines i)) : Improves lines (moveLine lines i j)

variable {lines new : List Line} {i j : Nat}

theorem cheapest_lt {cost positions} {bound : Nat} (h : cheapest cost bound positions = some j) : cost j < bound := by
  induction positions generalizing bound with
  | nil => cases h
  | cons k rest ih =>
    simp only [cheapest] at h
    split at h
    next hk =>
      cases hrest : cheapest cost (cost k) rest with
      | none =>
        rw [hrest] at h
        cases h
        exact hk
      | some m =>
        rw [hrest] at h
        cases h
        exact Nat.lt_trans (ih hrest) hk
    · exact ih h

theorem improves_of_bestMove (h : bestMove lines i = some j) : Improves lines (moveLine lines i j) := by
  obtain ⟨hlo, hhi⟩ := bestMove_mem_range h
  refine .move hlo hhi ?_
  simp only [bestMove] at h
  split at h
  · cases h
  · exact cheapest_lt h

theorem moveRange_lt (h : (moveRange lines i).1 ≠ (moveRange lines i).2) :
    (moveRange lines i).1 < (moveRange lines i).2 ∧ (moveRange lines i).2 < lines.length := by
  rcases moveRange_cases lines i with hr | ⟨front, x, rest, rfl, rfl, hx, hfront⟩
  · exact absurd (by rw [hr]) h
  · rw [moveRange_movable hx hfront] at h ⊢
    have hreach : x.effect.reachAfter rest ≤ rest.length := (List.takeWhile_sublist _).length_le
    simp only [List.length_append, List.length_cons] at h ⊢
    omega

theorem window_eq_self (hlines : lines.length ≤ 6) (h : (moveRange lines i).1 ≠ (moveRange lines i).2) :
    windowStart lines i = 0 ∧ window lines i = lines := by
  obtain ⟨hfirst, hlast⟩ := moveRange_lt h
  have hstart : windowStart lines i = 0 := by
    unfold windowStart windowMargin
    omega
  have hstop : lines.length ≤ (moveRange lines i).2 + windowMargin + 1 := by
    unfold windowMargin
    omega
  refine ⟨hstart, ?_⟩
  rw [window, hstart, Nat.min_eq_right hstop, List.take_length, List.drop_zero]

theorem Improves.estimate_le (h : Improves lines new) (hlines : lines.length ≤ 6) :
    new.length = lines.length ∧ estimateCycles new ≤ estimateCycles lines := by
  induction h with
  | refl lines => exact ⟨rfl, Nat.le_refl _⟩
  | trans _ _ ih ih' =>
    obtain ⟨hlength, hle⟩ := ih hlines
    obtain ⟨hlength', hle'⟩ := ih' (by rw [hlength]; exact hlines)
    exact ⟨hlength'.trans hlength, Nat.le_trans hle' hle⟩
  | @move lines i j hlo hhi hcost =>
    refine ⟨(moveLine_rearranges Symbol.interpretation lines hlo hhi).perm.length_eq, ?_⟩
    by_cases hrange : (moveRange lines i).1 = (moveRange lines i).2
    · -- a range of one position holds the line itself, and such a move changes nothing
      rcases moveRange_cases lines i with hr | ⟨front, x, rest, rfl, rfl, hx, hfront⟩
      · rw [hr] at hlo hhi
        exact Nat.le_of_eq (by rw [Nat.le_antisymm hhi hlo, moveLine_self])
      · rw [moveRange_movable hx hfront] at hlo hhi hrange
        have hj : j = front.length := by
          simp only at hlo hhi hrange
          omega
        exact Nat.le_of_eq (by rw [hj, moveLine_self])
    · obtain ⟨hstart, hwindow⟩ := window_eq_self hlines hrange
      rw [hstart, hwindow] at hcost
      exact Nat.le_of_lt hcost

/-- **Scheduling and the estimate.**  Every move makes the estimate for its window smaller.  For up to six lines
the window is all of them, and the estimate never gets worse. -/
theorem reorder_improves (rounds : Nat) (lines : List Line) :
    Improves lines (reorder rounds lines).lines ∧
      (lines.length ≤ 6 → estimateCycles (reorder rounds lines).lines ≤ estimateCycles lines) := by
  have h : Improves lines (reorder rounds lines).lines := reorder_induction .refl .trans improves_of_bestMove rounds lines
  exact ⟨h, fun hlines => (h.estimate_le hlines).2⟩

theorem waitingCode_reorder_improves : waitingCode.length ≤ 6 ∧
    estimateCycles (reorder 4 waitingCode).lines ≤ estimateCycles waitingCode :=
  ⟨by decide, (reorder_improves 4 waitingCode).2 (by decide)⟩

def crowdedCode : List Line := [.op (.vector .vor (.vector 3) (.vector 3) (.vector 2) none),
   .op ⟨.mfc2, [.reg (.scalar 8), .vec (.vector 2)], {}⟩,
   .op (.vector .vor (.vector 2) (.vector 2) (.vector 1) none),
   .op (.vector .vor (.vector 3) (.vector 3) (.vector 3) none),
   .op ⟨.lw, [.reg (.scalar 9), .mem 0 none (.scalar 9)], {}⟩,
   .op ⟨.mfc2, [.reg (.scalar 10), .vec (.vector 2)], {}⟩,
   .op ⟨.mtc2, [.reg (.scalar 9), .vec (.vector 3)], {}⟩]

/-- The window of the move leaves out the first line, whose result the fourth waits for. -/
theorem crowdedCode_reorder_worsens : estimateCycles crowdedCode < estimateCycles (reorder 1 crowdedCode).lines := by
  decide +kernel

end Microcode
