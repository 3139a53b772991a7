import Microcode.Proofs.Slot
import Microcode.Selection.Builtin

/-!
Reciprocals without the repeated inputs.

The unit keeps the high input that it was last given until the next step with a low input, and the upper half of its
last result until the next step with a high one.  A step that gives it a zero again changes nothing but the lane that
it writes, and that lane is written once more before anything reads it.
-/

namespace Microcode

open Instruction Option

/-- The lanes of the vector registers, what the reciprocal unit keeps between its steps, and the rest of the
machine. -/
structure VectorState (Rest : Type) where
  lanes : Fin 32 → Fin 8 → BitVec 16
  input : BitVec 16
  loaded : Bool
  output : BitVec 16
  rest : Rest

namespace VectorState

variable {Rest : Type} (s : VectorState Rest) {d r : Fin 32} {l m : Fin 8} {v w : BitVec 16}

def read (r : Fin 32) (l : Fin 8) : BitVec 16 := if r = 0 then 0 else s.lanes r l

def write (d : Fin 32) (l : Fin 8) (v : BitVec 16) : VectorState Rest :=
  { s with lanes := fun r m => if r = d ∧ m = l then v else s.lanes r m }

@[simp] theorem read_zero : s.read 0 l = 0 := rfl

theorem read_write_of_ne (h : ¬(r = d ∧ m = l)) : (s.write d l v).read r m = s.read r m := by
  simp only [read, write, if_neg h]

end VectorState

def Opcode.isLowStep : Opcode → Bool
  | vrcpl | vrsql => true
  | _ => false

/-- What the unit computes from a high input, if it has been given one, and a low input: the result and what it keeps
of it.  All other instructions may do anything. -/
structure ReciprocalUnit (Rest : Type) where
  low : Opcode → Option (BitVec 16) → BitVec 16 → BitVec 16 × BitVec 16
  other : Instruction → VectorState Rest → VectorState Rest

namespace ReciprocalUnit

variable {Rest : Type} (u : ReciprocalUnit Rest)

def highStep (d : Fin 32) (l : Fin 8) (r : Fin 32) (m : Fin 8) (s : VectorState Rest) : VectorState Rest :=
  { s.write d l s.output with input := s.read r m, loaded := true }

def lowStep (o : Opcode) (d : Fin 32) (l : Fin 8) (r : Fin 32) (m : Fin 8) (s : VectorState Rest) : VectorState Rest :=
  let result := u.low o (if s.loaded then some s.input else none) (s.read r m)
  { s.write d l result.1 with output := result.2, loaded := false }

def exec (i : Instruction) (s : VectorState Rest) : VectorState Rest := match i.args with
  | [.lanes (.vector d) (some (.lane l)), .lanes (.vector r) (some (.lane m))] =>
    if i.opcode.lowStep?.isSome then highStep d l r m s
    else if i.opcode.isLowStep then u.lowStep i.opcode d l r m s
    else u.other i s
  | _ => u.other i s

def execLine (s : VectorState Rest) : Line → VectorState Rest
  | .op i => u.exec i s
  | _ => s

def run (lines : List Line) (s : VectorState Rest) : VectorState Rest := lines.foldl u.execLine s

end ReciprocalUnit

/-- A step of the reciprocal unit takes one lane and writes one. -/
def Instruction.IsLanewise (i : Instruction) : Prop := i.opcode.lowStep?.isSome ∨ i.opcode.isLowStep → ∃ d l r m,
    i.args = [.lanes (.vector d) (some (.lane l)), .lanes (.vector r) (some (.lane m))]

/-- The next instruction is no step with a low input that reads what a step with a high input has written. -/
def Instruction.IsUnreadBy (high low : Instruction) : Prop :=
  high.opcode.lowStep?.isSome → low.opcode.isLowStep → low.args[1]? ≠ high.args[0]?

theorem isLowStep_of_lowStep? {o low : Opcode} (h : o.lowStep? = some low) :
    low.isLowStep ∧ low.lowStep? = none ∧ o.isLowStep = false := by
  rcases lowStep?_eq_some h with ⟨rfl, rfl⟩ | ⟨rfl, rfl⟩ <;> exact ⟨rfl, rfl, rfl⟩

variable {i : Instruction}

theorem Instruction.zeroLane?_eq {target : Arg} {r : Fin 32} {m lane : Fin 8}
    (hargs : i.args = [target, .lanes (.vector r) (some (.lane m))]) (h : i.zeroLane? = some lane) :
    r = 0 ∧ m = lane := by
  unfold zeroLane? at h
  split at h
  next l rest heq =>
    rw [hargs] at heq
    cases heq
    exact ⟨rfl, some.inj h⟩
  · cases h

theorem Instruction.targetLane?_eq {d : Fin 32} {l lane : Fin 8} {args}
    (hargs : i.args = .lanes (.vector d) (some (.lane l)) :: args) (h : i.targetLane? = some lane) : l = lane := by
  rw [targetLane?, hargs] at h
  exact some.inj h

variable {Rest : Type} (u : ReciprocalUnit Rest) {before first low last : Instruction}

/-- Giving the unit the zero that it has already changes only the lane, and the last step writes that again. -/
theorem ReciprocalUnit.highStep_repeated {s} (hinput : s.input = 0) (hloaded : s.loaded)
    {o : Opcode} {d x r : Fin 32} {l m : Fin 8} (hne : ¬(r = d ∧ m = l)) :
    highStep d l 0 l (u.lowStep o x l r m (highStep d l 0 l s)) = highStep d l 0 l (u.lowStep o x l r m s) := by
  have hread : (highStep d l 0 l s).read r m = s.read r m := s.read_write_of_ne hne
  have hresult : u.lowStep o x l r m (highStep d l 0 l s)
      = { (s.write d l s.output).write x l (u.low o (some 0) (s.read r m)).1 with
          input := 0, output := (u.low o (some 0) (s.read r m)).2, loaded := false } := by
    simp only [lowStep, hread]
    rfl
  rw [hresult]
  simp only [highStep, lowStep, hloaded, if_true, hinput, VectorState.write, VectorState.read_zero,
    VectorState.mk.injEq, and_true]
  funext r' m'
  by_cases hl : r' = d ∧ m' = l
  · simp only [if_pos hl]
  · simp only [if_neg hl]

theorem exec_of_repeatsInput (h : repeatsInput before first low last) (hbefore : before.IsLanewise)
    (hfirst : first.IsLanewise) (hlow : low.IsLanewise) (hunread : first.IsUnreadBy low) (s : VectorState Rest) :
    u.exec last (u.exec low (u.exec first (u.exec before s))) = u.exec last (u.exec low (u.exec before s)) := by
  obtain ⟨lane, hstep, hzero, hopcode, hzeroBefore, htarget, htargetLow, hopcodeLast, hargsLast, -⟩ :=
    repeatsInput_spec h
  obtain ⟨hisLow, hnotHigh, -⟩ := isLowStep_of_lowStep? hstep
  have hhigh : first.opcode.lowStep?.isSome := by rw [hstep]; rfl
  obtain ⟨d₀, l₀, r₀, m₀, hargsBefore⟩ := hbefore (.inl (by rw [hopcode]; exact hhigh))
  obtain ⟨d, l, r, m, hargs⟩ := hfirst (.inl hhigh)
  obtain ⟨x, y, r', m', hargsLow⟩ := hlow (.inr hisLow)
  obtain ⟨zero, hzeroBefore⟩ := isSome_iff_exists.mp hzeroBefore
  obtain ⟨rfl, rfl⟩ := zeroLane?_eq hargsBefore hzeroBefore
  obtain ⟨rfl, rfl⟩ := zeroLane?_eq hargs hzero
  obtain rfl := targetLane?_eq hargs htarget
  obtain rfl := targetLane?_eq hargsLow htargetLow
  have hne : ¬(r' = d ∧ m' = y) := by
    rintro ⟨rfl, rfl⟩
    exact hunread hhigh hisLow (by rw [hargs, hargsLow]; rfl)
  simp only [ReciprocalUnit.exec, hargs, hargsBefore, hargsLow, hargsLast, hopcode, hopcodeLast, hhigh, hnotHigh, hisLow]
  exact u.highStep_repeated rfl rfl hne

/-- **Dropping repeated inputs changes nothing.**  Whatever the unit computes from its inputs, whatever the other
instructions do and whatever state the code starts in, it ends in the same state with the same lanes in all
registers. -/
theorem run_foldReciprocals (lines : List Line) (hsteps : ∀ i, Line.op i ∈ lines → i.IsLanewise)
    (hunread : ∀ k high low, lines[k]? = some (.op high) → lines[k + 1]? = some (.op low) → high.IsUnreadBy low)
    (s : VectorState Rest) : u.run (foldReciprocals lines).lines s = u.run lines s := by
  fun_induction foldReciprocals lines generalizing s with
  | case1 before first low last rest hrepeats more ih =>
    have hrest := ih (fun i hi => hsteps i (.tail _ (.tail _ hi))) (fun k => hunread (k + 2)) (u.exec before s)
    have hsame := exec_of_repeatsInput u hrepeats (hsteps _ (.head _)) (hsteps _ (.tail _ (.head _)))
      (hsteps _ (.tail _ (.tail _ (.head _)))) (hunread 1 first low rfl rfl) s
    calc u.run (.op before :: more.lines) s
      _ = u.run rest (u.exec last (u.exec low (u.exec before s))) := hrest
      _ = u.run rest (u.exec last (u.exec low (u.exec first (u.exec before s)))) := by rw [hsame]
  | case2 before first low last rest hrepeats more ih =>
    exact ih (fun i hi => hsteps i (.tail _ hi)) (fun k => hunread (k + 1)) (u.exec before s)
  | case3 l rest hl more ih =>
    exact ih (fun i hi => hsteps i (.tail _ hi)) (fun k => hunread (k + 1)) (u.execLine s l)
  | case4 => rfl

namespace Builtin

variable {high low : Opcode} {d : Place} {source : Register}

/-- The code for the lanes of a narrow vector reads none of the lanes that it has written. -/
theorem isUnreadBy_reciprocalSteps (hstep : high.lowStep? = some low) (hne : source ≠ d.register)
    (lanes : List (Fin 8)) {k : Nat} {j}
    (hi : (lanes.flatMap (reciprocalSteps high low d .zeroVector source))[k]? = some i)
    (hj : (lanes.flatMap (reciprocalSteps high low d .zeroVector source))[k + 1]? = some j) : i.IsUnreadBy j := by
  obtain ⟨-, hnotHigh, hnotLow⟩ := isLowStep_of_lowStep? hstep
  induction lanes generalizing k with
  | nil => simp at hi
  | cons l lanes ih =>
    rcases k with _ | _ | _ | k
    · cases hi
      cases hj
      exact fun _ _ h => hne (Arg.lanes.inj (some.inj h)).1
    · cases hi
      exact fun h => absurd h (by simp [laneMove, hnotHigh])
    · cases lanes with
      | nil => simp [reciprocalSteps] at hj
      | cons l' lanes =>
        cases hj
        exact fun _ h => absurd h (by simp [laneMove, hnotLow])
    · exact ih hi hj

/-- A unit whose result is the low input, and that keeps the high one. -/
def keepingUnit : ReciprocalUnit PUnit := ⟨fun _ high low => (low, high.getD low), fun _ s => s⟩

def twoLanes : List Instruction :=
  ((List.finRange 8).take 2).flatMap (reciprocalSteps .vrcph .vrcpl ⟨.vector 4, .vec32, none⟩ .zeroVector (.vector 2))

theorem run_twoLanes :
    (foldReciprocals (twoLanes.map .op)).count = 1
    ∧ keepingUnit.run (foldReciprocals (twoLanes.map .op)).lines ⟨fun r _ => .ofNat 16 r, 1, false, 2, ⟨⟩⟩
      = keepingUnit.run (twoLanes.map .op) ⟨fun r _ => .ofNat 16 r, 1, false, 2, ⟨⟩⟩ := by
  refine ⟨by decide, run_foldReciprocals keepingUnit _ ?_ ?_ _⟩
  · intro i hi _
    have htwo : (List.finRange 8).take 2 = [0, 1] := rfl
    simp [twoLanes, htwo, reciprocalSteps, Instruction.laneMove] at hi
    rcases hi with rfl | rfl | rfl | rfl | rfl | rfl <;> exact ⟨_, _, _, _, rfl⟩
  · intro k i j hi hj
    rw [List.getElem?_map] at hi hj
    obtain ⟨_, hi, ⟨⟩⟩ := Option.map_eq_some_iff.mp hi
    obtain ⟨_, hj, ⟨⟩⟩ := Option.map_eq_some_iff.mp hj
    exact isUnreadBy_reciprocalSteps rfl (by decide) _ hi hj

end Builtin
end Microcode
