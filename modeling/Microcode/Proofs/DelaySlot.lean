import Microcode.Proofs.Reorder
import Microcode.Proofs.Simulation
import Microcode.Schedule.DelaySlot

/-!
Filling delay slots keeps every run.

The filler takes an instruction from above a branch and puts it into the slot in place of one without
effect, one branch after another.  One such change is a `Fill`: the instruction passes the lines between and
then the branch itself.
-/

namespace Microcode

open List Machine Instruction Line Effect

variable {Value Memory : Type} {p : List Line} {l : Line}

/-- Lines before and after an instruction has moved down into the slot of a branch. -/
structure Fill (before after : List Line) where
  front : List Line
  passed : List Line
  rest : List Line
  moved : Instruction
  branch : Instruction
  slot : Instruction
  before_eq : before = front ++ .op moved :: (passed ++ .op branch :: .op slot :: rest)
  after_eq : after = front ++ (passed ++ .op branch :: .op moved :: rest)
  /-- The instruction was in no slot before. -/
  front_end : endsInBranch front = false
  moved_loose : (op moved).isLoose
  passes : ∀ l ∈ passed, moved.effect.passes l
  isBranch : branch.isBranch
  branch_free : branch.isPinned = false
  isNop : slot.isNop
  passesBranch : moved.passesBranch branch

theorem slotCandidate_spec {lines branch} {b : Nat} : ∀ (n : Nat) {i : Nat}, slotCandidate lines branch b n = some i →
      i < n ∧ ∃ x, lines[i]? = some (.op x) ∧ x.isMovable ∧ inDelaySlot lines i = false ∧
        b ≤ (moveRange lines i).2 + 1 ∧ x.passesBranch branch := by
  intro n
  induction n with
  | zero => intro i h; simp [slotCandidate] at h
  | succ n ih =>
    intro i h
    have hrec : slotCandidate lines branch b n = some i → i < n + 1 ∧ _ :=
      fun hn => ⟨Nat.lt_succ_of_lt (ih hn).1, (ih hn).2⟩
    unfold slotCandidate at h
    split at h
    next x hx =>
      split at h
      · simp at h
      next hstop =>
        split at h
        next hcond =>
          obtain rfl : n = i := by simpa using h
          simp only [Bool.or_eq_true, not_or, Bool.not_eq_true] at hstop
          simp only [Bool.and_eq_true, Bool.not_eq_true', decide_eq_true_eq] at hcond
          obtain ⟨⟨⟨hnop, hpinned⟩, hreach⟩, hpass⟩ := hcond
          refine ⟨Nat.lt_succ_self n, x, hx, ?_, hstop.2, hreach, hpass⟩
          simp [isMovable, hstop.1, hpinned, hnop]
        · exact hrec h
    · simp at h

theorem Line.eq_op_of_isNop (h : l.isNop) : ∃ i, l = .op i ∧ i.isNop := by
  cases l with
  | op i => exact ⟨i, rfl, h⟩
  | _ => cases h

theorem eraseIdx_set_append (front passed rest : List Line) (x branch slot : Line) :
    ((front ++ x :: (passed ++ branch :: slot :: rest)).eraseIdx front.length).set (front.length + passed.length + 1) x
      = front ++ (passed ++ branch :: x :: rest) := by
  rw [eraseIdx_append_of_length_le (Nat.le_refl _), Nat.sub_self, eraseIdx_cons_zero,
    set_append_right _ _ (by omega), set_append_right _ _ (by omega)]
  have hn : front.length + passed.length + 1 - front.length - passed.length = 1 := by omega
  rw [hn]
  rfl

/-- **One turn of the filler** changes nothing, or fills one slot. -/
theorem fillSlot_cases (e : Edited) (b : Nat) :
    (fillSlot e b).lines = e.lines ∨ Nonempty (Fill e.lines (fillSlot e b).lines) := by
  unfold fillSlot
  split
  case h_2 => exact Or.inl rfl
  case h_1 branch slotLine hbranch hslot =>
    split
    case isFalse => exact Or.inl rfl
    case isTrue hcond =>
      simp only [Bool.and_eq_true, Bool.not_eq_true'] at hcond
      split
      case h_2 => exact Or.inl rfl
      case h_1 i hpick =>
        obtain ⟨hib, x, hx, hmovable, hnoslot, hreach, hpass⟩ := slotCandidate_spec b hpick
        rw [hx]
        obtain ⟨lines, count⟩ := e
        obtain ⟨slot, rfl, hnop⟩ := eq_op_of_isNop hcond.2
        obtain ⟨front, tail, rfl, rfl⟩ := exists_split_of_getElem? hx
        rw [inDelaySlot_append] at hnoslot
        rw [moveRange_movable hmovable hnoslot] at hreach
        -- What is passed lies between the instruction and the branch.
        obtain ⟨n, rfl⟩ := Nat.exists_eq_add_of_le (Nat.succ_le_of_lt hib)
        obtain ⟨hpassed, -⟩ := x.effect.passes_of_reachAfter tail n (by omega)
        have hget (k : Nat) : (front ++ .op x :: tail)[front.length + 1 + k]? = tail[k]? := by
          rw [getElem?_append_right (by omega),
            show front.length + 1 + k - front.length = k + 1 by omega, getElem?_cons_succ]
        have hb : tail[n]? = some (.op branch) := by rw [← hget]; exact hbranch
        have hs : tail[n + 1]? = some (.op slot) := by rw [← hget]; exact hslot
        obtain ⟨passed, behind, rfl, rfl⟩ := exists_split_of_getElem? hb
        obtain ⟨rest, rfl⟩ : ∃ rest, behind = .op slot :: rest := by
          cases behind with
          | nil => simp at hs
          | cons l rest =>
            have hl : l = .op slot := by simpa using hs
            exact ⟨rest, by rw [hl]⟩
        refine Or.inr ⟨⟨front, passed, rest, x, branch, slot, rfl, ?_, hnoslot,
          isLoose_of_isMovable hmovable, ?_, hcond.1.1, hcond.1.2, hnop, hpass⟩⟩
        · rw [← eraseIdx_set_append front passed rest (.op x) (.op branch) (.op slot)]
          rw [show front.length.succ + passed.length = front.length + passed.length + 1 by omega]
        · rwa [take_left] at hpassed

namespace Fill

variable {before after : List Line} (F : Fill before after)
variable (M : Machine Value Memory) (s : MachineState Value Memory)

theorem moved_isBranch : F.moved.isBranch = false := isBranch_of_isLoose F.moved_loose

theorem slot_isBranch : F.slot.isBranch = false := isBranch_of_isNop F.isNop

theorem exec_moved_reads : ∀ l ∈ F.branch.reads, (M.exec F.moved s).registers l = s.registers l := by
  intro l hl
  refine M.frame F.moved s l F.moved_isBranch ?_
  have hpass := F.passesBranch
  simp only [Instruction.passesBranch, Bool.and_eq_true, Bool.not_eq_true'] at hpass
  rw [Bool.eq_false_iff]
  intro hw
  have hr := LocationSet.not_contains_of_not_intersects hpass.1 hw
  rw [Instruction.effect_reads_contains.mpr hl] at hr
  cases hr

theorem exec_moved_constant : ∀ l, l.isConstant → (M.exec F.moved s).registers l = s.registers l := by
  intro l hl
  exact M.frame F.moved s l F.moved_isBranch (F.moved.effect_writes_constant hl)

theorem takes_moved : M.takes F.branch (M.exec F.moved s) = M.takes F.branch s :=
  M.takes_congr (F.exec_moved_reads M s) (F.exec_moved_constant M s)

theorem linked_moved : M.exec F.moved (M.linked F.branch s) = M.linked F.branch (M.exec F.moved s) := by
  unfold linked
  split
  case isFalse => rfl
  case isTrue hjal =>
    have hpass := F.passesBranch
    simp only [Instruction.passesBranch, hjal, Bool.and_eq_true, Bool.not_eq_true', beq_self_eq_true,
      Bool.true_and, Bool.or_eq_false_iff] at hpass
    refine M.exec_set F.moved_isBranch ?_ _ s
    simp only [dependsOn, hpass.2.1, hpass.2.2, Bool.false_or]
    rfl

theorem exec_slot : M.exec F.slot (M.linked F.branch (M.exec F.moved s)) = M.exec F.moved (M.linked F.branch s) := by
  rw [M.exec_nop F.isNop, F.linked_moved]

/-! ### Corresponding places -/

def oldTail : List Line := .op F.moved :: (F.passed ++ .op F.branch :: .op F.slot :: F.rest)

def newTail : List Line := F.passed ++ .op F.branch :: .op F.moved :: F.rest

theorem front_newTail : F.front ++ F.newTail = after := F.after_eq.symm

theorem front_oldTail : F.front ++ F.oldTail = before := F.before_eq.symm

/-- Places outside the region that the instruction moved through, its top included. -/
inductive Place : List Line → List Line → Prop
  | above (p : List Line) (h : p <:+ F.front) : Place (p ++ F.newTail) (p ++ F.oldTail)
  | below (p : List Line) (h : p <:+ F.rest) : Place p p

/-- Controls that correspond.  Inside the region the old code is ahead by the instruction. -/
inductive Near : Control Value Memory → Control Value Memory → Prop
  | outside {c d} (h : Matches F.Place c d) : Near c d
  | inside (p : List Line) (h : p <:+ F.passed) (s : MachineState Value Memory) :
      Near (.running (p ++ .op F.branch :: .op F.moved :: F.rest) s)
        (.running (p ++ .op F.branch :: .op F.slot :: F.rest) (M.exec F.moved s))

theorem isInstruction_of_passed : ∀ l ∈ F.passed, l.isInstruction := by
  intro l hl
  obtain ⟨j, rfl, -, -⟩ := passes_op (F.passes l hl)
  rfl

theorem locate_tails (name : String) :
    locate name F.newTail = locate name F.rest ∧ locate name F.oldTail = locate name F.rest := by
  have hpassed := locate_instructions name F.isInstruction_of_passed
  constructor
  · rw [newTail, locate_append, hpassed]
    rfl
  · rw [oldTail, locate, locate_append, hpassed]
    rfl

theorem locate_place (name : String) : Option.Rel F.Place (locate name after) (locate name before) := by
  obtain ⟨hnew, hold⟩ := F.locate_tails name
  have hafter : locate name after = ((locate name F.front).map (· ++ F.newTail)).or (locate name F.rest) := by
    rw [← hnew, ← locate_append, F.front_newTail]
  have hbefore : locate name before = ((locate name F.front).map (· ++ F.oldTail)).or (locate name F.rest) := by
    rw [← hold, ← locate_append, F.front_oldTail]
  rw [hafter, hbefore]
  cases hfront : locate name F.front with
  | some p => exact .some (.above p (locate_suffix hfront))
  | none =>
    cases hrest : locate name F.rest with
    | some p => exact .some (.below p (locate_suffix hrest))
    | none => exact .none

theorem branch_has_slot (hp : l :: p <:+ F.front) (hl : l.isBranch) : ∃ x q, p = x :: q := by
  cases p with
  | cons x q => exact ⟨x, q, rfl⟩
  | nil =>
    obtain ⟨front, hfront⟩ := hp
    have h := F.front_end
    rw [← hfront, endsInBranch] at h
    simp [hl] at h

theorem isBranch_of_passed : ∀ l ∈ F.passed, l.isBranch = false := by
  intro l hl
  obtain ⟨j, rfl, hloose, -⟩ := passes_op (F.passes l hl)
  exact isBranch_of_isLoose hloose

theorem behind_tails (n : Nat) : Option.Rel F.Place (behind n F.newTail) (behind n F.oldTail) := by
  have hbranch : (op F.branch).isBranch := F.isBranch
  have hmoved : (op F.moved).isBranch = false := F.moved_isBranch
  have hslot : (op F.slot).isBranch = false := F.slot_isBranch
  rw [newTail, oldTail, behind_plain hmoved, behind_plain_append F.isBranch_of_passed,
    behind_plain_append F.isBranch_of_passed]
  cases n with
  | zero =>
    rw [behind_branch hbranch, behind_branch hbranch]
    exact .some (.below F.rest (suffix_refl _))
  | succ k =>
    rw [behind_branch_succ hbranch, behind_branch_succ hbranch, behind_plain hmoved, behind_plain hslot]
    cases h : behind k F.rest with
    | some p => exact .some (.below p (behind_suffix h))
    | none => exact .none

theorem behind_above (hp : p <:+ F.front) (n : Nat) :
    Option.Rel F.Place (behind n (p ++ F.newTail)) (behind n (p ++ F.oldTail)) := by
  induction p generalizing n with
  | nil => exact F.behind_tails n
  | cons l p ih =>
    have hrest := (suffix_cons l p).trans hp
    rw [cons_append, cons_append]
    by_cases hl : l.isBranch
    · cases n with
      | succ n =>
        rw [behind_branch_succ hl, behind_branch_succ hl]
        exact ih hrest n
      | zero =>
        obtain ⟨x, q, rfl⟩ := F.branch_has_slot hp hl
        rw [behind_branch hl, behind_branch hl]
        exact .some (.above q ((suffix_cons x q).trans hrest))
    · rw [Bool.not_eq_true] at hl
      rw [behind_plain hl, behind_plain hl]
      exact ih hrest n

theorem whole_place : F.Place after before := by
  have habove := Place.above (F := F) F.front (suffix_refl _)
  simp only [F.front_newTail, F.front_oldTail] at habove
  exact habove

theorem behind_place (n : Nat) : Option.Rel F.Place (behind n after) (behind n before) := by
  have habove := F.behind_above (suffix_refl _) n
  simp only [F.front_newTail, F.front_oldTail] at habove
  exact habove

theorem enter_near (entry : Entry) : F.Near M (enter after entry s) (enter before entry s) := by
  cases entry with
  | label name => exact .outside (goto_matches F.locate_place name s)
  | top => exact .outside (.running F.whole_place s)
  | behind n =>
    have h := F.behind_place n
    simp only [enter]
    generalize behind n after = there at h ⊢
    generalize behind n before = thereOld at h ⊢
    cases h with
    | some h => exact .outside (.running h s)
    | none => exact .outside (.left _ s)

end Fill

def Event.isControl {Value Memory : Type} : Event Value Memory → Bool
  | .executed _ => false
  | _ => true

def visible {Value Memory : Type} (events : List (Event Value Memory)) : List (Event Value Memory) :=
  events.filter Event.isControl

namespace Fill

variable {before after : List Line} (F : Fill before after)
variable (M : Machine Value Memory) (s : MachineState Value Memory)

theorem branch_near : visible (M.branch after F.branch F.moved F.rest s).1
        = visible (M.branch before F.branch F.slot F.rest (M.exec F.moved s)).1 ∧
      F.Near M (M.branch after F.branch F.moved F.rest s).2
        (M.branch before F.branch F.slot F.rest (M.exec F.moved s)).2 := by
  have hrest : F.Place F.rest F.rest := .below F.rest (suffix_refl _)
  unfold Machine.branch
  rw [F.takes_moved, F.exec_slot]
  dsimp only
  split
  · obtain ⟨hevents, hmatch⟩ := M.transfer_matches F.locate_place hrest F.branch
      (operand? F.branch 0 s) (M.exec F.moved (M.linked F.branch s))
    have haddress := M.transfer_address before (i := F.branch) (s := M.exec F.moved (M.linked F.branch s))
      (a := operand? F.branch 0 (M.exec F.moved s)) (b := operand? F.branch 0 s)
      (fun ho => operand?_congr_jr ho (F.exec_moved_reads M s) (F.exec_moved_constant M s))
      F.rest
    rw [haddress, hevents]
    exact ⟨rfl, .outside hmatch⟩
  · exact ⟨rfl, .outside (.running hrest _)⟩

theorem step_inside (hp : p <:+ F.passed) :
    visible (M.step after (.running (p ++ .op F.branch :: .op F.moved :: F.rest) s)).1 = visible (M.step before
            (.running (p ++ .op F.branch :: .op F.slot :: F.rest) (M.exec F.moved s))).1 ∧
      F.Near M (M.step after (.running (p ++ .op F.branch :: .op F.moved :: F.rest) s)).2 (M.step before
          (.running (p ++ .op F.branch :: .op F.slot :: F.rest) (M.exec F.moved s))).2 := by
  cases p with
  | nil =>
    rw [nil_append, nil_append, M.step_branch _ _ _ F.isBranch F.moved_isBranch,
      M.step_branch _ _ _ F.isBranch F.slot_isBranch]
    exact F.branch_near M s
  | cons l p =>
    obtain ⟨j, rfl, hloose, hfree⟩ := passes_op (F.passes l (hp.subset (.head _)))
    have hj := isBranch_of_isLoose hloose
    rw [cons_append, cons_append, M.step_plain _ _ _ hj, M.step_plain _ _ _ hj,
      M.exec_comm hj F.moved_isBranch (independent_of_not_conflicts hfree).symm]
    exact ⟨rfl, .inside p ((suffix_cons _ p).trans hp) _⟩

theorem step_above (hp : l :: p <:+ F.front) : (M.step after (.running (l :: p ++ F.newTail) s)).1
        = (M.step before (.running (l :: p ++ F.oldTail) s)).1 ∧
      Matches F.Place (M.step after (.running (l :: p ++ F.newTail) s)).2
        (M.step before (.running (l :: p ++ F.oldTail) s)).2 := by
  have hrest : p <:+ F.front := (suffix_cons l p).trans hp
  refine M.step_matches F.locate_place (.above p hrest) ?_ s
  intro hl
  obtain ⟨x, q, rfl⟩ := F.branch_has_slot hp hl
  exact Or.inr ⟨x, _, _, rfl, rfl, .above q ((suffix_cons x q).trans hrest)⟩

theorem step_below (hp : p <:+ F.rest) : (M.step after (.running p s)).1 = (M.step before (.running p s)).1 ∧
      Matches F.Place (M.step after (.running p s)).2 (M.step before (.running p s)).2 := by
  cases p with
  | nil => exact ⟨rfl, .left _ s⟩
  | cons l p =>
    have hrest : p <:+ F.rest := (suffix_cons l p).trans hp
    refine M.step_matches F.locate_place (.below p hrest) ?_ s
    intro _
    cases p with
    | nil => exact Or.inl ⟨rfl, rfl⟩
    | cons x q => exact Or.inr ⟨x, q, q, rfl, rfl, .below q ((suffix_cons x q).trans hrest)⟩

/-- **A filled slot is not seen.**  Each step is matched by one of the old code; the first inside the
region is matched by two, of which one executes the instruction. -/
theorem simulation : M.Simulation (fun a b => visible a = visible b) (F.Near M) after before where
  nil := rfl
  append := by
    intro a b a' b' h h'
    unfold visible at h h' ⊢
    rw [filter_append, filter_append, h, h']
  left := by
    intro e s d h
    cases h with
    | outside h =>
      cases h with
      | left => exact ⟨e, s, rfl⟩
  step := by
    intro rest s d h
    cases h with
    | inside p hp s =>
      refine ⟨0, ?_⟩
      rw [M.run_one]
      exact F.step_inside M s hp
    | outside h =>
      cases h with
      | running h s =>
        cases h with
        | below p hp =>
          refine ⟨0, ?_⟩
          rw [M.run_one]
          obtain ⟨hevents, hmatch⟩ := F.step_below M s hp
          exact ⟨by rw [hevents], .outside hmatch⟩
        | above p hp =>
          cases p with
          | cons l p =>
            refine ⟨0, ?_⟩
            rw [M.run_one]
            obtain ⟨hevents, hmatch⟩ := F.step_above M s hp
            exact ⟨by rw [hevents], .outside hmatch⟩
          | nil =>
            have hmoved := M.step_plain before (F.passed ++ .op F.branch :: .op F.slot :: F.rest) s F.moved_isBranch
            refine ⟨1, ?_⟩
            rw [M.run_succ, nil_append, nil_append, oldTail, hmoved, M.run_one]
            exact F.step_inside M s (suffix_refl _)

end Fill

/-- Two runs leave in the same ways and states, after the same decisions, and if they do not leave they
still go the same way. -/
structure Machine.SameControl {Value Memory : Type} (M : Machine Value Memory) (new old : List Line)
    (c d : Control Value Memory) : Prop where
  ends : ∀ e s events, (∃ n, (M.run new n c).2 = .left e s ∧ visible (M.run new n c).1 = events) ↔
      ∃ n, (M.run old n d).2 = .left e s ∧ visible (M.run old n d).1 = events
  goes : ∀ events, (∃ n, events <+: visible (M.run new n c).1) ↔ ∃ n, events <+: visible (M.run old n d).1

namespace Machine.SameControl

variable {M : Machine Value Memory} {new old older : List Line} {c d e : Control Value Memory}

theorem refl (M : Machine Value Memory) (old : List Line) (d : Control Value Memory) :
    M.SameControl old old d d := ⟨fun _ _ _ => Iff.rfl, fun _ => Iff.rfl⟩

theorem trans (h : M.SameControl new old c d) (h' : M.SameControl old older d e) : M.SameControl new older c e :=
  ⟨fun x s events => (h.ends x s events).trans (h'.ends x s events),
    fun events => (h.goes events).trans (h'.goes events)⟩

end Machine.SameControl

/-- **One filled slot** keeps every run, wherever control comes in. -/
theorem Fill.sameControl {before after} (F : Fill before after)
    (M : Machine Value Memory) (entry : Entry) (s : MachineState Value Memory) :
    M.SameControl after before (enter after entry s) (enter before entry s) := by
  have hfollows := (F.simulation M).follows (F.enter_near M s entry)
  refine ⟨?_, ?_⟩
  · intro e t events
    constructor
    · rintro ⟨n, hn, rfl⟩
      obtain ⟨m, hseen, hnear⟩ := hfollows.left_old hn
      refine ⟨m, ?_, hseen.symm⟩
      cases hd : (M.run before m (enter before entry s)).2 with
      | running rest u =>
        rw [hd] at hnear
        cases hnear with
        | outside h => cases h
      | left x u =>
        rw [hd] at hnear
        cases hnear with
        | outside h => cases h with | left => rfl
    · rintro ⟨m, hm, rfl⟩
      obtain ⟨hseen, hnear⟩ := hfollows.left_new hm
      refine ⟨m, ?_, hseen⟩
      cases hc : (M.run after m (enter after entry s)).2 with
      | running rest u =>
        rw [hc] at hnear
        cases hnear with
        | outside h => cases h
      | left x u =>
        rw [hc] at hnear
        cases hnear with
        | outside h => cases h with | left => rfl
  · intro events
    constructor
    · rintro ⟨n, hn⟩
      obtain ⟨m, -, hseen, -⟩ := hfollows n
      exact ⟨m, hseen ▸ hn⟩
    · rintro ⟨m, hm⟩
      obtain ⟨k, hk, hseen, -⟩ := hfollows m
      refine ⟨m, hm.trans ?_⟩
      rw [hseen]
      exact (M.run_extends before hk _).filter _

theorem fillDelaySlots_induction {R : List Line → List Line → Prop} (hrefl : ∀ lines, R lines lines)
    (htrans : ∀ {old mid new}, R old mid → R mid new → R old new)
    (hfill : ∀ {before after}, Fill before after → R before after) (lines : List Line) :
    R lines (fillDelaySlots lines).lines := by
  have hfold (positions : List Nat) (e : Edited) : R e.lines (positions.foldl fillSlot e).lines := by
    induction positions generalizing e with
    | nil => exact hrefl e.lines
    | cons b positions ih =>
      refine htrans ?_ (ih (fillSlot e b))
      rcases fillSlot_cases e b with hsame | ⟨⟨F⟩⟩
      · rw [hsame]
        exact hrefl e.lines
      · exact hfill F
  exact hfold (range lines.length) ⟨lines, 0⟩

/-- **Filling delay slots keeps every run.**  From the top and from every label, in every state, control
comes to the same labels and exits in the same order, every branch makes the same decision, and the
states there and behind every slot are the same. -/
theorem fillDelaySlots_preserves_runs {Value Memory : Type} (M : Machine Value Memory)
    (lines : List Line) (entry : Machine.Entry) (s : MachineState Value Memory) :
    M.SameControl (fillDelaySlots lines).lines lines
      (Machine.enter (fillDelaySlots lines).lines entry s) (Machine.enter lines entry s) :=
  fillDelaySlots_induction (fun _ => .refl M _ _) (fun hfirst hrest => hrest.trans hfirst)
    (fun F => F.sameControl M entry s) lines

end Microcode
