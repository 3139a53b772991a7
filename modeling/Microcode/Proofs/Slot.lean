import Microcode.Optimizer
import Microcode.Proofs.DelaySlot
import Microcode.Proofs.Peephole.Jump
import Microcode.Proofs.Result

/-!
Every branch keeps its slot.

The machine executes what stands behind a branch before the branch takes effect, so it has to be exactly one
instruction, and no branch.
-/

namespace Microcode

open Instruction List

variable {lines a b c : List Line} {fits : Line → Bool}

def Line.isStraight : Line → Bool
  | .op i => !i.isBranch
  | _ => false

def SlotsAre (fits : Line → Bool) : List Line → Prop
  | [] => True
  | l :: rest => (l.isBranch → rest.head?.any fits) ∧ SlotsAre fits rest

variable {l : Line}

section

theorem SlotsAre.tail (h : SlotsAre fits (l :: a)) : SlotsAre fits a := h.2

theorem SlotsAre.drop (h : SlotsAre fits (a ++ b)) : SlotsAre fits b := by
  induction a with
  | nil => exact h
  | cons l a ih => exact ih h.2

theorem SlotsAre.cons (hl : l.isBranch = false) (h : SlotsAre fits a) : SlotsAre fits (l :: a) :=
  ⟨fun hb => absurd (hl.symm.trans hb) Bool.false_ne_true, h⟩

theorem SlotsAre.replace (h : SlotsAre fits (a ++ b)) (hc : SlotsAre fits c)
    (hhead : b.head?.any fits → c.head?.any fits) : SlotsAre fits (a ++ c) := by
  induction a with
  | nil => exact hc
  | cons l a ih =>
    refine ⟨fun hl => ?_, ih h.2⟩
    cases a with
    | nil => exact hhead (h.1 hl)
    | cons next a => exact h.1 hl

theorem SlotsAre.append (ha : SlotsAre fits a) (hb : SlotsAre fits b) : SlotsAre fits (a ++ b) := by
  rw [← append_nil a] at ha
  exact ha.replace hb (fun h => absurd h (by simp))

theorem SlotsAre.take (h : SlotsAre fits (a ++ b)) (hend : endsInBranch a = false) :
    SlotsAre fits a := by
  induction a with
  | nil => trivial
  | cons l a ih =>
    cases a with
    | nil => exact .cons (by simpa [endsInBranch] using hend) trivial
    | cons next a =>
      have hend' : endsInBranch (next :: a) = false := by
        exact hend
      exact ⟨h.1, ih h.2 hend'⟩

theorem SlotsAre.mono {fits'} (hfits : ∀ l, fits l → fits' l) (h : SlotsAre fits a) : SlotsAre fits' a := by
  induction a with
  | nil => trivial
  | cons l a ih =>
    refine ⟨fun hl => ?_, ih h.2⟩
    have hslot := h.1 hl
    cases a with
    | nil => simp at hslot
    | cons slot a => exact hfits slot hslot

end

theorem Line.isBranch_of_isStraight (h : l.isStraight) : l.isBranch = false := by
  cases l with
  | op i => exact (Bool.not_eq_true' i.isBranch).mp h
  | _ => rfl

theorem Line.isStraight_eq (l : Line) : l.isStraight = (l.isInstruction && !l.isBranch) := by
  cases l with
  | op i => exact (Bool.true_and _).symm
  | _ => rfl

theorem SlotsAre.map {f} (hinstruction : ∀ l, (f l).isInstruction = l.isInstruction)
    (hbranch : ∀ l, (f l).isBranch = l.isBranch) (h : SlotsAre Line.isStraight lines) :
    SlotsAre Line.isStraight (lines.map f) := by
  induction lines with
  | nil => trivial
  | cons l rest ih =>
    refine ⟨fun hl => ?_, ih h.2⟩
    rw [hbranch] at hl
    have hslot := h.1 hl
    cases rest with
    | nil => simp at hslot
    | cons slot rest =>
      show (f slot).isStraight
      rw [Line.isStraight_eq, hinstruction, hbranch, ← Line.isStraight_eq]
      exact hslot

/-- The second list has its slots if the first has, and begins with a line for a slot if the first
does. -/
structure KeepsSlots (before after : List Line) : Prop where
  slots : SlotsAre Line.isStraight before → SlotsAre Line.isStraight after
  first : before.head?.any Line.isStraight → after.head?.any Line.isStraight

section

theorem KeepsSlots.refl (a : List Line) : KeepsSlots a a := ⟨id, id⟩

theorem KeepsSlots.cons (l : Line) (h : KeepsSlots a b) : KeepsSlots (l :: a) (l :: b) where
  slots hs := ⟨fun hl => h.first (hs.1 hl), h.slots hs.2⟩
  first hl := hl

theorem KeepsSlots.drop (hl : l.isStraight = false) (h : KeepsSlots a b) : KeepsSlots (l :: a) b where
  slots hs := h.slots hs.2
  first hfirst := absurd (hl.symm.trans hfirst) Bool.false_ne_true

theorem stripComments_keepsSlots (lines : List Line) : KeepsSlots lines (stripComments lines).lines := by
  show KeepsSlots lines (lines.filter (! ·.isComment))
  induction lines with
  | nil => exact .refl []
  | cons l rest ih =>
    rw [filter_cons]
    split
    · exact ih.cons l
    next hcomment =>
      refine ih.drop ?_
      cases l with
      | comment _ => rfl
      | op _ | label _ | raw _ => exact absurd rfl hcomment

theorem mergedSlot_isBranch (jump : Instruction) (after : String) : (mergedSlot jump after).isBranch = false := by
  unfold mergedSlot
  split
  · rfl
  · rfl

theorem KeepsSlots.branch {branch slot turned slot'} (hbranch : branch.isBranch) (hslot : slot'.isBranch = false)
    (h : SlotsAre Line.isStraight a → SlotsAre Line.isStraight b) :
    KeepsSlots (.op branch :: .op slot :: a) (.op turned :: .op slot' :: b) where
  slots hs := ⟨fun _ => by simp [Line.isStraight, hslot], SlotsAre.cons hslot (h hs.tail.tail)⟩
  first hfirst := by
    have hstraight : (Line.op branch).isStraight := hfirst
    exact absurd (hbranch.symm.trans (Line.isBranch_of_isStraight hstraight)) (by simp)

theorem KeepsSlots.behind (h : KeepsSlots a b) {front}
    (hs : SlotsAre Line.isStraight (front ++ a)) : SlotsAre Line.isStraight (front ++ b) :=
  hs.replace (h.slots hs.drop) h.first

variable {before rest new : List Line} {i : Instruction} {d : Fin 32}

theorem MergesJumps.keepsSlots {isCommand : Bool} (h : MergesJumps isCommand before rest new) :
    KeepsSlots rest new := by
  induction h with
  | nil => exact .refl []
  | keep l _ ih => exact ih.cons l
  | turn hskip _ _ _ ih =>
    simp only [skipsJump, Bool.and_eq_true] at hskip
    have hbranch := isBranch_of_isConditional hskip.1.1.1.1.1.1
    exact .branch hbranch (mergedSlot_isBranch _ _) fun hs => ih.slots hs.tail.tail
  | turnDrop hskip _ _ _ _ ih =>
    simp only [skipsJump, Bool.and_eq_true] at hskip
    have hbranch := isBranch_of_isConditional hskip.1.1.1.1.1.1
    exact .branch hbranch (mergedSlot_isBranch _ _) fun hs => ih.slots hs.tail.tail.tail

theorem MergesAsserts.keepsSlots (h : MergesAsserts lines new) : KeepsSlots lines new := by
  induction h with
  | nil => exact .refl []
  | keep l _ ih => exact ih.cons l
  | turn hskip _ _ ih =>
    simp only [skipsAssert, Bool.and_eq_true, beq_iff_eq] at hskip
    have hbranch := isBranch_of_isConditional hskip.1.1.1.1.1.1.1.1
    refine .branch hbranch ?_ fun hs => ih.slots hs.tail.tail.tail
    rw [isBranch, hskip.1.1.1.1.1.1.2]
    rfl

theorem followHops_cases (table : List (String × String)) (l : Line) :
    (l.followHops table).isInstruction = l.isInstruction ∧ (l.followHops table).isBranch = l.isBranch := by
  cases l with
  | op i =>
    unfold Line.followHops
    dsimp only
    split
    next target htarget =>
      rw [withTarget_eq htarget]
      exact ⟨rfl, rfl⟩
    · exact ⟨rfl, rfl⟩
  | _ => exact ⟨rfl, rfl⟩

theorem jumpTailCalls_keepsSlots (lines : List Line) : KeepsSlots lines (jumpTailCalls lines).lines := by
  fun_induction jumpTailCalls lines with
  | case1 call slot jump jumpSlot rest hcall more ih =>
    simp only [isTailCall, Bool.and_eq_true] at hcall
    have hopcode : call.opcode = .jal := by simpa using hcall.1.1.1.1.1
    have hbranch : call.isBranch := by
      rw [isBranch, hopcode]
      rfl
    have hslot : slot.isBranch = false := isBranch_of_isNop hcall.1.1.1.1.2
    exact .branch hbranch hslot fun hs => ih.slots hs.tail.tail
  | case2 call slot jump jumpSlot rest hcall more ih => exact ih.cons _
  | case3 l rest hl more ih => exact ih.cons l
  | case4 => exact .refl []

theorem tailCalls_slots (hs : SlotsAre Line.isStraight lines) : SlotsAre Line.isStraight (tailCalls lines).lines := by
  unfold tailCalls
  dsimp only
  split
  · exact hs
  · exact (jumpTailCalls_keepsSlots lines).slots hs

theorem joinLabels_keepsSlots (texts : List String) (lines : List Line) :
    KeepsSlots lines (joinLabels texts lines).1 := by
  fun_induction joinLabels texts lines with
  | case1 first second rest lines names hjoin hmentions ih =>
    rw [hjoin] at ih
    exact ih.cons _
  | case2 first second rest lines names hjoin hmentions ih =>
    rw [hjoin] at ih
    exact ih.drop rfl
  | case3 l rest hl lines names hjoin ih =>
    rw [hjoin] at ih
    exact ih.cons l
  | case4 => exact .refl []

theorem rename_slots (names : List (String × String)) (hs : SlotsAre Line.isStraight lines) : SlotsAre Line.isStraight
      (names.foldl (fun lines (before, after) => lines.map (·.rename before after)) lines) := by
  induction names generalizing lines with
  | nil => exact hs
  | cons name names ih =>
    refine ih (hs.map (fun l => ?_) fun l => ?_)
    · cases l <;> rfl
    · cases l <;> rfl

theorem dedupeLabels_slots (hs : SlotsAre Line.isStraight lines) :
    SlotsAre Line.isStraight (dedupeLabels lines).lines :=
  rename_slots _ ((joinLabels_keepsSlots (rawTexts lines) lines).slots hs)

theorem Instruction.isBranch_of_lowHalf? {low : UInt32} (h : i.lowHalf? d = some low) : i.isBranch = false := by
  unfold lowHalf? at h
  split at h
  next hopcode _ =>
    rw [isBranch, hopcode]
    rfl
  · simp at h

variable {value : Loaded}

theorem isStraight_of_loadAt? {next : Line}
    (h : loadAt? (.op i :: next :: rest) = some (d, value, true)) : next.isStraight := by
  simp only [loadAt?, Option.bind_eq_bind, Option.bind_eq_some_iff] at h
  obtain ⟨⟨e, loaded⟩, -, h⟩ := h
  dsimp only at h
  split at h
  next second behind hopcode hlines =>
    split at h
    next low hlow =>
      rw [(cons.inj hlines).1]
      exact (Bool.not_eq_true' second.isBranch).mpr (isBranch_of_lowHalf? hlow)
    · simp at h
  · simp at h

theorem lowStep?_eq_some {o step : Opcode} (h : o.lowStep? = some step) :
    o = .vrcph ∧ step = .vrcpl ∨ o = .vrsqh ∧ step = .vrsql := by
  unfold Opcode.lowStep? at h
  split at h <;> cases h <;> simp

theorem repeatsInput_spec {before first low last} (h : repeatsInput before first low last) :
    ∃ lane, first.opcode.lowStep? = some low.opcode ∧ first.zeroLane? = some lane
      ∧ before.opcode = first.opcode ∧ before.zeroLane?.isSome ∧ first.targetLane? = some lane
      ∧ low.targetLane? = some lane ∧ last.opcode = first.opcode ∧ last.args = first.args
      ∧ first.isPinned = false := by
  unfold repeatsInput at h
  split at h
  next lowStep lane hstep hlane =>
    simp only [Bool.and_eq_true, beq_iff_eq, Bool.not_eq_true'] at h
    obtain ⟨⟨⟨⟨⟨⟨⟨hbefore, hzero⟩, htarget⟩, hlow⟩, hlowTarget⟩, hlast⟩, hargs⟩, hpinned⟩ := h
    rw [← hlow] at hstep
    exact ⟨lane, hstep, hlane, hbefore, hzero, htarget, hlowTarget, hlast, hargs, hpinned⟩
  · cases h

theorem isBranch_of_repeatsInput {before first low last}
    (h : repeatsInput before first low last) : before.isBranch = false ∧ first.isBranch = false := by
  obtain ⟨lane, hstep, -, hbefore, -⟩ := repeatsInput_spec h
  rw [isBranch, isBranch, hbefore, and_self]
  rcases lowStep?_eq_some hstep with ⟨ho, -⟩ | ⟨ho, -⟩ <;> rw [ho] <;> rfl

/-! ### Lines left out -/

/-- What may come of an instruction, going by the lines before it alone. -/
inductive Flow where
  | live
  /-- It is in the slot of a jump. -/
  | slot
  /-- It stands behind a jump and its slot. -/
  | dead
deriving DecidableEq, Repr

def Flow.after (flow : Flow) (l : Line) : Flow := if l.isInstruction then
    match flow with
    | live => if l.isLeaving then slot else live
    | _ => dead
  else live

def flowBehind (front : List Line) : Flow := front.foldl Flow.after .live

@[simp] theorem flowBehind_append (front : List Line) (l : Line) :
    flowBehind (front ++ [l]) = (flowBehind front).after l := by
  simp [flowBehind]

namespace Flow

theorem after_of_not_isInstruction (h : l.isInstruction = false) (flow : Flow) : flow.after l = live := by
  simp [after, h]

theorem after_of_not_isLeaving {i} (h : (Line.op i).isLeaving = false) (flow : Flow) :
    flow.after (.op i) = if flow = live then live else dead := by
  cases flow <;> simp [after, Line.isInstruction, h]

theorem after_congr {m : Line} (hinstruction : m.isInstruction = l.isInstruction)
    (hleaving : m.isLeaving = l.isLeaving) (flow : Flow) : flow.after m = flow.after l := by
  simp only [after, hinstruction, hleaving]

end Flow

theorem Line.isInstruction_of_isBranch (h : l.isBranch) : l.isInstruction := by
  cases l with
  | op i => rfl
  | _ => cases h

theorem Flow.after_live {flow : Flow} (hleaving : l.isLeaving = false)
    (hlive : l.isInstruction → flow = live) : flow.after l = live := by
  by_cases hl : l.isInstruction
  · simp [after, hl, hlive hl, hleaving]
  · exact after_of_not_isInstruction (eq_false_of_ne_true hl) flow

def Reach.flow : Reach → Flow
  | .code _ => .live
  | .slot => .slot
  | .dead => .dead

theorem Line.isBranch_of_isLeaving (h : l.isLeaving) : l.isBranch := by
  cases hbranch : l.isBranch with
  | true => rfl
  | false => exact absurd (h.symm.trans (isLeaving_of_not_isBranch hbranch)) (by simp)

theorem Line.leaves_eq {afterBranch : Bool} (h : afterBranch → l.isStraight) :
    (l.isLeaving && !afterBranch) = l.isLeaving := by
  cases afterBranch with
  | false => simp
  | true => simp [isLeaving_of_not_isBranch (isBranch_of_isStraight (h rfl))]

theorem Flow.after_of_isLeaving (h : l.isLeaving) : Flow.live.after l = .slot := by
  simp [after, Line.isInstruction_of_isBranch (Line.isBranch_of_isLeaving h), h]

theorem Flow.after_slot (h : l.isLeaving) (flow : Flow) (slot : Instruction) :
    (flow.after l).after (.op slot) = .dead := by
  have hl := Line.isInstruction_of_isBranch (Line.isBranch_of_isLeaving h)
  have hslot : (Line.op slot).isInstruction := rfl
  cases flow <;> simp [after, hl, h, hslot]

theorem flowBehind_ne_slot {front} (h : endsInBranch front = false) : flowBehind front ≠ .slot := by
  rcases eq_nil_or_concat front with rfl | ⟨front, l, rfl⟩
  · exact Flow.noConfusion
  · have hl : l.isBranch = false := by simpa [endsInBranch] using h
    rw [concat_eq_append, flowBehind_append]
    cases hinstruction : l.isInstruction <;> cases flowBehind front <;>
      simp [Flow.after, hinstruction, Line.isLeaving_of_not_isBranch hl]

/-- Lines are left out of `old`, each for a reason that it and the lines around it give, and none right behind a
branch that is kept.  The lines before are `front`, and those kept of them `kept`. -/
inductive Cuts (Out : List Line → List Line → Prop) : List Line → List Line → List Line → List Line → Prop
  | nil {front kept} : Cuts Out front kept [] []
  | keep {front kept l old new} (h : Cuts Out (front ++ [l]) (kept ++ [l]) old new) :
      Cuts Out front kept (l :: old) (l :: new)
  | drop {front kept l old new} (hkept : endsInBranch kept = false) (hout : Out front (l :: old))
      (h : Cuts Out (front ++ [l]) kept old new) : Cuts Out front kept (l :: old) new

section
variable {Out : List Line → List Line → Prop} {front kept old new : List Line}

theorem Cuts.slots (h : Cuts Out front kept old new) (hs : SlotsAre fits old) :
    SlotsAre fits new ∧ (endsInBranch kept → new.head? = old.head?) := by
  induction h with
  | nil => exact ⟨trivial, fun _ => rfl⟩
  | keep _ ih =>
    obtain ⟨hnew, hhead⟩ := ih hs.2
    refine ⟨⟨fun hl => ?_, hnew⟩, fun _ => rfl⟩
    rw [hhead (by simpa [endsInBranch] using hl)]
    exact hs.1 hl
  | drop hkept _ _ ih => exact ⟨(ih hs.2).1, fun h => absurd (hkept.symm.trans h) (by simp)⟩

theorem Cuts.refl (old : List Line) : Cuts Out front kept old old := by
  induction old generalizing front kept with
  | nil => exact .nil
  | cons l old ih => exact .keep ih

theorem endsInBranch_of_isStraight (h : l.isStraight) : endsInBranch (kept ++ [l]) = false := by
  simpa [endsInBranch] using Line.isBranch_of_isStraight h

/-- An instruction that no control comes to. -/
def Dead (front rest : List Line) : Prop := flowBehind front = .dead ∧ rest.head?.any Line.isInstruction

theorem dropUnreached_cuts (mode : Reach) (lines front kept : List Line) (hs : SlotsAre Line.isStraight lines)
    (hslot : mode = .slot ∨ mode = .code true → lines.head?.any Line.isStraight)
    (hfront : flowBehind front = mode.flow) (hkept : mode = .dead → endsInBranch kept = false) :
    Cuts Dead front kept lines (dropUnreached mode lines).lines := by
  fun_induction dropUnreached mode lines generalizing front kept with
  | case1 => exact .nil
  | case2 l rest more ih =>
    have hl : l.isStraight := hslot (.inl rfl)
    have hinstruction : l.isInstruction := by
      rw [Line.isStraight_eq, Bool.and_eq_true] at hl
      exact hl.1
    refine .keep (ih _ _ hs.tail (by simp) ?_ fun _ => endsInBranch_of_isStraight hl)
    rw [flowBehind_append, hfront]
    simp [Reach.flow, Flow.after, hinstruction]
  | case3 l rest hl more ih =>
    refine .drop (hkept rfl) ⟨hfront, hl⟩ (ih _ _ hs.tail (by simp) ?_ hkept)
    rw [flowBehind_append, hfront]
    simp [Reach.flow, Flow.after, hl]
  | case4 l rest hl more ih =>
    refine .keep (ih _ _ hs.tail (by simp) ?_ (by simp))
    rw [flowBehind_append, Flow.after_of_not_isInstruction (eq_false_of_ne_true hl)]
    rfl
  | case5 afterBranch l rest more ih =>
    have hleaves := Line.leaves_eq (l := l) fun hafter : afterBranch => hslot (.inr (by rw [hafter]))
    rw [hleaves] at ih
    simp only [more, hleaves]
    refine .keep (ih _ _ hs.tail (fun hmode => hs.1 ?_) ?_ fun hmode => ?_)
    · split at hmode
      next hleaving => exact Line.isBranch_of_isLeaving hleaving
      · simpa using hmode
    · rw [flowBehind_append, hfront]
      split
      next hleaving => exact Flow.after_of_isLeaving hleaving
      next hleaving => exact Flow.after_live (eq_false_of_ne_true hleaving) fun _ => rfl
    · split at hmode <;> cases hmode

theorem Cuts.dropDead (hold : ∀ l ∈ old, l.isInstruction) (hdead : flowBehind front = .dead)
    (hkept : endsInBranch kept = false) : Cuts Dead front kept old [] := by
  induction old generalizing front with
  | nil => exact .nil
  | cons l old ih =>
    have hl := hold l (.head _)
    refine .drop hkept ⟨hdead, hl⟩ (ih (fun m hm => hold m (.tail l hm)) ?_)
    rw [flowBehind_append, hdead]
    simp [Flow.after, hl]

theorem cutAfterJump_cuts (afterBranch : Bool) (lines front kept : List Line) (hs : SlotsAre Line.isStraight lines)
    (hlines : ∀ l ∈ lines, l.isInstruction)
    (hslot : afterBranch → lines.head?.any Line.isStraight) (hlive : flowBehind front = .live) :
    Cuts Dead front kept lines (cutAfterJump afterBranch lines) := by
  fun_induction cutAfterJump afterBranch lines generalizing front kept with
  | case1 afterBranch l slot rest hl =>
    have hleaving := (Bool.and_eq_true_iff.mp hl).1
    have hstraight : slot.isStraight := hs.1 (Line.isBranch_of_isLeaving hleaving)
    refine .keep (.keep (.dropDead (fun m hm => hlines m (by simp [hm])) ?_ (endsInBranch_of_isStraight hstraight)))
    cases slot with
    | op i => rw [flowBehind_append, flowBehind_append, Flow.after_slot hleaving]
    | _ => cases hstraight
  | case2 afterBranch l slot rest hl ih =>
    rw [Line.leaves_eq fun hafter => hslot hafter] at hl
    refine .keep (ih _ _ hs.tail (fun m hm => hlines m (.tail l hm)) hs.1 ?_)
    rw [flowBehind_append]
    exact Flow.after_live (eq_false_of_ne_true hl) fun _ => hlive
  | case3 => exact .refl _

theorem cutDeadTail_cuts (lines front kept : List Line) (hs : SlotsAre Line.isStraight lines)
    (hlive : (splitTail lines).1 = [] → flowBehind front = .live) :
    Cuts Dead front kept lines (cutDeadTail lines).lines := by
  show Cuts _ _ _ lines ((splitTail lines).1 ++ cutAfterJump false (splitTail lines).2)
  induction lines generalizing front kept with
  | nil => exact .nil
  | cons l rest ih =>
    by_cases h : (splitTail rest).1 = [] ∧ l.isInstruction
    · have hspec := splitTail_spec (l :: rest)
      rw [splitTail_tail h.1 h.2] at hlive hspec ⊢
      obtain ⟨hwhole, hinstructions⟩ : l :: (splitTail rest).2 = l :: rest ∧ _ := hspec
      rw [hwhole] at hinstructions ⊢
      exact cutAfterJump_cuts false _ _ _ hs hinstructions (by simp) (hlive rfl)
    · have hkeep : (splitTail rest).1 ≠ [] ∨ l.isInstruction = false := by
        rw [Decidable.not_and_iff_not_or_not, Bool.not_eq_true] at h
        exact h
      rw [splitTail_keep hkeep]
      refine .keep (ih _ _ hs.tail fun hrest => ?_)
      rw [flowBehind_append]
      exact Flow.after_of_not_isInstruction (hkeep.resolve_left fun hne => hne hrest) _

/-- A register has been loaded with a value in the run of instructions before some lines. -/
def LoadedBefore (front rest : List Line) (d : Fin 32) (value : Loaded) : Prop :=
  ∃ earlier load later two, front = earlier ++ load :: later ∧ (∀ l ∈ later, l.isStraight) ∧
    loadAt? (load :: (later ++ rest)) = some (d, value, two)

/-- An instruction that is not pinned and no branch. -/
inductive Spare : List Line → List Line → Prop
  | op {i : Instruction} {front rest : List Line} (hi : i.isBranch = false) (hfree : i.isPinned = false) :
      Spare front (.op i :: rest)

/-- A load of a value that the register holds already.  Of two instructions only the first is looked at. -/
inductive Reloads : List Line → List Line → Prop
  | first {front rest : List Line} (h : Spare front rest) : Reloads front rest
  | second {front rest : List Line} {high : Instruction} {low : Line} {d : Fin 32} {value : Loaded}
      (hfree : high.isPinned = false) (hload : loadAt? (.op high :: low :: rest) = some (d, value, true))
      (hheld : LoadedBefore front (.op high :: low :: rest) d value) : Reloads (front ++ [.op high]) (low :: rest)

theorem LoadedBefore.step (hl : l.isStraight) (h : LoadedBefore front (l :: rest) d value) :
    LoadedBefore (front ++ [l]) rest d value := by
  obtain ⟨earlier, load, later, two, rfl, hlater, hload⟩ := h
  refine ⟨earlier, load, later ++ [l], two, by simp, fun m hm => ?_, by simpa using hload⟩
  rcases mem_append.mp hm with hm | hm
  · exact hlater m hm
  · rw [mem_singleton.mp hm]
    exact hl

theorem Known.mem_insert {known : Known} {p} (h : p ∈ known.insert d value) : p = (d, value) ∨ p ∈ known := by
  rcases mem_cons.mp h with rfl | h
  · exact .inl rfl
  · exact .inr (mem_filter.mp h).1

theorem dropLoads_cuts (known : Known) (inSlot : Bool) (lines front kept : List Line)
    (hknown : ∀ p ∈ known, LoadedBefore front lines p.1 p.2) (hslot : endsInBranch kept → inSlot) :
    Cuts Reloads front kept lines (dropLoads known inSlot lines).lines := by
  have hplain {l : Line} {kept : List Line} (hl : l.isStraight) (h : endsInBranch (kept ++ [l])) : false = true :=
    (endsInBranch_of_isStraight hl).symm.trans h
  fun_induction dropLoads known inSlot lines generalizing front kept with
  | case1 => exact .nil
  | case2 known inSlot i rest hi more ih => exact .keep (ih _ _ (by simp) fun _ => rfl)
  | case3 known inSlot i hi d value next rest hdrop hload ih =>
    simp only [hload, hdrop, if_true]
    simp only [Bool.and_eq_true, Bool.not_eq_true', decide_eq_true_eq] at hdrop
    obtain ⟨⟨hfree, hoff⟩, hheld⟩ := hdrop
    have hkept : endsInBranch kept = false := by
      rw [Bool.eq_false_iff]
      exact fun h => absurd (hoff.symm.trans (hslot h)) (by simp)
    refine .drop hkept (.first (.op (eq_false_of_ne_true hi) hfree)) 
      (.drop hkept (.second hfree hload (hknown _ (mem_of_lookup hheld))) (ih _ _ (fun p hp => ?_) hslot))
    exact .step (isStraight_of_loadAt? hload) (.step (by simp [Line.isStraight, hi]) (hknown p hp))
  | case4 known inSlot i hi d value next rest hkeep hload ih =>
    simp only [hload, hkeep]
    have hnext := isStraight_of_loadAt? hload
    refine .keep (.keep (ih _ _ (fun p hp => ?_) (hplain hnext)))
    rcases Known.mem_insert hp with rfl | hp
    · exact ⟨front, .op i, [next], true, by simp, by simpa using hnext, hload⟩
    · exact .step hnext (.step (by simp [Line.isStraight, hi]) (hknown p hp))
  | case5 known inSlot i hi d value two rest hone hdrop hload ih =>
    simp only [hload, hdrop, if_true]
    simp only [Bool.and_eq_true, Bool.not_eq_true', decide_eq_true_eq] at hdrop
    obtain ⟨⟨hfree, hoff⟩, -⟩ := hdrop
    have hkept : endsInBranch kept = false := by
      rw [Bool.eq_false_iff]
      exact fun h => absurd (hoff.symm.trans (hslot h)) (by simp)
    refine .drop hkept (.first (.op (eq_false_of_ne_true hi) hfree)) (ih _ _ (fun p hp => ?_) hslot)
    exact .step (by simp [Line.isStraight, hi]) (hknown p hp)
  | case6 known inSlot i hi d value two rest hone hkeep hload ih =>
    simp only [hload, hkeep]
    refine .keep (ih _ _ (fun p hp => ?_) (hplain (by simp [Line.isStraight, hi])))
    rcases Known.mem_insert hp with rfl | hp
    · exact ⟨front, .op i, [], two, rfl, by simp, hload⟩
    · exact .step (by simp [Line.isStraight, hi]) (hknown p hp)
  | case7 known inSlot i hi rest hload ih =>
    rw [hload]
    refine .keep (ih _ _ (fun p hp => ?_) (hplain (by simp [Line.isStraight, hi])))
    exact .step (by simp [Line.isStraight, hi]) (hknown p (mem_filter.mp hp).1)
  | case8 known inSlot l rest hl more ih =>
    refine .keep (ih _ _ (by simp) fun h => ?_)
    cases l with
    | op i => exact absurd rfl (hl i)
    | _ => simp [endsInBranch, Line.isBranch] at h

theorem dedupeImmediates_cuts (lines : List Line) : Cuts Reloads [] [] lines (dedupeImmediates lines).lines :=
  dropLoads_cuts [] false lines [] [] (by simp) (by simp [endsInBranch])

theorem foldReciprocals_cuts (lines front kept : List Line) :
    Cuts Spare front kept lines (foldReciprocals lines).lines := by
  fun_induction foldReciprocals lines generalizing front kept with
  | case1 before first low last rest hrepeats more ih =>
    obtain ⟨hbefore, hfirst⟩ := isBranch_of_repeatsInput hrepeats
    obtain ⟨-, -, -, -, -, -, -, -, -, hfree⟩ := repeatsInput_spec hrepeats
    refine .keep (.drop ?_ (.op hfirst hfree) (ih _ _))
    simpa [endsInBranch, Line.isBranch] using hbefore
  | case2 before first low last rest hnot more ih | case3 l rest hl more ih => exact .keep (ih _ _)
  | case4 => exact .nil

end

theorem slotsAre_iff : SlotsAre fits lines ↔ ∀ k l, lines[k]? = some l → l.isBranch → (lines[k + 1]?).any fits := by
  induction lines with
  | nil => simp [SlotsAre]
  | cons first rest ih =>
    constructor
    · intro h k l hl hbranch
      cases k with
      | zero =>
        obtain rfl : first = l := by simpa using hl
        rw [getElem?_cons_succ, ← head?_eq_getElem?]
        exact h.1 hbranch
      | succ k => exact ih.mp h.2 k l hl hbranch
    · intro h
      refine ⟨fun hbranch => ?_, ih.mpr fun k l hl => h (k + 1) l hl⟩
      rw [head?_eq_getElem?]
      exact h 0 first rfl hbranch

theorem Rearranges.slots {Value Memory : Type} {I : Interpretation Value Memory}
    (h : Rearranges I a b) (hs : SlotsAre Line.isStraight a) : SlotsAre Line.isStraight b := by
  rw [slotsAre_iff] at hs ⊢
  intro k l hl hbranch
  have hfixed : isFixed b k := by
    have hloose : l.isLoose = false := by
      cases l with
      | op i =>
        have hi : i.isBranch := hbranch
        simp [Line.isLoose, hi]
      | _ => rfl
    simp [isFixed, hl, hloose]
  have hstays : b[k]? = a[k]? := h.stays k (by rw [← h.fixed]; exact hfixed)
  rw [hstays] at hl
  have hslot := hs k l hl hbranch
  have hfixed' : isFixed a (k + 1) := by
    have hin : inDelaySlot a (k + 1) := by
      rw [inDelaySlot_succ, hl]
      exact hbranch
    unfold isFixed
    split
    · rw [hin, Bool.or_true]
    next hnone =>
      rw [hnone] at hslot
      simp at hslot
  rw [h.stays (k + 1) hfixed']
  exact hslot

theorem reorder_slots (rounds : Nat) (hs : SlotsAre Line.isStraight lines) :
    SlotsAre Line.isStraight (reorder rounds lines).lines :=
  (reorder_rearranges Symbol.interpretation rounds lines).slots hs

theorem Fill.slots {after} (F : Fill before after) (hs : SlotsAre Line.isStraight before) :
    SlotsAre Line.isStraight after := by
  rw [F.before_eq] at hs
  rw [F.after_eq]
  refine (hs.take F.front_end).append ?_
  exact (KeepsSlots.branch F.isBranch F.moved_isBranch id).behind hs.drop.tail

theorem fillDelaySlots_slots (hs : SlotsAre Line.isStraight lines) :
    SlotsAre Line.isStraight (fillDelaySlots lines).lines :=
  fillDelaySlots_induction (R := fun old new => SlotsAre Line.isStraight old → SlotsAre Line.isStraight new)
    (fun _ => id) (fun hfirst hrest => hrest ∘ hfirst) Fill.slots lines hs

theorem checkDelaySlots_of_slots (hs : SlotsAre Line.isStraight lines) : checkDelaySlots lines = .ok () := by
  induction lines with
  | nil => rfl
  | cons l rest ih =>
    cases l with
    | op i =>
      rw [checkDelaySlots]
      rw [if_neg]
      · exact ih hs.tail
      · intro hmissing
        simp only [Bool.and_eq_true, Bool.not_eq_true'] at hmissing
        have hslot := hs.1 hmissing.1
        cases rest with
        | nil => simp at hslot
        | cons slot rest =>
          cases slot with
          | op j => exact absurd (hmissing.2.symm.trans hslot) (by simp)
          | _ => exact absurd hslot (by simp [Line.isStraight])
    | _ => exact ih hs.tail

end

inductive Stage where
  | stripComments
  | mergeJumps
  | mergeAsserts
  | collapseJumps
  | dedupeLabels
  | dedupeImmediates
  | foldReciprocals
  | tailCalls
  | cutDeadTail
  | reorder
  | fillDelaySlots
deriving DecidableEq, Repr

namespace Stage

def apply (rounds : Nat) (isCommand : Bool) (lines : List Line) : Stage → Except Defect (List Line)
  | stripComments => .ok (Microcode.stripComments lines).lines
  | mergeJumps => (Microcode.mergeJumps isCommand lines).map Edited.lines
  | mergeAsserts => (Microcode.mergeAsserts lines).map Edited.lines
  | collapseJumps => .ok (Microcode.collapseJumps lines).lines
  | dedupeLabels => .ok (Microcode.dedupeLabels lines).lines
  | dedupeImmediates => .ok (Microcode.dedupeImmediates lines).lines
  | foldReciprocals => .ok (Microcode.foldReciprocals lines).lines
  | tailCalls => .ok (Microcode.tailCalls lines).lines
  | cutDeadTail => .ok (Microcode.cutDeadTail lines).lines
  | reorder => .ok (Microcode.reorder rounds lines).lines
  | fillDelaySlots => .ok (Microcode.fillDelaySlots lines).lines

/-- The passes in the order that a routine goes through.  Only a command has calls that come last. -/
def all (isCommand : Bool) : List Stage :=
  [stripComments, mergeJumps, mergeAsserts, collapseJumps, dedupeLabels, dedupeImmediates,
    foldReciprocals] ++ (if isCommand then [tailCalls] else []) ++ [cutDeadTail, reorder, fillDelaySlots]

/-- **Each pass** succeeds on lines with their slots, and leaves lines with their slots. -/
theorem apply_slots (stage : Stage) (rounds : Nat) (isCommand : Bool) (hs : SlotsAre Line.isStraight lines) :
    ∃ out, stage.apply rounds isCommand lines = .ok out ∧ SlotsAre Line.isStraight out := by
  cases stage with
  | stripComments => exact ⟨_, rfl, (stripComments_keepsSlots lines).slots hs⟩
  | mergeJumps =>
    obtain ⟨e, hok, hmerges⟩ := mergeJumps_merges isCommand lines
    exact ⟨e.lines, map_eq_ok.mpr ⟨e, hok, rfl⟩, hmerges.keepsSlots.slots hs⟩
  | mergeAsserts =>
    obtain ⟨e, hok, hmerges⟩ := mergeAsserts_merges lines
    exact ⟨e.lines, map_eq_ok.mpr ⟨e, hok, rfl⟩, hmerges.keepsSlots.slots hs⟩
  | collapseJumps =>
    have hmap := hs.map (fun l => (followHops_cases (hops lines) l).1) fun l => (followHops_cases (hops lines) l).2
    exact ⟨_, rfl, ((dropUnreached_cuts (.code false) _ [] [] hmap (by simp) rfl (by simp)).slots hmap).1⟩
  | dedupeLabels => exact ⟨_, rfl, dedupeLabels_slots hs⟩
  | dedupeImmediates => exact ⟨_, rfl, ((dedupeImmediates_cuts lines).slots hs).1⟩
  | foldReciprocals => exact ⟨_, rfl, ((foldReciprocals_cuts lines [] []).slots hs).1⟩
  | tailCalls => exact ⟨_, rfl, tailCalls_slots hs⟩
  | cutDeadTail => exact ⟨_, rfl, ((cutDeadTail_cuts lines [] [] hs fun _ => rfl).slots hs).1⟩
  | reorder => exact ⟨_, rfl, reorder_slots rounds hs⟩
  | fillDelaySlots => exact ⟨_, rfl, fillDelaySlots_slots hs⟩

theorem foldlM_apply_slots (stages : List Stage) (rounds : Nat) (isCommand : Bool)
    (hs : SlotsAre Line.isStraight lines) :
    ∃ out, stages.foldlM (fun lines stage => stage.apply rounds isCommand lines) lines = .ok out ∧
      SlotsAre Line.isStraight out := by
  induction stages generalizing lines with
  | nil => exact ⟨lines, rfl, hs⟩
  | cons stage stages ih =>
    obtain ⟨between, hbetween, hs'⟩ := stage.apply_slots rounds isCommand hs
    obtain ⟨out, hout, hs''⟩ := ih hs'
    refine ⟨out, ?_, hs''⟩
    rw [foldlM_cons, hbetween]
    exact hout

end Stage

theorem optimizeLines_eq (rounds : Nat) (isCommand : Bool) (lines : List Line) :
    optimizeLines rounds isCommand lines =
      (Stage.all isCommand).foldlM (fun lines stage => stage.apply rounds isCommand lines) lines >>=
        fun out => (checkDelaySlots out).map fun _ => out := by
  -- Only the two merging passes can fail, and in a function one pass is left out.
  rcases hjumps : mergeJumps isCommand (stripComments lines).lines with e | merged
  · cases isCommand <;> simp [optimizeLines, Stage.all, Stage.apply, hjumps, Except.map, bind, Except.bind]
  · rcases hasserts : mergeAsserts merged.lines with e | merged'
    all_goals
      cases isCommand <;>
        simp [optimizeLines, Stage.all, Stage.apply, hjumps, hasserts, Except.map, bind, Except.bind,
          pure, Except.pure]

theorem optimizeLines_slots (rounds : Nat) (isCommand : Bool) (hs : SlotsAre Line.isStraight lines) :
    ∃ out, optimizeLines rounds isCommand lines = .ok out ∧ SlotsAre Line.isStraight out := by
  obtain ⟨out, hout, hs'⟩ := Stage.foldlM_apply_slots (Stage.all isCommand) rounds isCommand hs
  refine ⟨out, ?_, hs'⟩
  rw [optimizeLines_eq, hout]
  show (checkDelaySlots out).map _ = .ok out
  rw [checkDelaySlots_of_slots hs']
  rfl

end Microcode
