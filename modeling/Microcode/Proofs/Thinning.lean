import Microcode.Proofs.Reachability
import Microcode.Proofs.Tracking

/-!
What the passes make of pinned instructions.

All passes but the scheduler leave the lines that they keep in order.  `Thins` says so line by line: a line
is kept, perhaps with other names in it, or left out, or new.
-/

namespace Microcode

open List Instruction Bool Microcode.Flow

variable {Lost Live Live' : List Line → List Line → Prop} {front front' old new : List Line} {l l' : Line}

/-- A pass that gets the lines `front ++ rest` leaves out the first of `rest`, and has looked for a barrier
at an instruction before it only. -/
inductive Stage.Overlooks : Stage → List Line → List Line → Prop
  /-- The jump of an assertion, behind the branch around it. -/
  | assertion {front tail branch slot code jump jumpSlot after}
      (hskip : skipsAssert branch slot code jump jumpSlot after) :
      Overlooks mergeAsserts (front ++ [.op branch, .op slot, .op code])
        (.op jump :: .op jumpSlot :: .label after :: tail)
  /-- The second half of a constant that a register holds already. -/
  | load {front rest high low d value}
      (hfree : high.isPinned = false) (hload : loadAt? (.op high :: low :: rest) = some (d, value, true))
      (hheld : LoadedBefore front (.op high :: low :: rest) d value) :
      Overlooks dedupeImmediates (front ++ [.op high]) (low :: rest)
  /-- The jump back to the dispatch loop, behind a call that comes last. -/
  | tailCall {front rest call slot jump jumpSlot}
      (hcall : isTailCall call slot jump jumpSlot)
      (hturned : Microcode.tailCalls (front ++ .op call :: .op slot :: .op jump :: .op jumpSlot :: rest)
        = jumpTailCalls (front ++ .op call :: .op slot :: .op jump :: .op jumpSlot :: rest)) :
      Overlooks tailCalls (front ++ [.op call, .op slot]) (.op jump :: .op jumpSlot :: rest)

/-- What a pass makes of lines: `old` comes behind `front` and becomes `new`, which comes behind `front'`.
Of the pinned instructions that are `Live`, those that are kept are `Live'`, and those that are left out
are `Lost`. -/
inductive Thins (Lost Live Live' : List Line → List Line → Prop) : List Line → List Line → List Line → List Line → Prop
  | nil {front front' : List Line} : Thins Lost Live Live' front front' [] []
  | keep {front front' old new : List Line} {l l' : Line} (hstems : l'.StemsFrom l)
      (hlive : l.isBarred → Live front (l :: old) → Live' front' (l' :: new))
      (h : Thins Lost Live Live' (front ++ [l]) (front' ++ [l']) old new) :
      Thins Lost Live Live' front front' (l :: old) (l' :: new)
  | drop {front front' old new : List Line} {l : Line}
      (hlost : l.isBarred → Live front (l :: old) → Lost front (l :: old))
      (h : Thins Lost Live Live' (front ++ [l]) front' old new) :
      Thins Lost Live Live' front front' (l :: old) new
  | add {front front' old new : List Line} {l' : Line} (hfiller : l'.IsFiller)
      (h : Thins Lost Live Live' front (front' ++ [l']) old new) :
      Thins Lost Live Live' front front' old (l' :: new)

namespace Thins

theorem keepFree (hstems : l'.StemsFrom l) (hl : l.isBarred = false)
    (h : Thins Lost Live Live' (front ++ [l]) (front' ++ [l']) old new) :
    Thins Lost Live Live' front front' (l :: old) (l' :: new) :=
  .keep hstems (fun hbarred => absurd (hl.symm.trans hbarred) (by simp)) h

theorem dropFree (hl : l.isBarred = false) (h : Thins Lost Live Live' (front ++ [l]) front' old new) :
    Thins Lost Live Live' front front' (l :: old) new :=
  .drop (fun hbarred => absurd (hl.symm.trans hbarred) (by simp)) h

end Thins

def Nowhere (_ _ : List Line) : Prop := False

def Anywhere (_ _ : List Line) : Prop := True

def InFlow (front _rest : List Line) : Prop := flowBehind front = .live

variable {body : List Line} {i : Instruction}

theorem stripComments_thins (hs : SlotsAre Line.isStraight body) :
    Thins Nowhere (fun _ => Reached body) (fun _ => Reached (stripComments body).lines) [] [] body
      (stripComments body).lines := by
  have hall (rest : List Line) : ∀ front front', Thins Nowhere (fun _ => Reached body)
      (fun _ => Reached (stripComments body).lines) front front' rest (rest.filter (! ·.isComment)) := by
    induction rest with
    | nil => exact fun _ _ => .nil
    | cons l rest ih =>
      intro front front'
      cases l with
      | op i => exact .keep (.refl _) (fun _ hreached => hreached.strip hs) (ih _ _)
      | label name | raw text => exact .keepFree (.refl _) rfl (ih _ _)
      | comment text => exact .dropFree rfl (ih _ _)
  exact hall body [] []

theorem TurnsAround.thins {branch slot jump jumpSlot turned} {after target : String}
    (t : TurnsAround branch slot jump jumpSlot turned after target)
    (h : Thins Lost Live Live' (front ++ [.op branch, .op slot, .op jump, .op jumpSlot])
      (front' ++ [.op turned, .op (mergedSlot jump after)]) old new) :
    Thins Lost Live Live' front front' (.op branch :: .op slot :: .op jump :: .op jumpSlot :: old)
      (.op turned :: .op (mergedSlot jump after) :: new) := by
  have hbranch := isBranch_of_isConditional t.branch_isConditional
  have hturned := isBranch_of_isConditional t.turns.isConditional
  refine .keepFree (.of_branch t.turns.shape t.branch_free hturned hbranch) (Line.isBarred_of_free t.branch_free) ?_
  refine .add ⟨jump, after, t.jump_free, .refl _⟩ ?_
  refine .dropFree (Line.isBarred_of_isNop t.slot_isNop) ?_
  refine .dropFree (Line.isBarred_of_free t.jump_free) ?_
  refine .dropFree (Line.isBarred_of_isNop t.jumpSlot_isNop) ?_
  simpa using h

variable {rest : List Line}

theorem MergesJumps.thins {isCommand : Bool} {before} (h : MergesJumps isCommand before rest new)
    (hs : SlotsAre Line.isStraight body) (hm : Merging body front before rest) :
    Thins Nowhere (fun _ => Reached body) InFlow front before.reverse rest new := by
  induction h generalizing front with
  | nil => exact .nil
  | keep l _ ih =>
    -- A line that is taken over stays live, since it was reached.
    refine .keep (.refl l) (fun hbarred hreached => ?_) (by simpa using ih (hm.keep hs))
    exact hm.live hreached (Line.isInstruction_of_isBarred hbarred)
  | turn hskip htarget hturned _ ih =>
    have t := turnsAround_of_skipsJump hskip htarget hturned
    exact t.thins (by simpa using ih (t.merging hm))
  | turnDrop hskip htarget hturned hunnamed _ ih =>
    have t := turnsAround_of_skipsJump hskip htarget hturned
    exact t.thins (.dropFree rfl (by simpa using ih (t.merging_drop hm hs hunnamed)))

/-- Two passes over code agree on whether the next line is live, or that line is no instruction. -/
def Abreast (front front' rest : List Line) : Prop :=
  flowBehind front = flowBehind front' ∨ rest.head?.any (! ·.isInstruction)

theorem Abreast.flow (h : Abreast front front' (.op i :: rest)) : flowBehind front = flowBehind front' :=
  h.resolve_right (by simp [Line.isInstruction])

namespace Thins

theorem keepFlow (hstems : l'.StemsFrom l) (hinstruction : l'.isInstruction = l.isInstruction)
    (hleaving : l'.isLeaving = l.isLeaving) (ha : Abreast front front' (l :: old))
    (h : Abreast (front ++ [l]) (front' ++ [l']) old →
      Thins Lost InFlow InFlow (front ++ [l]) (front' ++ [l']) old new) :
    Thins Lost InFlow InFlow front front' (l :: old) (l' :: new) := by
  refine .keep hstems (fun hbarred hlive => ?_) (h (.inl ?_))
  · have hl := Line.isInstruction_of_isBarred hbarred
    have hflow : flowBehind front = flowBehind front' := ha.resolve_right (by simp [hl])
    exact hflow.symm.trans hlive
  · rw [flowBehind_append, flowBehind_append, after_congr hinstruction hleaving]
    rcases ha with hflow | hhead
    · rw [hflow]
    · have hl : l.isInstruction = false := by simpa using hhead
      rw [after_of_not_isInstruction hl, after_of_not_isInstruction hl]

theorem keepSame (ha : Abreast front front' (l :: old)) (h : Abreast (front ++ [l]) (front' ++ [l]) old →
      Thins Lost InFlow InFlow (front ++ [l]) (front' ++ [l]) old new) :
    Thins Lost InFlow InFlow front front' (l :: old) (l :: new) :=
  keepFlow (.refl l) rfl rfl ha h

theorem same (ha : Abreast front front' old) : Thins Lost InFlow InFlow front front' old old := by
  induction old generalizing front front' with
  | nil => exact .nil
  | cons l old ih => exact .keepSame ha ih

theorem map {f} (hstems : ∀ l, (f l).StemsFrom l) (hinstruction : ∀ l, (f l).isInstruction = l.isInstruction)
    (hleaving : ∀ l, (f l).isLeaving = l.isLeaving) (ha : Abreast front front' old) :
    Thins Lost InFlow InFlow front front' old (old.map f) := by
  induction old generalizing front front' with
  | nil => exact .nil
  | cons l old ih => exact .keepFlow (hstems l) (hinstruction l) (hleaving l) ha ih

end Thins

/-- **Branches around assertions** are merged.  The code of the assertion stays live. -/
theorem MergesAsserts.thins {lines} (h : MergesAsserts lines new) (ha : Abreast front front' lines) :
    Thins Stage.mergeAsserts.Overlooks InFlow InFlow front front' lines new := by
  induction h generalizing front front' with
  | nil => exact .nil
  | keep l _ ih => exact .keepSame ha ih
  | @turn tail new branch slot code jump jumpSlot turned after hskip hturned _ ih =>
    have hoverlooks : Stage.mergeAsserts.Overlooks (front ++ [.op branch, .op slot, .op code])
        (.op jump :: .op jumpSlot :: .label after :: tail) := .assertion hskip
    simp only [skipsAssert, and_eq_true, beq_iff_eq, not_eq_true'] at hskip
    obtain ⟨⟨⟨⟨⟨⟨⟨⟨hconditional, hslot⟩, hlui⟩, -⟩, -⟩, -⟩, hjumpSlot⟩, hafter⟩, hfree⟩ := hskip
    have hturns := turns_of_turned? hturned hafter
    refine .keepFree (.of_branch hturns.shape hfree (isBranch_of_isConditional hturns.isConditional)
      (isBranch_of_isConditional hconditional)) (Line.isBarred_of_free hfree) ?_
    refine .dropFree (Line.isBarred_of_isNop hslot) ?_
    refine .keep (.refl _) (fun _ hlive => ?_) ?_
    · -- The code was live behind the branch and its slot, so the branch was.
      have hbranch : (Line.op branch).isLeaving = false := Line.isLeaving_of_isConditional hconditional
      have hturned : (Line.op turned).isLeaving = false := Line.isLeaving_of_isConditional hturns.isConditional
      have hempty : (Line.op slot).isLeaving = false :=
        Line.isLeaving_of_not_isBranch (isBranch_of_isNop hslot)
      simp only [InFlow, flowBehind_append, after_of_not_isLeaving hbranch,
        after_of_not_isLeaving hturned, after_of_not_isLeaving hempty, ← ha.flow] at hlive ⊢
      split at hlive <;> simp_all
    · refine .drop (fun _ _ => by simpa using hoverlooks) (.dropFree (Line.isBarred_of_isNop hjumpSlot) ?_)
      exact ih (.inr rfl)

variable (table : List (String × String))

theorem Line.followHops_stemsFrom (l : Line) : (l.followHops table).StemsFrom l := by
  cases l with
  | op i =>
    unfold followHops
    dsimp only
    split
    next target htarget => exact .of_shape (withTarget_shape htarget _)
    · exact .refl _
  | _ => exact .refl _

theorem Line.followHops_isLeaving (l : Line) : (l.followHops table).isLeaving = l.isLeaving := by
  cases l with
  | op i =>
    unfold followHops
    dsimp only
    split
    next target htarget => exact Line.isLeaving_congr (Instruction.SameUpTo.opcode (withTarget_shape htarget _))
    · rfl
  | _ => rfl

variable (lines : List Line)

theorem followHops_thins : Thins Nowhere InFlow InFlow [] [] lines (lines.map (·.followHops (hops lines))) :=
  .map (Line.followHops_stemsFrom _) (fun l => (followHops_cases _ l).1) (Line.followHops_isLeaving _) (.inl rfl)

theorem Line.mapSymbols_stemsFrom (f : String → String) (l : Line) : (l.mapSymbols f).StemsFrom l := by
  cases l with
  | op i => exact .of_shape (Instruction.mapSymbols_mapSymbols f i fun _ => "")
  | _ => rfl

theorem joinLabels_thins (texts : List String) (f : String → String) (lines front front' : List Line)
    (ha : Abreast front front' lines) :
    Thins Nowhere InFlow InFlow front front' lines ((joinLabels texts lines).1.map (·.mapSymbols f)) := by
  have hinstruction (l : Line) : (l.mapSymbols f).isInstruction = l.isInstruction := by cases l <;> rfl
  have hleaving (l : Line) : (l.mapSymbols f).isLeaving = l.isLeaving := by cases l <;> rfl
  fun_induction joinLabels texts lines generalizing front front' with
  | case1 first second rest lines names hjoin hmentions ih | case3 l rest hl lines names hjoin ih =>
    rw [hjoin] at ih
    exact .keepFlow (Line.mapSymbols_stemsFrom f _) (hinstruction _) (hleaving _) ha (ih _ _)
  | case2 first second rest lines names hjoin hmentions ih =>
    rw [hjoin] at ih
    exact .dropFree rfl (ih _ _ (.inr rfl))
  | case4 => exact .nil

theorem dedupeLabels_thins : Thins Nowhere InFlow InFlow [] [] lines (dedupeLabels lines).lines := by
  have hlines : (dedupeLabels lines).lines = (joinLabels (rawTexts lines) lines).1.map
      (·.mapSymbols (renamed (joinLabels (rawTexts lines) lines).2)) := foldl_rename _ _
  rw [hlines]
  exact joinLabels_thins _ _ lines [] [] (.inl rfl)

theorem Line.eq_op_of_isStraight (h : l.isStraight) : ∃ i, l = .op i ∧ i.isBranch = false := by
  cases l with
  | op i => exact ⟨i, rfl, (not_eq_true' i.isBranch).mp h⟩
  | _ => cases h

variable {kept : List Line}

/-- **Lines left out** leave a pass abreast, as long as each does. -/
theorem Cuts.thins {Out} (h : Cuts Out front kept old new) (ha : Abreast front kept old)
    (hout : ∀ {front kept l old}, Out front (l :: old) → endsInBranch kept = false → Abreast front kept (l :: old) →
      (l.isBarred → InFlow front (l :: old) → Lost front (l :: old)) ∧ Abreast (front ++ [l]) kept old) :
    Thins Lost InFlow InFlow front kept old new := by
  induction h with
  | nil => exact .nil
  | keep _ ih => exact .keepSame ha ih
  | drop hkept hfirst _ ih =>
    obtain ⟨hlost, hrest⟩ := hout hfirst hkept ha
    exact .drop hlost (ih hrest)

theorem Dead.thins (h : Dead front (l :: old)) (ha : Abreast front kept (l :: old)) :
    (l.isBarred → InFlow front (l :: old) → Nowhere front (l :: old)) ∧ Abreast (front ++ [l]) kept old := by
  have hl : l.isInstruction := h.2
  refine ⟨fun _ hlive => absurd (h.1.symm.trans hlive) noConfusion, .inl ?_⟩
  rw [flowBehind_append, ← ha.resolve_right (by simp [hl]), h.1]
  simp [Flow.after, hl]

theorem Abreast.drop (hkept : endsInBranch kept = false) (hi : i.isBranch = false)
    (ha : Abreast front kept (.op i :: rest)) : Abreast (front ++ [.op i]) kept rest := by
  left
  rw [flowBehind_append, after_of_not_isLeaving (Line.isLeaving_of_not_isBranch hi), ha.flow]
  cases hflow : flowBehind kept with
  | live => rfl
  | slot => exact absurd hflow (flowBehind_ne_slot hkept)
  | dead => rfl

theorem Spare.thins (h : Spare front (l :: old)) (hkept : endsInBranch kept = false)
    (ha : Abreast front kept (l :: old)) :
    (l.isBarred → InFlow front (l :: old) → Lost front (l :: old)) ∧ Abreast (front ++ [l]) kept old := by
  cases h with
  | op hi hfree => exact ⟨fun h => absurd ((Line.isBarred_of_free hfree).symm.trans h) (by simp), ha.drop hkept hi⟩

theorem dedupeImmediates_thins :
    Thins Stage.dedupeImmediates.Overlooks InFlow InFlow [] [] lines (dedupeImmediates lines).lines := by
  refine (dedupeImmediates_cuts lines).thins (.inl rfl) fun hfirst hkept ha => ?_
  cases hfirst with
  | first h => exact h.thins hkept ha
  | second hfree hload hheld =>
    obtain ⟨j, rfl, hj⟩ := Line.eq_op_of_isStraight (isStraight_of_loadAt? hload)
    exact ⟨fun _ _ => .load hfree hload hheld, ha.drop hkept hj⟩

theorem foldReciprocals_thins : Thins Nowhere InFlow InFlow [] [] lines (foldReciprocals lines).lines :=
  (foldReciprocals_cuts lines [] []).thins (.inl rfl) Spare.thins

theorem jumpTailCalls_thins (front front' : List Line) (ha : Abreast front front' lines)
    (hturned : Microcode.tailCalls (front ++ lines) = jumpTailCalls (front ++ lines)) :
    Thins Stage.tailCalls.Overlooks InFlow InFlow front front' lines (jumpTailCalls lines).lines := by
  fun_induction jumpTailCalls lines generalizing front front' with
  | case1 call slot jump jumpSlot rest hcall more ih =>
    have hoverlooks : Stage.tailCalls.Overlooks (front ++ [.op call, .op slot]) (.op jump :: .op jumpSlot :: rest) :=
      .tailCall hcall hturned
    simp only [isTailCall, and_eq_true, beq_iff_eq, not_eq_true'] at hcall
    obtain ⟨⟨⟨⟨⟨hjal, hslot⟩, hj⟩, -⟩, hjumpSlot⟩, hfree⟩ := hcall
    have hcall : call.isBranch := by rw [isBranch, hjal]; rfl
    have hjump : (Line.op jump).isLeaving := by simp [Line.isLeaving, Line.opcode?, Line.instruction?, hj]
    refine .keepFree (.of_branch (.refl _ _) hfree rfl hcall) (Line.isBarred_of_free hfree) ?_
    refine .keepFree (.refl _) (Line.isBarred_of_isNop hslot) ?_
    refine .drop (fun _ _ => by simpa using hoverlooks) (.dropFree (Line.isBarred_of_isNop hjumpSlot) ?_)
    refine ih _ _ (.inl ?_) (by simpa using hturned)
    simp only [flowBehind_append]
    rw [after_slot hjump, after_slot (l := .op { call with opcode := .j }) rfl]
  | case2 call slot jump jumpSlot rest hcall more ih | case3 l rest hl more ih =>
    exact .keepSame ha fun ha => ih _ _ ha (by simpa using hturned)
  | case4 => exact .nil

theorem tailCalls_thins : Thins Stage.tailCalls.Overlooks InFlow InFlow [] [] lines (tailCalls lines).lines := by
  by_cases hother : (lines.any Line.isRaw || lines.countP Line.writesReturn ≠ (jumpTailCalls lines).count)
  · have hsame : tailCalls lines = ⟨lines, 0⟩ := if_pos hother
    rw [hsame]
    exact .same (.inl rfl)
  · have hturned : tailCalls lines = jumpTailCalls lines := if_neg hother
    rw [hturned]
    exact jumpTailCalls_thins lines [] [] (.inl rfl) hturned

end Microcode
