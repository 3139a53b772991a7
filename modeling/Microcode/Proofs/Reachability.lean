import Microcode.Proofs.Reference

/-!
Which code is reached.

`Reached` follows control through a body: from line to line, behind the slot of a branch that may not be
taken, and to the labels that branches and texts name.  The passes know less.
-/

namespace Microcode

open List Instruction Line Microcode.Flow

variable {body rest before : List Line} {branch jump jumpSlot turned : Instruction} {target : String}

/-- Whether control may go from a line to a label.  A branch goes to its target, and a text may go to any
label that it mentions. -/
def Line.mayGoTo (name : String) : Line → Bool
  | .op i => i.target? == some name
  | .raw text => Text.mentions text name
  | _ => false

/-- The places of a body that control may come to from its entry, each given by the lines from there on.
What is in the slot of a branch is executed with it and is no place of its own. -/
inductive Reached (body : List Line) : List Line → Prop
  | entry : Reached body body
  | next {l rest} (hl : l.isBranch = false) (h : Reached body (l :: rest)) : Reached body rest
  | stay {l slot rest} (hl : l.isBranch) (hstay : l.isLeaving = false)
      (h : Reached body (l :: slot :: rest)) : Reached body rest
  | go {l name rest there} (hl : l.mayGoTo name)
      (hthere : locate name body = some there) (h : Reached body (l :: rest)) : Reached body there

variable {l : Line}
variable {name : String} {i : Instruction} {place : List Line}

theorem Line.refersTo_of_mayGoTo (h : l.mayGoTo name) : l.refersTo name := by
  cases l with
  | op i => exact refersTo_of_mem_symbols (mem_symbols_of_target (eq_of_beq h))
  | raw text => exact h
  | label other | comment text => cases h

theorem Line.mayGoTo_of_isNop (h : i.isNop) (name : String) : (op i).mayGoTo name = false := by
  have htarget : i.target? = none := by rw [target?, if_neg (by simp [isBranch_of_isNop h])]
  simp [mayGoTo, htarget]

theorem locate_stripComments (name : String) (lines : List Line) :
    locate name (stripComments lines).lines = (locate name lines).map fun rest => (stripComments rest).lines := by
  show locate name (lines.filter (! ·.isComment)) = (locate name lines).map (filter (! ·.isComment))
  induction lines with
  | nil => rfl
  | cons l rest ih =>
    cases l with
    | comment text =>
      exact ih
    | op i =>
      exact (locate_op name i _).trans ih
    | label other =>
      rw [filter_cons_of_pos rfl, locate, locate]
      by_cases hname : Line.label other = .label name
      · rw [if_pos hname, if_pos hname]
        rfl
      · rw [if_neg hname, if_neg hname]
        exact ih
    | raw text =>
      exact ih

namespace Reached

theorem suffix (h : Reached body rest) : rest <:+ body := by
  induction h with
  | entry => exact suffix_refl _
  | next _ _ ih => exact (suffix_cons _ _).trans ih
  | stay _ _ _ ih => exact ((suffix_cons _ _).trans (suffix_cons _ _)).trans ih
  | go _ hthere _ _ => exact locate_suffix hthere

variable {front : List Line}

/-- How control comes to a place that is not the entry: from the line above, from a branch whose slot is
the line above, or by a jump. -/
theorem above {l : Line} (h : Reached (front ++ l :: rest) rest) :
    (l.isBranch = false ∧ Reached (front ++ l :: rest) (l :: rest)) ∨
      (∃ earlier branch, front = earlier ++ [branch] ∧ branch.isBranch ∧
        branch.isLeaving = false ∧ Reached (front ++ l :: rest) (branch :: l :: rest)) ∨
      ∃ m name place, m.mayGoTo name ∧ locate name (front ++ l :: rest) = some rest ∧
        Reached (front ++ l :: rest) (m :: place) := by
  generalize hbody : front ++ l :: rest = body at h ⊢
  cases h with
  | entry =>
    have hlength := congrArg List.length hbody
    simp only [length_append, length_cons] at hlength
    omega
  | @next m _ hm h =>
    obtain ⟨earlier, hearlier⟩ := h.suffix
    have heq : front ++ [l] = earlier ++ [m] := by
      rw [← append_left_inj rest]
      simp [hbody, hearlier]
    obtain ⟨-, hl⟩ := append_inj' heq rfl
    obtain rfl : l = m := by simpa using hl
    exact .inl ⟨hm, h⟩
  | @stay m slot _ hm hstay h =>
    obtain ⟨earlier, hearlier⟩ := h.suffix
    have heq : front ++ [l] = (earlier ++ [m]) ++ [slot] := by
      rw [← append_left_inj rest]
      simp [hbody, hearlier]
    obtain ⟨hfront, hl⟩ := append_inj' heq rfl
    obtain rfl : l = slot := by simpa using hl
    exact .inr (.inl ⟨earlier, m, hfront, hm, hstay, h⟩)
  | go hm hthere h => exact .inr (.inr ⟨_, _, _, hm, hthere, h⟩)

theorem above_plain {l : Line} (h : Reached (front ++ l :: rest) rest)
    (hrest : rest.head?.any (! ·.isInstruction) = false) :
    (l.isBranch = false ∧ Reached (front ++ l :: rest) (l :: rest)) ∨
      ∃ earlier branch, front = earlier ++ [branch] ∧ branch.isBranch ∧
        branch.isLeaving = false ∧ Reached (front ++ l :: rest) (branch :: l :: rest) := by
  rcases h.above with hnext | hstay | ⟨m, name, place, -, hthere, -⟩
  · exact .inl hnext
  · exact .inr hstay
  · obtain ⟨tail, rfl⟩ := locate_eq_label hthere
    cases hrest

theorem strip (hs : SlotsAre isStraight body) (h : Reached body rest) :
    Reached (stripComments body).lines (stripComments rest).lines := by
  induction h with
  | entry => exact .entry
  | @next l rest hl h ih =>
    cases l with
    | comment text => exact ih
    | op i | label name | raw text => exact .next hl ih
  | @stay l slot rest hl hstay h ih =>
    obtain ⟨front, rfl⟩ := h.suffix
    have hslot : slot.isStraight := hs.drop.1 hl
    cases slot with
    | op j =>
      cases l with
      | op i => exact .stay hl hstay ih
      | _ => cases hl
    | _ => cases hslot
  | @go l name rest there hl hthere h ih =>
    have hlocate : locate name (stripComments body).lines = some (stripComments there).lines := by
      rw [locate_stripComments, hthere]
      rfl
    cases l with
    | comment text | label other => cases hl
    | op i | raw text => exact .go hl hlocate ih

theorem not_slot {branch slot : Line}
    (hs : SlotsAre isStraight (front ++ branch :: slot :: rest)) (hbranch : branch.isBranch)
    (hslot : slot.isInstruction) : ¬Reached (front ++ branch :: slot :: rest) (slot :: rest) := by
  intro h
  rcases h.above_plain (by simp [hslot]) with ⟨hplain, -⟩ | ⟨earlier, last, rfl, hlast, -, -⟩
  · exact absurd (hbranch.symm.trans hplain) (by simp)
  · rw [append_assoc] at hs
    have hstraight : branch.isStraight := hs.drop.1 hlast
    exact absurd (hbranch.symm.trans (isBranch_of_isStraight hstraight)) (by simp)

end Reached

/-! ### Branches around jumps -/

theorem mem_or_suffix {front} (h : l :: place <:+ front ++ rest) : l ∈ front ∨ l :: place <:+ rest := by
  obtain ⟨earlier, hearlier⟩ := h
  rcases append_eq_append_iff.mp hearlier with ⟨middle, hfront, hplace⟩ | ⟨middle, -, hrest⟩
  · cases middle with
    | nil => exact .inr (hplace ▸ suffix_refl _)
    | cons first middle =>
      obtain ⟨rfl, -⟩ := List.cons.inj hplace
      exact .inl (by simp [hfront])
  · exact .inr ⟨middle, hrest.symm⟩

theorem not_mem_labels_of_locate {front there} (h : locate name (front ++ rest) = some there)
    (hlength : there.length ≤ rest.length) : name ∉ labels front := by
  intro hname
  cases hfound : locate name front with
  | none => exact locate_eq_none.mp hfound hname
  | some found =>
    rw [locate_append, hfound] at h
    obtain ⟨_, rfl⟩ := locate_eq_label hfound
    cases h
    simp only [length_append, length_cons] at hlength
    omega

/-- How far merging has come: the lines `before`, last first, have come out of `front`, and `rest` is
left. -/
structure Merging (body front before rest : List Line) : Prop where
  body_eq : body = front ++ rest
  /-- An instruction that is reached is live for the passes that follow. -/
  live : Reached body rest → rest.head?.any isInstruction → flowBehind before.reverse = .live
  /-- So is what is in the slot of a branch that is reached and may not be taken. -/
  slot : ∀ earlier branch, front = earlier ++ [branch] → branch.isBranch →
    branch.isLeaving = false → Reached body (branch :: rest) → flowBehind before.reverse = .live
  /-- A label that control goes to from above still has a line that names it, or stands above too. -/
  named : ∀ name, ∀ l ∈ front, l.mayGoTo name →
    (∃ m ∈ before, m.refersTo name) ∨ name ∈ labels front ∨ rest.head? = some (.label name)

namespace Merging

variable {front : List Line}

theorem start (body : List Line) : Merging body [] [] body where
  body_eq := rfl
  live _ _ := rfl
  slot earlier branch h := absurd h (by simp)
  named _ l hl := absurd hl not_mem_nil

theorem keep {l : Line} (hs : SlotsAre isStraight body) (h : Merging body front before (l :: rest)) :
    Merging body (front ++ [l]) (l :: before) rest := by
  have hbody := h.body_eq
  refine ⟨by simp [hbody], fun hreached hhead => ?_, fun earlier branch heq hbranch hstay hreached => ?_,
    fun name m hm hgo => ?_⟩
  · rw [reverse_cons, flowBehind_append]
    have hplain : rest.head?.any (! ·.isInstruction) = false := by
      cases rest with
      | nil => cases hhead
      | cons first rest => simpa using hhead
    rw [hbody] at hreached
    rcases hreached.above_plain hplain with ⟨hl, hreached⟩ | ⟨earlier, branch, heq, hbranch, hstay, hreached⟩
    · rw [← hbody] at hreached
      exact after_live (isLeaving_of_not_isBranch hl) fun hinstruction => h.live hreached hinstruction
    · -- The line is in the slot of a branch, so it is no branch itself.
      have hslot : l.isStraight := by
        rw [hbody, heq, append_assoc] at hs
        exact hs.drop.1 hbranch
      rw [← hbody] at hreached
      exact after_live (isLeaving_of_not_isBranch (isBranch_of_isStraight hslot))
        fun _ => h.slot earlier branch heq hbranch hstay hreached
  · obtain rfl : l = branch := by simpa using congrArg List.getLast? heq
    rw [reverse_cons, flowBehind_append]
    exact after_live hstay fun hinstruction => h.live hreached hinstruction
  · rcases mem_append.mp hm with hm | hm
    · rcases h.named name m hm hgo with ⟨k, hk, hrefers⟩ | hlabel | hhead
      · exact .inl ⟨k, .tail l hk, hrefers⟩
      · exact .inr (.inl (by simp [hlabel]))
      · obtain rfl : l = .label name := by simpa using hhead
        exact .inr (.inl (by simp [labels, label?]))
    · obtain rfl := mem_singleton.mp hm
      exact .inl ⟨m, .head _, refersTo_of_mayGoTo hgo⟩

/-- Whatever refers to a label from a place that is reached is still there, unless the label stands
above or the reference is the branch that is merged. -/
theorem place_of_go {l : Line} (h : Merging body front before rest) (hl : l.mayGoTo name)
    (hplace : l :: place <:+ body) (habove : name ∉ labels front) (hhead : rest.head? ≠ some (.label name))
    (hbefore : ¬before.any (·.refersTo name)) : l :: place <:+ rest := by
  rw [h.body_eq] at hplace
  rcases mem_or_suffix hplace with hmem | hrest
  · rcases h.named name l hmem hl with ⟨m, hm, hrefers⟩ | hlabel | hlabel
    · exact absurd (any_eq_true.mpr ⟨m, hm, hrefers⟩) hbefore
    · exact absurd hlabel habove
    · exact absurd hlabel hhead
  · exact hrest

end Merging

/-- A branch around a jump, both with empty slots, and the branch that takes the place of the two. -/
structure TurnsAround (branch slot jump jumpSlot turned : Instruction) (after target : String) : Prop where
  slot_isNop : slot.isNop
  jumpSlot_isNop : jumpSlot.isNop
  branch_isConditional : branch.opcode.isConditional
  jump_isBranch : jump.isBranch
  branch_target : branch.target? = some after
  jump_target : jump.target? = some target
  turns : branch.Turns turned target
  branch_free : branch.isPinned = false
  jump_free : jump.isPinned = false

theorem turnsAround_of_skipsJump {slot} {after : String}
    {isCommand : Bool} (hskip : skipsJump branch slot jump jumpSlot after isCommand)
    (htarget : jump.target? = some target) (hturned : branch.turned? target = some turned) :
    TurnsAround branch slot jump jumpSlot turned after target := by
  simp only [skipsJump, Bool.and_eq_true, beq_iff_eq, Bool.not_eq_true'] at hskip
  obtain ⟨⟨⟨⟨⟨⟨hconditional, -⟩, hslot⟩, hjumpSlot⟩, hafter⟩, hbranch⟩, hjump⟩ := hskip
  exact ⟨hslot, hjumpSlot, hconditional, (target?_eq_some.mp htarget).1, hafter, htarget,
    turns_of_turned? hturned hafter, hbranch, hjump⟩

theorem Line.isLeaving_of_isConditional (h : i.opcode.isConditional) : (op i).isLeaving = false := by
  rw [Bool.eq_false_iff]
  intro hleaving
  have hopcode : i.opcode = .j ∨ i.opcode = .jr := by simpa [isLeaving, opcode?, instruction?] using hleaving
  rcases hopcode with hopcode | hopcode <;> rw [hopcode] at h <;> cases h

namespace TurnsAround

variable {slot : Instruction} {after : String}
  {front tail : List Line} (t : TurnsAround branch slot jump jumpSlot turned after target)
include t

theorem flow (hlive : flowBehind before.reverse = .live) :
    flowBehind (op (mergedSlot jump after) :: .op turned :: before).reverse = .live := by
  have hturned : (op turned).isLeaving = false := isLeaving_of_isConditional t.turns.isConditional
  have hslot : (op (mergedSlot jump after)).isLeaving = false :=
    isLeaving_of_not_isBranch (mergedSlot_isBranch jump after)
  simp only [reverse_cons, flowBehind_append]
  exact after_live hslot fun _ => after_live hturned fun _ => hlive

theorem turned_refersTo : (op turned).refersTo target := refersTo_of_mayGoTo (beq_iff_eq.mpr t.turns.target)

theorem named {l : Line} (hl : l ∈ [op branch, .op slot, .op jump, .op jumpSlot])
    (hgo : l.mayGoTo name) : (l = .op branch ∧ name = after) ∨ (l = .op jump ∧ name = target) := by
  simp only [mem_cons, not_mem_nil, or_false] at hl
  rcases hl with rfl | rfl | rfl | rfl
  · have htarget : branch.target? = some name := eq_of_beq hgo
    exact .inl ⟨rfl, Option.some.inj (htarget.symm.trans t.branch_target)⟩
  · rw [mayGoTo_of_isNop t.slot_isNop] at hgo
    cases hgo
  · have htarget : jump.target? = some name := eq_of_beq hgo
    exact .inr ⟨rfl, Option.some.inj (htarget.symm.trans t.jump_target)⟩
  · rw [mayGoTo_of_isNop t.jumpSlot_isNop] at hgo
    cases hgo

variable (h : Merging body front before (.op branch :: .op slot :: .op jump :: .op jumpSlot :: .label after :: tail))
include h

theorem named_above {l : Line} (hl : l ∈ front ++ [.op branch, .op slot, .op jump, .op jumpSlot])
    (hgo : l.mayGoTo name) :
    (∃ m ∈ op (mergedSlot jump after) :: .op turned :: before, m.refersTo name) ∨
      name ∈ labels front ∨ name = after := by
  rcases mem_append.mp hl with hl | hl
  · rcases h.named name l hl hgo with ⟨m, hm, hrefers⟩ | hlabel | hhead
    · exact .inl ⟨m, by simp [hm], hrefers⟩
    · exact .inr (.inl hlabel)
    · cases hhead
  · rcases t.named hl hgo with ⟨-, rfl⟩ | ⟨-, rfl⟩
    · exact .inr (.inr rfl)
    · exact .inl ⟨.op turned, by simp, t.turned_refersTo⟩

theorem merging : Merging body (front ++ [.op branch, .op slot, .op jump, .op jumpSlot])
      (.op (mergedSlot jump after) :: .op turned :: before) (.label after :: tail) where
  body_eq := by simp [h.body_eq]
  live _ hhead := absurd hhead (by simp [isInstruction])
  slot earlier last heq hbranch := by
    obtain rfl : op jumpSlot = last := by simpa using congrArg List.getLast? heq
    exact absurd (hbranch.symm.trans (isBranch_of_isNop t.jumpSlot_isNop)) (by simp)
  named name l hl hgo := by
    rcases t.named_above h hl hgo with hrefers | hlabel | rfl
    · exact .inl hrefers
    · exact .inr (.inl (by simp [hlabel]))
    · exact .inr (.inr rfl)

theorem reached_branch (hs : SlotsAre isStraight body)
    (hunnamed : ¬(op (mergedSlot jump after) :: .op turned :: before ++ tail).any (·.refersTo after))
    (hreached : Reached body (.label after :: tail)) :
    Reached body (.op branch :: .op slot :: .op jump :: .op jumpSlot :: .label after :: tail) := by
  have hbranch : branch.isBranch := isBranch_of_isConditional t.branch_isConditional
  have hbody := h.body_eq
  have hjump : body = front ++ [.op branch, .op slot] ++
      .op jump :: .op jumpSlot :: .label after :: tail := by simp [hbody]
  have hjumpSlot : body = front ++ [.op branch, .op slot, .op jump] ++
      .op jumpSlot :: .label after :: tail := by simp [hbody]
  rw [hjumpSlot] at hreached
  rcases hreached.above with ⟨-, hreached⟩ | ⟨earlier, last, heq, -, -, hreached⟩ |
    ⟨l, name, place, hgo, hthere, hreached⟩
  · rw [← hjumpSlot, hjump] at hreached
    rw [hjump] at hs
    exact absurd hreached (Reached.not_slot hs t.jump_isBranch rfl)
  · -- A call comes back to the label, and it is reached if the branch is not taken.
    obtain rfl : op jump = last := by simpa using congrArg List.getLast? heq
    have hslot : body = front ++ [.op branch] ++
        .op slot :: .op jump :: .op jumpSlot :: .label after :: tail := by simp [hbody]
    rw [← hjumpSlot, hslot] at hreached
    rcases hreached.above_plain rfl with ⟨-, hreached⟩ | ⟨earlier, last, heq, -, -, hreached⟩
    · rw [← hslot, hbody] at hreached
      rw [hbody] at hs
      exact absurd hreached (Reached.not_slot hs hbranch rfl)
    · obtain rfl : op branch = last := by simpa using congrArg List.getLast? heq
      rwa [hslot]
  · rw [← hjumpSlot] at hthere hreached
    obtain ⟨_, hlabel⟩ := locate_eq_label hthere
    obtain ⟨rfl, -⟩ : after = name ∧ _ := by simpa using hlabel
    simp only [any_cons, any_append, Bool.or_eq_true, not_or] at hunnamed
    obtain ⟨⟨-, hturned, hbefore⟩, htail⟩ := hunnamed
    have habove : after ∉ labels front := by
      rw [hbody] at hthere
      exact not_mem_labels_of_locate hthere (by simp)
    -- The reference is not above, and below nothing names the label; so it is among the four.
    have hplace := h.place_of_go hgo hreached.suffix habove (by simp) hbefore
    rcases suffix_cons_iff.mp hplace with heq | hplace
    · rwa [← heq]
    · have hplace : l :: place <:+ [.op slot, .op jump, .op jumpSlot, .label after] ++ tail := hplace
      rcases mem_or_suffix hplace with hl | hplace
      · exfalso
        simp only [mem_cons, not_mem_nil, or_false] at hl
        rcases hl with rfl | rfl | rfl | rfl
        · rw [mayGoTo_of_isNop t.slot_isNop] at hgo
          cases hgo
        · -- Then the turned branch would name the label.
          have htarget : jump.target? = some after := eq_of_beq hgo
          cases htarget.symm.trans t.jump_target
          exact hturned t.turned_refersTo
        · rw [mayGoTo_of_isNop t.jumpSlot_isNop] at hgo
          cases hgo
        · cases hgo
      · have hmem : l ∈ tail := hplace.subset (.head _)
        exact absurd (any_eq_true.mpr ⟨l, hmem, refersTo_of_mayGoTo hgo⟩) htail

theorem merging_drop (hs : SlotsAre isStraight body)
    (hunnamed : ¬(op (mergedSlot jump after) :: .op turned :: before ++ tail).any (·.refersTo after)) :
    Merging body (front ++ [.op branch, .op slot, .op jump, .op jumpSlot, .label after])
      (.op (mergedSlot jump after) :: .op turned :: before) tail where
  body_eq := by simp [h.body_eq]
  live hreached hhead := by
    have hplain : tail.head?.any (! ·.isInstruction) = false := by
      cases tail with
      | nil => cases hhead
      | cons first rest => simpa using hhead
    have hbody : body = front ++ [.op branch, .op slot, .op jump, .op jumpSlot] ++ .label after :: tail := by
      simp [h.body_eq]
    rw [hbody] at hreached
    rcases hreached.above_plain hplain with ⟨-, hreached⟩ | ⟨earlier, last, heq, hbranch, -, -⟩
    · rw [← hbody] at hreached
      exact t.flow (h.live (t.reached_branch h hs hunnamed hreached) rfl)
    · obtain rfl : op jumpSlot = last := by simpa using congrArg List.getLast? heq
      exact absurd (hbranch.symm.trans (isBranch_of_isNop t.jumpSlot_isNop)) (by simp)
  slot earlier last heq hbranch := by
    obtain rfl : label after = last := by simpa using congrArg List.getLast? heq
    cases hbranch
  named name l hl hgo := by
    have hl : l ∈ front ++ [.op branch, .op slot, .op jump, .op jumpSlot] ∨ l = .label after := by
      simpa [or_assoc] using hl
    rcases hl with hl | rfl
    · rcases t.named_above h hl hgo with hrefers | hlabel | rfl
      · exact .inl hrefers
      · exact .inr (.inl (by simp [hlabel]))
      · exact .inr (.inl (by simp))
    · cases hgo

end TurnsAround
end Microcode
