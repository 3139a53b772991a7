import Microcode.Proofs.Naming

/-!
Bodies of code as the passes find them.

The passes that shorten code run in a row, each on what the one before has left, so what they rely on has to
survive all of them.
-/

namespace Microcode

open List Instruction Location

/-! ### Labels -/

def Line.label? : Line → Option String
  | .label name => some name
  | _ => none

def labels (lines : List Line) : List String := lines.filterMap Line.label?

@[simp] theorem labels_label (name : String) (rest : List Line) :
    labels (.label name :: rest) = name :: labels rest := rfl

@[simp] theorem labels_op (i : Instruction) (rest : List Line) : labels (.op i :: rest) = labels rest := rfl

@[simp] theorem labels_append (front rest : List Line) :
    labels (front ++ rest) = labels front ++ labels rest := filterMap_append

variable {lines : List Line}

theorem labels_instructions (h : ∀ l ∈ lines, l.isInstruction) : labels lines = [] := by
  unfold labels
  rw [filterMap_eq_nil_iff]
  intro l hl
  cases l with
  | op i => rfl
  | label n => exact Bool.noConfusion (h _ hl)
  | comment c => rfl
  | raw t => rfl

variable {name : String}

theorem locate_eq_none : locate name lines = none ↔ name ∉ labels lines := by
  induction lines with
  | nil => simp [locate, labels]
  | cons l rest ih =>
    unfold locate
    split
    next hl => simp [hl]
    next hl =>
      rw [ih]
      cases l with
      | label n =>
        have hn : name ≠ n := by
          rintro rfl
          exact hl rfl
        simp [hn]
      | op i | comment c | raw t => rfl

variable {there body : List Line} {next : String}

theorem mem_labels_of_locate (h : locate name lines = some there) : name ∈ labels lines := by
  refine Decidable.byContradiction fun hmem => ?_
  rw [locate_eq_none.mpr hmem] at h
  simp at h

theorem locate_op (name : String) (i : Instruction) (rest : List Line) :
    locate name (.op i :: rest) = locate name rest := by
  rw [locate, if_neg Line.noConfusion]

theorem locate_eq_label (h : locate name lines = some there) : ∃ rest, there = .label name :: rest := by
  induction lines with
  | nil => simp [locate] at h
  | cons l rest ih =>
    unfold locate at h
    split at h
    next hl => exact ⟨rest, by rw [← Option.some.inj h, hl]⟩
    · exact ih h

variable {rest : List Line}

theorem locate_of_suffix (hd : (labels lines).Nodup)
    (h : .label name :: rest <:+ lines) : locate name lines = some (.label name :: rest) := by
  obtain ⟨front, rfl⟩ := h
  have hfront : locate name front = none := by
    rw [locate_eq_none]
    intro hmem
    rw [labels_append] at hd
    exact (nodup_append.mp hd).2.2 name hmem name (.head _) rfl
  rw [locate_append, hfront, locate, if_pos rfl]
  rfl

def firstLabel? : List Line → Option String
  | .label name :: _ => some name
  | .comment _ :: rest => firstLabel? rest
  | _ => none

/-- The last of the labels at the top of some lines, comments aside, or a given one. -/
def lastLabel (name : String) : List Line → String
  | .label next :: rest => lastLabel next rest
  | .comment _ :: rest => lastLabel name rest
  | _ => name

/-- One name for all labels that stand at the same place of a body, the last of them. -/
def siteOf (body : List Line) (name : String) : String := match locate name body with
  | some there => lastLabel name there
  | none => name

theorem lastLabel_of_firstLabel? (h : firstLabel? lines = some next) :
    ∃ rest, .label next :: rest <:+ lines ∧ ∀ name, lastLabel name lines = lastLabel next rest := by
  induction lines with
  | nil => simp [firstLabel?] at h
  | cons l rest ih =>
    cases l with
    | label n =>
      cases h
      exact ⟨rest, suffix_refl _, fun _ => rfl⟩
    | comment c =>
      obtain ⟨more, hsuffix, hlast⟩ := ih h
      exact ⟨more, hsuffix.trans (suffix_cons _ _), hlast⟩
    | op i | raw t => simp [firstLabel?] at h

theorem siteOf_eq (hd : (labels body).Nodup) (h : locate name body = some (.label name :: rest))
    (hnext : firstLabel? rest = some next) : siteOf body name = siteOf body next := by
  obtain ⟨more, hsuffix, hlast⟩ := lastLabel_of_firstLabel? hnext
  have hbody : .label next :: more <:+ body := (hsuffix.trans (suffix_cons _ _)).trans (locate_suffix h)
  unfold siteOf
  rw [h, locate_of_suffix hd hbody]
  exact hlast name

/-- Lines without texts in which each branch has an instruction in its slot, and each jump an empty
one. -/
inductive Slotted : List Line → Prop
  | nil : Slotted []
  | label (name : String) {rest} (h : Slotted rest) : Slotted (.label name :: rest)
  | comment (c : String) {rest} (h : Slotted rest) : Slotted (.comment c :: rest)
  | plain {i rest} (hi : i.isBranch = false) (h : Slotted rest) : Slotted (.op i :: rest)
  | branch {i slot rest} (hi : i.isBranch)
      (hslot : slot.isBranch = false) (hjump : i.opcode = .j → slot.isNop)
      (h : Slotted rest) : Slotted (.op i :: .op slot :: rest)

theorem Slotted.tail {l : Line} (h : Slotted (l :: rest)) : Slotted rest := by
  cases h with
  | label _ h | comment _ h | plain _ h => exact h
  | branch _ hslot _ h => exact .plain hslot h

theorem Slotted.suffix (hs : Slotted lines) (h : rest <:+ lines) : Slotted rest := by
  induction lines with
  | nil =>
    rw [suffix_nil.mp h]
    exact .nil
  | cons l lines ih =>
    rcases suffix_cons_iff.mp h with rfl | h
    · exact hs
    · exact ih hs.tail h

def hasEmptySlots : List Line → Bool
  | [] => true
  | l :: rest => (!l.isBranch || rest.head?.any Line.isNop) && hasEmptySlots rest

theorem slotted_of_hasEmptySlots : ∀ (lines : List Line), lines.all (!·.isRaw) → hasEmptySlots lines → Slotted lines
  | [], _, _ => .nil
  | .label name :: rest, hraw, hslots => by
    simp only [all_cons, hasEmptySlots, Bool.and_eq_true] at hraw hslots
    exact .label name (slotted_of_hasEmptySlots rest hraw.2 hslots.2)
  | .comment c :: rest, hraw, hslots => by
    simp only [all_cons, hasEmptySlots, Bool.and_eq_true] at hraw hslots
    exact .comment c (slotted_of_hasEmptySlots rest hraw.2 hslots.2)
  | .raw t :: rest, hraw, _ => by simp [Line.isRaw] at hraw
  | .op i :: rest, hraw, hslots => by
    simp only [all_cons, hasEmptySlots, Bool.and_eq_true] at hraw hslots
    have hrest := slotted_of_hasEmptySlots rest hraw.2 hslots.2
    cases hi : i.isBranch with
    | false => exact .plain hi hrest
    | true =>
      have hhead : rest.head?.any Line.isNop := by simpa [Line.isBranch, hi] using hslots.1
      -- The slot is no branch, so the lines behind it are slotted as well.
      cases hrest with
      | nil => simp at hhead
      | label _ _ | comment _ _ => simp [Line.isNop] at hhead
      | @plain slot _ hslot h =>
        have hnop : slot.isNop := by simpa [Line.isNop] using hhead
        exact .branch hi hslot (fun _ => hnop) h
      | branch hslot _ _ _ =>
        have hnop := isBranch_of_isNop (by simpa [Line.isNop] using hhead)
        rw [hslot] at hnop
        cases hnop

def Location.scratch : Location := .scalar 1

/-- Whatever is in the scratch register, it is written before it is read, on each way from here. -/
inductive ScratchDead : List Line → Prop
  | nil : ScratchDead []
  | label (name : String) (rest : List Line) : ScratchDead (.label name :: rest)
  | comment (c : String) {rest} (h : ScratchDead rest) : ScratchDead (.comment c :: rest)
  | plain {i rest} (hi : i.isBranch = false) (hread : scratch ∉ i.reads)
      (h : scratch ∉ i.writes → ScratchDead rest) : ScratchDead (.op i :: rest)
  | branch {i slot rest} (hi : i.isBranch)
      (hslot : slot.isBranch = false) (hread : scratch ∉ i.reads)
      (hreadSlot : scratch ∉ slot.reads)
      (h : scratch ∉ slot.writes → (Line.op i).isLeaving = false → ScratchDead rest) :
      ScratchDead (.op i :: .op slot :: rest)

variable {i : Instruction}

theorem ScratchDead.not_read (h : ScratchDead (.op i :: rest)) : scratch ∉ i.reads := by
  cases h with
  | plain _ hread _ | branch _ _ hread _ _ => exact hread

def readsScratchFirst : List Line → Bool
  | [] => false
  | .op i :: rest => i.reads.contains .scratch || (!i.writes.contains .scratch && readsScratchFirst rest)
  | _ :: rest => readsScratchFirst rest

def writesScratchFirst : List Line → Bool
  | [] => true
  | .label _ :: rest => !readsScratchFirst rest && writesScratchFirst rest
  | _ :: rest => writesScratchFirst rest

theorem isBranch_eq_contains (o : Opcode) :
    o.isBranch = [Opcode.j, .jr, .blez, .bgtz, .bltz, .bgez, .beq, .bne, .jal].contains o := by
  cases o <;> rfl

theorem writes_of_isBranch (h : i.isBranch) : i.writes = if i.opcode = .jal then [.returnAddress] else [] := by
  rw [isBranch, isBranch_eq_contains, contains_iff_mem] at h
  simp only [mem_cons, not_mem_nil, or_false] at h
  unfold writes
  rcases h with h | h | h | h | h | h | h | h | h <;> rw [h] <;> rfl

theorem scratch_not_written (h : i.isBranch) : scratch ∉ i.writes := by
  rw [writes_of_isBranch h]
  split <;> decide

theorem scratchDead_of_not_readsScratchFirst (hs : Slotted lines)
    (h : readsScratchFirst lines = false) : ScratchDead lines := by
  induction hs with
  | nil => exact .nil
  | label name _ _ => exact .label name _
  | comment c _ ih => exact .comment c (ih h)
  | plain hi _ ih =>
    simp only [readsScratchFirst, Bool.or_eq_false_iff, Bool.and_eq_false_iff, Bool.not_eq_false',
      contains_eq_mem, decide_eq_false_iff_not, decide_eq_true_eq] at h
    refine .plain hi h.1 fun hw => ih ?_
    exact h.2.resolve_left hw
  | branch hi hslot _ _ ih =>
    simp only [readsScratchFirst, Bool.or_eq_false_iff, Bool.and_eq_false_iff, Bool.not_eq_false',
      contains_eq_mem, decide_eq_false_iff_not, decide_eq_true_eq] at h
    obtain ⟨hreadSlot, hrest⟩ := h.2.resolve_left (scratch_not_written hi)
    exact .branch hi hslot h.1 hreadSlot fun hw _ => ih (hrest.resolve_left hw)

theorem not_readsScratchFirst (h : writesScratchFirst lines) (hrest : .label name :: rest <:+ lines) :
    readsScratchFirst rest = false := by
  induction lines with
  | nil => simp at hrest
  | cons l lines ih =>
    rcases suffix_cons_iff.mp hrest with heq | hrest
    · obtain ⟨rfl, rfl⟩ := List.cons.inj heq
      simp only [writesScratchFirst, Bool.and_eq_true, Bool.not_eq_true'] at h
      exact h.1
    · refine ih ?_ hrest
      cases l with
      | label n =>
        simp only [writesScratchFirst, Bool.and_eq_true] at h
        exact h.2
      | op i | comment c | raw t => exact h

def callsOutside (body : List Line) : Bool := body.all fun
    | .op i => i.opcode != .jal || i.target?.all (· ∉ labels body)
    | _ => true

structure IsPlain (body : List Line) : Prop where
  noTexts : body.all (!·.isRaw)
  distinct : (labels body).Nodup
  emptySlots : hasEmptySlots body
  callsOutside : callsOutside body
  writesFirst : writesScratchFirst body

/-- What every pass finds, and leaves for the next. -/
structure WellFormed (site : String → String) (body lines : List Line) : Prop where
  slotted : Slotted lines
  distinct : (labels lines).Nodup
  callsOutside : ∀ i, .op i ∈ lines → i.opcode = .jal → ∀ x, i.target? = some x → x ∉ labels lines
  /-- Behind a label the scratch register may hold anything. -/
  dead : ∀ name rest, locate name lines = some (.label name :: rest) → ScratchDead rest
  /-- Labels that stand together are at one site. -/
  sites : ∀ name rest next, locate name lines = some (.label name :: rest) →
    firstLabel? rest = some next → site name = site next
  /-- Nothing is executed that is not in the first body. -/
  origin : ∀ i, .op i ∈ lines → i.isBranch = false → i.isNop = false → ∃ j, .op j ∈ body ∧ i.SameUpTo site j

theorem IsPlain.wellFormed (h : IsPlain body) : WellFormed (siteOf body) body body where
  slotted := slotted_of_hasEmptySlots body h.noTexts h.emptySlots
  distinct := h.distinct
  callsOutside := by
    intro i hi hjal x hx
    have hcall := all_eq_true.mp h.callsOutside _ hi
    simpa [hjal, hx] using hcall
  dead := by
    intro name rest hrest
    have hsuffix := locate_suffix hrest
    have hslotted := slotted_of_hasEmptySlots body h.noTexts h.emptySlots
    exact scratchDead_of_not_readsScratchFirst (hslotted.suffix hsuffix).tail
      (not_readsScratchFirst h.writesFirst hsuffix)
  sites := fun _ _ _ => siteOf_eq h.distinct
  origin := fun i hi _ _ => ⟨i, hi, rfl⟩

end Microcode
