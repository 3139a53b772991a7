import Microcode.Proofs.Body

/-!
One relation for all the passes that shorten code.

`Shortens` says how a shorter body comes from a longer one.  Most lines have a counterpart.  Comments may be
missing, and labels that no branch of the shorter body goes to.
-/

namespace Microcode

open List Instruction

variable {body old new a b : List Line} {site : String → String} {i : Instruction}

/-- A jump to the first label comes to the second, by way of labels and jumps only. -/
inductive Lands (body : List Line) : String → String → Prop
  | here (name : String) : Lands body name name
  | pass {name next target rest}
      (h : locate name body = some (.label name :: .label next :: rest))
      (more : Lands body next target) : Lands body name target
  | hop {name next target jump slot rest}
      (h : locate name body = some (.label name :: .op jump :: .op slot :: rest))
      (hjump : jump.opcode = .j) (hslot : slot.isNop) (hnext : jump.target? = some next)
      (more : Lands body next target) : Lands body name target

variable {j : Instruction} {name : String}

theorem Lands.trans {a b c : String} (h : Lands body a b) (h' : Lands body b c) : Lands body a c := by
  induction h with
  | here => exact h'
  | pass h _ ih => exact .pass h (ih h')
  | hop h hjump hslot hnext _ ih => exact .hop h hjump hslot hnext (ih h')

theorem Lands.eq_of_not_mem {a b : String} (h : Lands body a b) (ha : a ∉ labels body) : b = a := by
  rw [← locate_eq_none] at ha
  cases h with
  | here => rfl
  | pass h _ | hop h _ _ _ _ => simp [ha] at h

/-- The same branch with a target that the old one leads to. -/
structure Redirects (site : String → String) (old : List Line) (i i' : Instruction) : Prop where
  shape : i.SameShape i'
  /-- A call leaves the same return address. -/
  call : i.opcode = .jal → i.SameUpTo site i'
  target : Option.Rel (fun x y => Lands old y x) i.target? i'.target?

theorem Redirects.refl (site : String → String) (old : List Line) (i : Instruction) : Redirects site old i i where
  shape := .refl _ i
  call := fun _ => .refl _ i
  target := by
    cases i.target? with
    | none => exact .none
    | some x => exact .some (.here x)

theorem Redirects.target_cases {i'} (h : Redirects site old i i') : i.target? = none ∧ i'.target? = none ∨
      ∃ x y, i.target? = some x ∧ i'.target? = some y ∧ Lands old y x := by
  have htarget := h.target
  generalize i.target? = x at htarget ⊢
  generalize i'.target? = y at htarget ⊢
  cases htarget with
  | none => exact Or.inl ⟨rfl, rfl⟩
  | some h => exact Or.inr ⟨_, _, rfl, rfl, h⟩

/-- A branch with an empty slot that only skips a jump, and the branch that takes the jump's way. -/
structure Skips (branch slot jump jumpSlot turned : Instruction) (after target : String) : Prop where
  slotEmpty : slot.isNop
  jumps : jump.opcode = .j
  jumpSlotEmpty : jumpSlot.isNop
  skips : branch.target? = some after
  takes : jump.target? = some target
  turned : Instruction.Turns branch turned target

/-- Whether an instruction loads the code of an assertion: a constant into the scratch register. -/
def Instruction.isScratchLoad (i : Instruction) : Bool := i.opcode == .lui && i.args.head? == some (.reg .scratch)

/-- How some lines of the body `new` come from some lines of the body `old`. -/
inductive Shortens (site : String → String) (new old : List Line) : List Line → List Line → Prop
  | nil : Shortens site new old [] []
  | label (name : String) {a b : List Line} (h : Shortens site new old a b) :
      Shortens site new old (.label name :: a) (.label name :: b)
  | comment (c : String) {a b : List Line} (h : Shortens site new old a b) :
      Shortens site new old (.comment c :: a) (.comment c :: b)
  | dropLabel {name : String} {a b : List Line}
      (hname : ∀ i, .op i ∈ new → i.target? ≠ some name) (h : Shortens site new old a b) :
      Shortens site new old a (.label name :: b)
  | dropComment (c : String) {a b : List Line} (h : Shortens site new old a b) :
      Shortens site new old a (.comment c :: b)
  | plain {i i' : Instruction} {a b : List Line} (hi : i.isBranch = false) (hsame : i.SameUpTo site i')
      (h : Shortens site new old a b) : Shortens site new old (.op i :: a) (.op i' :: b)
  | branch {i i' slot slot' : Instruction} (dead : List Line) {a b : List Line}
      (hi : i.isBranch) (hslot : slot.isBranch = false) (hto : Redirects site old i i')
      (hsame : slot.SameUpTo site slot') (hdead : ∀ l ∈ dead, l.isInstruction)
      (hleave : dead ≠ [] → (Line.op i').isLeaving) (h : Shortens site new old a b) :
      Shortens site new old (.op i :: .op slot :: a) (.op i' :: .op slot' :: (dead ++ b))
  | turn {branch slot jump jumpSlot turned : Instruction} {after target : String} {a b : List Line}
      (hskip : Skips branch slot jump jumpSlot turned after target)
      (h : Shortens site new old a (.label after :: b)) :
      Shortens site new old (.op turned :: .op .nop :: a)
        (.op branch :: .op slot :: .op jump :: .op jumpSlot :: .label after :: b)
  | assert {branch slot code jump jumpSlot turned : Instruction} {after target : String}
      {a b : List Line} (hskip : Skips branch slot jump jumpSlot turned after target)
      (hcode : code.isScratchLoad) (h : Shortens site new old a (.label after :: b)) :
      Shortens site new old (.op turned :: .op code :: a)
        (.op branch :: .op slot :: .op code :: .op jump :: .op jumpSlot :: .label after :: b)

namespace Shortens

theorem labels_sublist (h : Shortens site new old a b) : (labels a).Sublist (labels b) := by
  induction h with
  | nil => exact Sublist.refl _
  | label name _ ih => exact ih.cons_cons name
  | comment _ _ ih | dropComment _ _ ih | plain _ _ _ ih | turn _ _ ih | assert _ _ _ ih => exact ih
  | dropLabel _ _ ih => exact ih.cons _
  | branch dead _ _ _ _ hdead _ _ ih =>
    rw [labels_op, labels_op, labels_op, labels_op, labels_append, labels_instructions hdead]
    exact ih

theorem mem_labels (h : Shortens site new old a b) {x : String} (hi : .op i ∈ new) (hx : i.target? = some x)
    (hb : x ∈ labels b) : x ∈ labels a := by
  induction h with
  | nil => exact hb
  | label name _ ih =>
    rcases mem_cons.mp hb with rfl | hb
    · exact (.head _)
    · exact .tail name (ih hb)
  | comment _ _ ih | dropComment _ _ ih | plain _ _ _ ih | turn _ _ ih | assert _ _ _ ih => exact ih hb
  | dropLabel hname _ ih =>
    rcases mem_cons.mp hb with rfl | hb
    · exact absurd hx (hname i hi)
    · exact ih hb
  | branch dead _ _ _ _ hdead _ _ ih =>
    rw [labels_op, labels_op, labels_append, labels_instructions hdead] at hb
    exact ih hb

theorem locate_label (h : Shortens site new old a b) (hd : (labels b).Nodup) {a'}
    (ha : locate name a = some (.label name :: a')) :
    ∃ b', locate name b = some (.label name :: b') ∧ Shortens site new old a' b' := by
  induction h with
  | nil => simp [locate] at ha
  | @label n a b h ih =>
    unfold locate at ha ⊢
    by_cases hn : Line.label n = .label name
    · rw [if_pos hn] at ha ⊢
      obtain ⟨-, rfl⟩ := List.cons.inj (Option.some.inj ha)
      exact ⟨b, by rw [hn], h⟩
    · rw [if_neg hn] at ha ⊢
      exact ih (nodup_cons.mp hd).2 ha
  | comment c _ ih =>
    exact ih hd ha
  | @dropLabel n a b hname h ih =>
    obtain ⟨b', hb', hs⟩ := ih (nodup_cons.mp hd).2 ha
    refine ⟨b', ?_, hs⟩
    -- The label that is left out is another one, because that one is behind it.
    have hn : Line.label n ≠ .label name := by
      intro hn
      rw [Line.label.inj hn] at hd
      exact (nodup_cons.mp hd).1 (mem_labels_of_locate hb')
    rw [locate, if_neg hn]
    exact hb'
  | dropComment c _ ih =>
    exact ih hd ha
  | plain _ _ _ ih =>
    exact ih hd ha
  | branch dead _ _ _ _ hdead _ _ ih =>
    rw [locate_op, locate_op, locate_append, locate_instructions name hdead]
    rw [labels_op, labels_op, labels_append, labels_instructions hdead] at hd
    exact ih hd ha
  | turn _ _ ih =>
    exact ih hd ha
  | assert _ _ _ ih =>
    exact ih hd ha

end Shortens

inductive Comes (site : String → String) (old lines : List Line) (i : Instruction) : Prop
  | same {i'} (h : .op i' ∈ lines) (hi : i.isBranch = false)
      (hsame : i.SameUpTo site i')
  | redirected {i'} (h : .op i' ∈ lines) (hi : i.isBranch)
      (hto : Redirects site old i i')
  | empty (h : i.isNop)
  | turned (h : i.opcode.isConditional)

theorem Comes.mono {lines lines'} (h : Comes site old lines i) (hsub : ∀ l ∈ lines, l ∈ lines') :
    Comes site old lines' i := by
  cases h with
  | same h hi hsame => exact .same (hsub _ h) hi hsame
  | redirected h hi hto => exact .redirected (hsub _ h) hi hto
  | empty h => exact .empty h
  | turned h => exact .turned h

theorem Line.isLeaving_congr (h : i.opcode = j.opcode) : (Line.op i).isLeaving = (Line.op j).isLeaving := by
  show (some i.opcode == some .j || some i.opcode == some .jr) = _
  rw [h]
  rfl

namespace Instruction

theorem isScratchLoad_mapSymbols (f : String → String) (i : Instruction) :
    (i.mapSymbols f).isScratchLoad = i.isScratchLoad := by
  unfold isScratchLoad mapSymbols
  rw [head?_map]
  cases i.args.head? with
  | none => rfl
  | some a => cases a <;> rfl

variable {f : String → String}

theorem SameUpTo.isScratchLoad (h : i.SameUpTo f j) : i.isScratchLoad = j.isScratchLoad := by
  rw [← isScratchLoad_mapSymbols f i, h, isScratchLoad_mapSymbols]

theorem isNop_of_isScratchLoad (h : i.isScratchLoad) : i.isNop = false := by
  simp only [isScratchLoad, Bool.and_eq_true, beq_iff_eq] at h
  rw [isNop, h.1]
  rfl

theorem isBranch_of_isScratchLoad (h : i.isScratchLoad) : i.isBranch = false := by
  simp only [isScratchLoad, Bool.and_eq_true, beq_iff_eq] at h
  rw [isBranch, h.1]
  rfl

theorem reads_of_isScratchLoad (h : i.isScratchLoad) : i.reads = [] := by
  simp only [isScratchLoad, Bool.and_eq_true, beq_iff_eq] at h
  unfold reads
  rw [h.1]

theorem writes_of_isScratchLoad (h : i.isScratchLoad) : i.writes = [.scratch] := by
  simp only [isScratchLoad, Bool.and_eq_true, beq_iff_eq] at h
  unfold writes
  rw [h.1]
  rw [wholeAt, ← head?_eq_getElem?, h.2]
  rfl

end Instruction

namespace Shortens

theorem mem_comes (h : Shortens site new old a b) (hi : .op i ∈ a) : Comes site old b i := by
  induction h with
  | nil => cases hi
  | label name _ ih | comment c _ ih =>
    rcases mem_cons.mp hi with heq | hi
    · exact Line.noConfusion heq
    · exact (ih hi).mono fun l hl => mem_cons_of_mem _ hl
  | dropLabel _ _ ih | dropComment _ _ ih => exact (ih hi).mono fun l hl => mem_cons_of_mem _ hl
  | plain hb hsame _ ih =>
    rcases mem_cons.mp hi with heq | hi
    · cases heq
      exact .same (.head _) hb hsame
    · exact (ih hi).mono fun l hl => mem_cons_of_mem _ hl
  | branch dead hb hslot hto hsame _ _ _ ih =>
    rcases mem_cons.mp hi with heq | hi
    · cases heq
      exact .redirected (.head _) hb hto
    rcases mem_cons.mp hi with heq | hi
    · cases heq
      exact .same (.tail _ (.head _)) hslot hsame
    · refine (ih hi).mono fun l hl => ?_
      exact .tail _ (.tail _ (mem_append_right dead hl))
  | turn hskip _ ih =>
    rcases mem_cons.mp hi with heq | hi
    · cases heq
      exact .turned hskip.turned.isConditional
    rcases mem_cons.mp hi with heq | hi
    · cases heq
      exact .empty rfl
    · exact (ih hi).mono fun l hl => by simp only [mem_cons] at hl ⊢; simp [hl]
  | assert hskip hcode _ ih =>
    rcases mem_cons.mp hi with heq | hi
    · cases heq
      exact .turned hskip.turned.isConditional
    rcases mem_cons.mp hi with heq | hi
    · cases heq
      exact .same (by simp) (isBranch_of_isScratchLoad hcode) (.refl site i)
    · exact (ih hi).mono fun l hl => by simp only [mem_cons] at hl ⊢; simp [hl]

theorem slotted (h : Shortens site new old a b) (hs : Slotted b) : Slotted a := by
  induction h with
  | nil => exact .nil
  | label name _ ih => exact .label name (ih hs.tail)
  | comment c _ ih => exact .comment c (ih hs.tail)
  | dropLabel _ _ ih | dropComment _ _ ih => exact ih hs.tail
  | plain hi _ _ ih => exact .plain hi (ih hs.tail)
  | branch dead hi hslot hto hsame _ _ _ ih =>
    have hrest := hs.tail.tail.suffix (suffix_append dead _)
    refine .branch hi hslot ?_ (ih hrest)
    intro hj
    rw [hsame.isNop]
    cases hs with
    | plain hi' _ =>
      rw [← Instruction.SameUpTo.isBranch hto.shape, hi] at hi'
      cases hi'
    | branch _ _ hjump _ => exact hjump ((Instruction.SameUpTo.opcode hto.shape).symm.trans hj)
  | turn hskip _ ih => exact .branch hskip.turned.isBranch rfl (fun _ => rfl) (ih hs.tail.tail.tail.tail)
  | assert hskip hcode _ ih =>
    refine .branch hskip.turned.isBranch (isBranch_of_isScratchLoad hcode) ?_
      (ih hs.tail.tail.tail.tail.tail)
    intro hj
    have hcond := hskip.turned.isConditional
    rw [hj] at hcond
    cases hcond

theorem scratchDead (h : Shortens site new old a b) (hw : WellFormed site body old) (hb : b <:+ old)
    (hdead : ScratchDead b) : ScratchDead a := by
  have hbehind {name : String} {rest : List Line} (hrest : .label name :: rest <:+ old) :
      ScratchDead rest := hw.dead name rest (locate_of_suffix hw.distinct hrest)
  induction h with
  | nil => exact .nil
  | label name _ _ => exact .label name _
  | comment c _ ih =>
    cases hdead with
    | comment _ hdead => exact .comment c (ih ((suffix_cons _ _).trans hb) hdead)
  | dropLabel _ _ ih => exact ih ((suffix_cons _ _).trans hb) (hbehind hb)
  | dropComment c _ ih =>
    cases hdead with
    | comment _ hdead => exact ih ((suffix_cons _ _).trans hb) hdead
  | plain hi hsame _ ih =>
    cases hdead with
    | plain _ hread hdead =>
      refine .plain hi (by rw [hsame.reads]; exact hread) fun hwrite => ?_
      exact ih ((suffix_cons _ _).trans hb) (hdead (by rw [← hsame.writes]; exact hwrite))
    | branch hi' _ _ _ _ =>
      rw [← hsame.isBranch, hi] at hi'
      cases hi'
  | branch dead hi hslot hto hsame hinstr hleave _ ih =>
    cases hdead with
    | plain hi' _ _ =>
      rw [← Instruction.SameUpTo.isBranch hto.shape, hi] at hi'
      cases hi'
    | branch _ _ hread hreadSlot hdead =>
      rw [← Instruction.SameUpTo.reads hto.shape] at hread
      rw [← hsame.reads] at hreadSlot
      refine .branch hi hslot hread hreadSlot fun hwrite hstay => ?_
      rw [Line.isLeaving_congr (Instruction.SameUpTo.opcode hto.shape)] at hstay
      -- A branch that does not leave has nothing cut off behind it.
      obtain rfl : dead = [] := by
        refine Decidable.byContradiction fun hne => ?_
        rw [hleave hne] at hstay
        cases hstay
      exact ih ((suffix_append [_, _] _).trans hb) (hdead (by rwa [← hsame.writes]) hstay)
  | turn hskip _ ih =>
    have hread := hdead.not_read
    rw [← hskip.turned.reads] at hread
    refine .branch hskip.turned.isBranch rfl hread not_mem_nil fun _ _ => ?_
    exact ih ((suffix_append [_, _, _, _] _).trans hb) (.label _ _)
  | assert hskip hcode _ ih =>
    have hslot := isBranch_of_isScratchLoad hcode
    have hreadSlot := reads_of_isScratchLoad hcode
    have hwrite := writes_of_isScratchLoad hcode
    have hread := hdead.not_read
    rw [← hskip.turned.reads] at hread
    refine .branch hskip.turned.isBranch hslot hread (by simp [hreadSlot]) fun hno => ?_
    exact absurd (by simp [hwrite]) hno

theorem firstLabel (h : Shortens site new old a b) (hw : WellFormed site body old) (hb : b <:+ old)
    (ha : firstLabel? a = some name) : ∃ name', firstLabel? b = some name' ∧ site name' = site name := by
  induction h with
  | nil | plain _ _ _ _ | branch _ _ _ _ _ _ _ _ _ | turn _ _ _ | assert _ _ _ _ => simp [firstLabel?] at ha
  | label n _ _ => exact ⟨n, rfl, by rw [Option.some.inj ha]⟩
  | comment c _ ih | dropComment c _ ih => exact ih ((suffix_cons _ _).trans hb) ha
  | @dropLabel n _ _ _ _ ih =>
    obtain ⟨next, hnext, hsite⟩ := ih ((suffix_cons _ _).trans hb) ha
    refine ⟨n, rfl, ?_⟩
    rw [← hsite]
    exact hw.sites n _ next (locate_of_suffix hw.distinct hb) hnext

/-- **Shortening keeps bodies well-formed.** -/
theorem wellFormed (h : Shortens site new old new old) (hw : WellFormed site body old) : WellFormed site body new where
  slotted := h.slotted hw.slotted
  distinct := hw.distinct.sublist h.labels_sublist
  callsOutside := by
    intro i hi hjal x hx hmem
    have hold := h.labels_sublist.subset hmem
    have hbranch : i.isBranch := by rw [isBranch, hjal]; rfl
    cases h.mem_comes hi with
    | same _ hplain _ =>
      rw [hbranch] at hplain
      cases hplain
    | @redirected i' hi' _ hto =>
      have hjal' : i'.opcode = .jal := (Instruction.SameUpTo.opcode hto.shape).symm.trans hjal
      rcases hto.target_cases with ⟨hnone, -⟩ | ⟨x', y, hx', hy, hlands⟩
      · rw [hnone] at hx
        simp at hx
      · obtain rfl : x = x' := Option.some.inj (hx.symm.trans hx')
        have hout := hw.callsOutside i' hi' hjal' y hy
        rw [hlands.eq_of_not_mem hout] at hold
        exact hout hold
    | empty hnop =>
      rw [isBranch_of_isNop hnop] at hbranch
      cases hbranch
    | turned hcond =>
      rw [hjal] at hcond
      cases hcond
  dead := by
    intro name rest hrest
    obtain ⟨rest', hrest', hshort⟩ := h.locate_label hw.distinct hrest
    refine hshort.scratchDead hw ?_ (hw.dead name rest' hrest')
    exact (suffix_cons _ _).trans (locate_suffix hrest')
  sites := by
    intro name rest next hrest hnext
    obtain ⟨rest', hrest', hshort⟩ := h.locate_label hw.distinct hrest
    have hsuffix := (suffix_cons _ _).trans (locate_suffix hrest')
    obtain ⟨next', hnext', hsite⟩ := hshort.firstLabel hw hsuffix hnext
    rw [← hsite]
    exact hw.sites name rest' next' hrest' hnext'
  origin := by
    intro i hi hplain hnop
    cases h.mem_comes hi with
    | same hi' _ hsame =>
      rw [hsame.isBranch] at hplain
      rw [hsame.isNop] at hnop
      obtain ⟨j, hj, hsame'⟩ := hw.origin _ hi' hplain hnop
      exact ⟨j, hj, hsame.trans hsame'⟩
    | redirected _ hbranch _ =>
      rw [hbranch] at hplain
      cases hplain
    | empty h =>
      rw [h] at hnop
      cases hnop
    | turned hcond =>
      rw [isBranch_of_isConditional hcond] at hplain
      cases hplain

end Shortens
end Microcode
