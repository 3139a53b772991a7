import Microcode.Proofs.Shortening
import Microcode.Proofs.Simulation

/-!
Shorter bodies do the same work.

What counts of a run is which instructions are executed, those without effect aside, and which functions are
called (`deeds`).
-/

namespace Microcode

open List Instruction MachineState Machine Location

variable {Value Memory : Type} {i i' slot slot' : Instruction} {a b body rest new old : List Line}
  {site : String → String} {s t : MachineState Value Memory} {M : Machine Value Memory} {x : String}

/-! ### What a run does -/

/-- Something that a run does. -/
inductive Deed where
  | execute (i : Instruction)
  | call (name : String)

def Event.deed? {Value Memory : Type} (site : String → String) : Event Value Memory → Option Deed
  | .executed i => if i.isNop then none else some (.execute (i.mapSymbols site))
  | .called name _ => some (.call name)
  | _ => none

def deeds {Value Memory : Type} (site : String → String) (events : List (Event Value Memory)) :
    List Deed := events.filterMap (Event.deed? site)

section
variable (site : String → String) (events : List (Event Value Memory))

theorem deeds_append (more : List (Event Value Memory)) :
    deeds site (events ++ more) = deeds site events ++ deeds site more := filterMap_append

theorem deeds_nop (h : i.isNop) : deeds site (.executed i :: events) = deeds site events := by
  simp [deeds, Event.deed?, h]

theorem deeds_executed (h : i.isNop = false) :
    deeds site (.executed i :: events) = .execute (i.mapSymbols site) :: deeds site events := by
  simp [deeds, Event.deed?, h]

theorem deeds_same {j} (h : i.SameUpTo site j) (s : List (Event Value Memory)) :
    deeds site (.executed i :: s) = deeds site (.executed j :: s) := by
  have hmap : i.mapSymbols site = j.mapSymbols site := h
  simp only [deeds, filterMap_cons, Event.deed?, h.isNop, hmap]

end

/-- The first list is the second with more put in. -/
inductive Padded {α : Type} (extra : α → Prop) : List α → List α → Prop
  | nil : Padded extra [] []
  | keep (x : α) {a b : List α} (h : Padded extra a b) : Padded extra (x :: a) (x :: b)
  | insert {x : α} {a b : List α} (hx : extra x) (h : Padded extra a b) : Padded extra (x :: a) b

namespace Padded

variable {α : Type} {extra : α → Prop} {a b c a' b' : List α}

theorem refl (extra : α → Prop) (a : List α) : Padded extra a a := by
  induction a with
  | nil => exact .nil
  | cons x a ih => exact .keep x ih

theorem append (h : Padded extra a b) (h' : Padded extra a' b') : Padded extra (a ++ a') (b ++ b') := by
  induction h with
  | nil => exact h'
  | keep x _ ih => exact .keep x ih
  | insert hx _ ih => exact .insert hx ih

theorem trans (h : Padded extra a b) (h' : Padded extra b c) : Padded extra a c := by
  induction h generalizing c with
  | nil => exact h'
  | insert hx _ ih => exact .insert hx (ih h')
  | keep x _ ih =>
    cases h' with
    | keep _ h' => exact .keep x (ih h')
    | insert hx h' => exact .insert hx (ih h')

end Padded

def IsScratchLoad (site : String → String) (body : List Line) (x : Deed) : Prop :=
  ∃ i, .op i ∈ body ∧ i.isScratchLoad ∧ x = .execute (i.mapSymbols site)

/-- A machine to which labels at one site are the same and nothing depends on what the scratch register
held before: an instruction that only writes it leaves its own value, and functions outside do not use
it. -/
structure Machine.Faithful {Value Memory : Type} (M : Machine Value Memory) (site : String → String) : Prop where
  exec_site : ∀ i j, i.isBranch = false → i.SameUpTo site j → M.exec i = M.exec j
  link_site : ∀ i j, i.SameUpTo site j → M.link i = M.link j
  overwrites : ∀ i s t, i.isBranch = false → scratch ∉ i.reads → scratch ∈ i.writes →
    AgreeBut .scratch s t → M.exec i s = M.exec i t
  callee_scratch : ∀ name s t, AgreeBut .scratch s t →
    Option.Rel (AgreeBut .scratch) (M.callee name s) (M.callee name t)

/-- States at a place in the longer body: the same, or the same but for a scratch register that is written
before it is read. -/
def Agrees {Value Memory : Type} (rest : List Line) (s t : MachineState Value Memory) : Prop :=
  s = t ∨ AgreeBut .scratch s t ∧ ScratchDead rest

namespace Agrees

theorem agreeBut (h : Agrees rest s t) : AgreeBut .scratch s t := by
  rcases h with rfl | ⟨h, -⟩
  · exact .refl _ s
  · exact h

theorem at_label (name : String) (rest : List Line) (h : AgreeBut .scratch s t) :
    Agrees (.label name :: rest) s t := Or.inr ⟨h, .label name rest⟩

theorem behind_label (hw : WellFormed site body old) {name : String}
    (hb : .label name :: rest <:+ old) (h : Agrees (.label name :: rest) s t) : Agrees rest s t := by
  rcases h with rfl | ⟨h, -⟩
  · exact Or.inl rfl
  · exact Or.inr ⟨h, hw.dead name rest (locate_of_suffix hw.distinct hb)⟩

theorem behind_comment {c : String} (h : Agrees (.comment c :: rest) s t) : Agrees rest s t := by
  rcases h with rfl | ⟨h, hdead⟩
  · exact Or.inl rfl
  · cases hdead with
    | comment _ hdead => exact Or.inr ⟨h, hdead⟩

theorem reads (h : Agrees (.op i :: rest) s t) : ∀ l ∈ i.reads, s.registers l = t.registers l := by
  intro l hl
  rcases h with rfl | ⟨h, hdead⟩
  · rfl
  · refine h.registers l ?_
    rintro rfl
    exact hdead.not_read hl

theorem constants (h : Agrees rest s t) : ∀ l, l.isConstant → s.registers l = t.registers l := by
  intro l hl
  refine h.agreeBut.registers l ?_
  rintro rfl
  cases hl

end Agrees

namespace Machine

theorem Faithful.exec_scratch (hM : M.Faithful site) (hi : i.isBranch = false)
    (hread : scratch ∉ i.reads) (h : AgreeBut .scratch s t) : M.exec i s = M.exec i t ∨
      AgreeBut .scratch (M.exec i s) (M.exec i t) ∧ scratch ∉ i.writes :=
  M.exec_but hi rfl hread (fun hwrite => hM.overwrites i s t hi hread hwrite h) h

theorem exec_scratchLoad (M : Machine Value Memory) (h : i.isScratchLoad)
    (s : MachineState Value Memory) : AgreeBut .scratch (M.exec i s) s := by
  have hi := isBranch_of_isScratchLoad h
  refine ⟨?_, ?_⟩
  · exact fun l hl => M.exec_frame hi (by simpa [writes_of_isScratchLoad h] using hl) s
  · refine M.frameMemory i s hi ?_
    simp only [isScratchLoad, Bool.and_eq_true, beq_iff_eq] at h
    show i.opcode.memoryUse ≠ .store
    rw [h.1]
    decide

theorem Faithful.exec_agrees (hM : M.Faithful site)
    (hi : i.isBranch = false) (hsame : i.SameUpTo site i') (h : Agrees (.op i' :: rest) s t) :
    Agrees rest (M.exec i s) (M.exec i' t) := by
  rw [hM.exec_site i i' hi hsame]
  rw [hsame.isBranch] at hi
  rcases h with rfl | ⟨h, hdead⟩
  · exact Or.inl rfl
  · cases hdead with
    | plain _ hread hdead =>
      rcases hM.exec_scratch hi hread h with heq | ⟨hagree, hwrite⟩
      · exact Or.inl heq
      · exact Or.inr ⟨hagree, hdead hwrite⟩
    | branch hbranch _ _ _ _ =>
      rw [hi] at hbranch
      cases hbranch

theorem linked_agreeBut (ho : i.opcode = i'.opcode)
    (hlink : i.opcode = .jal → M.link i = M.link i') (h : AgreeBut .scratch s t) :
    AgreeBut .scratch (M.linked i s) (M.linked i' t) := by
  unfold linked
  rw [← ho]
  split
  case isFalse => exact h
  case isTrue hjal =>
    rw [hlink hjal]
    refine ⟨?_, h.memory⟩
    intro l hl
    simp only [MachineState.set]
    split
    · rfl
    · exact h.registers l hl

theorem Faithful.slot_agrees (hM : M.Faithful site) (hi : i'.isBranch) (ho : i.opcode = i'.opcode)
    (hlink : i.opcode = .jal → M.link i = M.link i') (hslot : slot.isBranch = false)
    (hsame : slot.SameUpTo site slot') (h : Agrees (.op i' :: .op slot' :: rest) s t) :
    AgreeBut .scratch (M.exec slot (M.linked i s)) (M.exec slot' (M.linked i' t)) ∧ ((Line.op i').isLeaving = false →
        Agrees rest (M.exec slot (M.linked i s)) (M.exec slot' (M.linked i' t))) := by
  rw [hM.exec_site slot slot' hslot hsame]
  rw [hsame.isBranch] at hslot
  rcases h with rfl | ⟨h, hdead⟩
  · have heq : M.linked i s = M.linked i' s := by
      unfold linked
      rw [← ho]
      split
      next hjal => rw [hlink hjal]
      · rfl
    rw [heq]
    exact ⟨.refl _ _, fun _ => Or.inl rfl⟩
  · cases hdead with
    | plain hplain _ _ =>
      rw [hi] at hplain
      cases hplain
    | branch _ _ _ hread hdead =>
      rcases hM.exec_scratch hslot hread (linked_agreeBut ho hlink h) with heq | ⟨hagree, hwrite⟩
      · rw [heq]
        exact ⟨.refl _ _, fun _ => Or.inl rfl⟩
      · exact ⟨hagree, fun hstay => Or.inr ⟨hagree, hdead hwrite hstay⟩⟩

theorem Faithful.callee_agrees (hM : M.Faithful site) (name : String)
    (h : Agrees rest s t) : Option.Rel (Agrees rest) (M.callee name s) (M.callee name t) := by
  rcases h with rfl | ⟨h, hdead⟩
  · cases M.callee name s with
    | none => exact .none
    | some u => exact .some (Or.inl rfl)
  · have hrel := hM.callee_scratch name s t h
    generalize M.callee name s = x at hrel ⊢
    generalize M.callee name t = y at hrel ⊢
    cases hrel with
    | none => exact .none
    | some h => exact .some (Or.inr ⟨h, hdead⟩)

variable (M)

theorem transfer_goto (body rest : List Line) (hjr : i.opcode ≠ .jr)
    (hjal : i.opcode ≠ .jal) (hx : i.target? = some x) (address : Option Value)
    (s : MachineState Value Memory) : M.transfer body i address rest s = ([], goto body x s) := by
  unfold transfer goto leave
  rw [if_neg hjr, hx]
  dsimp only
  cases locate x body with
  | none => rw [if_neg hjal]
  | some there => rfl

theorem step_goto (body rest : List Line) (hi : i.isBranch) (hslot : slot.isBranch = false) (hjr : i.opcode ≠ .jr)
    (hjal : i.opcode ≠ .jal) (hx : i.target? = some x) (s : MachineState Value Memory) :
    M.step body (.running (.op i :: .op slot :: rest) s) = ([.executed slot, .branched i (M.takes i s) (M.exec slot s)],
          if M.takes i s then goto body x (M.exec slot s) else .running rest (M.exec slot s)) := by
  rw [M.step_branch _ _ _ hi hslot]
  unfold branch linked
  dsimp only
  split
  · rw [M.transfer_goto body rest hjr hjal hx]
    rfl
  · rfl

theorem step_conditional (body rest : List Line)
    (hi : i.opcode.isConditional) (hslot : slot.isBranch = false) (hx : i.target? = some x)
    (s : MachineState Value Memory) : M.step body (.running (.op i :: .op slot :: rest) s)
      = ([.executed slot, .branched i (M.takes i s) (M.exec slot s)],
          if M.takes i s then goto body x (M.exec slot s) else .running rest (M.exec slot s)) := by
  refine M.step_goto body rest (isBranch_of_isConditional hi) hslot ?_ ?_ hx s
  · intro h
    rw [h] at hi
    cases hi
  · intro h
    rw [h] at hi
    cases hi

theorem takes_leaving (h : (Line.op i).isLeaving) (s : MachineState Value Memory) : M.takes i s := by
  have ho : i.opcode = .j ∨ i.opcode = .jr := by simpa [Line.isLeaving, Line.opcode?, Line.instruction?] using h
  unfold takes
  rcases ho with ho | ho <;> rw [ho]

theorem takes_jump (h : i.opcode = .j) (s : MachineState Value Memory) : M.takes i s := by
  unfold takes
  rw [h]

theorem step_jump (body rest : List Line) (hi : i.opcode = .j)
    (hslot : slot.isNop) (hx : i.target? = some x) (s : MachineState Value Memory) :
    M.step body (.running (.op i :: .op slot :: rest) s) = ([.executed slot, .branched i true s], goto body x s) := by
  have hbranch : i.isBranch := by rw [isBranch, hi]; rfl
  rw [M.step_goto body rest hbranch (isBranch_of_isNop hslot) (by rw [hi]; decide)
    (by rw [hi]; decide) hx, M.takes_jump hi, M.exec_nop hslot]
  rfl

end Machine

/-- Control in the two bodies: at lines that come from each other, or outside in the same way. -/
inductive Meets {Value Memory : Type} (site : String → String) (new old : List Line) :
    Control Value Memory → Control Value Memory → Prop
  | running {a b : List Line} {s t : MachineState Value Memory} (h : Shortens site new old a b)
      (ha : a <:+ new) (hb : b <:+ old) (hs : Agrees b s t) :
      Meets site new old (.running a s) (.running b t)
  | left (e : Exit Value) {s t : MachineState Value Memory}
      (h : AgreeBut .scratch s t) : Meets site new old (.left e s) (.left e t)

/-- The longer body, from where control is, does some deeds and comes to a place that meets `c`. -/
def Catches {Value Memory : Type} (M : Machine Value Memory) (site : String → String)
    (body new old : List Line) (did : List Deed) (c d : Control Value Memory) : Prop :=
  ∃ k, Padded (IsScratchLoad site body) did (deeds site (M.run old k d).1) ∧ Meets site new old c (M.run old k d).2

section
variable {c d : Control Value Memory} {did : List Deed}

theorem Meets.catches (h : Meets site new old c d) : Catches M site body new old [] c d := ⟨0, .nil, h⟩

theorem Catches.step (h : Catches M site body new old did c (M.step old d).2) :
    ∃ k, Padded (IsScratchLoad site body) (deeds site (M.step old d).1 ++ did)
        (deeds site (M.run old (k + 1) d).1) ∧ Meets site new old c (M.run old (k + 1) d).2 := by
  obtain ⟨k, hpadded, hmeets⟩ := h
  refine ⟨k, ?_, ?_⟩
  · rw [M.run_succ, deeds_append]
    exact (Padded.refl _ _).append hpadded
  · exact hmeets

theorem Catches.after (h : Catches M site body new old did c (M.step old d).2) :
    Catches M site body new old (deeds site (M.step old d).1 ++ did) c d := by
  obtain ⟨k, hpadded, hmeets⟩ := h.step
  exact ⟨k + 1, hpadded, hmeets⟩

theorem Catches.silent (hstep : deeds site (M.step old d).1 = [])
    (h : Catches M site body new old did c (M.step old d).2) : Catches M site body new old did c d := by
  have hafter := h.after
  rw [hstep] at hafter
  exact hafter

variable {y : String}

theorem leave_catches (hM : M.Faithful site) (hjal : i.opcode = .jal) (hjal' : i'.opcode = .jal)
    (name : String) (hab : Shortens site new old a b) (ha : a <:+ new) (hb : b <:+ old)
    (h : Agrees b s t) : deeds site (M.leave i name a s).1 = deeds site (M.leave i' name b t).1 ∧
      Catches M site body new old [] (M.leave i name a s).2 (M.leave i' name b t).2 := by
  have hrel := hM.callee_agrees name h
  unfold leave
  rw [if_pos hjal, if_pos hjal']
  generalize M.callee name s = x at hrel ⊢
  generalize M.callee name t = y at hrel ⊢
  cases hrel with
  | none => exact ⟨rfl, (Meets.left _ h.agreeBut).catches⟩
  | some hback => exact ⟨rfl, (Meets.running hab ha hb hback).catches⟩

variable (hw : WellFormed site body old)
include hw

theorem catches_of_lands (h : Lands old y x) (t : MachineState Value Memory)
    (hend : Catches M site body new old did c (goto old x t)) :
    Catches M site body new old did c (goto old y t) := by
  induction h with
  | here => exact hend
  | @pass name next target rest hname _ ih =>
    have hnext : locate next old = some (.label next :: rest) :=
      locate_of_suffix hw.distinct ((suffix_cons _ _).trans (locate_suffix hname))
    have hgoto : goto old next t = .running (.label next :: rest) t := by rw [goto, hnext]
    rw [goto, hname]
    refine Catches.silent ?_ ?_
    · rfl
    · rw [M.step_label, ← hgoto]
      exact ih hend
  | @hop name next target jump slot rest hname hjump hslot hnext _ ih =>
    rw [goto, hname]
    refine Catches.silent ?_ (Catches.silent ?_ ?_)
    · rfl
    · rw [M.step_label, M.step_jump old rest hjump hslot hnext, deeds_nop site _ hslot]
      rfl
    · rw [M.step_label, M.step_jump old rest hjump hslot hnext]
      exact ih hend

variable (hnew : Shortens site new old new old)
include hnew

theorem goto_meets (hi : .op i ∈ new) (hx : i.target? = some x) (h : AgreeBut .scratch s t) :
    Meets site new old (goto new x s) (goto old x t) := by
  unfold goto
  cases hthere : locate x new with
  | none =>
    have hold : locate x old = none := by
      rw [locate_eq_none] at hthere ⊢
      exact fun hmem => hthere (hnew.mem_labels hi hx hmem)
    rw [hold]
    exact .left _ h
  | some there =>
    obtain ⟨a, rfl⟩ := locate_eq_label hthere
    obtain ⟨b, hb, hshort⟩ := hnew.locate_label hw.distinct hthere
    rw [hb]
    exact .running (.label x hshort) (locate_suffix hthere) (locate_suffix hb) (Agrees.at_label x b h)

theorem goto_catches (hi : .op i ∈ new) (hx : i.target? = some x) (hlands : Lands old y x) (h : AgreeBut .scratch s t) :
    Catches M site body new old [] (goto new x s) (goto old y t) :=
  catches_of_lands hw hlands t (goto_meets hw hnew hi hx h).catches

variable (hM : M.Faithful site)
include hM

theorem transfer_catches (hi : .op i ∈ new) (hi' : .op i' ∈ old) (hto : Redirects site old i i')
    (address : Option Value) (h : AgreeBut .scratch s t)
    (hback : i.opcode = .jal → Shortens site new old a b ∧ a <:+ new ∧ b <:+ old ∧ Agrees b s t) :
    deeds site (M.transfer new i address a s).1 = deeds site (M.transfer old i' address b t).1 ∧
      Catches M site body new old [] (M.transfer new i address a s).2 (M.transfer old i' address b t).2 := by
  have ho := SameUpTo.opcode hto.shape
  by_cases hjr : i.opcode = .jr
  · unfold transfer
    rw [if_pos hjr, if_pos (ho.symm.trans hjr)]
    exact ⟨rfl, (Meets.left _ h).catches⟩
  have hjr' : i'.opcode ≠ .jr := by rwa [← ho]
  rcases hto.target_cases with ⟨hx, hy⟩ | ⟨x, y, hx, hy, hlands⟩
  · unfold transfer
    rw [if_neg hjr, if_neg hjr', hx, hy]
    exact ⟨rfl, (Meets.left _ h).catches⟩
  by_cases hjal : i.opcode = .jal
  · -- A call goes outside in both bodies, so nothing stands between the two targets.
    have hjal' : i'.opcode = .jal := ho.symm.trans hjal
    have hout := hw.callsOutside i' hi' hjal' y hy
    obtain rfl := hlands.eq_of_not_mem hout
    have hnone : locate x old = none := locate_eq_none.mpr hout
    have hnone' : locate x new = none := locate_eq_none.mpr fun hmem => hout (hnew.labels_sublist.subset hmem)
    obtain ⟨hab, ha, hb, hs⟩ := hback hjal
    unfold transfer
    rw [if_neg hjr, if_neg hjr', hx, hy]
    dsimp only
    rw [hnone, hnone']
    exact leave_catches hM hjal hjal' x hab ha hb hs
  · have hjal' : i'.opcode ≠ .jal := by rwa [← ho]
    rw [M.transfer_goto new a hjr hjal hx, M.transfer_goto old b hjr' hjal' hy]
    exact ⟨rfl, goto_catches hw hnew hi hx hlands h⟩

end

/-- One step of the shorter body is matched by one or more of the longer. -/
def Advances {Value Memory : Type} (M : Machine Value Memory) (site : String → String)
    (body new old a b : List Line) (s t : MachineState Value Memory) : Prop :=
  ∃ k, Padded (IsScratchLoad site body) (deeds site (M.step new (.running a s)).1)
      (deeds site (M.run old (k + 1) (.running b t)).1) ∧
    Meets site new old (M.step new (.running a s)).2 (M.run old (k + 1) (.running b t)).2

section

theorem advances_of_catches (did : List Deed) (hdeeds : deeds site (M.step new (.running a s)).1
      = deeds site (M.step old (.running b t)).1 ++ did)
    (h : Catches M site body new old did (M.step new (.running a s)).2
      (M.step old (.running b t)).2) : Advances M site body new old a b s t := by
  obtain ⟨k, hpadded, hmeets⟩ := h.step
  rw [← hdeeds] at hpadded
  exact ⟨k, hpadded, hmeets⟩

variable {events : List (Event Value Memory)}

theorem Advances.later {b'} (hstep : M.step old (.running b t) = (events, .running b' t))
    (hevents : deeds site events = []) (h : Advances M site body new old a b' s t) :
    Advances M site body new old a b s t := by
  obtain ⟨k, hpadded, hmeets⟩ := h
  refine ⟨k + 1, ?_, ?_⟩
  · rw [M.run_succ, hstep, deeds_append, hevents]
    exact hpadded
  · rw [M.run_succ, hstep]
    exact hmeets

variable (hw : WellFormed site body old)
include hw
variable {branch jump jumpSlot turned : Instruction} {after target : String}

theorem step_skips (between : List Line) (hskip : Skips branch slot jump jumpSlot turned after target)
    (hb : .label after :: b <:+ old) (t : MachineState Value Memory) :
    deeds site (M.step old (.running (.op branch :: .op slot :: between) t)).1 = [] ∧
      (M.step old (.running (.op branch :: .op slot :: between) t)).2
        = if M.takes branch t then .running (.label after :: b) t else .running between t := by
  have hcond := isConditional_of_negated? hskip.turned.negated
  have hplain := isBranch_of_isNop hskip.slotEmpty
  rw [M.step_conditional old between hcond hplain hskip.skips, M.exec_nop hskip.slotEmpty]
  refine ⟨?_, ?_⟩
  · rw [deeds_nop site _ hskip.slotEmpty]
    rfl
  · rw [goto, locate_of_suffix hw.distinct hb]

variable (hnew : Shortens site new old new old)
include hnew

theorem jump_catches (hskip : Skips branch slot jump jumpSlot turned after target) (hturned : .op turned ∈ new)
    (h : AgreeBut .scratch s t) (rest : List Line) :
    Catches M site body new old [] (goto new target s) (.running (.op jump :: .op jumpSlot :: rest) t) := by
  have hjump := M.step_jump old rest hskip.jumps hskip.jumpSlotEmpty hskip.takes t
  refine Catches.silent ?_ ?_
  · rw [hjump, deeds_nop site _ hskip.jumpSlotEmpty]
    rfl
  · rw [hjump]
    exact goto_catches hw hnew hturned hskip.turned.target (.here _) h

theorem turn_advances (hskip : Skips branch slot jump jumpSlot turned after target)
    (h : Shortens site new old a (.label after :: b)) (ha : .op turned :: .op .nop :: a <:+ new)
    (hb : .op branch :: .op slot :: .op jump :: .op jumpSlot :: .label after :: b <:+ old)
    (hs : Agrees (.op branch :: .op slot :: .op jump :: .op jumpSlot :: .label after :: b) s t) :
    Advances M site body new old (.op turned :: .op .nop :: a)
      (.op branch :: .op slot :: .op jump :: .op jumpSlot :: .label after :: b) s t := by
  have hafter : .label after :: b <:+ old := (suffix_append [_, _, _, _] _).trans hb
  have hnop : nop.isNop := rfl
  have htakes : M.takes turned s = !M.takes branch t := by
    rw [hskip.turned.takes M, M.takes_congr hs.reads hs.constants]
  obtain ⟨hsilent, hold⟩ := step_skips (M := M) hw (.op jump :: .op jumpSlot :: .label after :: b) hskip hafter t
  refine advances_of_catches [] ?_ ?_
  · rw [hsilent, M.step_conditional new a hskip.turned.isConditional rfl hskip.turned.target]
    rfl
  · rw [hold, M.step_conditional new a hskip.turned.isConditional rfl hskip.turned.target, M.exec_nop hnop, htakes]
    cases M.takes branch t with
    | true =>
      exact (Meets.running h ((suffix_append [_, _] _).trans ha) hafter (Agrees.at_label after b hs.agreeBut)).catches
    | false => exact jump_catches hw hnew hskip (ha.subset (.head _)) hs.agreeBut _

variable (hM : M.Faithful site)
include hM

section
variable {dead : List Line} (hi : i.isBranch)
  (hslot : slot.isBranch = false) (hto : Redirects site old i i') (hsame : slot.SameUpTo site slot')
  (hleave : dead ≠ [] → (Line.op i').isLeaving) (h : Shortens site new old a b)
  (ha : .op i :: .op slot :: a <:+ new) (hb : .op i' :: .op slot' :: (dead ++ b) <:+ old)
  (hs : Agrees (.op i' :: .op slot' :: (dead ++ b)) s t)
include hi hslot hto hsame hleave h ha hb hs

theorem branch_catches : deeds site (M.branch new i slot a s).1 = deeds site (M.branch old i' slot' (dead ++ b) t).1 ∧
      Catches M site body new old [] (M.branch new i slot a s).2 (M.branch old i' slot' (dead ++ b) t).2 := by
  have hi' : i'.isBranch := by rw [← SameUpTo.isBranch hto.shape]; exact hi
  have htakes : M.takes i s = M.takes i' t := by rw [M.takes_shape hto.shape, M.takes_congr hs.reads hs.constants]
  obtain ⟨hagree, hstays⟩ := hM.slot_agrees hi' (SameUpTo.opcode hto.shape)
    (fun hjal => hM.link_site i i' (hto.call hjal)) hslot hsame hs
  -- Where control comes behind the slot, nothing has been cut off there.
  have hbehind (hstay : (Line.op i').isLeaving = false) :
      Shortens site new old a (dead ++ b) ∧ a <:+ new ∧ dead ++ b <:+ old ∧
        Agrees (dead ++ b) (M.exec slot (M.linked i s)) (M.exec slot' (M.linked i' t)) := by
    have hdead : dead = [] := by
      refine Decidable.byContradiction fun hne => ?_
      rw [hleave hne] at hstay
      cases hstay
    refine ⟨?_, (suffix_append [_, _] _).trans ha, (suffix_append [_, _] _).trans hb, hstays hstay⟩
    rw [hdead]
    exact h
  unfold branch
  rw [htakes]
  by_cases htaken : M.takes i' t
  · rw [if_pos htaken, if_pos htaken]
    have haddress : i'.opcode = .jr → operand? i' 0 t = operand? i 0 s := fun hjr => by
      rw [operand?_shape hto.shape, operand?_congr_jr hjr hs.reads hs.constants]
    have hcall : i.opcode = .jal → (Line.op i').isLeaving = false := fun hjal => by
      rw [← Line.isLeaving_congr (SameUpTo.opcode hto.shape)]
      simp [Line.isLeaving, Line.opcode?, Line.instruction?, hjal]
    obtain ⟨hdeeds, hcatches⟩ := transfer_catches hw hnew hM (ha.subset (.head _))
      (hb.subset (.head _)) hto (operand? i 0 s) hagree fun hjal =>
        hbehind (hcall hjal)
    rw [M.transfer_address old haddress]
    refine ⟨?_, hcatches⟩
    rw [deeds_append, deeds_append, hdeeds, deeds_same site hsame]
    rfl
  · rw [if_neg htaken, if_neg htaken, deeds_same site hsame]
    refine ⟨rfl, ?_⟩
    have hstay : (Line.op i').isLeaving = false := by
      rw [Bool.eq_false_iff]
      exact fun hleaving => htaken (M.takes_leaving hleaving t)
    obtain ⟨hab, ha, hb, hs⟩ := hbehind hstay
    exact (Meets.running hab ha hb hs).catches

theorem branch_advances :
    Advances M site body new old (.op i :: .op slot :: a) (.op i' :: .op slot' :: (dead ++ b)) s t := by
  have hi' : i'.isBranch := by rw [← SameUpTo.isBranch hto.shape]; exact hi
  have hslot' : slot'.isBranch = false := by rw [← hsame.isBranch]; exact hslot
  obtain ⟨hdeeds, hcatches⟩ := branch_catches hw hnew hM hi hslot hto hsame hleave h ha hb hs
  refine advances_of_catches [] ?_ ?_
  · rw [M.step_branch new a s hi hslot, M.step_branch old (dead ++ b) t hi' hslot', hdeeds, append_nil]
  · rw [M.step_branch new a s hi hslot, M.step_branch old (dead ++ b) t hi' hslot']
    exact hcatches

end

/-- A branch around a failed assertion that is turned round.  Where the assertion holds, its code is
loaded in the slot and never used. -/
theorem assert_advances {code}
    (hskip : Skips branch slot jump jumpSlot turned after target) (hcode : code.isScratchLoad)
    (h : Shortens site new old a (.label after :: b)) (ha : .op turned :: .op code :: a <:+ new)
    (hb : .op branch :: .op slot :: .op code :: .op jump :: .op jumpSlot :: .label after :: b <:+ old)
    (hs : Agrees (.op branch :: .op slot :: .op code :: .op jump :: .op jumpSlot :: .label after :: b) s t) :
    Advances M site body new old (.op turned :: .op code :: a)
      (.op branch :: .op slot :: .op code :: .op jump :: .op jumpSlot :: .label after :: b) s t := by
  have hafter : .label after :: b <:+ old := (suffix_append [_, _, _, _, _] _).trans hb
  have hplain := isBranch_of_isScratchLoad hcode
  have hnop := isNop_of_isScratchLoad hcode
  have htakes : M.takes turned s = !M.takes branch t := by
    rw [hskip.turned.takes M, M.takes_congr hs.reads hs.constants]
  obtain ⟨hsilent, hold⟩ := step_skips (M := M) hw
    (.op code :: .op jump :: .op jumpSlot :: .label after :: b) hskip hafter t
  refine advances_of_catches [.execute (code.mapSymbols site)] ?_ ?_
  · rw [hsilent, M.step_conditional new a hskip.turned.isConditional hplain hskip.turned.target,
      deeds_executed site _ hnop]
    rfl
  · rw [hold, M.step_conditional new a hskip.turned.isConditional hplain hskip.turned.target, htakes]
    cases M.takes branch t with
    | true =>
      obtain ⟨j, hj, hsame⟩ := hw.origin code (hb.subset (by simp)) hplain hnop
      have hextra : IsScratchLoad site body (.execute (code.mapSymbols site)) :=
        ⟨j, hj, by rw [← hsame.isScratchLoad]; exact hcode, congrArg Deed.execute hsame⟩
      have hagree := (M.exec_scratchLoad hcode s).trans hs.agreeBut
      exact ⟨0, .insert hextra .nil, .running h ((suffix_append [_, _] _).trans ha) hafter
        (Agrees.at_label after b hagree)⟩
    | false =>
      have hload := M.step_plain old (.op jump :: .op jumpSlot :: .label after :: b) t hplain
      have hagree : AgreeBut .scratch (M.exec code s) (M.exec code t) := by
        rcases hM.exec_scratch hplain (by simp [reads_of_isScratchLoad hcode]) hs.agreeBut with heq | ⟨hagree, -⟩
        · rw [heq]
          exact .refl _ _
        · exact hagree
      have hend : Catches M site body new old [] (goto new target (M.exec code s))
          (M.step old (.running (.op code :: .op jump :: .op jumpSlot :: .label after :: b) t)).2 := by
        rw [hload]
        exact jump_catches hw hnew hskip (ha.subset (.head _)) hagree _
      have hwhole := hend.after
      rw [hload, deeds_executed site _ hnop] at hwhole
      exact hwhole

/-- **Each step of the shorter body** is matched in the longer one. -/
theorem Shortens.advances (h : Shortens site new old a b) (ha : a <:+ new) (hb : b <:+ old)
    (hs : Agrees b s t) : Advances M site body new old a b s t := by
  induction h with
  | nil =>
    refine advances_of_catches [] rfl ?_
    exact (Meets.left _ hs.agreeBut).catches
  | label name h _ =>
    refine advances_of_catches [] rfl ?_
    exact (Meets.running h ((suffix_cons _ _).trans ha) ((suffix_cons _ _).trans hb) (hs.behind_label hw hb)).catches
  | comment c h _ =>
    refine advances_of_catches [] rfl ?_
    exact (Meets.running h ((suffix_cons _ _).trans ha) ((suffix_cons _ _).trans hb) hs.behind_comment).catches
  | dropLabel _ _ ih =>
    refine Advances.later (M.step_label old _ t _) rfl ?_
    exact ih ha ((suffix_cons _ _).trans hb) (hs.behind_label hw hb)
  | dropComment c _ ih =>
    refine Advances.later (M.step_comment old _ t c) rfl ?_
    exact ih ha ((suffix_cons _ _).trans hb) hs.behind_comment
  | plain hi hsame h _ =>
    have hi' := hi
    rw [hsame.isBranch] at hi'
    refine advances_of_catches [] ?_ ?_
    · rw [M.step_plain new _ s hi, M.step_plain old _ t hi', deeds_same site hsame, append_nil]
    · rw [M.step_plain new _ s hi, M.step_plain old _ t hi']
      exact (Meets.running h ((suffix_cons _ _).trans ha) ((suffix_cons _ _).trans hb)
        (hM.exec_agrees hi hsame hs)).catches
  | branch dead hi hslot hto hsame _ hleave h _ => exact branch_advances hw hnew hM hi hslot hto hsame hleave h ha hb hs
  | turn hskip h _ => exact turn_advances hw hnew hskip h ha hb hs
  | assert hskip hcode h _ => exact assert_advances hw hnew hM hskip hcode h ha hb hs

theorem Shortens.simulation : M.Simulation (fun x y => Padded (IsScratchLoad site body) (deeds site x) (deeds site y))
      (Meets site new old) new old where
  nil := .nil
  append := by
    intro x y x' y' h h'
    rw [deeds_append, deeds_append]
    exact h.append h'
  left := by
    intro e s d h
    cases h with
    | left => exact ⟨e, _, rfl⟩
  step := by
    intro rest s d h
    cases h with
    | running h ha hb hs => exact Shortens.advances hw hnew hM h ha hb hs

end

/-- From the top, in a state, the new body does the work of the old one: the same deeds in the same order,
except that the code of an assertion may be loaded without need, and the same way out, with the same state
but for the scratch register.  A run that never ends does so in both, since no stage of it corresponds to
an earlier stage of the old run. -/
structure Machine.SameWork {Value Memory : Type} (M : Machine Value Memory) (site : String → String)
    (body new old : List Line) (s : MachineState Value Memory) : Prop where
  ends : ∀ n e t, (M.run new n (.running new s)).2 = .left e t →
    ∃ m t', (M.run old m (.running old s)).2 = .left e t' ∧ AgreeBut .scratch t t' ∧
      Padded (IsScratchLoad site body) (deeds site (M.run new n (.running new s)).1)
        (deeds site (M.run old m (.running old s)).1)
  ended : ∀ m e t', (M.run old m (.running old s)).2 = .left e t' →
    ∃ n t, (M.run new n (.running new s)).2 = .left e t ∧ AgreeBut .scratch t t' ∧
      Padded (IsScratchLoad site body) (deeds site (M.run new n (.running new s)).1)
        (deeds site (M.run old m (.running old s)).1)
  goes : ∀ n, ∃ m, n ≤ m ∧ Padded (IsScratchLoad site body) (deeds site (M.run new n (.running new s)).1)
      (deeds site (M.run old m (.running old s)).1)

namespace Machine.SameWork

variable {older : List Line}

theorem refl (M : Machine Value Memory) (site : String → String) (body old : List Line)
    (s : MachineState Value Memory) : M.SameWork site body old old s where
  ends := fun n _ t h => ⟨n, t, h, .refl _ t, .refl _ _⟩
  ended := fun n _ t h => ⟨n, t, h, .refl _ t, .refl _ _⟩
  goes := fun n => ⟨n, Nat.le_refl n, .refl _ _⟩

theorem trans (h : M.SameWork site body new old s) (h' : M.SameWork site body old older s) :
    M.SameWork site body new older s where
  ends := by
    intro n e t hn
    obtain ⟨m, t', hm, hagree, hpadded⟩ := h.ends n e t hn
    obtain ⟨k, t'', hk, hagree', hpadded'⟩ := h'.ends m e t' hm
    exact ⟨k, t'', hk, hagree.trans hagree', hpadded.trans hpadded'⟩
  ended := by
    intro k e t'' hk
    obtain ⟨m, t', hm, hagree', hpadded'⟩ := h'.ended k e t'' hk
    obtain ⟨n, t, hn, hagree, hpadded⟩ := h.ended m e t' hm
    exact ⟨n, t, hn, hagree.trans hagree', hpadded.trans hpadded'⟩
  goes := by
    intro n
    obtain ⟨m, hm, hpadded⟩ := h.goes n
    obtain ⟨k, hk, hpadded'⟩ := h'.goes m
    exact ⟨k, by omega, hpadded.trans hpadded'⟩

end Machine.SameWork

/-- **A shorter body does the same work.** -/
theorem Shortens.sameWork (h : Shortens site new old new old) (hw : WellFormed site body old) (hM : M.Faithful site)
    (s : MachineState Value Memory) : M.SameWork site body new old s := by
  have hstart : Meets site new old (.running new s) (.running old s) :=
    .running h (suffix_refl _) (suffix_refl _) (Or.inl rfl)
  have hfollows := (Shortens.simulation hw h hM).follows hstart
  refine ⟨?_, ?_, ?_⟩
  · intro n e t hn
    obtain ⟨m, hpadded, hmeets⟩ := hfollows.left_old hn
    generalize hd : (M.run old m (.running old s)).2 = d at hmeets
    cases hmeets with
    | left _ hagree => exact ⟨m, _, hd, hagree, hpadded⟩
  · intro m e t' hm
    obtain ⟨hpadded, hmeets⟩ := hfollows.left_new hm
    generalize hc : (M.run new m (.running new s)).2 = c at hmeets
    cases hmeets with
    | left _ hagree => exact ⟨m, _, hc, hagree, hpadded⟩
  · intro n
    obtain ⟨m, hm, hpadded, -⟩ := hfollows n
    exact ⟨m, hm, hpadded⟩

end Microcode
