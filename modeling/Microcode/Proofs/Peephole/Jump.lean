import Microcode.Peephole.JumpChain
import Microcode.Peephole.Label
import Microcode.Peephole.Tail
import Microcode.Proofs.Result
import Microcode.Proofs.ShorterRuns

/-!
Passes over branches, jumps and dead code shorten.

Each proof follows the recursion of the pass, line by line, with a step of its own only where the pass
changes something: a comment left out, a branch turned round, a branch sent on to the end of a chain, or
instructions behind a jump cut off.
-/

namespace Microcode

open Instruction Bool

variable {first new old lines before rest body a b lines' tail out : List Line}
  {i slot branch jump jumpSlot turned i' slot' code : Instruction} {name after target : String}
  {isCommand afterBranch : Bool} {e : Edited}

open List

section
variable {site : String → String}

theorem Shortens.redirect (hi : i.isBranch)
    (hslot : slot.isBranch = false) (hto : Redirects site old i i') (hsame : slot.SameUpTo site slot')
    (h : Shortens site new old a b) :
    Shortens site new old (.op i :: .op slot :: a) (.op i' :: .op slot' :: b) :=
  .branch [] hi hslot hto hsame (by simp) (fun hne => absurd rfl hne) h

variable {l : Line}

theorem Shortens.cons (hs : Slotted (l :: b))
    (h : Shortens site new old a b) : Shortens site new old (l :: a) (l :: b) := by
  cases hs with
  | label name _ => exact .label name h
  | comment c _ => exact .comment c h
  | plain hi _ => exact .plain hi (.refl site _) h
  | branch hi hslot _ _ =>
    -- The slot is no branch, so it has been taken over as well.
    cases h with
    | plain hslot hsame h => exact .redirect hi hslot (.refl site old _) hsame h
    | branch _ hi' _ hto _ _ _ _ =>
      rw [SameUpTo.isBranch hto.shape, hslot] at hi'
      cases hi'
    | turn hskip _ | assert hskip _ _ =>
      rw [isBranch_of_isConditional (isConditional_of_negated? hskip.turned.negated)] at hslot
      cases hslot

theorem stripComments_shortens (hs : Slotted lines) : Shortens site new old (stripComments lines).lines lines := by
  induction lines with
  | nil => exact .nil
  | cons l rest ih =>
    have hrest := ih hs.tail
    cases l with
    | comment c => exact .dropComment c hrest
    | op i | label name | raw t => exact hrest.cons hs

/-! ### Branches around jumps -/

/-- What merging makes of lines that are still ahead, given those behind, last line first: a line is kept,
or a branch around a jump is turned round, and the label behind it goes if nothing names it any more. -/
inductive MergesJumps (isCommand : Bool) : List Line → List Line → List Line → Prop
  | nil {before : List Line} : MergesJumps isCommand before [] []
  | keep {before tail new : List Line} (l : Line) (h : MergesJumps isCommand (l :: before) tail new) :
      MergesJumps isCommand before (l :: tail) (l :: new)
  | turn {before tail new : List Line} {branch slot jump jumpSlot turned : Instruction} {after target : String}
      (hskip : skipsJump branch slot jump jumpSlot after isCommand)
      (htarget : jump.target? = some target) (hturned : branch.turned? target = some turned)
      (h : MergesJumps isCommand (.op (mergedSlot jump after) :: .op turned :: before) (.label after :: tail) new) :
      MergesJumps isCommand before (.op branch :: .op slot :: .op jump :: .op jumpSlot :: .label after :: tail)
        (.op turned :: .op (mergedSlot jump after) :: new)
  | turnDrop {before tail new : List Line} {branch slot jump jumpSlot turned : Instruction}
      {after target : String} (hskip : skipsJump branch slot jump jumpSlot after isCommand)
      (htarget : jump.target? = some target) (hturned : branch.turned? target = some turned)
      (hunnamed : ¬(Line.op (mergedSlot jump after) :: .op turned :: before ++ tail).any (·.refersTo after))
      (h : MergesJumps isCommand (.op (mergedSlot jump after) :: .op turned :: before) tail new) :
      MergesJumps isCommand before (.op branch :: .op slot :: .op jump :: .op jumpSlot :: .label after :: tail)
        (.op turned :: .op (mergedSlot jump after) :: new)

theorem mergeJumpsFrom_merges (isCommand : Bool) (before rest : List Line) (count : Nat) :
    ∃ e new, mergeJumpsFrom isCommand before rest count = .ok e ∧ e.lines = before.reverse ++ new ∧
      MergesJumps isCommand before rest new := by
  fun_induction mergeJumpsFrom isCommand before rest count with
  | case1 before count => exact ⟨_, [], rfl, by simp, .nil⟩
  | case2 before count branch slot jump jumpSlot after tail target htarget hskip hnone =>
    simp only [skipsJump, and_eq_true] at hskip
    obtain ⟨turned, hturned⟩ := turned?_isSome hskip.1.1.1.1.1.1 target
    exact absurd (hnone.symm.trans hturned) (by simp)
  | case3 before count branch slot jump jumpSlot after tail target htarget hskip turned hturned merged hrefers ih =>
    obtain ⟨e, new, hok, hlines, hnew⟩ := ih
    exact ⟨e, _, hok, by simp [hlines, merged], .turn hskip htarget hturned hnew⟩
  | case4 before count branch slot jump jumpSlot after tail target htarget hskip turned hturned merged hrefers ih =>
    obtain ⟨e, new, hok, hlines, hnew⟩ := ih
    exact ⟨e, _, hok, by simp [hlines, merged], .turnDrop hskip htarget hturned hrefers hnew⟩
  | case5 before count branch slot jump jumpSlot after tail target htarget hskip ih
  | case6 before count branch slot jump jumpSlot after tail htarget ih =>
    obtain ⟨e, new, hok, hlines, hnew⟩ := ih
    exact ⟨e, _, hok, by simp [hlines], .keep _ hnew⟩
  | case7 before count l tail hl ih =>
    obtain ⟨e, new, hok, hlines, hnew⟩ := ih
    exact ⟨e, _, hok, by simp [hlines], .keep l hnew⟩

/-- **Merging jumps** succeeds, and does what the relation says. -/
theorem mergeJumps_merges (isCommand : Bool) (lines : List Line) :
    ∃ e, mergeJumps isCommand lines = .ok e ∧ MergesJumps isCommand [] lines e.lines := by
  obtain ⟨e, new, hok, rfl, hnew⟩ := mergeJumpsFrom_merges isCommand [] lines 0
  exact ⟨e, hok, hnew⟩

theorem mergesJumps_of_ok (h : mergeJumps isCommand lines = .ok e) : MergesJumps isCommand [] lines e.lines := by
  obtain ⟨e', hok, hmerges⟩ := mergeJumps_merges isCommand lines
  rwa [Except.ok.inj (h.symm.trans hok)]

def Aimed (name : String) (lines : List Line) : Prop := ∃ i, .op i ∈ lines ∧ i.target? = some name

theorem Aimed.mono (h : Aimed name lines) (hsub : ∀ l ∈ lines, l ∈ lines') : Aimed name lines' := by
  obtain ⟨i, hi, hname⟩ := h
  exact ⟨i, hsub _ hi, hname⟩

theorem Aimed.refersTo (h : Aimed name lines) : lines.any (·.refersTo name) := by
  obtain ⟨i, hi, hname⟩ := h
  rw [any_eq_true]
  refine ⟨.op i, hi, ?_⟩
  have hlast := mem_of_getLast? (target?_eq_some.mp hname).2
  show i.args.any (·.symbol? == some name)
  rw [any_eq_true]
  exact ⟨_, hlast, by simp [Arg.symbol?]⟩

theorem skips_of_skipsJump
    (h : skipsJump branch slot jump jumpSlot after false = true) (htarget : jump.target? = some target)
    (hturned : branch.turned? target = some turned) : Skips branch slot jump jumpSlot turned after target := by
  simp only [skipsJump, Bool.and_eq_true, Bool.or_eq_true, beq_iff_eq, Bool.and_false] at h
  obtain ⟨⟨⟨⟨⟨⟨-, hjump⟩, hslot⟩, hjumpSlot⟩, hafter⟩, -⟩, -⟩ := h
  refine ⟨hslot, by simpa using hjump, hjumpSlot, hafter, htarget, ?_⟩
  exact turns_of_turned? hturned hafter

theorem Skips.aimed (h : Skips branch slot jump jumpSlot turned after target)
    (hname : Aimed name (.op .nop :: .op turned :: before ++ tail)) :
    Aimed name (before ++ .op branch :: .op slot :: .op jump :: .op jumpSlot :: tail) := by
  obtain ⟨i, hi, hname⟩ := hname
  rcases mem_cons.mp hi with heq | hi
  · cases heq
    cases hname
  rcases mem_cons.mp hi with heq | hi
  · cases heq
    refine ⟨jump, by simp, ?_⟩
    rw [h.takes, ← h.turned.target]
    exact hname
  · refine ⟨i, ?_, hname⟩
    rcases mem_append.mp hi with hi | hi
    · exact mem_append_left _ hi
    · simp [hi]

theorem mergedSlot_of_skips
    (h : Skips branch slot jump jumpSlot turned after target) : mergedSlot jump after = .nop := by
  unfold mergedSlot
  rw [h.jumps, if_neg (by decide)]

theorem MergesJumps.aimed (h : MergesJumps false before rest new)
    (hname : Aimed name (before ++ new)) : Aimed name (before ++ rest) := by
  induction h with
  | nil => exact hname
  | keep l _ ih => exact (ih (hname.mono (by grind))).mono (by grind)
  | turn hskip htarget hturned _ ih =>
    have hskips := skips_of_skipsJump hskip htarget hturned
    rw [mergedSlot_of_skips hskips] at ih hname
    exact hskips.aimed (ih (hname.mono (by grind)))
  | turnDrop hskip htarget hturned _ _ ih =>
    have hskips := skips_of_skipsJump hskip htarget hturned
    rw [mergedSlot_of_skips hskips] at ih hname
    exact hskips.aimed ((ih (hname.mono (by grind))).mono (by grind))

theorem MergesJumps.shortens (h : MergesJumps false before rest lines)
    (hs : Slotted rest) (hnew : ∀ name, Aimed name new → Aimed name (before ++ lines)) :
    Shortens site new old lines rest := by
  induction h with
  | nil => exact .nil
  | keep l _ ih => exact (ih hs.tail fun name hname => (hnew name hname).mono (by grind)).cons hs
  | turn hskip htarget hturned _ ih =>
    have hskips := skips_of_skipsJump hskip htarget hturned
    rw [mergedSlot_of_skips hskips] at ih hnew ⊢
    exact .turn hskips (ih hs.tail.tail.tail.tail fun name hname => (hnew name hname).mono (by grind))
  | turnDrop hskip htarget hturned hunnamed h ih =>
    have hskips := skips_of_skipsJump hskip htarget hturned
    rw [mergedSlot_of_skips hskips] at h ih hnew hunnamed ⊢
    refine .turn hskips (.dropLabel (fun i hi htarget => ?_)
      (ih hs.tail.tail.tail.tail.tail fun name hname => (hnew name hname).mono (by grind)))
    exact hunnamed (h.aimed ((hnew _ ⟨i, hi, htarget⟩).mono (by grind))).refersTo

theorem skips_of_skipsAssert (h : skipsAssert branch slot code jump jumpSlot after)
    (hturned : branch.turned? assertHandler = some turned) :
    Skips branch slot jump jumpSlot turned after assertHandler ∧ code.isScratchLoad := by
  simp only [skipsAssert, and_eq_true, beq_iff_eq] at h
  obtain ⟨⟨⟨⟨⟨⟨⟨⟨-, hslot⟩, hlui⟩, hscratch⟩, hjump⟩, htarget⟩, hjumpSlot⟩, hafter⟩, -⟩ := h
  refine ⟨⟨hslot, hjump, hjumpSlot, hafter, htarget, ?_⟩, ?_⟩
  · exact turns_of_turned? hturned hafter
  · simp [isScratchLoad, hlui, hscratch]

/-- What merging makes of lines: a branch around a failed assertion is turned round, and the code of the
assertion goes into its slot. -/
inductive MergesAsserts : List Line → List Line → Prop
  | nil : MergesAsserts [] []
  | keep {tail new : List Line} (l : Line) (h : MergesAsserts tail new) : MergesAsserts (l :: tail) (l :: new)
  | turn {tail new : List Line} {branch slot code jump jumpSlot turned : Instruction} {after : String}
      (hskip : skipsAssert branch slot code jump jumpSlot after)
      (hturned : branch.turned? assertHandler = some turned) (h : MergesAsserts (.label after :: tail) new) :
      MergesAsserts (.op branch :: .op slot :: .op code :: .op jump :: .op jumpSlot :: .label after :: tail)
        (.op turned :: .op code :: new)

/-- **Merging assertions** succeeds, and does what the relation says. -/
theorem mergeAsserts_merges (lines : List Line) : ∃ e, mergeAsserts lines = .ok e ∧ MergesAsserts lines e.lines := by
  fun_induction mergeAsserts lines with
  | case1 => exact ⟨_, rfl, .nil⟩
  | case2 branch slot code jump jumpSlot after tail hskip hnone =>
    simp only [skipsAssert, and_eq_true] at hskip
    obtain ⟨turned, hturned⟩ := turned?_isSome hskip.1.1.1.1.1.1.1.1 assertHandler
    exact absurd (hnone.symm.trans hturned) (by simp)
  | case3 branch slot code jump jumpSlot after tail hskip turned hturned ih =>
    obtain ⟨e, hok, hnew⟩ := ih
    rw [hok]
    exact ⟨_, rfl, .turn hskip hturned hnew⟩
  | case4 branch slot code jump jumpSlot after tail hskip ih =>
    obtain ⟨e, hok, hnew⟩ := ih
    rw [hok]
    exact ⟨_, rfl, .keep _ hnew⟩
  | case5 l tail hl ih =>
    obtain ⟨e, hok, hnew⟩ := ih
    rw [hok]
    exact ⟨_, rfl, .keep l hnew⟩

theorem mergesAsserts_of_ok (h : mergeAsserts lines = .ok e) : MergesAsserts lines e.lines := by
  obtain ⟨e', hok, hmerges⟩ := mergeAsserts_merges lines
  rwa [Except.ok.inj (h.symm.trans hok)]

theorem MergesAsserts.shortens (h : MergesAsserts lines out) (hs : Slotted lines) :
    Shortens site new old out lines := by
  induction h with
  | nil => exact .nil
  | keep l _ ih => exact (ih hs.tail).cons hs
  | turn hskip hturned _ ih =>
    obtain ⟨hskips, hcode⟩ := skips_of_skipsAssert hskip hturned
    exact .assert hskips hcode (ih hs.tail.tail.tail.tail.tail)

theorem nextJump_lands (hs : Slotted body)
    (hd : (labels body).Nodup) (h : .label name :: rest <:+ body) (hnext : nextJump? rest = some target) :
    Lands body name target := by
  induction rest generalizing name with
  | nil => simp [nextJump?] at hnext
  | cons l rest ih =>
    have hrest := (suffix_cons _ _).trans h
    cases l with
    | label next => exact .pass (locate_of_suffix hd h) (ih hrest hnext)
    | op i =>
      unfold nextJump? at hnext
      split at hnext
      case isFalse => simp at hnext
      case isTrue hjump =>
        simp only [and_eq_true, decide_eq_true_eq] at hjump
        have hi : i.isBranch := by rw [isBranch, hjump.1]; rfl
        cases hs.suffix hrest with
        | plain hplain _ =>
          rw [hi] at hplain
          cases hplain
        | branch _ _ hslot _ => exact .hop (locate_of_suffix hd h) hjump.1 (hslot hjump.1) hnext (.here target)
    | comment c | raw t => simp [nextJump?] at hnext

theorem mem_hops (hs : Slotted body) (hd : (labels body).Nodup)
    (h : lines <:+ body) (hmem : (name, target) ∈ hops lines) :
    name ∈ labels body ∧ Lands body name target := by
  induction lines with
  | nil => simp [hops] at hmem
  | cons l rest ih =>
    have hrest := (suffix_cons _ _).trans h
    cases l with
    | label n =>
      rw [hops, mem_append] at hmem
      rcases hmem with hmem | hmem
      · exact ih hrest hmem
      · split at hmem
        case h_2 => cases hmem
        case h_1 t hnext =>
          split at hmem
          · cases hmem
          · obtain ⟨rfl, rfl⟩ := Prod.mk.inj (mem_singleton.mp hmem)
            exact ⟨mem_labels_of_locate (locate_of_suffix hd h), nextJump_lands hs hd h hnext⟩
    | op i | comment c | raw t => exact ih hrest hmem

variable (table : List (String × String))

theorem chainEnd_lands (name : String)
    (h : ∀ p ∈ table, Lands body p.1 p.2) : Lands body name (chainEnd table name) := by
  fun_induction chainEnd table name with
  | case1 table name _ => exact .here name
  | case2 table name next hnext ih =>
    refine (h _ (mem_of_lookup hnext)).trans (ih ?_)
    intro p hp
    exact h p (mem_filter.mp hp).1

theorem chainEnd_of_not_mem {table} (h : ∀ p ∈ table, p.1 ≠ name) : chainEnd table name = name := by
  have hnone : table.lookup name = none := by
    rw [lookup_eq_none_iff]
    intro p hp
    simpa using Ne.symm (h p hp)
  unfold chainEnd
  split
  · rfl
  next hnext =>
    rw [hnone] at hnext
    simp at hnext

theorem followHops_redirects (hw : WellFormed site first body) (hi : .op i ∈ body) (hb : i.isBranch) :
    ∃ j, (Line.op i).followHops (hops body) = .op j ∧ j.isBranch ∧
      Redirects site body j i := by
  have htable (p : String × String) (hp : p ∈ hops body) :
      p.1 ∈ labels body ∧ Lands body p.1 p.2 := mem_hops hw.slotted hw.distinct (suffix_refl _) hp
  unfold Line.followHops
  dsimp only
  cases htarget : i.target? with
  | none => exact ⟨i, rfl, hb, .refl site body i⟩
  | some y =>
    have hshape := withTarget_shape htarget (chainEnd (hops body) y)
    refine ⟨_, rfl, by rw [SameUpTo.isBranch hshape]; exact hb, hshape, ?_, ?_⟩
    · -- The target of a call is no label of the body, so it stays.
      intro hjal
      rw [SameUpTo.opcode hshape] at hjal
      have hout := hw.callsOutside i hi hjal y htarget
      have hend : chainEnd (hops body) y = y := chainEnd_of_not_mem fun p hp heq => hout (heq ▸ (htable p hp).1)
      rw [hend, withTarget_self htarget]
      exact .refl site i
    · rw [target?_withTarget htarget, htarget]
      exact .some (chainEnd_lands _ y fun p hp => (htable p hp).2)

theorem followHops_plain (h : i.isBranch = false) : (Line.op i).followHops table = .op i := by
  have hnone : i.target? = none := by simp [target?, h]
  unfold Line.followHops
  dsimp only
  rw [hnone]

theorem followHops_shortens (hw : WellFormed site first body) (hs : Slotted lines) (h : lines <:+ body) :
    Shortens site new body (lines.map (·.followHops (hops body))) lines := by
  induction hs with
  | nil => exact .nil
  | label name _ ih => exact .label name (ih ((suffix_cons _ _).trans h))
  | comment c _ ih => exact .comment c (ih ((suffix_cons _ _).trans h))
  | plain hi _ ih =>
    rw [map_cons, followHops_plain _ hi]
    exact .plain hi (.refl site _) (ih ((suffix_cons _ _).trans h))
  | branch hi hslot _ _ ih =>
    obtain ⟨j, hj, hb, hto⟩ := followHops_redirects hw (h.subset (.head _)) hi
    rw [map_cons, map_cons, hj, followHops_plain _ hslot]
    exact .redirect hb hslot hto (.refl site _) (ih ((suffix_append [_, _] _).trans h))

theorem dropUnreached_dead (lines : List Line) : (dropUnreached .dead lines).lines
      = (dropUnreached (.code false) (lines.dropWhile Line.isInstruction)).lines := by
  induction lines with
  | nil => rfl
  | cons l rest ih =>
    cases l with
    | op i => exact ih
    | _ => rfl

theorem Line.isLeaving_of_not_isBranch (h : l.isBranch = false) : l.isLeaving = false := by
  cases l with
  | op i =>
    rw [eq_false_iff]
    intro hc
    have ho : i.opcode = .j ∨ i.opcode = .jr := by simpa [Line.isLeaving, Line.opcode?, Line.instruction?] using hc
    have hi : i.opcode.isBranch = false := h
    rcases ho with ho | ho <;> rw [ho] at hi <;> cases hi
  | _ => rfl

theorem dropUnreached_keep (h : (l.isLeaving && !afterBranch) = false) (rest : List Line) :
    (dropUnreached (.code afterBranch) (l :: rest)).lines = l :: (dropUnreached (.code l.isBranch) rest).lines := by
  simp only [dropUnreached, h, false_eq_true, if_false]

theorem dropUnreached_plain (h : l.isBranch = false) (afterBranch : Bool) (rest : List Line) :
    (dropUnreached (.code afterBranch) (l :: rest)).lines = l :: (dropUnreached (.code false) rest).lines := by
  rw [dropUnreached_keep (by rw [Line.isLeaving_of_not_isBranch h]; rfl), h]

theorem dropUnreached_shortens (hs : Slotted lines) :
    Shortens site new old (dropUnreached (.code false) lines).lines lines := by
  induction hn : lines.length using Nat.strongRecOn generalizing lines with
  | ind n ih =>
    cases hs with
    | nil => exact .nil
    | @label name rest hs =>
      exact .label name (ih rest.length (by simp [← hn]) hs rfl)
    | @comment c rest hs =>
      exact .comment c (ih rest.length (by simp [← hn]) hs rfl)
    | @plain i rest hi hs =>
      rw [dropUnreached_plain (l := .op i) hi]
      exact .plain hi (.refl site i) (ih rest.length (by simp [← hn]) hs rfl)
    | @branch i slot rest hi hslot hjump hs =>
      have hlength : rest.length < n := by
        simp only [length_cons] at hn
        omega
      by_cases hleave : (Line.op i).isLeaving
      · -- Instructions behind the slot are left out up to the next line of another kind.
        have hsplit := takeWhile_append_dropWhile (p := Line.isInstruction) (l := rest)
        have hlines : (dropUnreached (.code false) (.op i :: .op slot :: rest)).lines = .op i :: .op slot ::
              (dropUnreached (.code false) (rest.dropWhile Line.isInstruction)).lines := by
          rw [← dropUnreached_dead]
          simp [dropUnreached, hleave]
        have hshort := ih (rest.dropWhile Line.isInstruction).length
          (Nat.lt_of_le_of_lt (dropWhile_suffix Line.isInstruction).length_le hlength)
          (hs.suffix (dropWhile_suffix _)) rfl
        have hbranch := Shortens.branch (rest.takeWhile Line.isInstruction) hi hslot
          (.refl site old i) (.refl site slot)
          (all_eq_true.mp all_takeWhile) (fun _ => hleave) hshort
        rw [hlines]
        rw [hsplit] at hbranch
        exact hbranch
      · rw [not_eq_true] at hleave
        have hkeep : (dropUnreached (.code false) (.op i :: .op slot :: rest)).lines
            = .op i :: .op slot :: (dropUnreached (.code false) rest).lines := by
          rw [dropUnreached_keep (by rw [hleave]; rfl), dropUnreached_plain (l := .op slot) hslot]
        rw [hkeep]
        exact .redirect hi hslot (.refl site old i) (.refl site slot) (ih rest.length hlength hs rfl)

theorem splitTail_keep (h : (splitTail rest).1 ≠ [] ∨ l.isInstruction = false) :
    splitTail (l :: rest) = (l :: (splitTail rest).1, (splitTail rest).2) := by
  have hcond : ((splitTail rest).1.isEmpty && l.isInstruction) = false := by
    rcases h with h | h
    · simp [h]
    · rw [h, Bool.and_false]
  simp only [splitTail, hcond, Bool.false_eq_true, if_false]

theorem splitTail_tail (h : (splitTail rest).1 = [])
    (hl : l.isInstruction) : splitTail (l :: rest) = ([], l :: (splitTail rest).2) := by
  simp only [splitTail, h, hl, isEmpty_nil, Bool.and_self, if_true]

theorem splitTail_spec (lines : List Line) : (splitTail lines).1 ++ (splitTail lines).2 = lines ∧
      ∀ l ∈ (splitTail lines).2, l.isInstruction := by
  induction lines with
  | nil => exact ⟨rfl, fun l hl => absurd hl not_mem_nil⟩
  | cons l rest ih =>
    by_cases h : (splitTail rest).1 = [] ∧ l.isInstruction
    · rw [splitTail_tail h.1 h.2]
      rw [h.1, nil_append] at ih
      refine ⟨by rw [nil_append, ih.1], ?_⟩
      intro m hm
      rcases mem_cons.mp hm with rfl | hm
      · exact h.2
      · exact ih.2 m hm
    · have hkeep : (splitTail rest).1 ≠ [] ∨ l.isInstruction = false := by
        rw [Decidable.not_and_iff_not_or_not, not_eq_true] at h
        exact h
      rw [splitTail_keep hkeep]
      exact ⟨by rw [cons_append, ih.1], ih.2⟩

theorem cutAfterJump_keep (h : (l.isLeaving && !afterBranch) = false) (rest : List Line) :
    cutAfterJump afterBranch (l :: rest) = l :: cutAfterJump l.isBranch rest := by
  cases rest with
  | nil => rfl
  | cons slot rest => rw [cutAfterJump, h, if_neg Bool.false_ne_true]

theorem cutAfterJump_plain (h : l.isBranch = false) (afterBranch : Bool) (rest : List Line) :
    cutAfterJump afterBranch (l :: rest) = l :: cutAfterJump false rest := by
  rw [cutAfterJump_keep (by rw [Line.isLeaving_of_not_isBranch h]; rfl), h]

theorem cutDeadTail_shortens (hs : Slotted lines) : Shortens site new old (cutDeadTail lines).lines lines := by
  show Shortens site new old ((splitTail lines).1 ++ cutAfterJump false (splitTail lines).2) lines
  induction hs with
  | nil => exact .nil
  | label name _ ih =>
    rw [splitTail_keep (Or.inr rfl)]
    exact .label name ih
  | comment c _ ih =>
    rw [splitTail_keep (Or.inr rfl)]
    exact .comment c ih
  | @plain i rest hi _ ih =>
    by_cases hfront : (splitTail rest).1 = []
    · rw [splitTail_tail hfront rfl, cutAfterJump_plain (l := .op i) hi]
      rw [hfront] at ih
      exact .plain hi (.refl site i) ih
    · rw [splitTail_keep (Or.inl hfront)]
      exact .plain hi (.refl site i) ih
  | @branch i slot rest hi hslot _ hs ih =>
    by_cases hfront : (splitTail rest).1 = []
    · have hslotTail : (splitTail (.op slot :: rest)).1 = [] := by rw [splitTail_tail hfront rfl]
      obtain ⟨happend, hinstr⟩ := splitTail_spec rest
      rw [hfront, nil_append] at happend
      rw [splitTail_tail hslotTail rfl, splitTail_tail hfront rfl]
      by_cases hleave : (Line.op i).isLeaving
      · -- The run of instructions is the rest of the body, and all of it is cut off.
        have hbranch : Shortens site new old [.op i, .op slot] (.op i :: .op slot :: (rest ++ [])) :=
          .branch rest hi hslot (.refl site old i) (.refl site slot) (by rwa [happend] at hinstr) (fun _ => hleave) .nil
        rw [append_nil] at hbranch
        simp only [cutAfterJump, hleave, Bool.not_false, Bool.and_self, if_true, nil_append]
        exact hbranch
      · rw [Bool.not_eq_true] at hleave
        rw [cutAfterJump_keep (by rw [hleave]; rfl), cutAfterJump_plain (l := .op slot) hslot]
        rw [hfront] at ih
        exact .redirect hi hslot (.refl site old i) (.refl site slot) ih
    · have hslotKeep : (splitTail (.op slot :: rest)).1 ≠ [] := by
        rw [splitTail_keep (Or.inl hfront)]
        exact cons_ne_nil _ _
      rw [splitTail_keep (Or.inl hslotKeep), splitTail_keep (Or.inl hfront)]
      exact .redirect hi hslot (.refl site old i) (.refl site slot) ih

end
end Microcode
