import Microcode.Proofs.Peephole.Label
import Microcode.Proofs.Slot

/-!
What the passes do to symbols.

Code names symbols as targets and addresses (`symbols`) and as places in memory (`cells`).  Most passes only
leave out, move or redirect instructions: they name nothing that was not named before, and every label stays
(`Trims`).
-/

namespace Microcode

open Instruction

variable {l m : Line} {new old older before rest lines after front : List Line}
  {branch turned i slot jump jumpSlot : Instruction} {name target : String}

open List

variable {isCommand : Bool}

/-! ### What code names -/

def Arg.cell? : Arg → Option String
  | .mem _ name _ => name
  | _ => none

def Line.symbols : Line → List String
  | .op i => i.args.filterMap Arg.symbol?
  | _ => []

def Line.cells : Line → List String
  | .op i => i.args.filterMap Arg.cell?
  | _ => []

def symbols (lines : List Line) : List String := lines.flatMap Line.symbols

def cells (lines : List Line) : List String := lines.flatMap Line.cells

@[simp] theorem symbols_cons (l : Line) (rest : List Line) : symbols (l :: rest) = l.symbols ++ symbols rest :=
  rfl

@[simp] theorem cells_cons (l : Line) (rest : List Line) : cells (l :: rest) = l.cells ++ cells rest := rfl

@[simp] theorem symbols_append (front rest : List Line) :
    symbols (front ++ rest) = symbols front ++ symbols rest := flatMap_append

@[simp] theorem cells_append (front rest : List Line) : cells (front ++ rest) = cells front ++ cells rest :=
  flatMap_append

theorem labels_cons (l : Line) (rest : List Line) : labels (l :: rest) = l.label?.toList ++ labels rest := by
  cases l <;> rfl

theorem mem_symbols : name ∈ symbols lines ↔ ∃ l ∈ lines, name ∈ l.symbols := mem_flatMap

theorem mem_cells : name ∈ cells lines ↔ ∃ l ∈ lines, name ∈ l.cells := mem_flatMap

theorem Line.mem_symbols_iff : name ∈ l.symbols ↔ ∃ i, l = .op i ∧ ∃ a ∈ i.args, a.symbol? = some name := by
  cases l <;> simp [Line.symbols]

theorem Line.mem_cells_iff : name ∈ l.cells ↔ ∃ i, l = .op i ∧ ∃ a ∈ i.args, a.cell? = some name := by
  cases l <;> simp [Line.cells]

theorem Code.symbols_eq (c : Code) : c.symbols = Microcode.symbols c.lines := by
  unfold Code.symbols Microcode.symbols
  congr 1
  funext l
  cases l <;> rfl

theorem Instruction.mem_symbols_of_target (h : i.target? = some name) : name ∈ (Line.op i).symbols :=
  mem_filterMap.mpr ⟨_, mem_of_getLast? (target?_eq_some.mp h).2, rfl⟩

theorem Line.refersTo_of_mem_symbols (h : name ∈ l.symbols) : l.refersTo name := by
  obtain ⟨i, rfl, a, ha, hname⟩ := Line.mem_symbols_iff.mp h
  exact any_eq_true.mpr ⟨a, ha, by simp [hname]⟩

theorem Instruction.symbols_withTarget (i : Instruction) (target : String) :
    ∀ name ∈ (Line.op (i.withTarget target)).symbols, name = target ∨ name ∈ (Line.op i).symbols := by
  intro name hname
  unfold withTarget at hname
  split at hname
  · simp only [Line.symbols, filterMap_append, mem_append] at hname
    rcases hname with hname | hname
    · exact .inr ((dropLast_sublist i.args).filterMap _ |>.subset hname)
    · exact .inl (by simpa [Arg.symbol?] using hname)
  · exact .inr hname

theorem Instruction.cells_withTarget (i : Instruction) (target : String) :
    (Line.op (i.withTarget target)).cells ⊆ (Line.op i).cells := by
  intro name hname
  unfold withTarget at hname
  split at hname
  · simp only [Line.cells, filterMap_append, mem_append] at hname
    rcases hname with hname | hname
    · exact (dropLast_sublist i.args).filterMap _ |>.subset hname
    · simp [Arg.cell?] at hname
  · exact hname

theorem Instruction.turned?_names (h : branch.turned? target = some turned) :
    (∀ name ∈ (Line.op turned).symbols, name = target ∨ name ∈ (Line.op branch).symbols) ∧
      (Line.op turned).cells ⊆ (Line.op branch).cells := by
  obtain ⟨opcode, -, rfl⟩ := Option.map_eq_some_iff.mp h
  exact ⟨symbols_withTarget { branch with opcode } target, cells_withTarget { branch with opcode } target⟩

/-! ### Passes that keep the labels -/

/-- The first lines name nothing that the second do not, and they have the same labels. -/
structure Trims (new old : List Line) : Prop where
  symbols : symbols new ⊆ symbols old
  cells : cells new ⊆ cells old
  labels : (labels new).Perm (labels old)

namespace Trims

theorem refl (lines : List Line) : Trims lines lines := ⟨Subset.refl _, Subset.refl _, .refl _⟩

theorem trans (h : Trims new old) (h' : Trims old older) : Trims new older :=
  ⟨Subset.trans h.symbols h'.symbols, Subset.trans h.cells h'.cells, h.labels.trans h'.labels⟩

theorem of_perm (h : new.Perm old) : Trims new old :=
  ⟨(h.flatMap_right _).subset, (h.flatMap_right _).subset, h.filterMap _⟩

theorem change (hsymbols : l.symbols ⊆ m.symbols) (hcells : l.cells ⊆ m.cells) (hlabel : l.label? = m.label?)
    (h : Trims new old) : Trims (l :: new) (m :: old) := by
  refine ⟨?_, ?_, ?_⟩
  · exact append_subset.mpr ⟨subset_append_of_subset_left _ hsymbols, subset_append_of_subset_right _ h.symbols⟩
  · exact append_subset.mpr ⟨subset_append_of_subset_left _ hcells, subset_append_of_subset_right _ h.cells⟩
  · rw [labels_cons, labels_cons, hlabel]
    exact h.labels.append_left _

theorem cons (l : Line) (h : Trims new old) : Trims (l :: new) (l :: old) :=
  change (Subset.refl _) (Subset.refl _) rfl h

theorem append (front : List Line) (h : Trims new old) : Trims (front ++ new) (front ++ old) := by
  induction front with
  | nil => exact h
  | cons l front ih => exact ih.cons l

theorem drop (hl : l.label? = none) (h : Trims new old) : Trims new (l :: old) := by
  refine ⟨subset_append_of_subset_right _ h.symbols, subset_append_of_subset_right _ h.cells, ?_⟩
  rw [labels_cons, hl]
  exact h.labels

theorem dropAll (hold : ∀ l ∈ old, l.label? = none) : Trims [] old := by
  induction old with
  | nil => exact .refl []
  | cons l old ih => exact (ih fun m hm => hold m (.tail l hm)).drop (hold l (.head _))

end Trims

theorem Line.label?_of_isInstruction (h : l.isInstruction) : l.label? = none := by
  cases l with
  | op i => rfl
  | label name => cases h
  | comment text => rfl
  | raw text => rfl

theorem stripComments_trims (lines : List Line) : Trims (stripComments lines).lines lines := by
  induction lines with
  | nil => exact .refl []
  | cons l rest ih =>
    cases l with
    | op i | label name | raw text => exact ih.cons _
    | comment text => exact ih.drop rfl

theorem MergesAsserts.trims (h : MergesAsserts lines new) : Trims new lines := by
  induction h with
  | nil => exact .refl []
  | keep l _ ih => exact ih.cons l
  | @turn tail new branch slot code jump jumpSlot turned after hskip hturned _ ih =>
    simp only [skipsAssert, Bool.and_eq_true, beq_iff_eq] at hskip
    have hjump := mem_symbols_of_target hskip.1.1.1.2
    obtain ⟨hsymbols, hcells⟩ := turned?_names hturned
    -- The turned branch names the handler, as the jump did.
    have hrest : Trims (.op code :: new) (.op slot :: .op code :: .op jump :: .op jumpSlot :: .label after :: tail) :=
      .drop rfl (.cons _ (.drop rfl (.drop rfl ih)))
    refine ⟨?_, ?_, hrest.labels⟩
    · refine append_subset.mpr ⟨fun name hname => ?_, subset_append_of_subset_right _ hrest.symbols⟩
      rcases hsymbols name hname with rfl | hname
      · simp [hjump]
      · exact mem_append_left _ hname
    · exact append_subset.mpr ⟨subset_append_of_subset_left _ hcells, subset_append_of_subset_right _ hrest.cells⟩

theorem nextJump?_mem_symbols (h : nextJump? lines = some target) : target ∈ symbols lines := by
  fun_induction nextJump? lines with
  | case1 name rest ih => exact mem_append_right _ (ih h)
  | case2 i rest hi => exact mem_append_left _ (mem_symbols_of_target h)
  | case3 | case4 => cases h

theorem hops_mem_symbols {p} (h : p ∈ hops lines) : p.2 ∈ symbols lines := by
  fun_induction hops lines with
  | case1 => cases h
  | case2 name rest ih =>
    rcases mem_append.mp h with h | h
    · exact mem_append_right _ (ih h)
    · split at h
      next target hnext =>
        split at h
        · cases h
        · rw [mem_singleton.mp h]
          exact mem_append_right _ (nextJump?_mem_symbols hnext)
      · cases h
  | case3 l rest hl ih => exact mem_append_right _ (ih h)

theorem chainEnd_cases (table : List (String × String)) (name : String) :
    chainEnd table name = name ∨ ∃ p ∈ table, p.2 = chainEnd table name := by
  fun_induction chainEnd table name with
  | case1 => exact .inl rfl
  | case2 table name next hnext ih =>
    rcases ih with ih | ⟨p, hp, ih⟩
    · exact .inr ⟨(name, next), mem_of_lookup hnext, ih.symm⟩
    · exact .inr ⟨p, (mem_filter.mp hp).1, ih⟩

theorem followHops_trims (lines : List Line) : Trims (lines.map (·.followHops (hops lines))) lines := by
  have hsymbols (l : Line) (hl : l ∈ lines) : (l.followHops (hops lines)).symbols ⊆ symbols lines := by
    have hold : l.symbols ⊆ symbols lines := fun name hname => mem_symbols.mpr ⟨l, hl, hname⟩
    intro name hname
    unfold Line.followHops at hname
    split at hname
    next i =>
      split at hname
      next target htarget =>
        rcases i.symbols_withTarget _ name hname with rfl | hname
        · rcases chainEnd_cases (hops lines) target with hend | ⟨p, hp, hend⟩
          · rw [hend]
            exact hold (mem_symbols_of_target htarget)
          · rw [← hend]
            exact hops_mem_symbols hp
        · exact hold hname
      · exact hold hname
    · exact hold hname
  have hcells (l : Line) : (l.followHops (hops lines)).cells ⊆ l.cells := by
    unfold Line.followHops
    split
    · split
      · exact cells_withTarget _ _
      · exact Subset.refl _
    · exact Subset.refl _
  have hlabel (l : Line) : (l.followHops (hops lines)).label? = l.label? := by
    unfold Line.followHops
    split
    · split <;> rfl
    · rfl
  refine ⟨fun name hname => ?_, fun name hname => ?_, ?_⟩
  · obtain ⟨m, hm, hname⟩ := mem_symbols.mp hname
    obtain ⟨l, hl, rfl⟩ := mem_map.mp hm
    exact hsymbols l hl hname
  · obtain ⟨m, hm, hname⟩ := mem_cells.mp hname
    obtain ⟨l, hl, rfl⟩ := mem_map.mp hm
    exact mem_cells.mpr ⟨l, hl, hcells l hname⟩
  · unfold labels
    rw [filterMap_map, show Line.label? ∘ Line.followHops (hops lines) = Line.label? from funext hlabel]

theorem dropUnreached_trims (reach : Reach) (lines : List Line) : Trims (dropUnreached reach lines).lines lines := by
  fun_induction dropUnreached reach lines with
  | case1 => exact .refl []
  | case2 l rest more ih | case4 l rest hl more ih | case5 afterBranch l rest more ih => exact ih.cons l
  | case3 l rest hl more ih => exact ih.drop (Line.label?_of_isInstruction hl)

theorem collapseJumps_trims (lines : List Line) : Trims (collapseJumps lines).lines lines :=
  (dropUnreached_trims _ _).trans (followHops_trims lines)

/-! ### Instructions left out or moved -/

theorem Line.label?_of_isStraight (h : l.isStraight) : l.label? = none := by
  cases l with
  | op i => rfl
  | label name => cases h
  | comment text => rfl
  | raw text => rfl

theorem Cuts.trims {Out kept} (h : Cuts Out front kept old new)
    (hout : ∀ {front l old}, Out front (l :: old) → l.label? = none) : Trims new old := by
  induction h with
  | nil => exact .refl []
  | keep _ ih => exact ih.cons _
  | drop _ hfirst _ ih => exact ih.drop (hout hfirst)

theorem dedupeImmediates_trims (lines : List Line) : Trims (dedupeImmediates lines).lines lines := by
  refine (dedupeImmediates_cuts lines).trims fun hfirst => ?_
  cases hfirst with
  | first h =>
    cases h
    rfl
  | second _ hload _ => exact Line.label?_of_isStraight (isStraight_of_loadAt? hload)

theorem foldReciprocals_trims (lines : List Line) : Trims (foldReciprocals lines).lines lines := by
  refine (foldReciprocals_cuts lines [] []).trims fun hfirst => ?_
  cases hfirst
  rfl

theorem jumpTailCalls_trims (lines : List Line) : Trims (jumpTailCalls lines).lines lines := by
  fun_induction jumpTailCalls lines with
  | case1 call slot jump jumpSlot rest hcall more ih =>
    have hrest : Trims (.op slot :: more.lines) (.op slot :: .op jump :: .op jumpSlot :: rest) :=
      .cons _ (.drop rfl (.drop rfl ih))
    exact hrest.change (Subset.refl _) (Subset.refl _) rfl
  | case2 call slot jump jumpSlot rest hnot more ih => exact ih.cons _
  | case3 l rest hl more ih => exact ih.cons l
  | case4 => exact .refl []

theorem tailCalls_trims (lines : List Line) : Trims (tailCalls lines).lines lines := by
  unfold tailCalls
  dsimp only
  split
  · exact .refl lines
  · exact jumpTailCalls_trims lines

theorem cutAfterJump_trims (afterBranch : Bool) (lines : List Line) (h : ∀ l ∈ lines, l.label? = none) :
    Trims (cutAfterJump afterBranch lines) lines := by
  fun_induction cutAfterJump afterBranch lines with
  | case1 afterBranch l slot rest hleave => exact .cons l (.cons slot (.dropAll fun m hm => h m (by simp [hm])))
  | case2 afterBranch l slot rest hstay ih => exact (ih fun m hm => h m (.tail l hm)).cons l
  | case3 afterBranch lines hshort => exact .refl lines

theorem cutDeadTail_trims (lines : List Line) : Trims (cutDeadTail lines).lines lines := by
  obtain ⟨happend, htail⟩ := splitTail_spec lines
  have hcut := cutAfterJump_trims false (splitTail lines).2 fun l hl => Line.label?_of_isInstruction (htail l hl)
  have h := hcut.append (splitTail lines).1
  rwa [happend] at h

theorem reorder_trims (rounds : Nat) (lines : List Line) : Trims (reorder rounds lines).lines lines :=
  .of_perm (reorder_rearranges Symbol.interpretation rounds lines).perm

theorem Fill.trims (F : Fill before after) : Trims after before := by
  obtain ⟨front, passed, rest, moved, branch, slot, rfl, rfl, -, -, -, -, -, -⟩ := F
  refine .append front ?_
  -- The slot goes, and the instruction comes down to its place.
  have hslot : Trims (.op moved :: (passed ++ .op branch :: rest))
      (.op moved :: (passed ++ .op branch :: .op slot :: rest)) :=
    .cons _ (.append _ (.cons _ (.drop rfl (.refl _))))
  refine .trans (.of_perm ?_) hslot
  have hmiddle : Perm (passed ++ [Line.op branch] ++ Line.op moved :: rest)
      (.op moved :: (passed ++ [.op branch] ++ rest)) := perm_middle
  simpa using hmiddle

theorem fillDelaySlots_trims (lines : List Line) : Trims (fillDelaySlots lines).lines lines :=
  fillDelaySlots_induction .refl (fun hfirst hrest => hrest.trans hfirst) Fill.trims lines

/-- The first lines name only what the second do, or labels of their own.  They have no new labels, and
where they lack one, they do not name it. -/
structure Relabels (new old : List Line) : Prop where
  symbols : ∀ name ∈ symbols new, name ∈ symbols old ∨ name ∈ labels new
  cells : cells new ⊆ cells old
  kept : ∀ name ∈ labels old, name ∈ Microcode.symbols new → name ∈ labels new
  count : ∀ name, (labels new).count name ≤ (labels old).count name

theorem Trims.relabels (h : Trims new old) : Relabels new old :=
  ⟨fun _ hname => .inl (h.symbols hname), h.cells, fun _ hname _ => h.labels.mem_iff.mpr hname,
    fun name => Nat.le_of_eq (h.labels.count_eq name)⟩

theorem Relabels.trans (h : Relabels new old) (h' : Relabels old older) :
    Relabels new older := by
  refine ⟨fun name hname => ?_, Subset.trans h.cells h'.cells, fun name hlabel hname => ?_,
    fun name => Nat.le_trans (h.count name) (h'.count name)⟩
  · rcases h.symbols name hname with hold | hnew
    · rcases h'.symbols name hold with holder | hold
      · exact .inl holder
      · exact .inr (h.kept name hold hname)
    · exact .inr hnew
  · rcases h.symbols name hname with hold | hnew
    · exact h.kept name (h'.kept name hlabel hold) hname
    · exact hnew

theorem Relabels.dropLabel (h : name ∉ Microcode.symbols (front ++ rest)) :
    Relabels (front ++ rest) (front ++ .label name :: rest) := by
  refine ⟨fun other hother => .inl (by simpa [Line.symbols] using hother), fun other hother => by
    simpa [Line.cells] using hother, fun other hlabel hother => ?_, fun other => ?_⟩
  · simp only [labels_append, labels_label, mem_append, mem_cons] at hlabel ⊢
    rcases hlabel with hlabel | rfl | hlabel
    · exact .inl hlabel
    · exact absurd hother h
    · exact .inr hlabel
  · simp only [labels_append, labels_label, count_append, count_cons]
    omega

theorem Trims.turn {after : String}
    (hskip : skipsJump branch slot jump jumpSlot after isCommand) (htarget : jump.target? = some target)
    (hturned : branch.turned? target = some turned) (rest : List Line) :
    Trims (.op turned :: .op (mergedSlot jump after) :: rest)
      (.op branch :: .op slot :: .op jump :: .op jumpSlot :: rest) := by
  simp only [skipsJump, Bool.and_eq_true, beq_iff_eq] at hskip
  have hafter := mem_symbols_of_target hskip.1.1.2
  have hjump := mem_symbols_of_target htarget
  obtain ⟨hsymbols, hcells⟩ := turned?_names hturned
  have hslot : (Line.op (mergedSlot jump after)).symbols ⊆ [after] ∧ (Line.op (mergedSlot jump after)).cells = [] := by
    unfold mergedSlot
    split
    · exact ⟨Subset.refl _, rfl⟩
    · exact ⟨nil_subset _, rfl⟩
  refine ⟨fun name hname => ?_, fun name hname => ?_, .refl _⟩
  · simp only [symbols_cons, mem_append] at hname ⊢
    rcases hname with hname | hname | hname
    · rcases hsymbols name hname with rfl | hname
      · exact .inr (.inr (.inl hjump))
      · exact .inl hname
    · rw [mem_singleton.mp (hslot.1 hname)]
      exact .inl hafter
    · exact .inr (.inr (.inr (.inr hname)))
  · simp only [cells_cons, hslot.2, nil_append, mem_append] at hname ⊢
    rcases hname with hname | hname
    · exact .inl (hcells hname)
    · exact .inr (.inr (.inr (.inr hname)))

theorem MergesJumps.relabels (h : MergesJumps isCommand before rest new) : Relabels (before.reverse ++ new)
    (before.reverse ++ rest) := by
  induction h with
  | nil => exact (Trims.refl _).relabels
  | keep l _ ih => simpa using ih
  | @turn before tail _ _ _ _ _ _ after _ hskip htarget hturned _ ih =>
    refine .trans (by simpa using ih) (Trims.relabels ?_)
    exact (Trims.turn hskip htarget hturned (.label after :: tail)).append before.reverse
  | @turnDrop before tail _ _ _ jump _ turned after _ hskip htarget hturned hunnamed _ ih =>
    have hnames : after ∉ symbols (before.reverse ++ [.op turned, .op (mergedSlot jump after)] ++ tail) := by
      intro hname
      obtain ⟨l, hl, hname⟩ := mem_symbols.mp hname
      exact hunnamed (any_eq_true.mpr ⟨l, by grind, Line.refersTo_of_mem_symbols hname⟩)
    have hturn := (Trims.turn hskip htarget hturned (.label after :: tail)).append before.reverse
    refine .trans (.trans (by simpa using ih) (Relabels.dropLabel hnames)) (Trims.relabels ?_)
    simpa using hturn

variable (texts : List String)

theorem renamed_kept (lines : List Line) {Kept : String → Prop}
    (hkept : ∀ name ∈ labels (joinLabels texts lines).1, Kept name)
    (h : Kept name ∨ name ∈ labels lines) : Kept (renamed (joinLabels texts lines).2 name) := by
  fun_induction joinLabels texts lines generalizing name with
  | case1 first second rest more names hmore hmentions ih =>
    rw [hmore] at ih
    refine ih (fun other hother => hkept other (.tail first hother)) ?_
    rcases h with h | h
    · exact .inl h
    · rcases mem_cons.mp h with rfl | h
      · exact .inl (hkept name (.head _))
      · exact .inr h
  | case2 first second rest more names hmore hmentions ih =>
    rw [hmore] at ih
    show Kept (renamed names (if name = first then second else name))
    refine ih hkept ?_
    split
    · exact .inr (.head _)
    next hne => exact h.imp_right fun h => (mem_cons.mp h).resolve_left hne
  | case3 l rest hl more names hmore ih =>
    rw [hmore] at ih
    rw [labels_cons] at hkept h
    refine ih (fun other hother => hkept other (mem_append_right _ hother)) ?_
    rcases h with h | h
    · exact .inl h
    · rcases mem_append.mp h with h | h
      · exact .inl (hkept name (mem_append_left _ h))
      · exact .inr h
  | case4 => exact h.resolve_right not_mem_nil

theorem renamed_of_notMem_labels (lines : List Line)
    (h : name ∉ labels lines) : renamed (joinLabels texts lines).2 name = name := by
  fun_induction joinLabels texts lines with
  | case1 first second rest more names hmore hmentions ih =>
    rw [hmore] at ih
    exact ih (not_mem_of_not_mem_cons h)
  | case2 first second rest more names hmore hmentions ih =>
    rw [hmore] at ih
    show renamed names (if name = first then second else name) = name
    rw [if_neg (ne_of_not_mem_cons h)]
    exact ih (not_mem_of_not_mem_cons h)
  | case3 l rest hl more names hmore ih =>
    rw [hmore] at ih
    rw [labels_cons] at h
    exact ih fun hrest => h (mem_append_right _ hrest)
  | case4 => rfl

theorem joinLabels_sublist (lines : List Line) : (joinLabels texts lines).1.Sublist lines := by
  fun_induction joinLabels texts lines with
  | case1 first second rest more names hmore hmentions ih =>
    rw [hmore] at ih
    exact ih.cons_cons _
  | case2 first second rest more names hmore hmentions ih =>
    rw [hmore] at ih
    exact ih.cons _
  | case3 l rest hl more names hmore ih =>
    rw [hmore] at ih
    exact ih.cons_cons l
  | case4 => exact .refl []

variable (f : String → String)

theorem Line.symbols_mapSymbols (l : Line) : (l.mapSymbols f).symbols = l.symbols.map f := by
  cases l with
  | op i =>
    show (i.args.map (Arg.mapSymbols f)).filterMap Arg.symbol? = (i.args.filterMap Arg.symbol?).map f
    rw [filterMap_map, map_filterMap]
    congr 1
    funext a
    cases a <;> rfl
  | _ => rfl

theorem Line.cells_mapSymbols (l : Line) : (l.mapSymbols f).cells = l.cells := by
  cases l with
  | op i =>
    show (i.args.map (Arg.mapSymbols f)).filterMap Arg.cell? = i.args.filterMap Arg.cell?
    rw [filterMap_map]
    congr 1
    funext a
    cases a <;> rfl
  | _ => rfl

theorem Line.label?_mapSymbols (l : Line) : (l.mapSymbols f).label? = l.label? := by cases l <;> rfl

theorem dedupeLabels_relabels (lines : List Line) : Relabels (dedupeLabels lines).lines lines := by
  have hkept (name : String) (h : name ∈ labels lines) :
      renamed (joinLabels (rawTexts lines) lines).2 name ∈ labels (joinLabels (rawTexts lines) lines).1 :=
    renamed_kept (rawTexts lines) lines (fun _ h => h) (.inr h)
  have hstays (name : String) (h : name ∉ labels lines) := renamed_of_notMem_labels (rawTexts lines) lines h
  have hsublist := joinLabels_sublist (rawTexts lines) lines
  have hlines : (dedupeLabels lines).lines = (joinLabels (rawTexts lines) lines).1.map
      (·.mapSymbols (renamed (joinLabels (rawTexts lines) lines).2)) := foldl_rename _ _
  generalize joinLabels (rawTexts lines) lines = joined at hkept hstays hsublist hlines
  have hlabels : labels (dedupeLabels lines).lines = labels joined.1 := by
    rw [hlines, labels, filterMap_map,
      show Line.label? ∘ Line.mapSymbols (renamed joined.2) = Line.label? from funext fun l => l.label?_mapSymbols _]
    rfl
  -- A name in the new lines is that of a kept label, or it is no label and was there before.
  have hsymbols : ∀ name ∈ symbols (dedupeLabels lines).lines,
      name ∈ labels joined.1 ∨ name ∉ labels lines ∧ name ∈ symbols lines := by
    intro name hname
    rw [hlines] at hname
    obtain ⟨m, hm, hname⟩ := mem_symbols.mp hname
    obtain ⟨l, hl, rfl⟩ := mem_map.mp hm
    rw [l.symbols_mapSymbols] at hname
    obtain ⟨old, hold, rfl⟩ := mem_map.mp hname
    by_cases hlabel : old ∈ labels lines
    · exact .inl (hkept old hlabel)
    · rw [hstays old hlabel]
      exact .inr ⟨hlabel, mem_symbols.mpr ⟨l, hsublist.subset hl, hold⟩⟩
  refine ⟨fun name hname => ?_, fun name hname => ?_, fun name hlabel hname => ?_, fun name => ?_⟩
  · rw [hlabels]
    exact (hsymbols name hname).elim .inr fun h => .inl h.2
  · rw [hlines] at hname
    obtain ⟨m, hm, hname⟩ := mem_cells.mp hname
    obtain ⟨l, hl, rfl⟩ := mem_map.mp hm
    rw [l.cells_mapSymbols] at hname
    exact mem_cells.mpr ⟨l, hsublist.subset hl, hname⟩
  · rw [hlabels]
    exact (hsymbols name hname).resolve_right fun h => h.1 hlabel
  · rw [hlabels]
    exact (hsublist.filterMap _).count_le name

/-- **All passes together** name nothing new and take away no label that is named. -/
theorem optimizeLines_relabels (rounds : Nat) (isCommand : Bool) (lines : List Line) :
    Yields (optimizeLines rounds isCommand lines) (Relabels · lines) := by
  refine .known fun merged hmerge => .known fun asserted hassert => ?_
  have hmerged : Relabels merged.lines (stripComments lines).lines := (mergesJumps_of_ok hmerge).relabels
  have hasserted := (mergesAsserts_of_ok hassert).trims
  refine .skip fun _ => .ok ?_
  have hstripped := (stripComments_trims lines).relabels
  have hlabelled := (dedupeLabels_relabels _).trans
    (((collapseJumps_trims _).trans hasserted).relabels.trans (hmerged.trans hstripped))
  have hcalled (c : Bool) (lines : List Line) :
      Trims (if c then tailCalls (foldReciprocals lines).lines else foldReciprocals lines).lines lines := by
    cases c with
    | true => exact (tailCalls_trims _).trans (foldReciprocals_trims _)
    | false => exact foldReciprocals_trims _
  refine Relabels.trans (Trims.relabels ?_) hlabelled
  exact (fillDelaySlots_trims _).trans ((reorder_trims rounds _).trans
    ((cutDeadTail_trims _).trans ((hcalled isCommand _).trans (dedupeImmediates_trims _))))

end Microcode
