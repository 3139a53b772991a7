import Microcode.Proofs.Peephole.Jump

/-!
Making labels that stand together one shortens.

The pass drops a label in front of another and remembers to write the second name for the first.  The
renamings are carried out one after the other, so together they are one function on names (`renamed`).
-/

namespace Microcode

open List Line

variable {lines body : List Line} {site : String → String} {name : String}

/-! ### Renaming -/

def renamed (names : List (String × String)) (name : String) : String :=
  names.foldl (fun n p => if n = p.1 then p.2 else n) name

def Line.mapSymbols (f : String → String) : Line → Line
  | .op i => .op (i.mapSymbols f)
  | l => l

theorem Line.rename_eq (before after : String) (l : Line) :
    l.rename before after = l.mapSymbols fun n => if n = before then after else n := by
  have harg (a : Arg) : a.rename before after = a.mapSymbols fun n => if n = before then after else n := by
    cases a <;> rfl
  cases l with
  | op i =>
    show op { i with args := i.args.map (Arg.rename before after) } = _
    rfl
  | _ => rfl

theorem Line.mapSymbols_mapSymbols (f g : String → String) (l : Line) :
    (l.mapSymbols f).mapSymbols g = l.mapSymbols (g ∘ f) := by
  cases l with
  | op i => exact congrArg op (i.mapSymbols_mapSymbols f g)
  | _ => rfl

theorem Line.mapSymbols_id (l : Line) : l.mapSymbols (fun n => n) = l := by
  have harg (a : Arg) : a.mapSymbols (fun n => n) = a := by cases a <;> rfl
  cases l with
  | op i =>
    show op { i with args := i.args.map (Arg.mapSymbols fun n => n) } = _
    rw [map_congr_left fun a _ => harg a, map_id']
  | _ => rfl

theorem foldl_rename (names : List (String × String)) (lines : List Line) :
    names.foldl (fun lines (before, after) => lines.map (·.rename before after)) lines
      = lines.map (·.mapSymbols (renamed names)) := by
  induction names generalizing lines with
  | nil =>
    show lines = lines.map (·.mapSymbols fun n => n)
    rw [map_congr_left fun l _ => l.mapSymbols_id, map_id']
  | cons p names ih =>
    rw [foldl_cons, ih, map_map]
    refine map_congr_left fun l _ => ?_
    show (l.rename p.1 p.2).mapSymbols (renamed names) = _
    rw [rename_eq, mapSymbols_mapSymbols]
    rfl

variable {names : List (String × String)}

theorem renamed_keeps {P : String → Prop} (h : ∀ p ∈ names, P p.1 → P p.2)
    (hname : P name) : P (renamed names name) := by
  induction names generalizing name with
  | nil => exact hname
  | cons p names ih =>
    show P (renamed names (if name = p.1 then p.2 else name))
    refine ih (fun q hq => h q (.tail p hq)) ?_
    split
    next heq => exact h p (.head _) (heq ▸ hname)
    · exact hname

theorem renamed_lands (h : ∀ p ∈ names, Lands body p.1 p.2) (name : String) : Lands body name (renamed names name) :=
  renamed_keeps (fun p hp hlands => hlands.trans (h p hp)) (.here name)

theorem renamed_site (h : ∀ p ∈ names, site p.1 = site p.2) (name : String) : site (renamed names name) = site name :=
  renamed_keeps (P := fun other => site other = site name) (fun p hp heq => (h p hp).symm.trans heq) rfl

theorem renamed_ne {other : String} (hname : name ≠ other)
    (h : ∀ p ∈ names, p.2 ≠ other) : renamed names name ≠ other :=
  renamed_keeps (P := (· ≠ other)) (fun p hp _ => h p hp) hname

theorem joinLabels_cases (l : Line) (rest : List Line) :
    (∃ name next more, l = .label name ∧ rest = .label next :: more ∧
      joinLabels [] (l :: rest) = ((joinLabels [] rest).1, (name, next) :: (joinLabels [] rest).2)) ∨
    joinLabels [] (l :: rest) = (l :: (joinLabels [] rest).1, (joinLabels [] rest).2) := by
  by_cases h : ∃ name next more, l = .label name ∧ rest = .label next :: more
  · obtain ⟨name, next, more, rfl, rfl⟩ := h
    refine Or.inl ⟨name, next, more, rfl, rfl, ?_⟩
    rfl
  · refine Or.inr ?_
    rw [joinLabels]
    rintro name next more rfl rfl
    exact h ⟨name, next, more, rfl, rfl⟩

variable {p : String × String}

theorem mem_joinLabels (h : p ∈ (joinLabels [] lines).2) : ∃ more, .label p.1 :: .label p.2 :: more <:+ lines := by
  induction lines with
  | nil => simp [joinLabels] at h
  | cons l rest ih =>
    have hlater (h : p ∈ (joinLabels [] rest).2) : ∃ more, .label p.1 :: .label p.2 :: more <:+ l :: rest := by
      obtain ⟨more, hmore⟩ := ih h
      exact ⟨more, hmore.trans (suffix_cons _ _)⟩
    rcases joinLabels_cases l rest with ⟨name, next, more, rfl, rfl, heq⟩ | heq
    · rcases mem_cons.mp h with rfl | h
      · exact ⟨more, suffix_refl _⟩
      · exact hlater h
    · rw [heq] at h
      exact hlater h

theorem mem_joinLabels_labels (h : p ∈ (joinLabels [] lines).2) : p.1 ∈ labels lines ∧ p.2 ∈ labels lines := by
  obtain ⟨more, front, rfl⟩ := mem_joinLabels h
  constructor <;> simp

theorem renamed_joinLabels_ne (hd : (labels lines).Nodup) (h : p ∈ (joinLabels [] lines).2) (name : String) :
    renamed (joinLabels [] lines).2 name ≠ p.1 := by
  induction lines generalizing name with
  | nil => simp [joinLabels] at h
  | cons l rest ih =>
    rcases joinLabels_cases l rest with ⟨top, next, more, rfl, rfl, heq⟩ | heq
    · obtain ⟨htop, hd⟩ := nodup_cons.mp hd
      show renamed (joinLabels [] (.label next :: more)).2 (if name = top then next else name) ≠ p.1
      rcases mem_cons.mp h with rfl | h
      · -- The label is gone at once, and no later renaming mentions it.
        have hlater : ∀ q ∈ (joinLabels [] (.label next :: more)).2, q.2 ≠ top := by
          rintro q hq rfl
          exact htop (mem_joinLabels_labels hq).2
        refine renamed_ne ?_ hlater
        split
        · rintro rfl
          exact htop (.head _)
        next hname => exact hname
      · exact ih hd h _
    · rw [heq] at h ⊢
      refine ih ?_ h name
      exact hd.sublist ((sublist_cons_self l rest).filterMap _)

theorem rawTexts_of_slotted (hs : Slotted lines) : rawTexts lines = [] := by
  induction hs with
  | nil => rfl
  | label _ _ ih | comment _ _ ih | plain _ _ ih | branch _ _ _ _ ih => exact ih

section
variable {f : String → String} {new : List Line}

theorem Instruction.mapSymbols_sameUpTo (hsite : ∀ name, site (f name) = site name) (i : Instruction) :
    (i.mapSymbols f).SameUpTo site i := by
  have hcomp : site ∘ f = site := funext hsite
  unfold SameUpTo
  rw [mapSymbols_mapSymbols, hcomp]

theorem mapSymbols_redirects (hsite : ∀ name, site (f name) = site name)
    (hlands : ∀ name, Lands body name (f name)) (i : Instruction) :
    Redirects site body (i.mapSymbols f) i where
  shape := (i.mapSymbols_sameUpTo hsite).shape
  call := fun _ => i.mapSymbols_sameUpTo hsite
  target := by
    rw [Instruction.target?_mapSymbols]
    cases i.target? with
    | none => exact .none
    | some y => exact .some (hlands y)

theorem joinLabels_shortens (hs : Slotted lines)
    (hsite : ∀ name, site (f name) = site name) (hlands : ∀ name, Lands body name (f name))
    (hgone : ∀ p ∈ (joinLabels [] lines).2, ∀ i, .op i ∈ new → i.target? ≠ some p.1) :
    Shortens site new body ((joinLabels [] lines).1.map (·.mapSymbols f)) lines := by
  induction hs with
  | nil => exact .nil
  | @label name rest _ ih =>
    rcases joinLabels_cases (.label name) rest with ⟨top, next, more, htop, -, heq⟩ | heq
    · rw [heq] at hgone ⊢
      obtain rfl := label.inj htop
      refine .dropLabel (hgone (name, next) (.head _)) ?_
      exact ih fun p hp => hgone p (.tail _ hp)
    · rw [heq] at hgone ⊢
      exact .label name (ih hgone)
  | comment c _ ih =>
    exact .comment c (ih hgone)
  | @plain i _ hi _ ih =>
    exact .plain hi (i.mapSymbols_sameUpTo hsite) (ih hgone)
  | @branch i slot _ hi hslot _ _ ih =>
    exact .redirect hi hslot (mapSymbols_redirects hsite hlands i) (slot.mapSymbols_sameUpTo hsite) (ih hgone)

theorem target_of_mapSymbols {i} {x : String}
    (hi : .op i ∈ lines.map (·.mapSymbols f)) (hx : i.target? = some x) : ∃ y, x = f y := by
  obtain ⟨l, -, hl⟩ := mem_map.mp hi
  cases l with
  | op j =>
    cases hl
    rw [Instruction.target?_mapSymbols] at hx
    obtain ⟨y, -, rfl⟩ := Option.map_eq_some_iff.mp hx
    exact ⟨y, rfl⟩
  | _ => exact Line.noConfusion hl

end

theorem dedupeLabels_shortens {first} (hw : WellFormed site first lines) :
    Shortens site (dedupeLabels lines).lines lines (dedupeLabels lines).lines lines := by
  have hlines : (dedupeLabels lines).lines
      = (joinLabels [] lines).1.map (·.mapSymbols (renamed (joinLabels [] lines).2)) := by
    rw [← foldl_rename]
    simp only [dedupeLabels, rawTexts_of_slotted hw.slotted]
  have hnames (p : String × String) (hp : p ∈ (joinLabels [] lines).2) :
      ∃ more, locate p.1 lines = some (.label p.1 :: .label p.2 :: more) := by
    obtain ⟨more, hmore⟩ := mem_joinLabels hp
    exact ⟨more, locate_of_suffix hw.distinct hmore⟩
  have hlands : ∀ p ∈ (joinLabels [] lines).2, Lands lines p.1 p.2 := by
    intro p hp
    obtain ⟨more, hmore⟩ := hnames p hp
    exact .pass hmore (.here p.2)
  have hsite : ∀ p ∈ (joinLabels [] lines).2, site p.1 = site p.2 := by
    intro p hp
    obtain ⟨more, hmore⟩ := hnames p hp
    exact hw.sites p.1 _ p.2 hmore rfl
  rw [hlines]
  refine joinLabels_shortens hw.slotted (renamed_site hsite) (renamed_lands hlands) ?_
  intro p hp i hi htarget
  obtain ⟨y, hy⟩ := target_of_mapSymbols hi htarget
  exact renamed_joinLabels_ne hw.distinct hp y hy.symm

end Microcode
