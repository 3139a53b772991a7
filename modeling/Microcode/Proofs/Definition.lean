import Microcode.Proofs.Linking

/-!
The symbols that an overlay defines.

They are the variables and routines of the program, the labels of its routines, each behind the name of the routine,
and the labels that are made for statements.
-/

namespace Microcode

open List Nat Routine

/-- The symbols that the code of a routine defines; one that an entry stands for defines none. -/
def Code.definitions (c : Code) : List String := if c.aliasOf.isSome then [] else c.name :: labels c.lines

def Program.ownVariables (p : Program) : List String := (p.state.filter (! ·.isExtern)).map StateVariable.name

def Program.definitions (p : Program) (codes : List Code) : List String :=
  p.ownVariables ++ codes.flatMap Code.definitions

def Routine.ownLabels (r : Routine) : List String := (labelsOf (r.body.getD [])).map fun name => r.name ++ "_" ++ name

/-- No name is written for two symbols, and none for a symbol that is also a label made. -/
structure Program.Distinct (p : Program) (made : Nat) : Prop where
  variables_routines : ∀ name ∈ p.ownVariables, name ∉ definedNames p.routines
  variables_labels : ∀ name ∈ p.ownVariables, ∀ r ∈ p.routines, name ∉ r.ownLabels
  routines_labels : ∀ name ∈ definedNames p.routines, ∀ r ∈ p.routines, name ∉ r.ownLabels
  labels : p.routines.Pairwise fun r s => ∀ name ∈ r.ownLabels, name ∉ s.ownLabels
  made_variables : ∀ k < made, labelName k ∉ p.ownVariables
  made_routines : ∀ k < made, labelName k ∉ definedNames p.routines
  made_labels : ∀ k < made, ∀ r ∈ p.routines, labelName k ∉ r.ownLabels

section
variable {o : Options} {signatures : Signatures}

theorem Routine.Translated.definitions {r : Routine} {body} {first last : Nat} {code : Code}
    (h : r.Translated o signatures body first code last) (hbody : r.body = some body) :
    code.definitions.Perm (r.name :: (r.ownLabels ++ labelsFrom first last)) := by
  rw [Code.definitions, h.notAliased, h.name, ownLabels, hbody]
  exact h.labelled.perm.cons r.name

variable {n m : Nat} {routines : List Routine} {codes : List Code}

theorem TranslatedRoutines.definitions
    (h : TranslatedRoutines o signatures n routines codes m) : n ≤ m ∧ (codes.flatMap Code.definitions).Perm
      (definedNames routines ++ (routines.flatMap ownLabels ++ labelsFrom n m)) := by
  induction h with
  | nil => exact ⟨le_refl _, by simp [definedNames, labelsFrom_self]⟩
  | @declared n r rest codes m hbody _ ih =>
    have hnames : definedNames (r :: rest) = definedNames rest := by simp [definedNames, hbody]
    have hlabels : r.ownLabels = [] := by simp [ownLabels, hbody, labelsOf]
    rw [hnames, flatMap_cons, hlabels]
    exact ih
  | @defined n r rest body code m codes k hbody hfirst _ ih =>
    have hle := hfirst.labelled.le
    obtain ⟨hle', hrest⟩ := ih
    have hnames : definedNames (r :: rest) = r.name :: definedNames rest := by simp [definedNames, hbody]
    refine ⟨le_trans hle hle', perm_iff_count.mpr fun name => ?_⟩
    have hcode := (hfirst.definitions hbody).count_eq name
    have hcodes := hrest.count_eq name
    rw [hnames, ← labelsFrom_append hle hle']
    simp only [flatMap_cons, count_append, count_cons] at hcode hcodes ⊢
    omega

theorem TranslatedRoutines.nodup_ownLabels
    (h : TranslatedRoutines o signatures n routines codes m) : ∀ r ∈ routines, r.ownLabels.Nodup := by
  induction h with
  | nil => exact fun r hr => absurd hr not_mem_nil
  | declared hbody _ ih =>
    refine forall_mem_cons.mpr ⟨?_, ih⟩
    simp [ownLabels, hbody, labelsOf]
  | @defined n r rest body code m codes k hbody hfirst _ ih =>
    refine forall_mem_cons.mpr ⟨?_, ih⟩
    rw [ownLabels, hbody]
    exact List.Pairwise.map _ (fun a b hne heq => hne (by simpa using heq)) hfirst.nodup_labels

theorem nodup_append_iff_notMem {front rest : List String} :
    (front ++ rest).Nodup ↔ front.Nodup ∧ rest.Nodup ∧ ∀ name ∈ front, name ∉ rest := by
  rw [nodup_append]
  refine and_congr_right fun _ => and_congr_right fun _ => ?_
  exact ⟨fun h name hfront hrest => h name hfront name hrest rfl,
    fun h name hfront other hrest heq => h name hfront (heq ▸ hrest)⟩

theorem TranslatedRoutines.nodup_flatMap_ownLabels
    (h : TranslatedRoutines o signatures n routines codes m) : (routines.flatMap ownLabels).Nodup ↔
      routines.Pairwise fun r s => ∀ name ∈ r.ownLabels, name ∉ s.ownLabels := by
  rw [Nodup, pairwise_flatMap]
  refine (and_iff_right h.nodup_ownLabels).trans ⟨fun h => h.imp fun hrs name hr hs => ?_,
    fun h => h.imp fun hrs name hr other hs heq => ?_⟩
  · exact hrs name hr name hs rfl
  · exact hrs name hr (heq ▸ hs)

/-- **A symbol is defined twice exactly if two names clash.** -/
theorem Program.Translated.nodup_definitions {p : Program} {made : Nat}
    (h : p.Translated o codes made) : (p.definitions codes).Nodup ↔ p.Distinct made := by
  have hvariables : p.ownVariables.Nodup := h.nodup_state.sublist (filter_sublist.map _)
  have hperm : (p.definitions codes).Perm (p.ownVariables ++ (definedNames p.routines ++
      (p.routines.flatMap ownLabels ++ labelsFrom 0 made))) := h.routines.definitions.2.append_left _
  have hmade {name : String} : name ∈ labelsFrom 0 made ↔ ∃ k < made, labelName k = name := by simp
  rw [hperm.nodup_iff]
  simp only [nodup_append_iff_notMem, h.routines.nodup_flatMap_ownLabels, mem_append, mem_flatMap,
    not_or, not_exists, not_and]
  constructor
  · intro ⟨_, ⟨_, ⟨hlabels, _, hmadeLabels⟩, hroutines⟩, hstate⟩
    exact {
      variables_routines := fun name hname => (hstate name hname).1
      variables_labels := fun name hname => (hstate name hname).2.1
      routines_labels := fun name hname => (hroutines name hname).1
      labels := hlabels
      made_variables := fun k hk hname => (hstate _ hname).2.2 (hmade.mpr ⟨k, hk, rfl⟩)
      made_routines := fun k hk hname => (hroutines _ hname).2 (hmade.mpr ⟨k, hk, rfl⟩)
      made_labels := fun k hk r hr hname => hmadeLabels _ ⟨r, hr, hname⟩ (hmade.mpr ⟨k, hk, rfl⟩) }
  · intro hdistinct
    refine ⟨hvariables, ⟨h.nodup_defined, ⟨hdistinct.labels, nodup_labelsFrom 0 made, ?_⟩,
      fun name hname => ⟨?_, ?_⟩⟩, fun name hname => ⟨?_, ?_, ?_⟩⟩
    · rintro name ⟨r, hr, hname⟩ hlabel
      obtain ⟨k, hk, rfl⟩ := hmade.mp hlabel
      exact hdistinct.made_labels k hk r hr hname
    · exact hdistinct.routines_labels name hname
    · intro hlabel
      obtain ⟨k, hk, rfl⟩ := hmade.mp hlabel
      exact hdistinct.made_routines k hk hname
    · exact hdistinct.variables_routines name hname
    · exact hdistinct.variables_labels name hname
    · intro hlabel
      obtain ⟨k, hk, rfl⟩ := hmade.mp hlabel
      exact hdistinct.made_variables k hk hname

end

theorem Code.count_definitions_optimize (rounds : Nat) (c : Code) (name : String) :
    Yields (c.optimize rounds) fun d => d.definitions.count name ≤ c.definitions.count name := by
  refine (c.optimize_spec rounds).mono fun d ⟨hname, halias, hlines⟩ => ?_
  unfold Code.definitions
  rw [halias, hname]
  split
  · exact Nat.le_refl _
  · rw [count_cons, count_cons]
    exact Nat.add_le_add_right (hlines.count name) _

theorem Code.count_definitions_forwarded (table : List (String × String)) (c : Code) (name : String) :
    (c.forwarded table).definitions.count name ≤ c.definitions.count name := by
  rcases c.forwarded_cases table with ⟨target, -, hforwarded⟩ | hforwarded
  · rw [hforwarded]
    exact zero_le _
  · rw [hforwarded]

theorem count_flatMap_le {before after} {name : String}
    (h : ∀ c, (after c).count name ≤ (before c).count name) (codes : List Code) :
    (codes.flatMap after).count name ≤ (codes.flatMap before).count name := by
  induction codes with
  | nil => exact Nat.le_refl _
  | cons c codes ih =>
    rw [flatMap_cons, flatMap_cons, count_append, count_append]
    exact Nat.add_le_add (h c) ih

variable {codes out : List Code}

theorem count_definitions_mapM {rounds : Nat} (h : codes.mapM (Code.optimize rounds) = .ok out) (name : String) :
    (out.flatMap Code.definitions).count name ≤ (codes.flatMap Code.definitions).count name := by
  refine mapM_induction (R := fun codes out => (out.flatMap Code.definitions).count name
    ≤ (codes.flatMap Code.definitions).count name) h (Nat.le_refl _) fun c d codes out hd ih => ?_
  rw [flatMap_cons, flatMap_cons, count_append, count_append]
  exact Nat.add_le_add (c.count_definitions_optimize rounds name d hd) ih

theorem count_definitions_optimizeAll {o} (h : optimizeAll o codes = .ok out) (name : String) :
    (out.flatMap Code.definitions).count name ≤ (codes.flatMap Code.definitions).count name := by
  unfold optimizeAll at h
  split at h
  · cases h
    exact le_refl _
  · obtain ⟨optimized, hoptimized, h⟩ := bind_eq_ok.mp h
    cases h
    rw [aliasCommands, flatMap_map]
    exact le_trans (count_flatMap_le (fun c => c.count_definitions_forwarded _ name) optimized)
      (count_definitions_mapM hoptimized name)

theorem Program.nodup_definitions_optimizeAll {o}
    (h : optimizeAll o codes = .ok out) (p : Program) (hnodup : (p.definitions codes).Nodup) :
    (p.definitions out).Nodup := by
  rw [nodup_iff_count_le_one] at hnodup ⊢
  intro name
  refine Nat.le_trans ?_ (hnodup name)
  rw [definitions, definitions, count_append, count_append]
  exact Nat.add_le_add_left (count_definitions_optimizeAll h name) _

/-- **Which symbols an overlay defines twice.**  Whatever compiles, with any options: lowering defines the
routines that have a body, their labels and as many labels as were made, each once; if no two names clash,
no symbol of the overlay is defined twice; and without the passes that is the only way. -/
theorem compile_definitions {source : String} {o : Options} {defines : Source.Defines}
    {loader : Source.Loader} {compiled : Compiled} (h : compile source o defines loader = .ok compiled) :
    ∃ p codes out made, Compiles source o defines loader compiled p codes out ∧
      (codes.flatMap Code.definitions).Perm
        (definedNames p.routines ++ (p.routines.flatMap Routine.ownLabels ++ labelsFrom 0 made)) ∧
      (p.Distinct made → (p.definitions out).Nodup) ∧
      (o.optimize = false → (p.definitions out).Nodup → p.Distinct made) := by
  obtain ⟨p, codes, out, hcompiles⟩ := exists_compiles h
  obtain ⟨made, hmade⟩ := Program.translated_of_lower hcompiles.lower
  refine ⟨p, codes, out, made, hcompiles, hmade.routines.definitions.2, fun hdistinct => ?_,
    fun hplain hnodup => ?_⟩
  · exact p.nodup_definitions_optimizeAll hcompiles.optimize (hmade.nodup_definitions.mpr hdistinct)
  · have hout := hcompiles.optimize
    rw [optimizeAll, hplain] at hout
    obtain rfl := Except.ok.inj hout
    exact hmade.nodup_definitions.mp hnodup

def clashingSource : String := "function LABEL_0001()\x7b\x7dfunction f(u32 a)\x7bif(a==a)\x7bexit;\x7d\x7d"

theorem clashingSource_defines_twice :
    ∃ compiled, compile clashingSource { optimize := false } {} .refuse = .ok compiled ∧
      ∃ p codes out made, Compiles clashingSource { optimize := false } {} .refuse compiled p codes out ∧
        p.definitions out = ["LABEL_0001", "f", "LABEL_0001"] ∧ ¬p.Distinct made := by
  have hok : (compile clashingSource { optimize := false } {} .refuse).isOk = true := by decide +kernel
  have hdefinitions : (do
      let parsed ← Program.ofSource clashingSource {} .refuse
      let p ← parsed.plain
      let lowered ← p.lower { optimize := false }
      pure (p.definitions lowered.1)).toOption = some ["LABEL_0001", "f", "LABEL_0001"] := by decide +kernel
  cases h : compile clashingSource { optimize := false } {} .refuse with
  | error e =>
    rw [h] at hok
    cases hok
  | ok compiled =>
    obtain ⟨p, codes, out, made, hcompiles, -, hdistinct, -⟩ := compile_definitions h
    obtain ⟨parsed, hparsed, hplain⟩ := hcompiles.plain
    obtain rfl : codes = out := Except.ok.inj hcompiles.optimize
    simp only [hparsed, hplain, hcompiles.lower, bind, Except.bind] at hdefinitions
    have hout := Option.some.inj hdefinitions
    refine ⟨compiled, rfl, p, codes, codes, made, hcompiles, hout, fun hnames => ?_⟩
    have hnodup := hdistinct hnames
    rw [hout] at hnodup
    exact absurd hnodup (by decide)

end Microcode
