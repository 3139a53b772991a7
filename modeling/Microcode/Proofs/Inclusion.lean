import Microcode.Proofs.LineNumber

/-!
Including a text is putting its lines in the place of the line that asks for it.

The number of a line matters only for what errors say, and a text that is expanded at some depth of inclusion is
expanded alike where more depth is left.
-/

namespace Microcode.Source

open Text List

/-- The second reading differs from the first at most in the line on which the open conditional starts. -/
def Reading.Alike (r r' : Reading) : Prop := ∃ line, r' = { r with conditional := r.conditional.map ({ · with line }) }

/-- Where the first computation gives a reading, the second gives one that is alike. -/
def Matched (x x' : Except SourceError Reading) : Prop :=
  Yields x fun next => ∃ next', x' = .ok next' ∧ next.Alike next'

/-- The first includer gives what the second does, wherever that gives something. -/
def Includer.Extends (more less : Includer) : Prop :=
  ∀ {path defines x}, less path defines = .ok x → more path defines = .ok x

variable {includeText includeText' : Includer} {r r' : Reading}

namespace Reading.Alike

theorem refl (r : Reading) : r.Alike r := by
  obtain ⟨defines, conditional⟩ := r
  cases conditional with
  | none => exact ⟨0, rfl⟩
  | some c => exact ⟨c.line, rfl⟩

theorem eq_of_none (h : r.Alike r') (hr : r.conditional = none) : r' = r := by
  obtain ⟨line, rfl⟩ := h
  rw [hr, Option.map_none, ← hr]

theorem isActive_eq (h : r.Alike r') : r'.isActive = r.isActive := by
  obtain ⟨line, rfl⟩ := h
  unfold isActive
  cases r.conditional <;> rfl

variable (h : r.Alike r') (d : Directive) (number number' : Nat)
include h

theorem openConditional (ifDefined : Bool) :
    Matched (r.openConditional d ifDefined number) (r'.openConditional d ifDefined number') := by
  obtain ⟨line, rfl⟩ := h
  unfold Reading.openConditional
  split
  · exact .error
  next hnone =>
    rw [Option.isSome_map]
    split
    · exact .error
    · exact .ok ⟨_, rfl, number', rfl⟩

theorem otherBranch : Matched (r.otherBranch d number) (r'.otherBranch d number') := by
  obtain ⟨line, rfl⟩ := h
  obtain ⟨defines, conditional⟩ := r
  cases conditional with
  | none => exact .error
  | some c =>
    unfold Reading.otherBranch
    dsimp only [Option.map_some]
    split
    · exact .error
    · exact .ok ⟨_, rfl, line, rfl⟩

theorem closeConditional : Matched (r.closeConditional d number) (r'.closeConditional d number') := by
  obtain ⟨line, rfl⟩ := h
  obtain ⟨defines, conditional⟩ := r
  cases conditional with
  | none => exact .error
  | some c => exact .ok ⟨_, rfl, refl _⟩

theorem define : Matched (r.define d number) (r'.define d number') := by
  obtain ⟨line, rfl⟩ := h
  unfold Reading.define
  dsimp only
  split
  · exact .error
  · split
    · exact .ok ⟨_, rfl, line, rfl⟩
    · exact .error

theorem undefine : Matched (r.undefine d number) (r'.undefine d number') := by
  obtain ⟨line, rfl⟩ := h
  unfold Reading.undefine
  split
  · exact .error
  · exact .ok ⟨_, rfl, line, rfl⟩

end Reading.Alike

section
variable {d : Directive} {number : Nat} {text line : List Char} {next : Reading} (number' : Nat)

theorem Directive.apply_alike (hinclude : includeText'.Extends includeText) (hr : r.Alike r')
    (h : d.apply includeText number r = .ok (text, next)) :
    ∃ next', d.apply includeText' number' r' = .ok (text, next') ∧ next.Alike next' := by
  have hsilent {x x' : Except SourceError Reading} (hx : Matched x x')
      (h : (x.map fun r => (([] : List Char), r)) = .ok (text, next)) :
      ∃ next', (x'.map fun r => (([] : List Char), r)) = .ok (text, next') ∧ next.Alike next' := by
    obtain ⟨_, hnext, heq⟩ := map_eq_ok.mp h
    cases heq
    obtain ⟨next', rfl, halike⟩ := hx next hnext
    exact ⟨next', rfl, halike⟩
  unfold Directive.apply at h ⊢
  split at h
  · exact hsilent (hr.openConditional d number number' true) h
  · exact hsilent (hr.openConditional d number number' false) h
  · exact hsilent (hr.otherBranch d number number') h
  · exact hsilent (hr.closeConditional d number number') h
  · rw [hr.isActive_eq]
    split at h
    next hactive =>
      cases h
      exact ⟨r', if_pos hactive, hr⟩
    next hactive =>
      rw [if_neg hactive]
      split at h
      · exact hsilent (hr.define d number number') h
      · exact hsilent (hr.undefine d number number') h
      · split at h
        · cases h
        · obtain ⟨⟨included, defines⟩, hincluded, h⟩ := bind_eq_ok.mp h
          cases h
          obtain ⟨line, rfl⟩ := hr
          rw [hinclude hincluded]
          exact ⟨_, rfl, line, rfl⟩
      · cases h

theorem expandRow_alike (hinclude : includeText'.Extends includeText) (hr : r.Alike r')
    (h : expandRow includeText number r line = .ok (text, next)) :
    ∃ next', expandRow includeText' number' r' line = .ok (text, next') ∧ next.Alike next' := by
  unfold expandRow at h ⊢
  split at h
  · exact Directive.apply_alike number' hinclude hr h
  · cases h
    rw [hr.isActive_eq]
    obtain ⟨first, rfl⟩ := hr
    exact ⟨_, rfl, first, rfl⟩

variable {rows texts : List (List Char)}

theorem expandLines_alike (hinclude : includeText'.Extends includeText) (hr : r.Alike r')
    (h : expandLines includeText number r rows = .ok (texts, next)) :
    ∃ next', expandLines includeText' number' r' rows = .ok (texts, next') ∧ next.Alike next' := by
  induction rows generalizing number number' r r' texts with
  | nil =>
    cases h
    exact ⟨r', rfl, hr⟩
  | cons line rows ih =>
    rw [expandLines_cons] at h ⊢
    obtain ⟨⟨text, middle⟩, ⟨more, last⟩, hfirst, hmore, h⟩ := bind₂_eq_ok.mp h
    cases h
    obtain ⟨middle', hfirst', hmiddle⟩ := expandRow_alike number' hinclude hr hfirst
    obtain ⟨last', hmore', hlast⟩ := ih (number' + 1) hmiddle hmore
    exact ⟨last', bind₂_eq_ok.mpr ⟨_, _, hfirst', hmore', rfl⟩, hlast⟩

theorem expandLines_ne_nil (h : expandLines includeText number r rows = .ok (texts, next)) (hrows : rows ≠ []) :
    texts ≠ [] := by
  obtain ⟨line, rest, rfl⟩ := exists_cons_of_ne_nil hrows
  rw [expandLines_cons] at h
  obtain ⟨_, _, _, _, h⟩ := bind₂_eq_ok.mp h
  cases h
  exact cons_ne_nil _ _

theorem expandLines_join {front rest behind last} (hfront : expandLines includeText number r front = .ok (texts, next))
    (hrest : expandLines includeText (number + front.length) next rest = .ok (behind, last)) :
    expandLines includeText number r (front ++ rest) = .ok (texts ++ behind, last) := by
  induction front generalizing number r texts with
  | nil =>
    cases hfront
    exact hrest
  | cons line front ih =>
    rw [expandLines_cons] at hfront
    obtain ⟨⟨text, middle⟩, ⟨more, last'⟩, hfirst, hmore, hfront⟩ := bind₂_eq_ok.mp hfront
    cases hfront
    rw [cons_append, expandLines_cons]
    have hnumber : number + (line :: front).length = number + 1 + front.length := by
      rw [length_cons]
      omega
    exact bind₂_eq_ok.mpr ⟨_, _, hfirst, ih hmore (hnumber ▸ hrest), rfl⟩

end

theorem expandText_eq_ok {text out defines defines'} : expandText includeText text defines = .ok (out, defines') ↔
      ∃ texts, expandLines includeText 1 { defines } (lines text) = .ok (texts, { defines := defines' }) ∧
        out = joinLines texts := by
  constructor
  · intro h
    obtain ⟨⟨texts, ⟨last, conditional⟩⟩, hlines, h⟩ := bind_eq_ok.mp h
    cases conditional with
    | none =>
      cases h
      exact ⟨texts, hlines, rfl⟩
    | some c => cases h
  · rintro ⟨texts, hlines, rfl⟩
    exact bind_eq_ok.mpr ⟨_, hlines, rfl⟩

theorem includer_extends (loader : Loader) (depth : Nat) :
    (includer loader (depth + 1)).Extends (includer loader depth) := by
  induction depth with
  | zero => exact fun h => by cases h
  | succ depth ih =>
    intro path defines ⟨out, defines'⟩ h
    unfold includer at h ⊢
    split at h
    · cases h
    · obtain ⟨texts, hlines, rfl⟩ := expandText_eq_ok.mp h
      obtain ⟨last, hlines', hlast⟩ := expandLines_alike 1 ih (.refl _) hlines
      cases hlast.eq_of_none rfl
      exact expandText_eq_ok.mpr ⟨texts, hlines', rfl⟩

theorem joinLines_nested (before : List (List Char)) {included} (h : included ≠ []) (behind : List (List Char)) :
    joinLines (before ++ joinLines included :: behind) = joinLines (before ++ (included ++ behind)) := by
  obtain ⟨first, more, rfl⟩ := exists_cons_of_ne_nil h
  have hjoin := joinLines_eq [] first more
  rw [nil_append] at hjoin
  rw [cons_append, joinLines_eq, joinLines_eq, hjoin]
  simp

/-- **An inclusion is its lines.**  If a source is expanded in which a line outside of conditionals includes a text of
at least one line, a source that has the lines of the text in its place is expanded to the same.  The lines before
it are expanded as they are without it, and what the text defines holds for those behind it. -/
theorem expand_inclusion {source path text out : String} {defines : Defines} {loader : Loader}
    {before behind texts : List (List Char)} {line : List Char} {d : Directive} {r : Reading}
    (h : expand source defines loader = .ok out) (hlines : lines source.toList = before ++ line :: behind)
    (hline : Directive.ofLine? line = some d) (hname : d.name = "include") (hpath : quotedPath? d.rest = some path)
    (hbefore : expandLines (includer loader includeDepth) 1 { defines } before = .ok (texts, r))
    (hopen : r.conditional = none) (htext : loader path = .ok text) (hne : lines text.toList ≠ []) :
    (∀ inlined : String, lines inlined.toList = before ++ (lines text.toList ++ behind) →
      expand inlined defines loader = .ok out) ∧
    ∃ included rest r' last,
      expandLines (includer loader includeDepth) (1 + before.length) r (lines text.toList) = .ok (included, r') ∧
      expandLines (includer loader includeDepth) (1 + before.length + (lines text.toList).length) r' behind
        = .ok (rest, last) ∧
      out.toList = joinLines (texts ++ (included ++ rest)) := by
  obtain ⟨⟨whole, defines'⟩, hwhole, h⟩ := bind_eq_ok.mp h
  cases h
  obtain ⟨all, hall, rfl⟩ := expandText_eq_ok.mp hwhole
  rw [hlines] at hall
  obtain ⟨texts', r₀, rest, hfront, hrest, rfl⟩ := expandLines_append hall
  cases hbefore.symm.trans hfront
  obtain ⟨now, conditional⟩ := r
  cases hopen
  -- the line gives the joined lines of the text
  rw [expandLines_cons, expandRow, hline] at hrest
  obtain ⟨⟨shown, middle⟩, ⟨more, last⟩, hshown, hmore, hrest⟩ := bind₂_eq_ok.mp hrest
  cases hrest
  have happly : d.apply (includer loader includeDepth) (1 + before.length) { defines := now }
      = includer loader includeDepth path now >>= fun x => .ok (x.1, { defines := x.2 }) := by
    unfold Directive.apply
    simp only [hname, hpath]
    rfl
  dsimp only at hshown
  rw [happly] at hshown
  obtain ⟨⟨joined, after⟩, hjoined, hshown⟩ := bind_eq_ok.mp hshown
  cases hshown
  unfold includeDepth includer at hjoined
  rw [htext] at hjoined
  obtain ⟨included, hincluded, rfl⟩ := expandText_eq_ok.mp hjoined
  -- the same lines where the line was, and what is behind them
  obtain ⟨_, hincluded', hafter⟩ :=
    expandLines_alike (1 + before.length) (includer_extends loader 31) (.refl _) hincluded
  cases hafter.eq_of_none rfl
  obtain ⟨_, hmore', hlast⟩ := expandLines_alike (1 + before.length + (lines text.toList).length)
    (fun h => h) (.refl _) hmore
  cases hlast.eq_of_none rfl
  have hout := joinLines_nested texts (expandLines_ne_nil hincluded hne) more
  refine ⟨fun inlined hinlined => ?_, included, more, _, _, hincluded', hmore', by rw [String.toList_ofList, hout]⟩
  have hall := expandLines_join hbefore (expandLines_join hincluded' hmore')
  rw [← hinlined] at hall
  rw [hout]
  exact bind_eq_ok.mpr ⟨_, expandText_eq_ok.mpr ⟨_, hall, rfl⟩, rfl⟩

def renamingText : String := "A\n#undef A\n#ifndef A\n#define B 2\n#endif"

def renamingLoader : Loader := fun _ => .ok renamingText

theorem expand_inclusion_renaming :
    (expand "#include \"p\"\nA B" ⟨[(['A'], ['1'])]⟩ renamingLoader).toOption = some "1\n\n\n\n\nA 2" ∧
    expand (renamingText ++ "\nA B") ⟨[(['A'], ['1'])]⟩ renamingLoader = .ok "1\n\n\n\n\nA 2" := by
  have hout : (expand "#include \"p\"\nA B" ⟨[(['A'], ['1'])]⟩ renamingLoader).toOption
      = some "1\n\n\n\n\nA 2" := by decide +kernel
  have hlines : lines "#include \"p\"\nA B".toList = [] ++ "#include \"p\"".toList :: ["A B".toList] := by
    decide +kernel
  have hline : Directive.ofLine? "#include \"p\"".toList = some ⟨"include", ['"', 'p', '"']⟩ := rfl
  have hpath : quotedPath? ['"', 'p', '"'] = some "p" := by decide +kernel
  have htext : lines renamingText.toList ≠ [] := by decide +kernel
  have hinlined := (expand_inclusion (ok_of_toOption hout) hlines hline rfl hpath rfl rfl rfl htext).1
  exact ⟨hout, hinlined _ (by decide +kernel)⟩

end Microcode.Source
