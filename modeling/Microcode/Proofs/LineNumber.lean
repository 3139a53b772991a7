import Mathlib
import Microcode.Diagnostic
import Microcode.Proofs.Sweep

/-!
Which line of an expanded text a line of the source is.

Every line of a source gives a text, and the texts are put together with a line feed between two of them.  All but
those that are included are on one line.
-/

namespace Microcode.Source

open Text List Directive

def Defines.IsFlat (d : Defines) : Prop := ∀ e ∈ d.entries, '\n' ∉ e.2

def Includer.IsFlat (includeText : Includer) : Prop :=
  ∀ {path d text d'}, d.IsFlat → includeText path d = .ok (text, d') → d'.IsFlat

def IsInclude (line : List Char) : Prop := ∃ d, ofLine? line = some d ∧ d.name = "include"

variable {text line : List Char} {replace : List Char → List Char} {d : Directive} {r : Reading}

theorem not_mem_lines (h : line ∈ lines text) : '\n' ∉ line := by
  fun_induction lines text generalizing line with
  | case1 => cases h
  | case2 rest ih | case3 rest ih =>
    rcases mem_cons.mp h with rfl | h
    · exact not_mem_nil
    · exact ih h
  | case4 c rest hfeed hreturn hlines ih =>
    rw [mem_singleton.mp h]
    exact not_mem_cons_of_ne_of_not_mem (Ne.symm hfeed) not_mem_nil
  | case5 c rest hfeed hreturn first more hlines ih =>
    rw [hlines] at ih
    rcases mem_cons.mp h with rfl | h
    · exact not_mem_cons_of_ne_of_not_mem (Ne.symm hfeed) (ih (.head _))
    · exact ih (.tail _ h)

theorem not_mem_replaceWords (hreplace : ∀ w, '\n' ∉ w → '\n' ∉ replace w) (quoted : Bool) (h : '\n' ∉ text) :
    '\n' ∉ replaceWords replace quoted text := by
  have hparts {c : Char} {rest : List Char} (h : '\n' ∉ c :: rest) :
      '\n' ∉ c :: rest.takeWhile isNameChar ∧ '\n' ∉ rest.dropWhile isNameChar :=
    ⟨fun hmem => h (((takeWhile_sublist _).cons_cons c).mem hmem),
      fun hmem => h (((dropWhile_sublist _).cons c).mem hmem)⟩
  fun_induction replaceWords replace quoted text with
  | case1 => exact h
  | case2 quoted rest ih => 
    exact not_mem_cons_of_ne_of_not_mem (by decide) (ih (not_mem_of_not_mem_cons h))
  | case3 quoted c rest hquote hname ih => exact not_mem_append (hreplace _ (hparts h).1) (ih (hparts h).2)
  | case4 quoted c rest hquote hname hdigit ih => exact not_mem_append (hparts h).1 (ih (hparts h).2)
  | case5 quoted c rest hquote hname hdigit ih =>
    exact not_mem_cons_of_ne_of_not_mem (ne_of_not_mem_cons h) (ih (not_mem_of_not_mem_cons h))

theorem Defines.IsFlat.not_mem_expand {d : Defines} (h : d.IsFlat) (depth : Nat) (htext : '\n' ∉ text) :
    '\n' ∉ d.expand depth text := by
  have hvalue {word value : List Char} (hget : d.get? word = some value) : '\n' ∉ value := h _ (mem_of_lookup hget)
  induction depth generalizing text with
  | zero =>
    refine not_mem_replaceWords (fun word hword => ?_) false htext
    cases hget : d.get? word with
    | none => exact hword
    | some value => exact hvalue hget
  | succ depth ih =>
    refine not_mem_replaceWords (fun word hword => ?_) false htext
    split
    next value hget => exact ih (hvalue hget)
    · exact hword

theorem not_mem_trim (h : '\n' ∉ text) : '\n' ∉ trim text := by
  intro hmem
  have hmem := (dropWhile_sublist _).mem (mem_reverse.mp hmem)
  exact h ((dropWhile_sublist _).mem (mem_reverse.mp hmem))

theorem not_mem_splitAtBlank (h : '\n' ∉ text) : '\n' ∉ (splitAtBlank text).2 := fun hmem =>
  h ((dropWhile_sublist _).mem (mem_of_mem_drop hmem))

theorem Directive.not_mem_rest (h : ofLine? line = some d) (hline : '\n' ∉ line) : '\n' ∉ d.rest := by
  unfold ofLine? at h
  split at h
  next text htext =>
    cases h
    have htext : '\n' ∉ text := fun hmem =>
      hline ((dropWhile_sublist _).mem (htext ▸ mem_cons_of_mem '#' hmem : '\n' ∈ trimStart line))
    exact not_mem_trim (not_mem_splitAtBlank fun hmem => htext ((dropWhile_sublist _).mem hmem))
  · cases h

theorem Defines.IsFlat.openConditional (h : r.defines.IsFlat) (d : Directive) (ifDefined : Bool) (line : Nat) :
    Yields (r.openConditional d ifDefined line) fun r => r.defines.IsFlat := by
  unfold Reading.openConditional
  split
  · exact .error
  · split
    · exact .error
    · exact .ok h

variable {line : Nat}

theorem Defines.IsFlat.define (h : r.defines.IsFlat) (hrest : '\n' ∉ d.rest) :
    Yields (r.define d line) fun r => r.defines.IsFlat := by
  unfold Reading.define
  dsimp only
  split
  · exact .error
  · split
    · refine .ok fun e he => ?_
      rcases mem_cons.mp he with rfl | he
      · exact not_mem_trim (not_mem_splitAtBlank hrest)
      · exact h e (mem_filter.mp he).1
    · exact .error

theorem Directive.apply_flat {includeText r'}
    (h : d.apply includeText line r = .ok (text, r')) (hinclude : includeText.IsFlat) (hrest : '\n' ∉ d.rest)
    (hflat : r.defines.IsFlat) : r'.defines.IsFlat ∧ ('\n' ∈ text → d.name = "include") := by
  have hsilent {x : Except SourceError Reading} (hx : Yields x fun r => r.defines.IsFlat)
      (h : (x.map fun r => (([] : List Char), r)) = .ok (text, r')) :
      r'.defines.IsFlat ∧ ('\n' ∈ text → d.name = "include") := by
    obtain ⟨r, hr, heq⟩ := map_eq_ok.mp h
    cases heq
    exact ⟨hx r' hr, fun hmem => absurd hmem not_mem_nil⟩
  unfold apply at h
  split at h
  · exact hsilent (hflat.openConditional d true line) h
  · exact hsilent (hflat.openConditional d false line) h
  · refine hsilent ?_ h
    unfold Reading.otherBranch
    split
    · exact .error
    · split
      · exact .error
      · exact .ok hflat
  · refine hsilent ?_ h
    unfold Reading.closeConditional
    split
    · exact .error
    · exact .ok hflat
  · split at h
    · cases h
      exact ⟨hflat, by simp⟩
    · split at h
      · exact hsilent (hflat.define hrest) h
      · refine hsilent ?_ h
        unfold Reading.undefine
        split
        · exact .error
        · exact .ok fun e he => hflat e (mem_filter.mp he).1
      · split at h
        · cases h
        · obtain ⟨⟨included, defines⟩, hincluded, h⟩ := bind_eq_ok.mp h
          cases h
          exact ⟨hinclude hflat hincluded, fun _ => by assumption⟩
      · cases h

section
variable {includeText : Includer} {number : Nat} {r r' : Reading} {texts : List (List Char)}

def expandRow (includeText : Includer) (number : Nat) (r : Reading) (line : List Char) :
    Except SourceError (List Char × Reading) :=
  match ofLine? line with
  | some d => d.apply includeText number r
  | none => .ok (if r.isActive then r.defines.expandLine line else [], r)

theorem expandLines_cons (line : List Char) (rows : List (List Char)) :
    expandLines includeText number r (line :: rows) = expandRow includeText number r line >>= fun x =>
      expandLines includeText (number + 1) x.2 rows >>= fun y => .ok (x.1 :: y.1, y.2) := by
  rw [expandLines, expandRow]
  cases ofLine? line <;> rfl

variable {rows : List (List Char)}

theorem expandLines_flat (hinclude : includeText.IsFlat) (hrows : ∀ line ∈ rows, '\n' ∉ line)
    (hflat : r.defines.IsFlat) (h : expandLines includeText number r rows = .ok (texts, r')) :
    r'.defines.IsFlat ∧ texts.length = rows.length ∧ ∀ p ∈ rows.zip texts, '\n' ∈ p.2 → IsInclude p.1 := by
  induction rows generalizing number r texts with
  | nil =>
    cases h
    exact ⟨hflat, rfl, by simp⟩
  | cons line rows ih =>
    obtain ⟨hline, hrows⟩ := forall_mem_cons.mp hrows
    rw [expandLines_cons] at h
    obtain ⟨⟨text, next⟩, ⟨more, last⟩, hfirst, hmore, h⟩ := bind₂_eq_ok.mp h
    cases h
    have hnext : next.defines.IsFlat ∧ ('\n' ∈ text → IsInclude line) := by
      unfold expandRow at hfirst
      split at hfirst
      next d hd =>
        obtain ⟨hnext, htext⟩ := apply_flat hfirst hinclude (not_mem_rest hd hline) hflat
        exact ⟨hnext, fun hmem => ⟨d, hd, htext hmem⟩⟩
      · cases hfirst
        refine ⟨hflat, fun hmem => ?_⟩
        split at hmem
        · exact absurd hmem (hflat.not_mem_expand _ hline)
        · cases hmem
    obtain ⟨hlast, hlength, hincludes⟩ := ih hrows hnext.1 hmore
    refine ⟨hlast, congrArg Nat.succ hlength, fun p hp => ?_⟩
    rcases mem_cons.mp hp with rfl | hp
    · exact hnext.2
    · exact hincludes p hp

theorem includer_flat (loader : Loader) (depth : Nat) : (includer loader depth).IsFlat := by
  induction depth with
  | zero => exact fun _ h => by cases h
  | succ depth ih =>
    intro path d text d' hflat h
    unfold includer at h
    split at h
    · cases h
    · obtain ⟨⟨texts, r⟩, hlines, h⟩ := bind_eq_ok.mp h
      dsimp only at h
      split at h
      · cases h
      · cases h
        exact (expandLines_flat ih (fun _ => not_mem_lines) hflat hlines).1

theorem expandLines_append {front rest} (h : expandLines includeText number r (front ++ rest) = .ok (texts, r')) :
    ∃ before next behind, expandLines includeText number r front = .ok (before, next) ∧
      expandLines includeText (number + front.length) next rest = .ok (behind, r') ∧ texts = before ++ behind := by
  induction front generalizing number r texts with
  | nil => exact ⟨[], r, texts, rfl, h, rfl⟩
  | cons line front ih =>
    rw [cons_append, expandLines_cons] at h
    obtain ⟨⟨text, next⟩, ⟨more, last⟩, hfirst, hmore, h⟩ := bind₂_eq_ok.mp h
    cases h
    obtain ⟨before, middle, behind, hbefore, hbehind, rfl⟩ := ih hmore
    refine ⟨text :: before, middle, behind, ?_, by simpa [Nat.add_assoc, Nat.add_comm 1] using hbehind, rfl⟩
    rw [expandLines_cons, hfirst]
    simp [hbefore, bind, Except.bind]

theorem joinLines_eq (before : List (List Char)) (text : List Char) (behind : List (List Char)) :
    joinLines (before ++ text :: behind) = before.flatMap (· ++ ['\n']) ++ text ++ behind.flatMap ('\n' :: ·) := by
  have hbehind (text : List Char) (behind : List (List Char)) :
      joinLines (text :: behind) = text ++ behind.flatMap ('\n' :: ·) := by
    induction behind generalizing text with
    | nil => simp [joinLines]
    | cons next behind ih => simp [joinLines, ih]
  induction before with
  | nil => simp [hbehind]
  | cons first before ih =>
    obtain ⟨next, more, hnext⟩ := exists_cons_of_ne_nil (l := before ++ text :: behind) (by simp)
    have hjoin : joinLines (first :: next :: more) = first ++ '\n' :: joinLines (next :: more) := rfl
    rw [cons_append, hnext, hjoin, ← hnext, ih]
    simp

theorem count_feeds (texts : List (List Char)) :
    (texts.flatMap (· ++ ['\n'])).count '\n' = texts.length + (texts.map (List.count '\n')).sum := by
  induction texts with
  | nil => rfl
  | cons text texts ih =>
    simp only [flatMap_cons, count_append, ih, map_cons, sum_cons, length_cons, count_singleton_self]
    omega

end

/-- **Lines move by what is included before them.**  A line that is no directive stands in the expansion of its source,
with its names replaced, as one line or as an empty one.  Before it there are as many lines as in the source, and as many
more as there are line feeds in the texts before it, of which only those of inclusions have any.  If they have none, a
report on the line shows the line. -/
theorem expand_line {source out : String} {defines : Defines} {loader : Loader}
    (h : expand source defines loader = .ok out) (hflat : defines.IsFlat) {before behind : List (List Char)}
    {line : List Char} (hlines : lines source.toList = before ++ line :: behind) (hline : Directive.ofLine? line = none) :
    ∃ (texts : List (List Char)) (r : Reading) (rest : List (List Char)),
      expandLines (includer loader includeDepth) 1 { defines } before = .ok (texts, r) ∧
      out.toList = texts.flatMap (· ++ ['\n']) ++ (if r.isActive then r.defines.expandLine line else [])
        ++ rest.flatMap ('\n' :: ·) ∧
      (r.isActive = true → '\n' ∉ r.defines.expandLine line) ∧
      (texts.flatMap (· ++ ['\n'])).count '\n' = before.length + (texts.map (List.count '\n')).sum ∧
      (∀ p ∈ before.zip texts, '\n' ∈ p.2 → IsInclude p.1) ∧
      ((texts.map (List.count '\n')).sum = 0 → ∀ (d : Diagnostic) col width,
        (d.located source ((texts.flatMap (· ++ ['\n'])).count '\n' + 1) col width).excerpt.map (·.text)
          = some (String.ofList line)) := by
  obtain ⟨⟨text, defines'⟩, htext, h⟩ := bind_eq_ok.mp h
  cases h
  obtain ⟨⟨all, last⟩, hall, htext⟩ := bind_eq_ok.mp htext
  dsimp only at htext
  split at htext
  · cases htext
  · cases htext
    have hrows : ∀ row ∈ lines source.toList, '\n' ∉ row := fun _ => not_mem_lines
    rw [hlines] at hall hrows
    obtain ⟨texts, r, rest, htexts, hrest, rfl⟩ := expandLines_append hall
    rw [expandLines_cons, expandRow, hline] at hrest
    obtain ⟨shown, hshown, hrest⟩ := bind_eq_ok.mp hrest
    obtain rfl := Except.ok.inj hshown
    obtain ⟨⟨more, last'⟩, hmore, hrest⟩ := bind_eq_ok.mp hrest
    cases hrest
    obtain ⟨hbefore, hrows⟩ := List.forall_mem_append.mp hrows
    obtain ⟨hr, hlength, hincludes⟩ := expandLines_flat (includer_flat loader _) hbefore hflat htexts
    have hcount := hlength ▸ count_feeds texts
    refine ⟨texts, r, more, htexts, by simp [joinLines_eq], fun _ => hr.not_mem_expand _ (hrows line List.mem_cons_self),
      hcount, hincludes, fun hsum d col width => ?_⟩
    rw [hcount, hsum]
    simp [Diagnostic.located, hlines]

theorem expand_line_included :
    (expand "#include \"a\"\nx" {} fun _ => .ok "p\nq").toOption = some "p\nq\nx" ∧
    ∃ texts r, expandLines (includer (fun _ => .ok "p\nq") includeDepth) 1 { defines := {} } ["#include \"a\"".toList]
        = .ok (texts, r) ∧
      (texts.flatMap (· ++ ['\n'])).count '\n' = 1 + (texts.map (List.count '\n')).sum := by
  have hout : (expand "#include \"a\"\nx" {} fun _ => .ok "p\nq").toOption = some "p\nq\nx" := by decide +kernel
  have hlines : lines "#include \"a\"\nx".toList = ["#include \"a\"".toList] ++ ['x'] :: [] := by decide +kernel
  obtain ⟨texts, r, -, htexts, -, -, hcount, -⟩ :=
    expand_line (ok_of_toOption hout) (by simp [Defines.IsFlat]) hlines rfl
  exact ⟨hout, texts, r, htexts, hcount⟩

end Microcode.Source
