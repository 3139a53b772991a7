import Microcode.Diagnostic

/-!
Diagnostics with their colours taken out.

A colour goes from an escape character through the next `m`.  Without colours a coloured diagnostic is the plain one,
except that the number of its line is not moved to the right: it is padded with its colour around it, and that is
longer than the column is wide.
-/

namespace Microcode

open List

def escape : Char := '\x1b'

/-- A text without its colours; `inside` says whether it starts in the middle of one. -/
def withoutColours (inside : Bool) : List Char → List Char
  | [] => []
  | c :: rest =>
    if inside then withoutColours (c != 'm') rest
    else if c = escape then withoutColours true rest
    else c :: withoutColours false rest

variable {text code : String} (rest : List Char)

theorem withoutColours_append (h : escape ∉ text.toList) :
    withoutColours false (text.toList ++ rest) = text.toList ++ withoutColours false rest := by
  generalize text.toList = cs at h
  induction cs with
  | nil => rfl
  | cons c cs ih =>
    obtain ⟨hc, hcs⟩ := not_or.mp (mt mem_cons.mpr h)
    rw [cons_append, withoutColours, if_neg (Ne.symm hc), ih hcs]
    rfl

theorem withoutColours_inside {cs : List Char} (h : 'm' ∉ cs) :
    withoutColours true (cs ++ 'm' :: rest) = withoutColours false rest := by
  induction cs with
  | nil => rfl
  | cons c cs ih =>
    obtain ⟨hc, hcs⟩ := not_or.mp (mt mem_cons.mpr h)
    rw [cons_append, withoutColours, if_pos rfl, bne_iff_ne.mpr (Ne.symm hc), ih hcs]

theorem withoutColours_paint (hcode : 'm' ∉ code.toList) (h : escape ∉ text.toList) :
    withoutColours false ((Palette.paint ⟨true⟩ code text).toList ++ rest)
      = text.toList ++ withoutColours false rest := by
  have hpaint : (Palette.paint ⟨true⟩ code text).toList ++ rest
      = escape :: ('[' :: code.toList ++ 'm' :: (text.toList ++ escape :: ("[0".toList ++ 'm' :: rest))) := by
    simp [Palette.paint, escape]
  rw [hpaint, withoutColours, if_neg (by simp), if_pos rfl, withoutColours_inside _ (by simpa using hcode),
    withoutColours_append _ h, withoutColours, if_neg (by simp), if_pos rfl, withoutColours_inside _ (by decide)]

theorem paint_plain : Palette.paint ⟨false⟩ code text = text := rfl

namespace Diagnostic

structure IsUncoloured (d : Diagnostic) : Prop where
  code : escape ∉ d.code.toList
  message : escape ∉ d.message.toList
  file : escape ∉ d.file.toList
  text : ∀ e, d.excerpt = some e → escape ∉ e.text.toList ∧ escape ∉ e.underline.toList
  suggestions : ∀ s ∈ d.suggestions, escape ∉ s.toList

theorem escape_notMem_numeral (n : Nat) : escape ∉ (toString n).toList := by
  intro h
  rw [Nat.toString_eq_ofList_toDigits, String.toList_ofList] at h
  have hdigit := Nat.isDigit_of_mem_toDigits (by decide) (by decide) h
  cases hdigit

variable {d : Diagnostic}

theorem IsUncoloured.location (h : d.IsUncoloured) {place : String} (hplace : d.location? = some place) :
    escape ∉ place.toList := by
  obtain ⟨line, -, rfl⟩ := Option.map_eq_some_iff.mp hplace
  have hcolon : escape ∉ ":".toList := by decide
  have hcol : escape ∉ ((d.col.map fun col => ":" ++ toString col).getD "").toList := by
    cases d.col with
    | none => decide
    | some col => simpa only [Option.map_some, Option.getD_some, String.toList_append, mem_append, not_or] using
        ⟨hcolon, escape_notMem_numeral col⟩
  simp only [String.toList_append, mem_append, not_or]
  exact ⟨⟨⟨h.file, hcolon⟩, escape_notMem_numeral line⟩, hcol⟩

/-- The colour around a text is longer than the column is wide. -/
theorem padLeft_paint (text : String) :
    Text.padLeft ' ' 3 (Palette.paint ⟨true⟩ "36" text) = Palette.paint ⟨true⟩ "36" text := by
  have hlength : 3 - (Palette.paint ⟨true⟩ "36" text).length = 0 := by
    simp [Palette.paint, ← String.length_toList]
  rw [Text.padLeft, hlength]
  exact String.empty_append

theorem withoutColours_help {suggestions : List String} (h : ∀ s ∈ suggestions, escape ∉ s.toList) :
    withoutColours false (String.join (suggestions.map fun text =>
      "   " ++ Palette.paint ⟨true⟩ "36" "=" ++ " " ++ Palette.paint ⟨true⟩ "36" "help" ++ ": " ++ text ++ "\n")).toList
    = (String.join (suggestions.map fun text => "   " ++ "=" ++ " " ++ "help" ++ ": " ++ text ++ "\n")).toList := by
  induction suggestions with
  | nil => rfl
  | cons text rest ih =>
    obtain ⟨htext, hrest⟩ := forall_mem_cons.mp h
    simp (disch := first | decide | assumption) only [map_cons, String.join_cons, String.toList_append, append_assoc,
      withoutColours_append, withoutColours_paint, ih hrest]

theorem indent_eq_zero (line : Nat) : 3 - (toString line).length = 0 ↔ 100 ≤ line := by
  have hdigits : (toString line).length ≤ 2 ↔ line < 100 := Nat.length_repr_le_iff (by decide)
  omega

/-- **Without its colours a coloured diagnostic** is the plain one exactly if no line is shown or its number has three
digits. -/
theorem withoutColours_coloured (h : d.IsUncoloured) : withoutColours false d.coloured.toList = d.plain.toList
    ↔ ∀ line e, d.line = some line → d.excerpt = some e → 100 ≤ line := by
  have hcode := h.code
  have hmessage := h.message
  have hhelp := withoutColours_help h.suggestions
  simp only [coloured, plain, render, Palette.red, Palette.yellow, Palette.bold, Palette.cyan, paint_plain,
    padLeft_paint]
  cases hline : d.line with
  | none =>
    have hplace : d.location? = none := by rw [location?, hline, Option.map_none]
    refine iff_of_true ?_ (by simp)
    cases d.severity <;> simp (disch := first | decide | assumption) only [hplace, String.toList_append, append_assoc,
      withoutColours_append, withoutColours_paint, hhelp]
  | some line =>
    obtain ⟨place, hplace⟩ : ∃ place, d.location? = some place := ⟨_, by rw [location?, hline, Option.map_some]⟩
    have hlocation := h.location hplace
    cases he : d.excerpt with
    | none =>
      refine iff_of_true ?_ (by simp)
      cases d.severity <;> simp (disch := first | decide | assumption) only [hplace, String.toList_append, append_assoc,
        withoutColours_append, withoutColours_paint, hhelp]
    | some e =>
      obtain ⟨htext, hunderline⟩ := h.text e he
      have hnumber := escape_notMem_numeral line
      -- What is left of the two texts are the blanks in front of the number.
      cases d.severity <;> simp (disch := first | decide | assumption) only [hplace, String.toList_append, append_assoc,
        withoutColours_append, withoutColours_paint, hhelp, Text.padLeft, append_cancel_left_eq, self_eq_append_left]
      all_goals simpa using indent_eq_zero line

def onLine (line : Nat) : Diagnostic :=
  ⟨.warning, "W0001", "m", "in.rspl", some line, none, some ⟨"u32 a;", "^^^^^^"⟩, []⟩

theorem onLine_withoutColours :
    withoutColours false (onLine 1).coloured.toList ≠ (onLine 1).plain.toList
    ∧ withoutColours false (onLine 100).coloured.toList = (onLine 100).plain.toList := by
  have huncoloured (line : Nat) : (onLine line).IsUncoloured :=
    ⟨show escape ∉ "W0001".toList by decide, show escape ∉ "m".toList by decide,
      show escape ∉ "in.rspl".toList by decide, fun e he => by cases he; decide, forall_mem_nil _⟩
  refine ⟨fun h => ?_, (withoutColours_coloured (huncoloured 100)).mpr fun line e hline _ => ?_⟩
  · exact absurd ((withoutColours_coloured (huncoloured 1)).mp h 1 _ rfl rfl) (by decide)
  · cases hline
    exact Nat.le_refl 100

end Diagnostic

end Microcode
