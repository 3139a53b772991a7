import Microcode.Proofs.Sweep

/-!
Expanded lines hold no defined names.

What replaces a name stands between characters that belong to no name, so names neither join nor fall apart there.
If it has its quotes in pairs, it changes nothing about what is quoted behind it.
-/

namespace Microcode.Source

open List

/-- The names in a text: the runs of name characters outside quotes that do not start with a digit. -/
def words (quoted : Bool) (text : List Char) : List (List Char) := match text with
  | [] => []
  | c :: rest =>
    if c = '"' then words (!quoted) rest
    else if quoted || !isNameChar c then words quoted rest
    else
      (if isNameStart c then [c :: rest.takeWhile isNameChar] else []) ++ words quoted (rest.dropWhile isNameChar)
termination_by text.length
decreasing_by all_goals
    have := (dropWhile_sublist isNameChar (l := rest)).length_le
    simp_all +arith

/-- Whether a quote is open behind a text. -/
def quotedAfter (quoted : Bool) (text : List Char) : Bool := quoted != decide (text.count '"' % 2 = 1)

/-- All quotes in the values are in pairs, and a name in the value of another has a smaller rank. -/
structure Defines.IsRanked (d : Defines) (rank : List Char → Nat) : Prop where
  paired : ∀ {name value}, d.get? name = some value → value.count '"' % 2 = 0
  bounded : ∀ {name value}, d.get? name = some value → 1 ≤ rank name ∧ rank name ≤ 16
  descends : ∀ {name value}, d.get? name = some value →
    ∀ word ∈ words false value, d.contains word → rank word < rank name

variable {quoted : Bool} {text run rest out : List Char} {c : Char} {replace : List Char → List Char}

theorem quotedAfter_quote : quotedAfter quoted ('"' :: rest) = quotedAfter (!quoted) rest := by
  unfold quotedAfter
  rw [count_cons_self, Nat.add_mod]
  rcases Nat.mod_two_eq_zero_or_one (rest.count '"') with h | h <;> cases quoted <;> simp [h]

theorem count_run (h : '"' ∉ c :: run) : (c :: (run ++ rest)).count '"' = rest.count '"' := by
  rw [← cons_append, count_append, count_eq_zero_of_not_mem h, Nat.zero_add]

theorem not_mem_run (hc : isNameChar c) (hrun : ∀ x ∈ run, isNameChar x) : '"' ∉ c :: run := by
  have hall : ∀ x ∈ c :: run, isNameChar x := forall_mem_cons.mpr ⟨hc, hrun⟩
  exact fun hmem => (isNameChar_ne (hall _ hmem)).2.2 rfl

theorem quotedAfter_run (h : '"' ∉ c :: run) : quotedAfter quoted (c :: (run ++ rest)) = quotedAfter quoted rest := by
  rw [quotedAfter, count_run h, quotedAfter]

theorem words_quote : words quoted ('"' :: rest) = words (!quoted) rest := by rw [words, if_pos rfl]

theorem words_skip (hc : c ≠ '"') (h : (quoted || !isNameChar c)) : words quoted (c :: rest) = words quoted rest := by
  rw [words, if_neg hc, if_pos h]

theorem words_word (hc : isNameStart c) (hrun : ∀ x ∈ run, isNameChar x) (hrest : rest.head?.any isNameChar = false) :
    words false (c :: (run ++ rest)) = (c :: run) :: words false rest := by
  have hname := isNameChar_of_isNameStart hc
  rw [words, if_neg (isNameChar_ne hname).2.2, if_neg (by simp [hname]), if_pos hc, takeWhile_run hrun hrest,
    dropWhile_run hrun hrest]
  rfl

theorem words_number (hc : c.isDigit) (hrun : ∀ x ∈ run, isNameChar x)
    (hrest : rest.head?.any isNameChar = false) : words quoted (c :: (run ++ rest)) = words quoted rest := by
  have hname := isNameChar_of_isDigit hc
  cases quoted with
  | false =>
    rw [words, if_neg (isNameChar_ne hname).2.2, if_neg (by simp [hname]), if_neg (by simp [isNameStart_of_isDigit hc]),
      dropWhile_run hrun hrest]
    rfl
  | true =>
    rw [words_skip (isNameChar_ne hname).2.2 rfl]
    induction run with
    | nil => rfl
    | cons d run ih =>
      obtain ⟨hd, hrun⟩ := forall_mem_cons.mp hrun
      rw [cons_append, words_skip (isNameChar_ne hd).2.2 rfl, ih hrun]

/-- What replacing its names makes of a text, piece by piece. -/
inductive Replaced (replace : List Char → List Char) : Bool → List Char → List Char → Prop
  | nil {quoted : Bool} : Replaced replace quoted [] []
  | quote {quoted : Bool} {rest out : List Char} (h : Replaced replace (!quoted) rest out) :
      Replaced replace quoted ('"' :: rest) ('"' :: out)
  | word {c : Char} {run rest out : List Char} (hc : isNameStart c) (hrun : ∀ x ∈ run, isNameChar x)
      (hrest : rest.head?.any isNameChar = false) (h : Replaced replace false rest out) :
      Replaced replace false (c :: (run ++ rest)) (replace (c :: run) ++ out)
  | number {quoted : Bool} {c : Char} {run rest out : List Char} (hc : c.isDigit)
      (hrun : ∀ x ∈ run, isNameChar x) (hrest : rest.head?.any isNameChar = false)
      (h : Replaced replace quoted rest out) : Replaced replace quoted (c :: (run ++ rest)) (c :: (run ++ out))
  | other {quoted : Bool} {c : Char} {rest out : List Char} (hc : c ≠ '"') (hskip : (quoted || !isNameChar c))
      (h : Replaced replace quoted rest out) : Replaced replace quoted (c :: rest) (c :: out)

theorem replaced_replaceWords (replace : List Char → List Char) (quoted : Bool) (text : List Char) :
    Replaced replace quoted text (replaceWords replace quoted text) := by
  fun_induction replaceWords replace quoted text with
  | case1 => exact .nil
  | case2 quoted rest ih => exact .quote ih
  | case3 quoted c rest hquote hname ih =>
    obtain ⟨rfl, hc⟩ : quoted = false ∧ isNameStart c := by simpa using hname
    obtain ⟨run, behind, rfl, hrun, hbehind⟩ := exists_run isNameChar rest
    rw [takeWhile_run hrun hbehind, dropWhile_run hrun hbehind] at *
    exact .word hc hrun hbehind ih
  | case4 quoted c rest hquote hname hdigit ih =>
    obtain ⟨run, behind, rfl, hrun, hbehind⟩ := exists_run isNameChar rest
    rw [takeWhile_run hrun hbehind, dropWhile_run hrun hbehind] at *
    exact .number hdigit hrun hbehind ih
  | case5 quoted c rest hquote hname hdigit ih =>
    refine .other hquote ?_ ih
    simp only [isNameStart, isNameChar, Char.isAlphanum] at hname ⊢
    cases quoted <;> simp_all

namespace Replaced

theorem boundary (h : Replaced replace quoted text out) (htext : text.head?.any isNameChar = false) :
    out.head?.any isNameChar = false := by
  cases h with
  | nil => rfl
  | quote => rfl
  | word hc =>
    rw [head?_cons, Option.any_some, isNameChar_of_isNameStart hc] at htext
    cases htext
  | number hc | other => exact htext

theorem words_append (h : Replaced replace quoted text out) (hrest : rest.head?.any isNameChar = false) :
    words quoted (text ++ rest) = words quoted text ++ words (quotedAfter quoted text) rest := by
  induction h with
  | nil => simp [words, quotedAfter]
  | quote _ ih => rw [cons_append, words_quote, words_quote, quotedAfter_quote, ih]
  | word hc hrun hbehind _ ih =>
    rw [cons_append, append_assoc, words_word hc hrun (head_append_any hbehind hrest),
      words_word hc hrun hbehind, ih, quotedAfter_run (not_mem_run (isNameChar_of_isNameStart hc) hrun)]
    rfl
  | number hc hrun hbehind _ ih =>
    rw [cons_append, append_assoc, words_number hc hrun (head_append_any hbehind hrest),
      words_number hc hrun hbehind, ih, quotedAfter_run (not_mem_run (isNameChar_of_isDigit hc) hrun)]
  | @other quoted c rest _ hc hskip _ ih =>
    have hquoted : quotedAfter quoted (c :: rest) = quotedAfter quoted rest :=
      quotedAfter_run (not_mem_cons_of_ne_of_not_mem hc.symm not_mem_nil)
    rw [cons_append, words_skip hc hskip, words_skip hc hskip, ih, hquoted]

theorem eq_self (h : Replaced replace quoted text out) (hself : ∀ word ∈ words quoted text, replace word = word) :
    out = text := by
  induction h with
  | nil => rfl
  | quote _ ih => rw [ih (by rwa [words_quote] at hself)]
  | word hc hrun hrest _ ih =>
    rw [words_word hc hrun hrest, forall_mem_cons] at hself
    rw [hself.1, ih hself.2]
    rfl
  | number hc hrun hrest _ ih => rw [ih (by rwa [words_number hc hrun hrest] at hself)]
  | other hc hskip _ ih => rw [ih (by rwa [words_skip hc hskip] at hself)]

theorem forall_words {P : List Char → Prop} (h : Replaced replace quoted text out)
    (hreplace : ∀ c run, isNameStart c → (∀ x ∈ run, isNameChar x) → c :: run ∈ words quoted text →
      (replace (c :: run)).count '"' % 2 = 0 ∧ ∀ word ∈ words false (replace (c :: run)), P word) :
    out.count '"' % 2 = text.count '"' % 2 ∧ ∀ word ∈ words quoted out, P word := by
  induction h with
  | nil => exact ⟨rfl, by simp [words]⟩
  | quote _ ih =>
    rw [words_quote] at hreplace ⊢
    obtain ⟨hcount, hwords⟩ := ih hreplace
    refine ⟨?_, hwords⟩
    rw [count_cons_self, count_cons_self]
    omega
  | @word c run rest out hc hrun hrest h ih =>
    rw [words_word hc hrun hrest] at hreplace
    obtain ⟨heven, hfirst⟩ := hreplace c run hc hrun (.head _)
    obtain ⟨hcount, hwords⟩ := ih fun d more hd hmore hmem => hreplace d more hd hmore (.tail _ hmem)
    have hafter : quotedAfter false (replace (c :: run)) = false := by simp [quotedAfter, heven]
    rw [count_run (not_mem_run (isNameChar_of_isNameStart hc) hrun), count_append,
      words_append (replaced_replaceWords id false _) (h.boundary hrest), hafter]
    exact ⟨by omega, forall_mem_append.mpr ⟨hfirst, hwords⟩⟩
  | number hc hrun hrest h ih =>
    have hquote := not_mem_run (isNameChar_of_isDigit hc) hrun
    rw [words_number hc hrun hrest] at hreplace
    rw [count_run hquote, count_run hquote, words_number hc hrun (h.boundary hrest)]
    exact ih hreplace
  | other hc hskip _ ih =>
    rw [words_skip hc hskip] at hreplace ⊢
    rw [count_cons_of_ne hc, count_cons_of_ne hc]
    exact ih hreplace

end Replaced

namespace Defines.IsRanked

variable {d : Defines} {rank : List Char → Nat}

theorem expand_eq_self (hundefined : ∀ word ∈ words false text, d.contains word = false) (depth : Nat) :
    d.expand depth text = text := by
  have hget (word : List Char) (hword : word ∈ words false text) : d.get? word = none := by
    simpa [contains] using hundefined word hword
  cases depth with
  | zero
  | succ depth => exact (replaced_replaceWords _ false text).eq_self fun word hword => by simp [hget word hword]

theorem forall_expand (h : d.IsRanked rank) (depth : Nat)
    (htext : ∀ word ∈ words false text, d.contains word → rank word ≤ depth) :
    (d.expand depth text).count '"' % 2 = text.count '"' % 2 ∧
      ∀ word ∈ words false (d.expand depth text), d.contains word = false := by
  induction depth generalizing text with
  | zero =>
    have hundefined (word : List Char) (hword : word ∈ words false text) : d.contains word = false := by
      refine Bool.eq_false_iff.mpr fun hdefined => ?_
      obtain ⟨value, hvalue⟩ := Option.isSome_iff_exists.mp hdefined
      have hpositive := (h.bounded hvalue).1
      have hzero := htext word hword hdefined
      omega
    rw [expand_eq_self hundefined]
    exact ⟨rfl, hundefined⟩
  | succ depth ih =>
    refine (replaced_replaceWords _ false text).forall_words fun c run hc hrun hword => ?_
    cases hget : d.get? (c :: run) with
    | some value =>
      obtain ⟨hcount, hwords⟩ := @ih value fun word hmem hdefined => by
        have hless := h.descends hget word hmem hdefined
        have hrank := htext _ hword (by rw [contains, hget]; rfl)
        omega
      exact ⟨hcount.trans (h.paired hget), hwords⟩
    | none =>
      have hself : words false (c :: run) = [c :: run] := by simpa [words] using @words_word run [] c hc hrun rfl
      refine ⟨?_, ?_⟩
      · rw [count_eq_zero_of_not_mem (not_mem_run (isNameChar_of_isNameStart hc) hrun)]
      · simp [hself, contains, hget]

end Defines.IsRanked

/-- **An expanded line is done.**  If the names can be ranked, no name of an expanded line is defined, and to expand
the line again changes nothing. -/
theorem expandLine_expandLine {d : Defines} {rank : List Char → Nat} (h : d.IsRanked rank) (text : List Char) :
    (∀ word ∈ words false (d.expandLine text), d.contains word = false) ∧
      d.expandLine (d.expandLine text) = d.expandLine text := by
  have hundefined : ∀ word ∈ words false (d.expandLine text), d.contains word = false := by
    refine (h.forall_expand expansionDepth fun word _ hdefined => ?_).2
    obtain ⟨value, hvalue⟩ := Option.isSome_iff_exists.mp hdefined
    exact (h.bounded hvalue).2
  exact ⟨hundefined, Defines.IsRanked.expand_eq_self hundefined expansionDepth⟩

def quotingDefines : Defines := ⟨[(['A'], ['B', '"', 'A', '"', 'B']), (['B'], ['2'])]⟩

theorem quotingDefines_expandLine :
    quotingDefines.IsRanked (fun name => if name = ['A'] then 2 else 1) ∧
      quotingDefines.expandLine (quotingDefines.expandLine "A + B".toList)
        = quotingDefines.expandLine "A + B".toList := by
  have hcases {name value : List Char} (h : quotingDefines.get? name = some value) :
      name = ['A'] ∧ value = ['B', '"', 'A', '"', 'B'] ∨ name = ['B'] ∧ value = ['2'] := by
    obtain ⟨front, rest, hentries, -⟩ := List.lookup_eq_some_iff.mp h
    have hmem : (name, value) ∈ quotingDefines.entries := by simp [hentries]
    simpa [quotingDefines] using hmem
  have hranked : quotingDefines.IsRanked fun name => if name = ['A'] then 2 else 1 := by
    have hfirst : words false ['B', '"', 'A', '"', 'B'] = [['B'], ['B']] := by decide +kernel
    have hsecond : words false ['2'] = [] := by decide +kernel
    refine ⟨fun h => ?_, fun h => ?_, fun h => ?_⟩ <;> obtain ⟨rfl, rfl⟩ | ⟨rfl, rfl⟩ := hcases h
    all_goals first | decide | simp [hfirst, hsecond]
  exact ⟨hranked, (expandLine_expandLine hranked _).2⟩

end Microcode.Source
