import Microcode.Source.Define
import Microcode.Text.Letter
import Microcode.Text.Numeral

/-!
Classes of characters, as the lexer and the replacement of names tell them apart, and runs of one class.

The lexer's words may have letters of any script; among the ASCII characters its words and the names that can be
replaced have the same.
-/

namespace Microcode

open Source Option Bool Text Char List

variable {c : Char}

theorem isDigit_iff : c.isDigit ↔ 48 ≤ c.toNat ∧ c.toNat ≤ 57 := by
  simp only [isDigit, and_eq_true, decide_eq_true_eq]
  exact Iff.rfl

theorem isAlpha_iff : c.isAlpha ↔ (65 ≤ c.toNat ∧ c.toNat ≤ 90) ∨ (97 ≤ c.toNat ∧ c.toNat ≤ 122) := by
  have hcases : c.isAlpha = (c.isUpper || c.isLower) := rfl
  have hupper : c.isUpper = decide (c.val ≥ 65 ∧ c.val ≤ 90) := rfl
  have hlower : c.isLower = (decide (c.val ≥ 97) && decide (c.val ≤ 122)) := rfl
  simp only [hcases, hupper, hlower, or_eq_true, and_eq_true, decide_eq_true_eq]
  exact Iff.rfl

theorem digitValue_of_isDigit (h : c.isDigit) : digitValue? 10 c = some (c.toNat - '0'.toNat) := by
  have hc : '0' ≤ c ∧ c ≤ '9' := by simpa [isDigit, le_def] using h
  have hvalue : c.toNat - 48 < 10 := by
    have hle : c.toNat ≤ 57 := hc.2
    omega
  simp only [digitValue?, hc, decide_true, Bool.and_self, if_true, filter_some, hvalue]
  rfl

theorem isWordChar_of_isAlphanum (hc : c.isAlphanum) : isWordChar c := by
  have hlow : c.toNat < 0x80 := by
    rw [isAlphanum, or_eq_true, isAlpha_iff, isDigit_iff] at hc
    omega
  simp [isWordChar, isLetterOrDigit, hlow, hc]

theorem isWordChar_of_letter (hc : (c.isAlpha || c = '_')) : isWordChar c := by
  rcases or_eq_true_iff.mp hc with halpha | hline
  · exact isWordChar_of_isAlphanum (by rw [isAlphanum, halpha]; rfl)
  · rw [of_decide_eq_true hline]
    decide

theorem isAlphanum_of_digitValue? {base : Nat} (h : (digitValue? base c).isSome) : c.isAlphanum := by
  have hrange : (48 ≤ c.toNat ∧ c.toNat ≤ 57) ∨ (97 ≤ c.toNat ∧ c.toNat ≤ 102) ∨ (65 ≤ c.toNat ∧ c.toNat ≤ 70) := by
    simp only [digitValue?, and_eq_true, decide_eq_true_eq] at h
    split at h
    · next hc => exact .inl hc
    · split at h
      · next hc => exact .inr (.inl hc)
      · split at h
        · next hc => exact .inr (.inr hc)
        · cases h
  rw [isAlphanum, or_eq_true, isAlpha_iff, isDigit_iff]
  omega

theorem isDigit_of_digitValue? (h : (digitValue? 10 c).isSome) : c.isDigit := by
  rw [isDigit_iff]
  simp only [digitValue?, and_eq_true, decide_eq_true_eq] at h
  split at h
  · next hc => exact hc
  · split at h
    · next hc =>
        have hlow : 97 ≤ c.toNat := hc.1
        simp only [filter_some, isSome_ite, decide_eq_true_eq] at h
        omega
    · split at h
      · next hc =>
          have hlow : 65 ≤ c.toNat := hc.1
          simp only [filter_some, isSome_ite, decide_eq_true_eq] at h
          omega
      · cases h

theorem isNameStart_of_isDigit (h : c.isDigit) : isNameStart c = false := by
  have hrange := isDigit_iff.mp h
  have hletter : c.isAlpha = false := by
    refine eq_false_of_ne_true fun halpha => ?_
    have := isAlpha_iff.mp halpha
    omega
  have hline : c ≠ '_' := by rintro rfl; revert h; decide
  simp [isNameStart, hletter, hline]

theorem isNameChar_of_isNameStart (h : isNameStart c) : isNameChar c := by
  rcases or_eq_true_iff.mp h with halpha | hline
  · simp [isNameChar, isAlphanum, halpha]
  · simp [isNameChar, hline]

theorem isNameChar_of_isDigit (h : c.isDigit) : isNameChar c := by simp [isNameChar, isAlphanum, h]

theorem isNameChar_ne (h : isNameChar c) : c ≠ '\n' ∧ c ≠ '\r' ∧ c ≠ '"' := by
  refine ⟨?_, ?_, ?_⟩ <;> (rintro rfl; revert h; decide)

theorem isWordChar_of_isNameChar (h : isNameChar c) : isWordChar c := by
  rcases or_eq_true_iff.mp h with halnum | hline
  · exact isWordChar_of_isAlphanum halnum
  · rw [beq_iff_eq.mp hline]
    decide

theorem isNameChar_of_isWordChar (h : isWordChar c) (hascii : c.toNat < 0x80) :
    isNameChar c := by
  simpa only [isNameChar, isWordChar, isLetterOrDigit, if_pos hascii] using h

/-- A character that stands for itself in every text: no part of a name, no digit, no quote and no line ending. -/
def isInert (c : Char) : Bool := c != '\n' && c != '\r' && c != '"' && !Source.isNameStart c && !c.isDigit

section
variable {α : Type} {p : α → Bool} {run rest : List α}

theorem takeWhile_run (hrun : ∀ x ∈ run, p x) (hrest : rest.head?.any p = false) : (run ++ rest).takeWhile p = run := by
  rw [takeWhile_append_of_pos hrun]
  cases rest with
  | nil => simp
  | cons x rest => simp [show p x = false from hrest]

theorem dropWhile_run (hrun : ∀ x ∈ run, p x) (hrest : rest.head?.any p = false) :
    (run ++ rest).dropWhile p = rest := by
  rw [dropWhile_append_of_pos hrun]
  cases rest with
  | nil => simp
  | cons x rest => simp [show p x = false from hrest]

theorem exists_run (p : α → Bool) (cs : List α) :
    ∃ run rest, cs = run ++ rest ∧ (∀ x ∈ run, p x) ∧ rest.head?.any p = false := by
  refine ⟨cs.takeWhile p, cs.dropWhile p, takeWhile_append_dropWhile.symm,
    all_eq_true.mp all_takeWhile, ?_⟩
  have h := head?_dropWhile_not p cs
  cases hhead : (cs.dropWhile p).head? with
  | none => rfl
  | some x =>
    rw [hhead] at h
    exact h

end
end Microcode
