import Microcode.Proofs.Layout

/-!
The characters of each kind of token.

A word is made of word characters and a register or a swizzle is a mark and such a word; a number is made of digits,
with marks between them and at most one point; a string stands between two quotes; and a sign has none of these
characters.
-/

namespace Microcode

open List Text

open Source (isNameStart isNameChar)

namespace Lexeme

/-- What characters a token of a kind has, in front of a given text. -/
inductive Shape (lexeme rest : List Char) : TokenKind → Prop
  | string {text body} : lexeme = '"' :: (body ++ ['"']) → ¬ ['\r', '\n'] <:+: body →
      Shape lexeme rest (.string text)
  | word {c run} : lexeme = c :: run → isNameStart c →
      (∀ x ∈ run, isWordChar x) → rest.head?.any isWordChar = false →
      Shape lexeme rest (wordKind (String.ofList lexeme))
  | marked {kind c run} : lexeme = c :: run → isInert c →
      (∀ x ∈ run, isWordChar x) → rest.head?.any isWordChar = false →
      ((∃ name, kind = .register name) ∨ ∃ s, kind = .swizzle s) → Shape lexeme rest kind
  | int {v c run} : lexeme = c :: run → c.isDigit →
      (∀ x ∈ lexeme, isNameChar x ∨ x = '\'') → rest.head?.any isWordChar = false →
      Shape lexeme rest (.int v)
  | float {v c run} : lexeme = c :: run → c.isDigit →
      (∀ x ∈ lexeme, isInert x ∨ x.isDigit) → rest.head?.any isWordChar = false →
      Shape lexeme rest (.float v)
  | sign {kind} : (∀ x ∈ lexeme, isInert x) → IsSignKind kind → Shape lexeme rest kind

variable {c : Char} {rest : List Char} {kind : TokenKind}

theorem IsSign.shape {f} (hc : isInert c) {more : Nat} (h : IsSign f rest (token kind more)) :
    Shape (c :: rest.take more) (rest.drop more) kind := by
  obtain ⟨_, hsome, hkind⟩ := h.kind
  cases hsome
  exact .sign (forall_mem_cons.mpr ⟨hc, h.chars⟩) hkind

theorem word_shape (rest : List Char) :
    rest.take (word rest).length = word rest ∧ (∀ x ∈ word rest, isWordChar x) ∧
      (rest.drop (word rest).length).head?.any isWordChar = false := by
  obtain ⟨run, behind, rfl, hrun, hbehind⟩ := exists_run isWordChar rest
  rw [show word (run ++ behind) = run from takeWhile_run hrun hbehind, take_left, drop_left]
  exact ⟨rfl, hrun, hbehind⟩

theorem shape_of_word (hc : (c.isAlpha || c = '_')) (rest : List Char) :
    Shape (c :: rest.take ((word (c :: rest)).length - 1)) (rest.drop ((word (c :: rest)).length - 1))
      (wordKind (String.ofList (word (c :: rest)))) := by
  have hword : word (c :: rest) = c :: word rest := takeWhile_cons_of_pos (isWordChar_of_letter hc)
  obtain ⟨htake, hrun, hrest⟩ := word_shape rest
  rw [hword, length_cons, Nat.add_sub_cancel, htake]
  exact .word rfl (by simpa [isNameStart] using hc) hrun hrest

theorem shape_of_read {more : Nat}
    (h : read c rest = .ok (token kind more)) : Shape (c :: rest.take more) (rest.drop more) kind := by
  obtain ⟨htake, hrun, hrest⟩ := word_shape rest
  cases opens c with
  | blank _ hread | unexpected hread =>
    rw [hread] at h
    cases h
  | slash hc =>
    subst hc
    exact (isSign_of_slash h).shape (by decide)
  | quote hc =>
    subst hc
    simp only [read] at h
    split at h
    · next text n hbody =>
        cases h
        obtain ⟨_, ⟨body, hbody, hends⟩, _⟩ := stringBody?_take hbody
        exact .string (congrArg (List.cons '"') hbody) hends
    · cases h
  | register hc =>
    subst hc
    simp only [read] at h
    split at h
    · cases h
    · cases h
      exact .marked (by rw [htake]) (by decide) hrun hrest (.inl ⟨_, rfl⟩)
  | swizzle hc =>
    subst hc
    simp only [read] at h
    split at h
    · cases h
      exact .marked (by rw [htake]) (by decide) hrun hrest (.inr ⟨_, rfl⟩)
    · cases h
  | sign hc hread => exact (hread.isSign h).shape hc
  | number hc hread =>
    rw [hread] at h
    obtain ⟨⟨_, n⟩, hnumber, heq⟩ := map_eq_ok.mp h
    cases heq
    obtain ⟨run, behind, rfl, rfl, hword, hchars, _⟩ := exists_number hc hnumber
    rw [Nat.add_sub_cancel, take_left, drop_left]
    cases hchars with
    | int hchars => exact .int rfl hc hchars (eq_false_of_ne_true hword)
    | float hchars => exact .float rfl hc hchars (eq_false_of_ne_true hword)
  | word hc hread =>
    rw [hread] at h
    cases h
    exact shape_of_word hc rest

variable {lexeme : List Char}

theorem Reads.shape (h : Reads lexeme rest kind) : Shape lexeme rest kind := by
  obtain ⟨c, more, rfl, hread⟩ := h
  have hshape := shape_of_read hread
  rwa [take_left, drop_left] at hshape

theorem wordKind_cases (name : String) :
    wordKind name = .ident name ∨ (∃ w, wordKind name = .keyword w) ∨ ∃ t, wordKind name = .type t := by
  unfold wordKind
  split
  · exact .inr (.inl ⟨_, rfl⟩)
  · split
    · exact .inr (.inr ⟨_, rfl⟩)
    · exact .inl rfl

theorem Shape.int_chars {v : Int64} (h : Shape lexeme rest (.int v)) :
    ∃ c run, lexeme = c :: run ∧ c.isDigit ∧ (∀ x ∈ lexeme, isNameChar x ∨ x = '\'') := by
  generalize hkind : TokenKind.int v = kind at h
  cases h with
  | string | float => cases hkind
  | word =>
    rcases wordKind_cases (String.ofList lexeme) with hword | ⟨_, hword⟩ | ⟨_, hword⟩ <;>
      (rw [hword] at hkind; cases hkind)
  | marked _ _ _ _ hmarked => rcases hmarked with ⟨_, rfl⟩ | ⟨_, rfl⟩ <;> cases hkind
  | int hlexeme hc hchars _ => exact ⟨_, _, hlexeme, hc, hchars⟩
  | sign _ hsign => rcases hsign with ⟨_, rfl⟩ | ⟨_, rfl⟩ <;> cases hkind

theorem read_digit (hc : c.isDigit) (rest : List Char) :
    read c rest = (number (c :: rest)).map fun (kind, n) => token kind (n - 1) := by
  unfold read
  split
  case h_21 => rw [if_pos hc]
  all_goals exact absurd hc (by decide)

theorem Reads.of_endsNumber {run b} (h : Reads (c :: run) rest kind)
    (hc : c.isDigit) (hb : EndsNumber b rest) : Reads (c :: run) b kind := by
  obtain ⟨_, _, heq, hread⟩ := h
  cases heq
  rw [read_digit hc] at hread
  obtain ⟨⟨kind, n⟩, hnumber, heq⟩ := map_eq_ok.mp hread
  obtain ⟨run', rest', happend, rfl, _, _, hagain⟩ := exists_number hc hnumber
  have hlength : run'.length = run.length := congrArg Lexeme.more heq
  obtain ⟨rfl, rfl⟩ := append_inj happend hlength.symm
  obtain rfl : kind = _ := Option.some.inj (congrArg Lexeme.kind? heq)
  exact ⟨c, run, rfl, by rw [read_digit hc, hagain b hb]; rfl⟩

theorem head_pattern : ∀ s ∈ Swizzle.all, s.pattern.head?.any Char.isDigit = false := by decide

theorem Reads.head (h : Reads lexeme rest kind) :
    (lexeme ++ rest).head? ≠ some '\'' ∧ startsFraction (lexeme ++ rest) = false := by
  obtain ⟨c, more, rfl, hread⟩ := h
  constructor
  · intro hc
    cases hc
    cases hread
  · refine eq_false_of_ne_true fun hstarts => ?_
    obtain ⟨d, tail, heq, hd⟩ := startsFraction_eq_true_iff.mp hstarts
    obtain ⟨rfl, htail⟩ := List.cons.inj heq
    have hword : word (d :: tail) = d :: word tail :=
      takeWhile_cons_of_pos (isWordChar_of_isNameChar (isNameChar_of_isDigit hd))
    rw [show more ++ rest = d :: tail from htail] at hread
    simp only [read, hword] at hread
    split at hread
    · next s hs =>
        -- a swizzle has letters only
        have hpattern : s.pattern = d :: word tail := by simpa using find?_some hs
        have hdigit := head_pattern s (mem_of_find?_eq_some hs)
        rw [hpattern] at hdigit
        exact absurd hd (ne_true_of_eq_false hdigit)
    · cases hread

end Lexeme
end Microcode
