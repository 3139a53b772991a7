import Microcode.Proofs.Shape
import Microcode.Proofs.Sweep

/-!
Replacing names in a text and its tokens.

Names are replaced before a text is cut into tokens, by a sweep that knows words and quotes only.  Where it
takes for a word or a quoted string what the lexer does, the tokens are those of the text with the defined
identifiers replaced.
-/

namespace Microcode

open List Lexeme Text

variable {value lexeme : List Char} {c : Char}

open Source

def Source.Defines.Mentions (d : Defines) (text : List Char) : Prop :=
  ∃ name, name ≠ [] ∧ d.contains name ∧ name <:+: text

/-- A token that a defined name is part of, but that the sweep takes as the lexer does: it finds at most the
identifier that the token is. -/
def Plain (d : Defines) (quoted : Bool) (lexeme : List Char) : TokenKind → Prop
  | .ident _ => (∀ c ∈ lexeme, c.toNat < 0x80) ∧ (d.contains lexeme → quoted = false)
  | .int _ => '\'' ∉ lexeme
  | .string _ => quoted = false ∧ lexeme.count '"' = 2 ∧ '\n' ∉ lexeme
  | .keyword _ | .type _ | .register _ | .swizzle _ => False
  | .float _ | .sign _ | .compound _ | .eof => True

def literal? : List Char → Option Int64
  | [] => none
  | c :: rest =>
    match read c rest with
    | .ok ⟨some (.int v), more⟩ => if more = rest.length then some v else none
    | _ => none

/-- Every defined name stands for the literal of a number, in which no name is found. -/
def Source.Defines.AreLiterals (d : Defines) : Prop := ∀ name value, d.get? name = some value →
    ∃ v, literal? value = some v ∧ (d.Mentions value → Plain d false value (.int v))

/-- The token that stands for a token of the text: a number for a defined identifier. -/
def Source.Defines.substitute (d : Defines) : TokenKind → TokenKind
  | .ident name => (((d.get? name.toList).bind literal?).map TokenKind.int).getD (.ident name)
  | kind => kind

variable {text body before : List Char} {v : Int64} {tokens : List Token}

theorem literal?_eq_some (h : literal? value = some v) : Reads value [] (.int v) := by
  unfold literal? at h
  split at h
  · cases h
  · next c rest =>
      split at h
      · next w more hread =>
          split at h
          · next hmore =>
              cases h
              subst hmore
              exact ⟨c, rest, rfl, by rw [append_nil]; exact hread⟩
          · cases h
      · cases h

/-! ### Sweeping over tokens -/

section
variable {d : Defines} {replace : List Char → List Char} {quoted : Bool} {rest follow : List Char}

theorem head_not_nameChar (hrest : rest.head?.any isWordChar = false) : rest.head?.any isNameChar = false := by
  cases hhead : rest.head? with
  | none => rfl
  | some c =>
    rw [hhead] at hrest
    exact eq_false_of_ne_true fun hc => absurd (isWordChar_of_isNameChar hc) (ne_true_of_eq_false hrest)

/-- A character that neither ends a line nor opens or closes a quote. -/
def StaysInLine (c : Char) : Prop := c ≠ '\n' ∧ c ≠ '\r' ∧ c ≠ '"'

theorem staysInLine_of_isWordChar (h : isWordChar c) : StaysInLine c := by
  refine ⟨?_, ?_, ?_⟩ <;> (rintro rfl; revert h; decide)

theorem staysInLine_of_isInert (h : isInert c) : StaysInLine c := by
  refine ⟨?_, ?_, ?_⟩ <;> (rintro rfl; revert h; decide)

theorem staysInLine_of_numeral (h : isNameChar c ∨ c = '\'') : StaysInLine c := by
  rcases h with h | rfl
  · exact isNameChar_ne h
  · exact ⟨by decide, by decide, by decide⟩

theorem not_infix_of_staysInLine (hchars : ∀ x ∈ lexeme, StaysInLine x) (text : List Char) :
    ¬ ['\r', '\n'] <:+: lexeme ++ text.take 1 := by
  induction lexeme with
  | nil =>
    intro hin
    have hlength := hin.length_le
    rw [nil_append, length_take] at hlength
    exact absurd (Nat.le_trans hlength (Nat.min_le_left ..)) (by decide)
  | cons c lexeme ih =>
    obtain ⟨hc, hchars⟩ := forall_mem_cons.mp hchars
    intro hin
    rcases infix_cons_iff.mp hin with ⟨_, hlead⟩ | hin
    · exact hc.2.1 (List.cons.inj hlead).1.symm
    · exact ih hchars hin

theorem sweep_lexeme (hchars : ∀ x ∈ lexeme, StaysInLine x) (hrest : rest.head?.any isWordChar = false)
    (hnames : quoted = false → ∀ c run, isNameStart c → c :: run <:+: lexeme → replace (c :: run) = c :: run) :
    sweep replace quoted (lexeme ++ rest) = lexeme ++ sweep replace quoted rest := by
  have hbody : Untouched replace rest quoted lexeme := by
    refine ⟨not_infix_of_staysInLine hchars rest, fun hopen => hnames ?_⟩
    rcases hopen with hopen | hmem | hmem
    · exact hopen
    · exact absurd rfl (hchars _ hmem).2.2
    · exact absurd rfl (hchars _ hmem).1
  rw [sweep_untouched hbody (head_not_nameChar hrest) (.inr fun h => (hchars _ h).1 rfl),
    endsQuoted_eq_self fun x hx => ⟨(hchars x hx).1, (hchars x hx).2.2⟩]

variable {run : List Char}

theorem replace_eq_self_of_not_mentions (hreplace : ∀ word, d.get? word = none → replace word = word)
    (hno : ¬d.Mentions lexeme) (hin : c :: run <:+: lexeme) : replace (c :: run) = c :: run := by
  refine hreplace _ (Option.not_isSome_iff_eq_none.mp fun hsome => hno ?_)
  exact ⟨c :: run, cons_ne_nil c run, hsome, hin⟩

theorem sweep_int (hreplace : ∀ word, d.get? word = none → replace word = word) (hshape : Shape lexeme follow (.int v))
    (hplain : d.Mentions lexeme → Plain d quoted lexeme (.int v))
    (hrest : rest.head?.any isWordChar = false) :
    sweep replace quoted (lexeme ++ rest) = lexeme ++ sweep replace quoted rest := by
  obtain ⟨c, run, rfl, hc, hchars⟩ := hshape.int_chars
  by_cases hmentions : d.Mentions (c :: run)
  · have hrun : ∀ x ∈ run, isNameChar x := fun x hx =>
      (hchars x (.tail c hx)).resolve_right fun h =>
        hplain hmentions (h ▸ mem_cons_of_mem c hx)
    exact sweep_digits replace quoted hc hrun (head_not_nameChar hrest)
  · exact sweep_lexeme (fun x hx => staysInLine_of_numeral (hchars x hx)) hrest fun _ _ _ _ =>
      replace_eq_self_of_not_mentions hreplace hmentions

theorem expand_literal (hread : Reads value [] (.int v))
    (hplain : d.Mentions value → Plain d false value (.int v)) (depth : Nat) :
    d.expand depth value = value := by
  have hshape := hread.shape
  obtain ⟨c, run, rfl, _, hchars⟩ := hshape.int_chars
  have hline : ∀ x ∈ c :: run, x ≠ '\n' ∧ x ≠ '\r' := fun x hx =>
    ⟨(staysInLine_of_numeral (hchars x hx)).1, (staysInLine_of_numeral (hchars x hx)).2.1⟩
  have hsweep : ∀ replace : List Char → List Char, (∀ word, d.get? word = none → replace word = word) →
      replaceWords replace false (c :: run) = c :: run := by
    intro replace hreplace
    rw [replaceWords_eq_sweep hline, ← append_nil (c :: run), sweep_int hreplace hshape hplain rfl, sweep_nil]
  cases depth with
  | zero => exact hsweep _ fun word hword => by rw [hword]; rfl
  | succ depth => exact hsweep _ fun word hword => by rw [hword]

variable {word : List Char} {kind : TokenKind}

theorem replacement_of_none (h : d.get? word = none) : d.replacement word = word := by rw [Defines.replacement, h]

theorem replacement_of_some (hd : d.AreLiterals) (h : d.get? word = some value) : d.replacement word = value := by
  obtain ⟨v, hv, hplain⟩ := hd word value h
  rw [Defines.replacement, h]
  exact expand_literal (literal?_eq_some hv) hplain 15

theorem replacement_cases (hd : d.AreLiterals) (word : List Char) :
    d.replacement word = word ∨ ∃ c run, d.replacement word = c :: run ∧ c.isDigit ∧
      ∀ x ∈ c :: run, isNameChar x ∨ x = '\'' := by
  cases hget : d.get? word with
  | none => exact .inl (replacement_of_none hget)
  | some value =>
    obtain ⟨v, hv, _⟩ := hd word value hget
    obtain ⟨c, run, rfl, hc, hchars⟩ := (literal?_eq_some hv).shape.int_chars
    exact .inr ⟨c, run, replacement_of_some hd hget, hc, hchars⟩

theorem replacesWithNumerals (hd : d.AreLiterals) : ReplacesWithNumerals d.replacement := by
  intro c run hc hrun
  rcases replacement_cases hd (c :: run) with heq | ⟨x, xs, heq, _, hchars⟩
  · rw [heq]
    refine ⟨cons_ne_nil c run, fun x hx => .inl ?_⟩
    exact (forall_mem_cons.mpr ⟨isNameChar_of_isNameStart hc, hrun⟩ : ∀ x ∈ c :: run, isNameChar x) x hx
  · rw [heq]
    exact ⟨cons_ne_nil x xs, hchars⟩

theorem head_sweep (hd : d.AreLiterals) (h : (sweep d.replacement quoted text).head? = some c) :
    text.head? = some c ∨ c = '\n' ∨ (c.isDigit ∧ text.head?.any isNameStart) := by
  fun_induction sweep d.replacement quoted text with
  | case1 | case2 => cases h
  | case3 =>
    cases h
    exact .inr (.inl rfl)
  | case4 quoted x rest _ hreturn ih =>
    refine .inr (.inl ?_)
    rcases ih h with hhead | rfl | ⟨_, hname⟩
    · exact Option.some.inj (hhead.symm.trans hreturn.2)
    · rfl
    · rw [hreturn.2] at hname
      exact absurd hname (by decide)
  | case5 | case7 | case8 =>
    cases h
    exact .inl rfl
  | case6 quoted x rest _ _ _ hname _ =>
    rcases replacement_cases hd (x :: rest.takeWhile isNameChar) with heq | ⟨y, ys, heq, hy, _⟩
    · rw [heq] at h
      exact .inl h
    · rw [heq] at h
      cases h
      exact .inr (.inr ⟨hy, (Bool.and_eq_true_iff.mp hname).2⟩)

theorem noMore_sweep (hd : d.AreLiterals) (hrest : startsFraction (sweep d.replacement quoted rest) = false) :
    NoMore (sweep d.replacement quoted rest) rest where
  word h := by
    cases hhead : (sweep d.replacement quoted rest).head? with
    | none =>
      rw [hhead] at h
      cases h
    | some c =>
      rw [hhead] at h
      rcases head_sweep hd hhead with hsame | rfl | ⟨_, hname⟩
      · rw [hsame]
        exact h
      · exact absurd h (by decide)
      · cases hfirst : rest.head? with
        | none =>
          rw [hfirst] at hname
          cases hname
        | some x =>
          rw [hfirst] at hname
          exact isWordChar_of_isNameChar (isNameChar_of_isNameStart hname)
  sign c hc hhead := by
    rcases head_sweep hd hhead with hsame | rfl | ⟨hdigit, _⟩
    · exact hsame
    · exact absurd hc (by decide)
    · simp only [continuing, mem_cons, not_mem_nil, or_false] at hc
      rcases hc with rfl | rfl | rfl | rfl | rfl | rfl | rfl <;> exact absurd hdigit (by decide)
  fraction h := absurd h (ne_true_of_eq_false hrest)

theorem endsQuoted_lexeme (hchars : ∀ x ∈ lexeme, StaysInLine x) (quoted : Bool) : endsQuoted quoted lexeme = quoted :=
  endsQuoted_eq_self (fun x hx => ⟨(hchars x hx).1, (hchars x hx).2.2⟩) quoted

theorem sweep_string {text : String} (hreplace : ∀ word, d.get? word = none → replace word = word)
    (hends : ¬ ['\r', '\n'] <:+: body)
    (hplain : d.Mentions ('"' :: (body ++ ['"'])) → Plain d quoted ('"' :: (body ++ ['"'])) (.string text)) :
    sweep replace quoted ('"' :: (body ++ ['"']) ++ rest)
      = '"' :: (body ++ ['"']) ++ sweep replace (endsQuoted quoted ('"' :: (body ++ ['"']))) rest := by
  have hbody : Untouched replace ('"' :: rest) (!quoted) body := by
    refine ⟨fun hin => ?_, fun hopen c run _ hin => ?_⟩
    · rcases infix_concat_iff.mp hin with ⟨start, hsuffix⟩ | hin
      · have hlast := congrArg List.getLast? hsuffix
        simp at hlast
      · exact hends hin
    · by_cases hmentions : d.Mentions ('"' :: (body ++ ['"']))
      · obtain ⟨rfl, hcount, hfeed⟩ := hplain hmentions
        simp only [count_cons_self, count_append, count_nil] at hcount
        rcases hopen with hopen | hquote | hmem
        · cases hopen
        · have := count_pos_iff.mpr hquote
          omega
        · exact absurd (.tail _ (mem_append_left _ hmem)) hfeed
      · exact replace_eq_self_of_not_mentions hreplace hmentions (hin.trans ⟨['"'], ['"'], by simp⟩)
  have hopen : endsQuoted quoted ('"' :: (body ++ ['"'])) = !endsQuoted (!quoted) body :=
    endsQuoted_append (!quoted) body ['"']
  rw [hopen, cons_append, append_assoc, sweep_quote]
  show '"' :: sweep replace (!quoted) (body ++ '"' :: rest) = _
  rw [sweep_untouched hbody rfl (.inl (cons_ne_nil _ _)), sweep_quote]
  simp

theorem sweep_identifier (hc : isNameStart c)
    (hrun : ∀ x ∈ run, isWordChar x) (hascii : ∀ x ∈ c :: run, x.toNat < 0x80)
    (hrest : rest.head?.any isWordChar = false) :
    sweep replace false (c :: run ++ rest) = replace (c :: run) ++ sweep replace false rest :=
  sweep_word replace hc (fun x hx => isNameChar_of_isWordChar (hrun x hx) (hascii x (.tail c hx)))
    (head_not_nameChar hrest)

theorem sweep_float (hchars : ∀ x ∈ lexeme, isInert x ∨ x.isDigit) (hrest : rest.head?.any isWordChar = false) :
    sweep replace quoted (lexeme ++ rest) = lexeme ++ sweep replace quoted rest := by
  refine sweep_lexeme (fun x hx => ?_) hrest fun _ c run hc hin => ?_
  · exact (hchars x hx).elim staysInLine_of_isInert fun h => isNameChar_ne (isNameChar_of_isDigit h)
  · rcases hchars c (hin.subset (.head _)) with hinert | hdigit
    · simp [isInert, hc] at hinert
    · exact absurd hc (ne_true_of_eq_false (isNameStart_of_isDigit hdigit))

theorem substitute_ident_of_none (h : d.get? lexeme = none) :
    d.substitute (.ident (String.ofList lexeme)) = .ident (String.ofList lexeme) := by
  rw [Defines.substitute, String.toList_ofList, h]
  rfl

/-- After a sweep the token that stands for one of a kind is in the place of its lexeme. -/
def SweepsTo (d : Defines) (quoted : Bool) (lexeme rest : List Char) (kind : TokenKind) : Prop :=
  ∃ lexeme', sweep d.replacement quoted (lexeme ++ rest)
      = lexeme' ++ sweep d.replacement (endsQuoted quoted lexeme) rest ∧
    lexeme' ≠ [] ∧ Reads lexeme' (sweep d.replacement (endsQuoted quoted lexeme) rest) (d.substitute kind)

theorem SweepsTo.of_eq (hread : Reads lexeme rest kind)
    (hnoMore : NoMore (sweep d.replacement (endsQuoted quoted lexeme) rest) rest)
    (hsweep : sweep d.replacement quoted (lexeme ++ rest) = lexeme ++ sweep d.replacement (endsQuoted quoted lexeme) rest)
    (hkind : d.substitute kind = kind) : SweepsTo d quoted lexeme rest kind := by
  refine ⟨lexeme, hsweep, ?_, hkind.symm ▸ hread.of_noMore hnoMore⟩
  obtain ⟨c, more, rfl, _⟩ := hread
  exact cons_ne_nil c more

theorem SweepsTo.of_defined (hd : d.AreLiterals) (hget : d.get? lexeme = some value)
    (hsweep : sweep d.replacement quoted (lexeme ++ rest)
      = d.replacement lexeme ++ sweep d.replacement (endsQuoted quoted lexeme) rest)
    (hends : EndsNumber (sweep d.replacement (endsQuoted quoted lexeme) rest) []) :
    SweepsTo d quoted lexeme rest (.ident (String.ofList lexeme)) := by
  obtain ⟨v, hv, _⟩ := hd lexeme value hget
  have hvalue := literal?_eq_some hv
  obtain ⟨x, xs, rfl, hx, _⟩ := hvalue.shape.int_chars
  refine ⟨x :: xs, by rw [hsweep, replacement_of_some hd hget], cons_ne_nil x xs, ?_⟩
  rw [Defines.substitute, String.toList_ofList, hget, Option.bind_some, hv]
  exact hvalue.of_endsNumber hx hends

theorem sweep_undefined {name : String} (hchars : ∀ x ∈ lexeme, StaysInLine x)
    (hlexeme : lexeme = c :: run) (hc : isNameStart c) (hrun : ∀ x ∈ run, isWordChar x)
    (hrest : rest.head?.any isWordChar = false) (hget : d.get? lexeme = none)
    (hplain : d.Mentions lexeme → Plain d quoted lexeme (.ident name)) :
    sweep d.replacement quoted (lexeme ++ rest) = lexeme ++ sweep d.replacement quoted rest := by
  by_cases hmentions : d.Mentions lexeme
  · cases quoted with
    | true => exact sweep_lexeme hchars hrest fun h => by cases h
    | false =>
      subst hlexeme
      rw [sweep_identifier hc hrun (hplain hmentions).1 hrest, replacement_of_none hget]
  · exact sweep_lexeme hchars hrest fun _ _ _ _ =>
      replace_eq_self_of_not_mentions (fun _ => replacement_of_none) hmentions

theorem sweepsTo_word (hd : d.AreLiterals) (hread : Reads (c :: run) rest (wordKind (String.ofList (c :: run))))
    (hplain : d.Mentions (c :: run) → Plain d quoted (c :: run) (wordKind (String.ofList (c :: run))))
    (hc : isNameStart c) (hrun : ∀ x ∈ run, isWordChar x)
    (hrest : rest.head?.any isWordChar = false)
    (hnoMore : NoMore (sweep d.replacement (endsQuoted quoted (c :: run)) rest) rest)
    (hends : EndsNumber (sweep d.replacement (endsQuoted quoted (c :: run)) rest) []) :
    SweepsTo d quoted (c :: run) rest (wordKind (String.ofList (c :: run))) := by
  have hchars : ∀ x ∈ c :: run, StaysInLine x := forall_mem_cons.mpr
    ⟨isNameChar_ne (isNameChar_of_isNameStart hc), fun x hx => staysInLine_of_isWordChar (hrun x hx)⟩
  have hquoted := endsQuoted_lexeme hchars quoted
  have hno : ¬d.Mentions (c :: run) → sweep d.replacement quoted (c :: run ++ rest)
      = c :: run ++ sweep d.replacement (endsQuoted quoted (c :: run)) rest := by
    intro hno
    rw [hquoted]
    exact sweep_lexeme hchars hrest fun _ _ _ _ =>
      replace_eq_self_of_not_mentions (fun _ => replacement_of_none) hno
  rcases wordKind_cases (String.ofList (c :: run)) with hword | ⟨w, hword⟩ | ⟨t, hword⟩
  · rw [hword] at hplain hread ⊢
    cases hget : d.get? (c :: run) with
    | none =>
      refine .of_eq hread hnoMore ?_ (substitute_ident_of_none hget)
      rw [hquoted]
      exact sweep_undefined hchars rfl hc hrun hrest hget hplain
    | some value =>
      have hcontains : d.contains (c :: run) := by rw [Defines.contains, hget]; rfl
      obtain ⟨hascii, hopen⟩ := hplain ⟨c :: run, cons_ne_nil c run, hcontains, infix_rfl⟩
      refine .of_defined hd hget ?_ hends
      rw [hquoted, hopen hcontains]
      exact sweep_identifier hc hrun hascii hrest
  · rw [hword] at hplain hread ⊢
    exact .of_eq hread hnoMore (hno hplain) rfl
  · rw [hword] at hplain hread ⊢
    exact .of_eq hread hnoMore (hno hplain) rfl

theorem sweepsTo_token (hd : d.AreLiterals) (hread : Reads lexeme rest kind)
    (hplain : d.Mentions lexeme → Plain d quoted lexeme kind)
    (hmark : (sweep d.replacement (endsQuoted quoted lexeme) rest).head? ≠ some '\'')
    (hfraction : startsFraction (sweep d.replacement (endsQuoted quoted lexeme) rest) = false) :
    SweepsTo d quoted lexeme rest kind := by
  have hnoMore := noMore_sweep hd hfraction
  -- most lexemes leave a quote open or closed as it was
  have kept : (∀ x ∈ lexeme, StaysInLine x) → sweep d.replacement quoted (lexeme ++ rest)
      = lexeme ++ sweep d.replacement quoted rest → d.substitute kind = kind → SweepsTo d quoted lexeme rest kind :=
    fun hchars hsweep => .of_eq hread hnoMore (by rw [endsQuoted_lexeme hchars]; exact hsweep)
  cases hread.shape with
  | string hlexeme hends =>
    subst hlexeme
    exact .of_eq hread hnoMore (sweep_string (fun _ => replacement_of_none) hends hplain) rfl
  | word hlexeme hc hrun hrest =>
    subst hlexeme
    refine sweepsTo_word hd hread hplain hc hrun hrest hnoMore ⟨fun h => ?_, fun h => absurd h hmark, fun h => ?_⟩
    · exact absurd (hnoMore.word h) (ne_true_of_eq_false hrest)
    · exact absurd h (ne_true_of_eq_false hfraction)
  | marked hlexeme hc hrun hrest hkind =>
    have hchars : ∀ x ∈ lexeme, StaysInLine x := by
      subst hlexeme
      exact forall_mem_cons.mpr ⟨staysInLine_of_isInert hc, fun x hx => staysInLine_of_isWordChar (hrun x hx)⟩
    have hno : ¬d.Mentions lexeme := by rcases hkind with ⟨_, rfl⟩ | ⟨_, rfl⟩ <;> exact hplain
    refine kept hchars (sweep_lexeme hchars hrest fun _ _ _ _ => ?_) ?_
    · exact replace_eq_self_of_not_mentions (fun _ => replacement_of_none) hno
    · rcases hkind with ⟨_, rfl⟩ | ⟨_, rfl⟩ <;> rfl
  | int _ _ hchars hrest =>
    exact kept (fun x hx => staysInLine_of_numeral (hchars x hx))
      (sweep_int (fun _ => replacement_of_none) hread.shape hplain hrest) rfl
  | float _ _ hchars hrest =>
    refine kept (fun x hx => ?_) (sweep_float hchars hrest) rfl
    exact (hchars x hx).elim staysInLine_of_isInert fun h => isNameChar_ne (isNameChar_of_isDigit h)
  | sign hchars hkind =>
    refine kept (fun x hx => staysInLine_of_isInert (hchars x hx)) (sweep_inert hchars rest) ?_
    rcases hkind with ⟨_, rfl⟩ | ⟨_, rfl⟩ <;> rfl

end

section
variable {d : Defines} {quoted : Bool} {piece gap follow : List Char}

/-- After a sweep a blank or comment, or nothing, is in the place of a piece. -/
def SweepsAway (d : Defines) (quoted : Bool) (piece follow : List Char) : Prop :=
  ∃ piece', sweep d.replacement quoted (piece ++ follow)
      = piece' ++ sweep d.replacement (endsQuoted quoted piece) follow ∧
    (piece' = [] ∨ Skipped piece' (sweep d.replacement (endsQuoted quoted piece) follow))

theorem sweepsAway_blank (hc : c ∈ [' ', '\t', '\r', '\n']) : SweepsAway d quoted [c] follow := by
  by_cases hfeed : c = '\n'
  · subst hfeed
    by_cases hfollow : follow = []
    · subst hfollow
      exact ⟨[], by rw [append_nil, sweep_last_feed, sweep_nil]; rfl, .inl rfl⟩
    · exact ⟨['\n'], sweep_feed _ hfollow quoted, .inr (.blank hc)⟩
  by_cases hreturn : c = '\r' ∧ follow.head? = some '\n'
  · obtain ⟨rfl, hhead⟩ := hreturn
    exact ⟨[], sweep_return _ hhead quoted, .inl rfl⟩
  · refine ⟨[c], ?_, .inr (.blank hc)⟩
    simp only [mem_cons, not_mem_nil, or_false] at hc
    rcases hc with rfl | rfl | rfl | rfl
    · exact sweep_other _ (by decide) hreturn (by decide) (by simp [isNameStart]) (by decide)
    · exact sweep_other _ (by decide) hreturn (by decide) (by simp [isNameStart]) (by decide)
    · exact sweep_other _ (by decide) hreturn (by decide) (by simp [isNameStart]) (by decide)
    · exact absurd rfl hfeed

theorem sweepsAway_lineComment (hd : d.AreLiterals) (hbody : '\n' ∉ body)
    (hfollow : ∀ c, follow.head? = some c → c = '\n') : SweepsAway d quoted ('/' :: '/' :: body) follow := by
  have hname : follow.head?.any isNameChar = false := by
    cases hhead : follow.head? with
    | none => rfl
    | some c =>
      cases hfollow c hhead
      decide
  obtain ⟨out, after, hswept, heq⟩ := @exists_swept d.replacement follow quoted body hname (.inr hbody)
  cases hswept.after_eq
  have hstart : sweep d.replacement quoted (['/', '/'] ++ (body ++ follow)) = _ := sweep_inert (all_eq_true.mp rfl) _
  refine ⟨'/' :: '/' :: out, hstart.trans (by rw [heq]; rfl), .inr (.lineComment ?_ fun c hc => ?_)⟩
  · exact hswept.not_mem_feed (replacesWithNumerals hd) hbody
  · rcases head_sweep hd hc with hhead | rfl | ⟨_, hstart⟩
    · exact hfollow c hhead
    · rfl
    · cases hhead : follow.head? with
      | none =>
        rw [hhead] at hstart
        cases hstart
      | some x =>
        rw [hhead] at hstart hname
        exact absurd (isNameChar_of_isNameStart hstart) (ne_true_of_eq_false hname)

theorem sweepsAway_blockComment (hd : d.AreLiterals) (hbody : ¬ ['*', '/'] <:+: body) :
    SweepsAway d quoted ('/' :: '*' :: (body ++ ['*', '/'])) follow := by
  obtain ⟨out, after, hswept, heq⟩ := @exists_swept d.replacement ('*' :: '/' :: follow) quoted body rfl
    (.inl (cons_ne_nil _ _))
  have hafter : after = endsQuoted quoted ('/' :: '*' :: (body ++ ['*', '/'])) :=
    hswept.after_eq.trans (endsQuoted_append quoted body ['*', '/']).symm
  subst hafter
  refine ⟨'/' :: '*' :: (out ++ ['*', '/']), ?_,
    .inr (.blockComment (hswept.not_infix_end (replacesWithNumerals hd) hbody).1)⟩
  have hstart : sweep d.replacement quoted (['/', '*'] ++ (body ++ '*' :: '/' :: follow)) = _ :=
    sweep_inert (all_eq_true.mp rfl) _
  generalize endsQuoted quoted ('/' :: '*' :: (body ++ ['*', '/'])) = after at heq ⊢
  have hstop : sweep d.replacement after (['*', '/'] ++ follow) = _ := sweep_inert (all_eq_true.mp rfl) _
  calc sweep d.replacement quoted ('/' :: '*' :: (body ++ ['*', '/']) ++ follow)
      = sweep d.replacement quoted (['/', '*'] ++ (body ++ '*' :: '/' :: follow)) := by simp
    _ = ['/', '*'] ++ (out ++ sweep d.replacement after (['*', '/'] ++ follow)) := by rw [hstart, heq]; rfl
    _ = '/' :: '*' :: (out ++ ['*', '/']) ++ sweep d.replacement after follow := by rw [hstop]; simp

theorem sweepsAway_piece (hd : d.AreLiterals) (hpiece : Skipped piece follow) : SweepsAway d quoted piece follow := by
  cases hpiece with
  | blank hc => exact sweepsAway_blank hc
  | lineComment hbody hfollow => exact sweepsAway_lineComment hd hbody hfollow
  | blockComment hbody => exact sweepsAway_blockComment hd hbody

theorem sweep_gap (hd : d.AreLiterals) (hgap : Gap Skipped gap follow) (quoted : Bool) :
    ∃ gap', sweep d.replacement quoted (gap ++ follow) = gap' ++ sweep d.replacement (endsQuoted quoted gap) follow ∧
      Gap Skipped gap' (sweep d.replacement (endsQuoted quoted gap) follow) := by
  induction hgap generalizing quoted with
  | nil => exact ⟨[], rfl, .nil⟩
  | @cons piece gap follow hpiece _ ih =>
    obtain ⟨piece', heq, hpiece⟩ := @sweepsAway_piece d quoted _ _ hd hpiece
    obtain ⟨gap', hgap, hskipped⟩ := ih (endsQuoted quoted piece)
    rw [endsQuoted_append]
    refine ⟨piece' ++ gap', by rw [append_assoc, heq, hgap, append_assoc], ?_⟩
    rcases hpiece with rfl | hpiece
    · exact hskipped
    · exact .cons (hgap ▸ hpiece) hskipped

end

theorem head_of_skipped {piece follow} (h : Skipped piece follow) (text : List Char) :
    (piece ++ text).head? ≠ some '\'' ∧ startsFraction (piece ++ text) = false := by
  cases h with
  | blank hc =>
    simp only [mem_cons, not_mem_nil, or_false] at hc
    rcases hc with rfl | rfl | rfl | rfl <;> exact ⟨by simp, rfl⟩
  | lineComment | blockComment => exact ⟨by simp, rfl⟩

theorem Laid.head (h : Laid Skipped Reads before text tokens) :
    text.head? ≠ some '\'' ∧ startsFraction text = false := by
  cases h with
  | last hgap =>
    cases hgap with
    | nil => exact ⟨by simp, rfl⟩
    | cons hpiece _ => exact head_of_skipped hpiece _
  | token hgap _ hread _ =>
    cases hgap with
    | nil => exact hread.head
    | cons hpiece _ =>
      rw [append_assoc]
      exact head_of_skipped hpiece _

/-- A token of the source that the sweep takes as the lexer does. -/
def Token.IsPlain (d : Defines) (source : List Char) (t : Token) : Prop :=
  d.Mentions (t.lexeme source) → Plain d (endsQuoted false (t.before source)) (t.lexeme source) t.kind

theorem laid_sweep {d} (hd : d.AreLiterals) {source}
    (h : Laid Skipped Reads before text tokens) (hsource : source = before ++ text)
    (hplain : ∀ t ∈ tokens, t.IsPlain d source) (before' : List Char) :
    ∃ tokens', Laid Skipped Reads before' (sweep d.replacement (endsQuoted false before) text) tokens' ∧
      tokens'.map Token.kind = tokens.map fun t => d.substitute t.kind := by
  induction h generalizing before' with
  | @last before gap hgap =>
    obtain ⟨gap', heq, hgap'⟩ := sweep_gap hd hgap (endsQuoted false before)
    rw [append_nil, sweep_nil, append_nil] at heq
    rw [sweep_nil] at hgap'
    rw [heq]
    exact ⟨_, .last hgap', rfl⟩
  | @token before gap lexeme rest kind tokens hgap hne hread _ ih =>
    obtain ⟨gap', hgapeq, hgap'⟩ := sweep_gap hd hgap (endsQuoted false before)
    obtain ⟨htoken, htokens⟩ := forall_mem_cons.mp hplain
    have hrest := ih (by rw [hsource]; simp) htokens
    rw [← endsQuoted_append] at hgapeq hgap'
    rw [endsQuoted_append _ (before ++ gap)] at hrest
    rw [Token.IsPlain, hsource, ← append_assoc, Token.before_eq, Token.lexeme_eq] at htoken
    obtain ⟨_, hlaid, _⟩ := hrest []
    obtain ⟨lexeme', heq, hne', hread'⟩ := sweepsTo_token hd hread htoken hlaid.head.1 hlaid.head.2
    obtain ⟨tokens', hlaid', hkinds⟩ := hrest (before' ++ gap' ++ lexeme')
    rw [heq] at hgapeq hgap'
    rw [hgapeq]
    exact ⟨_, .token hgap' hne' hread' hlaid', congrArg _ hkinds⟩

/-- The tokens of an expanded text without directives are those of the text with each defined identifier replaced by
the number that it stands for, and no other one changed, if names stand for numbers and each token that a defined
name is part of is one that the sweep takes as the lexer does. -/
theorem tokens_of_expand {d : Defines} (hd : d.AreLiterals) {source : String} {tokens : List Token}
    (hok : Token.ofText source = .ok tokens) (hplain : ∀ t ∈ tokens, t.IsPlain d source.toList)
    (hlines : ∀ line ∈ Text.lines source.toList, Directive.ofLine? line = none) (loader : Loader) :
    ∃ text tokens', expand source d loader = .ok text ∧ Token.ofText text = .ok tokens' ∧
      tokens'.map Token.kind = tokens.map fun t => d.substitute t.kind := by
  obtain ⟨tokens', hlaid, hkinds⟩ := laid_sweep hd (Token.ofText_eq_ok_iff.mp hok) rfl hplain []
  refine ⟨_, tokens', expand_of_no_directive hlines, ?_, hkinds⟩
  rw [Token.ofText_eq_ok_iff, String.toList_ofList]
  exact hlaid

def namedSource : String := "N+MN \"N\" // \"N\r\nN \"\\\"\""

def namedTokens : List Token := [⟨.ident "N", ⟨0, 1, 1⟩, 1⟩, ⟨.sign .plus, ⟨1, 1, 2⟩, 2⟩, ⟨.ident "MN", ⟨2, 1, 3⟩, 4⟩,
    ⟨.string "N", ⟨5, 1, 6⟩, 8⟩, ⟨.ident "N", ⟨16, 2, 1⟩, 17⟩, ⟨.string "\"", ⟨18, 2, 3⟩, 22⟩, ⟨.eof, ⟨22, 2, 7⟩, 22⟩]

def sixteen : Defines := ⟨[(['N'], ['1', '6'])]⟩

theorem sixteen_get? {name} (h : sixteen.get? name = some value) : name = ['N'] ∧ value = ['1', '6'] := by
  by_cases hname : name = ['N']
  · subst hname
    cases h
    exact ⟨rfl, rfl⟩
  · simp [sixteen, Defines.get?, hname] at h

theorem ascii_of_all (h : lexeme.all (fun c => decide (c.toNat < 0x80))) : ∀ c ∈ lexeme, c.toNat < 0x80 :=
  fun c hc => of_decide_eq_true (all_eq_true.mp h c hc)

theorem namedSource_tokens_of_expand :
    sixteen.AreLiterals ∧ Token.ofText namedSource = .ok namedTokens ∧
      (∀ t ∈ namedTokens, t.IsPlain sixteen namedSource.toList) ∧
      (∀ line ∈ Text.lines namedSource.toList, Directive.ofLine? line = none) ∧
      ∃ text tokens', expand namedSource sixteen .refuse = .ok text ∧ Token.ofText text = .ok tokens' ∧
        tokens'.map Token.kind =
          [.int 16, .sign .plus, .ident "MN", .string "N", .int 16, .string "\"", .eof] := by
  have hd : sixteen.AreLiterals := by
    intro name value h
    obtain ⟨rfl, rfl⟩ := sixteen_get? h
    exact ⟨16, by decide +kernel, fun _ => show '\'' ∉ ['1', '6'] by decide⟩
  have hok : Token.ofText namedSource = .ok namedTokens := ok_of_toOption (by decide +kernel)
  have hplain : ∀ t ∈ namedTokens, t.IsPlain sixteen namedSource.toList := by
    intro t ht
    simp only [namedTokens, List.mem_cons, List.not_mem_nil, or_false] at ht
    rcases ht with rfl | rfl | rfl | rfl | rfl | rfl | rfl
    · exact fun _ => ⟨ascii_of_all (by decide +kernel), by decide +kernel⟩
    · exact fun _ => trivial
    · exact fun _ => ⟨ascii_of_all (by decide +kernel), by decide +kernel⟩
    · exact fun _ => ⟨by decide +kernel, by decide +kernel, by decide +kernel⟩
    · exact fun _ => ⟨ascii_of_all (by decide +kernel), by decide +kernel⟩
    · rintro ⟨name, _, hname, hin⟩
      obtain ⟨value, hvalue⟩ := Option.isSome_iff_exists.mp hname
      obtain ⟨rfl, _⟩ := sixteen_get? hvalue
      exact absurd (hin.subset (List.mem_cons_self ..)) (by decide +kernel)
    · exact fun _ => trivial
  have hlines : ∀ line ∈ Text.lines namedSource.toList, Directive.ofLine? line = none := by
    have hnone : ∀ line ∈ Text.lines namedSource.toList, (Directive.ofLine? line).isNone = true := by decide +kernel
    exact fun line hline => Option.isNone_iff_eq_none.mp (hnone line hline)
  refine ⟨hd, hok, hplain, hlines, ?_⟩
  obtain ⟨text, tokens', htext, htokens, hkinds⟩ := tokens_of_expand hd hok hplain hlines .refuse
  exact ⟨text, tokens', htext, htokens, hkinds.trans (by decide +kernel)⟩

-- A quote inside a string closes it for the sweep, so a name behind it is replaced.
example : (expand "\"\\\"N\"" sixteen .refuse).toOption = some "\"\\\"16\"" := by decide +kernel

end Microcode
