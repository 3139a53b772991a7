import Microcode.Proofs.Character
import Microcode.Proofs.Result
import Microcode.Source.Directive

/-!
Expanding a text without directives in one sweep.

A text without directives is expanded line by line.  Seen over the whole text this is a single sweep from left
to right: a line feed closes whatever quote is open, a carriage return in front of it is dropped, and so is the
line feed that ends the text.
-/

namespace Microcode

variable {run rest text out xs tail chunk : List Char} {after quoted' : Bool}

open List

variable {c : Char} {body : List Char} {quoted : Bool}

namespace Text

theorem lines_cons (hfeed : c ≠ '\n') (hreturn : ¬(c = '\r' ∧ rest.head? = some '\n')) :
    lines (c :: rest) = (c :: (lines rest).headD []) :: (lines rest).tail := by
  rw [lines.eq_4 c rest hfeed (fun tail hc hrest => hreturn ⟨hc, by rw [hrest]; rfl⟩)]
  split <;> next heq => rw [heq]; rfl

theorem lines_feed (rest : List Char) : lines ('\n' :: rest) = [] :: lines rest := rfl

theorem lines_eq_nil (h : lines text = []) : text = [] := by
  cases text with
  | nil => rfl
  | cons c rest =>
    by_cases hfeed : c = '\n'
    · subst hfeed
      cases h
    · by_cases hreturn : c = '\r' ∧ rest.head? = some '\n'
      · obtain ⟨rfl, hhead⟩ := hreturn
        obtain ⟨tail, rfl⟩ := head?_eq_some_iff.mp hhead
        cases h
      · rw [lines_cons hfeed hreturn] at h
        cases h

theorem head_of_lines (h : ((lines text).headD []).head? = some c) : text.head? = some c := by
  cases text with
  | nil => cases h
  | cons d rest =>
    by_cases hfeed : d = '\n'
    · subst hfeed
      cases h
    · by_cases hreturn : d = '\r' ∧ rest.head? = some '\n'
      · obtain ⟨rfl, hhead⟩ := hreturn
        obtain ⟨tail, rfl⟩ := head?_eq_some_iff.mp hhead
        cases h
      · rw [lines_cons hfeed hreturn] at h
        exact h

theorem lines_run (rest : List Char) (hrun : ∀ c ∈ run, c ≠ '\n' ∧ c ≠ '\r') :
    (lines (run ++ rest)).headD [] = run ++ (lines rest).headD [] ∧ (lines (run ++ rest)).tail = (lines rest).tail := by
  induction run with
  | nil => exact ⟨rfl, rfl⟩
  | cons c run ih =>
    obtain ⟨hfeed, hreturn⟩ := hrun c (.head _)
    obtain ⟨hhead, htail⟩ := ih fun d hd => hrun d (.tail _ hd)
    rw [cons_append, lines_cons hfeed fun h => hreturn h.1, hhead, htail]
    exact ⟨rfl, rfl⟩

end Text

namespace Source

open Text

variable (replace : List Char → List Char)

theorem replaceWords_nil (quoted : Bool) : replaceWords replace quoted [] = [] := by rw [replaceWords]

theorem replaceWords_quote (quoted : Bool) (rest : List Char) :
    replaceWords replace quoted ('"' :: rest) = '"' :: replaceWords replace (!quoted) rest := by
  rw [replaceWords]
  rfl

theorem replaceWords_word (hc : isNameStart c)
    (hrun : ∀ x ∈ run, isNameChar x) (hrest : rest.head?.any isNameChar = false) :
    replaceWords replace false (c :: (run ++ rest)) = replace
    (c :: run) ++ replaceWords replace false rest := by
  have hquote : c ≠ '"' := by rintro rfl; revert hc; decide
  rw [replaceWords, if_neg hquote, if_pos (by simpa using hc), takeWhile_run hrun hrest, dropWhile_run hrun hrest]

theorem replaceWords_digits (quoted : Bool) (hc : c.isDigit)
    (hrun : ∀ x ∈ run, isNameChar x) (hrest : rest.head?.any isNameChar = false) :
    replaceWords replace quoted (c :: (run ++ rest)) = c :: run ++ replaceWords replace quoted rest := by
  have hquote : c ≠ '"' := by rintro rfl; revert hc; decide
  have hname : isNameStart c = false := isNameStart_of_isDigit hc
  rw [replaceWords, if_neg hquote, if_neg (by simp [hname]), if_pos hc, takeWhile_run hrun hrest,
    dropWhile_run hrun hrest]

theorem replaceWords_other (hquote : c ≠ '"') (hname : ¬(!quoted && isNameStart c)) (hdigit : ¬c.isDigit) :
    replaceWords replace quoted (c :: rest) = c :: replaceWords replace quoted rest := by
  rw [replaceWords, if_neg hquote, if_neg hname, if_neg hdigit]

/-- The text with each word outside quotes replaced, a line after the other. -/
def sweep (quoted : Bool) (text : List Char) : List Char := match text with
  | [] => []
  | c :: rest =>
    if c = '\n' then if rest.isEmpty then [] else '\n' :: sweep false rest
    else if c = '\r' ∧ rest.head? = some '\n' then sweep quoted rest
    else if c = '"' then c :: sweep (!quoted) rest
    else if !quoted && isNameStart c then
      replace (c :: rest.takeWhile isNameChar) ++ sweep quoted (rest.dropWhile isNameChar)
    else if c.isDigit then
      (c :: rest.takeWhile isNameChar) ++ sweep quoted (rest.dropWhile isNameChar)
    else c :: sweep quoted rest
termination_by text.length
decreasing_by all_goals
    have := (dropWhile_sublist isNameChar (l := rest)).length_le
    simp_all +arith

/-- The lines of a text with their words replaced; the first one may start in a quote. -/
def replaceLines (quoted : Bool) (text : List Char) : List (List Char) :=
  replaceWords replace quoted ((lines text).headD []) :: (lines text).tail.map (replaceWords replace false)

theorem joinLines_append (cs line : List Char) (more : List (List Char)) :
    joinLines ((cs ++ line) :: more) = cs ++ joinLines (line :: more) := by
  cases more with
  | nil => rfl
  | cons next more => simp [joinLines]

theorem replaceLines_run (hrun : ∀ c ∈ run, isNameChar c) (hrest : rest.head?.any isNameChar = false) :
    (lines (run ++ rest)).headD [] = run ++ (lines rest).headD [] ∧ (lines (run ++ rest)).tail =
    (lines rest).tail ∧ ((lines rest).headD []).head?.any isNameChar = false := by
  obtain ⟨hhead, htail⟩ := lines_run rest fun c hc =>
    ⟨(isNameChar_ne (hrun c hc)).1, (isNameChar_ne (hrun c hc)).2.1⟩
  refine ⟨hhead, htail, ?_⟩
  cases hfirst : ((lines rest).headD []).head? with
  | none => rfl
  | some c =>
    rw [head_of_lines hfirst] at hrest
    exact hrest

theorem joinLines_replaceLines (quoted : Bool) (text : List Char) :
    joinLines (replaceLines replace quoted text) = sweep replace quoted text := by
  fun_induction sweep replace quoted text with
  | case1 quoted => simp [replaceLines, lines, joinLines, replaceWords_nil]
  | case2 quoted rest hempty =>
    cases List.isEmpty_iff.mp hempty
    simp [replaceLines, lines, joinLines, replaceWords_nil]
  | case3 quoted rest hempty ih =>
    have hne : lines rest ≠ [] := fun h => hempty (List.isEmpty_iff.mpr (lines_eq_nil h))
    obtain ⟨line, more, hlines⟩ := exists_cons_of_ne_nil hne
    rw [← ih, replaceLines, replaceLines, lines_feed, hlines]
    show joinLines (replaceWords replace quoted [] :: replaceWords replace false line :: _) = _
    rw [replaceWords_nil]
    rfl
  | case4 quoted c rest hfeed hreturn ih =>
    obtain ⟨rfl, hhead⟩ := hreturn
    obtain ⟨tail, rfl⟩ := head?_eq_some_iff.mp hhead
    exact ih
  | case5 quoted rest hfeed hreturn ih =>
    rw [replaceLines, lines_cons hfeed hreturn]
    show joinLines (replaceWords replace quoted ('"' :: _) :: _) = _
    rw [replaceWords_quote replace, ← ih]
    exact joinLines_append ['"'] _ _
  | case6 quoted c rest hfeed hreturn hquote hname ih =>
    obtain ⟨run, behind, rfl, hrun, hbehind⟩ := exists_run isNameChar rest
    obtain ⟨rfl, hc⟩ : quoted = false ∧ isNameStart c := by simpa using hname
    obtain ⟨hhead, htail, hfirst⟩ := replaceLines_run hrun hbehind
    rw [takeWhile_run hrun hbehind, dropWhile_run hrun hbehind] at *
    rw [replaceLines, lines_cons hfeed hreturn, hhead, htail]
    show joinLines (replaceWords replace false (c :: (run ++ _)) :: _) = _
    rw [replaceWords_word replace hc hrun hfirst, ← ih]
    exact joinLines_append _ _ _
  | case7 quoted c rest hfeed hreturn hquote hname hdigit ih =>
    obtain ⟨run, behind, rfl, hrun, hbehind⟩ := exists_run isNameChar rest
    obtain ⟨hhead, htail, hfirst⟩ := replaceLines_run hrun hbehind
    rw [takeWhile_run hrun hbehind, dropWhile_run hrun hbehind] at *
    rw [replaceLines, lines_cons hfeed hreturn, hhead, htail]
    show joinLines (replaceWords replace quoted (c :: (run ++ _)) :: _) = _
    rw [replaceWords_digits replace quoted hdigit hrun hfirst, ← ih]
    exact joinLines_append _ _ _
  | case8 quoted c rest hfeed hreturn hquote hname hdigit ih => 
    rw [replaceLines, lines_cons hfeed hreturn]
    show joinLines (replaceWords replace quoted (c :: _) :: _) = _
    rw [replaceWords_other replace hquote hname hdigit, ← ih]
    exact joinLines_append [c] _ _

theorem joinLines_map_replaceWords (text : List Char) :
    joinLines ((lines text).map (replaceWords replace false)) = sweep replace false text := by
  rw [← joinLines_replaceLines, replaceLines]
  cases lines text with
  | nil => simp [joinLines, replaceWords_nil]
  | cons line more => rfl

def Defines.replacement (d : Defines) (word : List Char) : List Char := match d.get? word with
  | some value => d.expand 15 value
  | none => word

variable {defines : Defines} {texts : List (List Char)}

theorem expandLines_of_no_directive {includeText} {number : Nat} (h : ∀ line ∈ texts, Directive.ofLine? line = none) :
    expandLines includeText number { defines } texts = .ok (texts.map defines.expandLine, { defines }) := by
  induction texts generalizing number with
  | nil => rfl
  | cons line rest ih =>
    have hrest := @ih (number + 1) fun l hl => h l (.tail _ hl)
    simp only [expandLines, h line (.head _), bind, Except.bind, Reading.isActive, if_true, hrest]
    rfl

theorem expand_of_no_directive {source : String} {loader : Loader}
    (h : ∀ line ∈ lines source.toList, Directive.ofLine? line = none) :
    expand source defines loader = .ok (String.ofList (sweep defines.replacement false source.toList)) := by
  unfold expand expandText
  rw [expandLines_of_no_directive h, ← joinLines_map_replaceWords]
  rfl

/-! ### Sweeping over a part of a text -/

theorem sweep_nil (quoted : Bool) : sweep replace quoted [] = [] := by rw [sweep]

theorem sweep_feed (hrest : rest ≠ []) (quoted : Bool) :
    sweep replace quoted ('\n' :: rest) = '\n' :: sweep replace false rest := by
  rw [sweep, if_pos rfl, if_neg (by simpa using hrest)]

theorem sweep_last_feed (quoted : Bool) : sweep replace quoted ['\n'] = [] := by
  rw [sweep]
  rfl

theorem sweep_return (hrest : rest.head? = some '\n') (quoted : Bool) :
    sweep replace quoted ('\r' :: rest) = sweep replace quoted rest := by
  rw [sweep, if_neg (by decide), if_pos ⟨rfl, hrest⟩]

theorem sweep_quote (quoted : Bool) (rest : List Char) :
    sweep replace quoted ('"' :: rest) = '"' :: sweep replace (!quoted) rest := by
  rw [sweep, if_neg (by decide), if_neg (by simp), if_pos rfl]

theorem sweep_word (hc : isNameStart c) (hrun : ∀ x ∈ run, isNameChar x) (hrest : rest.head?.any isNameChar = false) :
    sweep replace false (c :: (run ++ rest)) = replace (c :: run) ++ sweep replace false rest := by
  obtain ⟨hfeed, hreturn, hquote⟩ := isNameChar_ne (isNameChar_of_isNameStart hc)
  rw [sweep, if_neg hfeed, if_neg fun h => hreturn h.1, if_neg hquote, if_pos (by simpa using hc),
    takeWhile_run hrun hrest, dropWhile_run hrun hrest]

theorem sweep_digits (quoted : Bool) (hc : c.isDigit)
    (hrun : ∀ x ∈ run, isNameChar x) (hrest : rest.head?.any isNameChar = false) :
    sweep replace quoted (c :: (run ++ rest)) = c :: run ++ sweep replace quoted rest := by
  obtain ⟨hfeed, hreturn, hquote⟩ := isNameChar_ne (isNameChar_of_isDigit hc)
  rw [sweep, if_neg hfeed, if_neg fun h => hreturn h.1, if_neg hquote, if_neg (by simp [isNameStart_of_isDigit hc]),
    if_pos hc, takeWhile_run hrun hrest, dropWhile_run hrun hrest]

theorem sweep_other (hfeed : c ≠ '\n') (hreturn : ¬(c = '\r' ∧ rest.head? = some '\n')) (hquote : c ≠ '"')
    (hname : ¬(!quoted && isNameStart c)) (hdigit : ¬c.isDigit) :
    sweep replace quoted (c :: rest) = c :: sweep replace quoted rest := by
  rw [sweep, if_neg hfeed, if_neg hreturn, if_neg hquote, if_neg hname, if_neg hdigit]

/-- Whether a quote is open at the end of a text, as the number of quotes in its last line tells. -/
def endsQuoted (quoted : Bool) : List Char → Bool
  | [] => quoted
  | c :: rest => endsQuoted (if c = '"' then !quoted else if c = '\n' then false else quoted) rest

theorem endsQuoted_append (quoted : Bool) (text rest : List Char) :
    endsQuoted quoted (text ++ rest) = endsQuoted (endsQuoted quoted text) rest := by
  induction text generalizing quoted with
  | nil => rfl
  | cons c text ih => exact ih _

theorem endsQuoted_eq_self (htext : ∀ x ∈ text, x ≠ '\n' ∧ x ≠ '"') (quoted : Bool) :
    endsQuoted quoted text = quoted := by
  induction text with
  | nil => rfl
  | cons c text ih =>
    obtain ⟨⟨hfeed, hquote⟩, htext⟩ := forall_mem_cons.mp htext
    rw [endsQuoted, if_neg hquote, if_neg hfeed, ih htext]

theorem endsQuoted_run (hrun : ∀ x ∈ run, isNameChar x) (quoted : Bool) (rest : List Char) :
    endsQuoted quoted (run ++ rest) = endsQuoted quoted rest := by
  rw [endsQuoted_append, endsQuoted_eq_self fun x hx => ⟨(isNameChar_ne (hrun x hx)).1, (isNameChar_ne (hrun x hx)).2.2⟩]

/-- What a sweep makes of a part of a text in front of the text that follows it, piece by piece: it starts inside
quotes or outside, gives the characters and ends inside or outside. -/
inductive Swept (follow : List Char) : Bool → List Char → List Char → Bool → Prop
  | nil {quoted : Bool} : Swept follow quoted [] [] quoted
  | feed {quoted after : Bool} {body out : List Char} : Swept follow false body out after →
      Swept follow quoted ('\n' :: body) ('\n' :: out) after
  | dropReturn {quoted after : Bool} {body out : List Char} : (body ++ follow).head? = some '\n' →
      Swept follow quoted body out after → Swept follow quoted ('\r' :: body) out after
  | quote {quoted after : Bool} {body out : List Char} : Swept follow (!quoted) body out after →
      Swept follow quoted ('"' :: body) ('"' :: out) after
  | word {after : Bool} {c : Char} {run body out : List Char} : isNameStart c →
      (∀ x ∈ run, isNameChar x) → Swept follow false body out after →
      Swept follow false (c :: (run ++ body)) (replace (c :: run) ++ out) after
  | digits {quoted after : Bool} {c : Char} {run body out : List Char} : c.isDigit →
      (∀ x ∈ run, isNameChar x) → Swept follow quoted body out after →
      Swept follow quoted (c :: (run ++ body)) (c :: run ++ out) after
  | other {quoted after : Bool} {c : Char} {body out : List Char} : c ≠ '\n' → c ≠ '"' →
      Swept follow quoted body out after → Swept follow quoted (c :: body) (c :: out) after

variable {replace} {follow : List Char}

theorem head_append_any {p} (hxs : xs.head?.any p = false)
    (hfollow : follow.head?.any p = false) : (xs ++ follow).head?.any p = false := by
  cases xs with
  | nil => exact hfollow
  | cons x xs => exact hxs

theorem exists_swept (quoted : Bool) (body : List Char) (hname : follow.head?.any isNameChar = false)
    (hend : follow ≠ [] ∨ '\n' ∉ body) :
    ∃ out after, Swept replace follow quoted body out after ∧
      sweep replace quoted (body ++ follow) = out ++ sweep replace after follow := by
  -- a name is taken away at once, so the induction is on the length of what is left
  induction hlength : body.length using Nat.strongRecOn generalizing quoted body with
  | ind n ih =>
    cases body with
    | nil => exact ⟨[], quoted, .nil, rfl⟩
    | cons c body =>
      have step : ∀ (quoted : Bool) (run behind : List Char), body = run ++ behind →
          ∃ out after, Swept replace follow quoted behind out after ∧
            sweep replace quoted (behind ++ follow) = out ++ sweep replace after follow := by
        rintro quoted run behind rfl
        refine ih behind.length ?_ quoted behind (hend.imp_right fun h hmem => h ?_) rfl
        · rw [← hlength, length_cons, length_append]
          omega
        · exact .tail _ (mem_append_right _ hmem)
      by_cases hfeed : c = '\n'
      · subst hfeed
        obtain ⟨out, after, hswept, heq⟩ := step false [] body rfl
        have hrest : body ++ follow ≠ [] := by
          rcases hend with hne | hfree
          · exact append_ne_nil_of_right_ne_nil _ hne
          · exact absurd (.head _) hfree
        exact ⟨_, after, .feed hswept, by rw [cons_append, sweep_feed replace hrest, heq]; rfl⟩
      by_cases hreturn : c = '\r' ∧ (body ++ follow).head? = some '\n'
      · obtain ⟨rfl, hhead⟩ := hreturn
        obtain ⟨out, after, hswept, heq⟩ := step quoted [] body rfl
        exact ⟨_, after, .dropReturn hhead hswept, by rw [cons_append, sweep_return replace hhead, heq]⟩
      by_cases hquote : c = '"'
      · subst hquote
        obtain ⟨out, after, hswept, heq⟩ := step (!quoted) [] body rfl
        exact ⟨_, after, .quote hswept, by rw [cons_append, sweep_quote, heq]; rfl⟩
      obtain ⟨run, behind, rfl, hrun, hbehind⟩ := exists_run isNameChar body
      have hbehind := head_append_any hbehind hname
      by_cases hstart : (!quoted && isNameStart c)
      · obtain ⟨rfl, hc⟩ : quoted = false ∧ isNameStart c := by simpa using hstart
        obtain ⟨out, after, hswept, heq⟩ := step false run behind rfl
        refine ⟨_, after, .word hc hrun hswept, ?_⟩
        rw [cons_append, append_assoc, sweep_word replace hc hrun hbehind, heq, append_assoc]
      by_cases hdigit : c.isDigit
      · obtain ⟨out, after, hswept, heq⟩ := step quoted run behind rfl
        refine ⟨_, after, .digits hdigit hrun hswept, ?_⟩
        rw [cons_append, append_assoc, sweep_digits replace quoted hdigit hrun hbehind, heq, append_assoc]
      · obtain ⟨out, after, hswept, heq⟩ := step quoted [] (run ++ behind) rfl
        refine ⟨_, after, .other hfeed hquote hswept, ?_⟩
        rw [cons_append, sweep_other replace hfeed hreturn hquote hstart hdigit, heq]
        rfl

/-- A part without a carriage return to be dropped, and without a name that would be replaced outside quotes. -/
structure Untouched (replace : List Char → List Char) (follow : List Char) (quoted : Bool) (body : List Char) :
    Prop where
  carriageReturn : ¬ ['\r', '\n'] <:+: body ++ follow.take 1
  names : quoted = false ∨ '"' ∈ body ∨ '\n' ∈ body →
    ∀ c run, isNameStart c → c :: run <:+: body → replace (c :: run) = c :: run

theorem Untouched.of_suffix (h : Untouched replace follow quoted body)
    (htail : tail <:+ body) (hquoted : quoted' = false → quoted = false ∨ '"' ∈ body ∨ '\n' ∈ body) :
    Untouched replace follow quoted' tail where
  carriageReturn hin := by
    obtain ⟨start, rfl⟩ := htail
    refine h.carriageReturn (hin.trans ?_)
    rw [append_assoc]
    exact (suffix_append start _).isInfix
  names hopen c run hc hin := by
    refine h.names ?_ c run hc (hin.trans htail.isInfix)
    rcases hopen with hq | hmem | hmem
    · exact hquoted hq
    · exact .inr (.inl (htail.mem hmem))
    · exact .inr (.inr (htail.mem hmem))

/-- Every name is replaced with letters, digits and marks between them. -/
def ReplacesWithNumerals (replace : List Char → List Char) : Prop :=
  ∀ c run, isNameStart c → (∀ x ∈ run, isNameChar x) →
    replace (c :: run) ≠ [] ∧ ∀ x ∈ replace (c :: run), isNameChar x ∨ x = '\''

namespace Swept

theorem after_eq (h : Swept replace follow quoted body out after) : after = endsQuoted quoted body := by
  induction h with
  | nil => rfl
  | feed _ ih | dropReturn _ _ ih | quote _ ih => exact ih
  | @word _ c run body _ hc hrun _ ih =>
    rw [ih, ← cons_append, endsQuoted_run]
    exact forall_mem_cons.mpr ⟨isNameChar_of_isNameStart hc, hrun⟩
  | @digits _ _ c run body _ hc hrun _ ih =>
    rw [ih, ← cons_append, endsQuoted_run]
    exact forall_mem_cons.mpr ⟨isNameChar_of_isDigit hc, hrun⟩
  | other hfeed hquote _ ih => rw [ih, endsQuoted, if_neg hquote, if_neg hfeed]

theorem eq_self (h : Swept replace follow quoted body out after) (hbody : Untouched replace follow quoted body) :
    out = body := by
  induction h with
  | nil => rfl
  | feed _ ih => rw [ih (hbody.of_suffix (suffix_cons _ _) fun _ => .inr (.inr (.head _)))]
  | @dropReturn _ _ body _ hhead =>
    refine absurd ?_ hbody.carriageReturn
    cases body with
    | nil =>
      obtain ⟨tail, rfl⟩ := head?_eq_some_iff.mp hhead
      exact infix_rfl
    | cons c body =>
      cases hhead
      exact ⟨[], body ++ follow.take 1, rfl⟩
  | quote _ ih => rw [ih (hbody.of_suffix (suffix_cons _ _) fun _ => .inr (.inl (.head _)))]
  | @word _ c run _ _ hc _ _ ih =>
    rw [ih (hbody.of_suffix ⟨c :: run, rfl⟩ .inl), hbody.names (.inl rfl) c run hc ⟨[], _, rfl⟩]
    rfl
  | @digits _ _ c run _ _ _ _ _ ih =>
    rw [ih (hbody.of_suffix ⟨c :: run, rfl⟩ .inl)]
    rfl
  | other _ _ _ ih => rw [ih (hbody.of_suffix (suffix_cons _ _) .inl)]

theorem not_mem_feed (h : Swept replace follow quoted body out after) (hreplace : ReplacesWithNumerals replace)
    (hbody : '\n' ∉ body) : '\n' ∉ out := by
  induction h with
  | nil => exact hbody
  | feed => exact absurd (.head _) hbody
  | dropReturn _ _ ih => exact ih fun h => hbody (.tail _ h)
  | quote _ ih =>
    have := ih fun h => hbody (.tail _ h)
    simpa using this
  | @word _ c run body out hc hrun _ ih =>
    intro hmem
    rcases mem_append.mp hmem with hmem | hmem
    · rcases (hreplace c run hc hrun).2 _ hmem with h | h
      · exact absurd h (by decide)
      · exact absurd h (by decide)
    · exact ih (fun h => hbody (.tail _ (mem_append_right _ h))) hmem
  | @digits _ _ c run body out hc hrun _ ih =>
    intro hmem
    rcases mem_append.mp hmem with hmem | hmem
    · exact hbody (mem_append_left body hmem)
    · exact ih (fun h => hbody (.tail _ (mem_append_right _ h))) hmem
  | other hfeed _ _ ih =>
    intro hmem
    rcases mem_cons.mp hmem with h | h
    · exact hfeed h.symm
    · exact ih (fun h => hbody (.tail _ h)) h

theorem not_infix_append (hchunk : '*' ∉ chunk) (hout : ¬ ['*', '/'] <:+: out) : ¬ ['*', '/'] <:+: chunk ++ out := by
  induction chunk with
  | nil => exact hout
  | cons c chunk ih =>
    intro hin
    rcases infix_cons_iff.mp hin with ⟨tail, hlead⟩ | hin
    · obtain ⟨rfl, _⟩ := List.cons.inj hlead
      exact hchunk (.head _)
    · exact ih (fun h => hchunk (.tail _ h)) hin

theorem not_infix_end (h : Swept replace follow quoted body out after) (hreplace : ReplacesWithNumerals replace)
    (hbody : ¬ ['*', '/'] <:+: body) :
    ¬ ['*', '/'] <:+: out ∧ (out.head? = some '/' → body.head? = some '/') := by
  induction h with
  | nil => exact ⟨hbody, fun h => h⟩
  | @feed _ _ body out _ ih =>
    obtain ⟨hout, _⟩ := ih fun h => hbody (h.trans (suffix_cons _ _).isInfix)
    exact ⟨show ¬ ['*', '/'] <:+: ['\n'] ++ out from not_infix_append (by decide) hout, fun h => by cases h⟩
  | @dropReturn _ _ body out hhead _ ih =>
    obtain ⟨hout, hslash⟩ := ih fun h => hbody (h.trans (suffix_cons _ _).isInfix)
    refine ⟨hout, fun h => ?_⟩
    obtain ⟨tail, rfl⟩ := head?_eq_some_iff.mp (hslash h)
    cases hhead
  | @quote _ _ body out _ ih =>
    obtain ⟨hout, _⟩ := ih fun h => hbody (h.trans (suffix_cons _ _).isInfix)
    exact ⟨show ¬ ['*', '/'] <:+: ['"'] ++ out from not_infix_append (by decide) hout, fun h => by cases h⟩
  | @word _ c run body out hc hrun _ ih =>
    obtain ⟨hout, _⟩ := ih fun h => hbody (h.trans (suffix_append (c :: run) body).isInfix)
    obtain ⟨hne, hchars⟩ := hreplace c run hc hrun
    refine ⟨not_infix_append (fun h => ?_) hout, fun h => ?_⟩
    · rcases hchars _ h with h | h <;> exact absurd h (by decide)
    · obtain ⟨x, xs, hx⟩ := exists_cons_of_ne_nil hne
      rw [hx] at h hchars
      cases h
      rcases hchars _ (.head _) with h | h <;> exact absurd h (by decide)
  | @digits _ _ c run body out hc hrun _ ih =>
    obtain ⟨hout, _⟩ := ih fun h => hbody (h.trans (suffix_append (c :: run) body).isInfix)
    have hchars : ∀ x ∈ c :: run, isNameChar x := forall_mem_cons.mpr ⟨isNameChar_of_isDigit hc, hrun⟩
    refine ⟨not_infix_append (fun h => absurd (hchars _ h) (by decide)) hout, fun h => ?_⟩
    cases h
    exact absurd hc (by decide)
  | @other _ _ c body out _ _ _ ih =>
    obtain ⟨hout, hslash⟩ := ih fun h => hbody (h.trans (suffix_cons _ _).isInfix)
    refine ⟨fun hin => ?_, fun h => h⟩
    rcases infix_cons_iff.mp hin with ⟨tail, hlead⟩ | hin
    · -- a slash behind a star would have ended the comment before
      obtain ⟨rfl, rfl⟩ := List.cons.inj hlead
      obtain ⟨tail, rfl⟩ := head?_eq_some_iff.mp (hslash rfl)
      exact hbody ⟨[], tail, rfl⟩
    · exact hout hin

end Swept

theorem sweep_untouched (hbody : Untouched replace follow quoted body)
    (hfollow : follow.head?.any isNameChar = false) (hend : follow ≠ [] ∨ '\n' ∉ body) :
    sweep replace quoted (body ++ follow) = body ++ sweep replace (endsQuoted quoted body) follow := by
  obtain ⟨out, after, hswept, heq⟩ := @exists_swept replace follow quoted body hfollow hend
  rw [heq, hswept.eq_self hbody, hswept.after_eq]

theorem sweep_inert (hbody : ∀ x ∈ body, isInert x) (rest : List Char) :
    sweep replace quoted (body ++ rest) = body ++ sweep replace quoted rest := by
  induction body with
  | nil => rfl
  | cons c body ih =>
    obtain ⟨hc, hbody⟩ := forall_mem_cons.mp hbody
    simp only [isInert, Bool.and_eq_true, bne_iff_ne, Bool.not_eq_true'] at hc
    obtain ⟨⟨⟨⟨hfeed, hreturn⟩, hquote⟩, hname⟩, hdigit⟩ := hc
    rw [cons_append, sweep_other replace hfeed (fun h => hreturn h.1) hquote (by simp [hname])
      (ne_true_of_eq_false hdigit), ih hbody]
    rfl

theorem replaceWords_eq_sweep (htext : ∀ c ∈ text, c ≠ '\n' ∧ c ≠ '\r') (quoted : Bool) :
    replaceWords replace quoted text = sweep replace quoted text := by
  obtain ⟨hhead, htail⟩ := lines_run [] htext
  rw [← joinLines_replaceLines, replaceLines]
  rw [append_nil] at hhead htail
  rw [hhead, htail]
  exact (congrArg _ (append_nil text)).symm

end Source
end Microcode
