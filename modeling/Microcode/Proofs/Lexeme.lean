import Microcode.Proofs.Character
import Microcode.Proofs.Result
import Microcode.Token.Lexer

/-!
What a lexeme depends on.

Where a token ends is decided by the characters behind it: a word goes on while word characters follow, a
number may get a fraction, a sign may be the start of a longer one.  All that a reader asks of what follows
is whether it goes on like that.
-/

namespace Microcode

variable {rest b whole cs digits body text fraction a run : List Char} {c next bracket d : Char}
  {more n base k : Nat} {second second' : Option Char}

open List Option Text Source

def startsFraction : List Char → Bool
  | '.' :: d :: _ => d.isDigit
  | _ => false

/-- The characters, other than those of words, that a token may go on with. -/
def continuing : List Char := ['=', '*', '/', '<', '>', '|', '\'']

/-- The text `b` starts with nothing that a token could go on with, unless `a` starts so too. -/
structure NoMore (b a : List Char) : Prop where
  word : b.head?.any isWordChar → a.head?.any isWordChar
  sign : ∀ c ∈ continuing, b.head? = some c → a.head? = some c
  fraction : startsFraction b → startsFraction a

theorem NoMore.nil (a : List Char) : NoMore [] a where
  word h := by cases h
  sign _ _ h := by cases h
  fraction h := by cases h

theorem NoMore.head_append_ne (hb : NoMore b (rest.drop more))
    (hmore : more ≤ rest.length) (hc : c ∈ continuing) (hhead : rest.head? ≠ some c) :
    (rest.take more ++ b).head? ≠ some c := by
  cases more with
  | zero => exact fun h => hhead (hb.sign c hc h)
  | succ n =>
    cases rest with
    | nil => cases hmore
    | cons d tail => exact hhead

namespace Lexeme

/-- A reader takes a token to be the same and equally long whatever comes behind it that goes on with no
more. -/
def IsLocal (f : List Char → Except LexFault Lexeme) : Prop :=
  ∀ rest kind more, f rest = .ok (token kind more) → more ≤ rest.length ∧
    ∀ b, NoMore b (rest.drop more) → f (rest.take more ++ b) = .ok (token kind more)

/-! ### Signs -/

def IsSignKind (kind : TokenKind) : Prop := (∃ s, kind = .sign s) ∨ ∃ op, kind = .compound op

def single (kind : TokenKind) (_ : List Char) : Except LexFault Lexeme := .ok (token kind 0)

/-- What one reader reads behind a given character, or else what another reads. -/
def after (c : Char) (longer plain : List Char → Except LexFault Lexeme) (rest : List Char) : Except LexFault Lexeme :=
  if rest.head? = some c then (longer rest.tail).map fun l => ⟨l.kind?, l.more + 1⟩ else plain rest

/-- A reader of signs, which looks for characters that tokens go on with. -/
inductive ReadsSigns : (List Char → Except LexFault Lexeme) → Prop
  | single {kind} (hkind : IsSignKind kind) : ReadsSigns (single kind)
  | after {c longer plain} (hc : c ∈ continuing)
      (hlonger : ReadsSigns longer) (hplain : ReadsSigns plain) : ReadsSigns (after c longer plain)

/-- What was read is a sign, which has no characters of words and is read again where no more follows. -/
structure IsSign (f : List Char → Except LexFault Lexeme) (rest : List Char) (l : Lexeme) : Prop where
  kind : ∃ kind, l.kind? = some kind ∧ IsSignKind kind
  le : l.more ≤ rest.length
  chars : ∀ x ∈ rest.take l.more, isInert x
  again : ∀ b, NoMore b (rest.drop l.more) → f (rest.take l.more ++ b) = .ok l

theorem isInert_of_continuing : ∀ c ∈ continuing, isInert c := all_eq_true.mp rfl

theorem ReadsSigns.isSign {f} (hf : ReadsSigns f) {l : Lexeme} (h : f rest = .ok l) : IsSign f rest l := by
  induction hf generalizing rest l with
  | single hkind =>
    cases h
    exact ⟨⟨_, rfl, hkind⟩, Nat.zero_le _, fun _ hx => absurd hx not_mem_nil, fun _ _ => rfl⟩
  | @after c longer plain hc _ _ ihLonger ihPlain =>
    unfold Lexeme.after at h
    split at h
    · next hhead =>
        obtain ⟨tail, rfl⟩ := head?_eq_some_iff.mp hhead
        obtain ⟨m, hm, rfl⟩ := map_eq_ok.mp h
        obtain ⟨hkind, hle, hchars, hagain⟩ := @ihLonger tail m hm
        refine ⟨hkind, Nat.succ_le_succ hle, ?_, fun b hb => ?_⟩
        · exact forall_mem_cons.mpr ⟨isInert_of_continuing c hc, hchars⟩
        · show Lexeme.after c longer plain (c :: (tail.take m.more ++ b)) = _
          unfold Lexeme.after
          rw [head?_cons, if_pos rfl, tail_cons, hagain b hb]
          rfl
    · next hhead =>
        obtain ⟨hkind, hle, hchars, hagain⟩ := ihPlain h
        refine ⟨hkind, hle, hchars, fun b hb => ?_⟩
        unfold Lexeme.after
        rw [if_neg (hb.head_append_ne hle hc hhead), hagain b hb]

theorem readsSigns_sign (s : Sign) : ReadsSigns (single (.sign s)) := .single (.inl ⟨s, rfl⟩)

theorem readsSigns_compound (op : BinaryOp) : ReadsSigns (single (.compound op)) := .single (.inr ⟨op, rfl⟩)

theorem readsSigns_withEquals (op : BinaryOp) (plain : Sign) :
    ReadsSigns fun rest => .ok (withEquals op plain rest) := by
  have heq : (fun rest => .ok (withEquals op plain rest))
      = after '=' (single (.compound op)) (single (.sign plain)) := by
    funext rest
    unfold withEquals after
    split
    · rfl
    · next hne =>
        rw [if_neg]
        · rfl
        · intro hhead
          obtain ⟨tail, rfl⟩ := head?_eq_some_iff.mp hhead
          exact hne tail rfl
  rw [heq]
  exact .after (by decide) (readsSigns_compound op) (readsSigns_sign plain)

theorem readsSigns_orLonger (hnext : next ∈ continuing) (longer plain : Sign) :
    ReadsSigns fun rest => .ok (orLonger next longer plain rest) := by
  have heq : (fun rest => .ok (orLonger next longer plain rest))
      = after next (single (.sign longer)) (single (.sign plain)) := by
    funext rest
    cases rest with
    | nil => rfl
    | cons c tail =>
      unfold orLonger after
      by_cases hc : c = next
      · simp [hc, single, Except.map, token]
      · simp [hc, single]
  rw [heq]
  exact .after hnext (readsSigns_sign longer) (readsSigns_sign plain)

theorem readsSigns_angle (hbracket : bracket ∈ continuing) (op : BinaryOp)
    (shift plain orEqual : Sign) : ReadsSigns fun rest => .ok (angle bracket op shift plain orEqual rest) := by
  have heq : (fun rest => .ok (angle bracket op shift plain orEqual rest)) = after '=' (single (.sign orEqual))
          (after bracket (after '=' (single (.compound op)) (single (.sign shift))) (single (.sign plain))) := by
    funext rest
    cases rest with
    | nil => rfl
    | cons c tail =>
      by_cases hc : c = '='
      · subst hc
        rfl
      · by_cases hb : bracket = c
        · subst hb
          cases tail with
          | nil => simp [angle, after, single, hc, Except.map, token]
          | cons d tail => by_cases hd : d = '=' <;> simp [angle, after, single, hc, hd, Except.map, token]
        · have hb : c ≠ bracket := Ne.symm hb
          cases tail with
          | nil => simp [angle, after, single, hc, hb]
          | cons d tail => by_cases hd : d = '=' <;> simp [angle, after, single, hc, hd, hb]
  have hequals : '=' ∈ continuing := by decide
  rw [heq]
  exact .after hequals (readsSigns_sign orEqual)
    (.after hbracket (.after hequals (readsSigns_compound op) (readsSigns_sign shift)) (readsSigns_sign plain))

theorem readsSigns_plus : ReadsSigns (read '+') := by
  have heq : read '+' = after '*' (single (.sign .mulAdd)) fun rest => .ok (withEquals .add .plus rest) := by
    funext rest
    simp only [read, after]
    split
    · rfl
    · next hstar =>
        rw [if_neg]
        intro hhead
        obtain ⟨tail, rfl⟩ := head?_eq_some_iff.mp hhead
        exact hstar tail rfl
  rw [heq]
  exact .after (by decide) (readsSigns_sign .mulAdd) (readsSigns_withEquals _ _)

theorem word_eq_nil (h : b.head?.any isWordChar ≠ true) : word b = [] := by
  cases b with
  | nil => rfl
  | cons c b => exact takeWhile_cons_of_neg h

theorem length_word_le (cs : List Char) : (word cs).length ≤ cs.length := (takeWhile_sublist _).length_le

theorem word_take (hb : NoMore b (cs.drop (word cs).length)) : word (cs.take (word cs).length ++ b) = word cs := by
  induction cs with
  | nil => exact word_eq_nil fun h => by cases hb.word h
  | cons c cs ih =>
    by_cases hc : isWordChar c
    · have hword : ∀ cs, word (c :: cs) = c :: word cs := fun cs => takeWhile_cons_of_pos hc
      rw [hword] at hb ⊢
      show word (c :: (cs.take (word cs).length ++ b)) = _
      rw [hword, ih hb]
    · have hword : word (c :: cs) = [] := takeWhile_cons_of_neg hc
      rw [hword] at hb ⊢
      exact word_eq_nil fun h => hc (hb.word h)

theorem stringBody?_cons (hfeed : c ≠ '\n') (hquote : c ≠ '"') (hslash : c ≠ '\\') (rest : List Char) :
    stringBody? (c :: rest) = (stringBody? rest).map fun (text, n) => (c :: text, n + 1) := by
  simp [stringBody?, hslash]

theorem stringBody?_feed (h : rest.head? = some '\n') : stringBody? rest = none := by
  obtain ⟨tail, rfl⟩ := head?_eq_some_iff.mp h
  rfl

theorem not_infix_of_stringBody? {result} (h : stringBody? rest = some result) (hbody : rest.take n = body ++ ['"'])
    (hends : ¬ ['\r', '\n'] <:+: body) :
    ¬ ['\r', '\n'] <:+: c :: body := by
  intro hin
  rcases infix_cons_iff.mp hin with ⟨tail, hlead⟩ | hin
  · obtain ⟨rfl, rfl⟩ := List.cons.inj hlead
    have hhead : rest.head? = some '\n' := by
      cases rest with
      | nil => simp at hbody
      | cons d rest =>
        cases n with
        | zero => simp at hbody
        | succ n => exact congrArg some (List.cons.inj hbody).1
    rw [stringBody?_feed hhead] at h
    cases h
  · exact hends hin

theorem stringBody?_take (h : stringBody? rest = some (text, n)) :
    n ≤ rest.length ∧ (∃ body, rest.take n = body ++ ['"'] ∧ ¬ ['\r', '\n'] <:+: body) ∧
      ∀ b, stringBody? (rest.take n ++ b) = some (text, n) := by
  induction rest using stringBody?.induct generalizing text n with
  | case1 | case2 | case4 => cases h
  | case3 tail =>
    cases h
    exact ⟨Nat.succ_le_succ (Nat.zero_le _), ⟨[], rfl, by simp⟩, fun b => rfl⟩
  | case5 c rest ih =>
    obtain ⟨⟨inner, m⟩, hinner, heq⟩ := map_eq_some_iff.mp h
    cases heq
    obtain ⟨hm, ⟨body, hbody, hends⟩, htake⟩ := ih hinner
    refine ⟨Nat.add_le_add_right hm 2, ⟨'\\' :: c :: body, by simp [hbody], fun hin => ?_⟩, fun b => ?_⟩
    · rcases infix_cons_iff.mp hin with ⟨_, hlead⟩ | hin
      · cases hlead
      · exact not_infix_of_stringBody? hinner hbody hends hin
    · show (stringBody? (rest.take m ++ b)).map _ = _
      rw [htake b]
      rfl
  | case6 c rest hfeed hquote hslash hescape ih =>
    have hslash : c ≠ '\\' := fun hc => by
      cases rest with
      | nil => exact hslash hc rfl
      | cons d rest => exact hescape d rest hc rfl
    rw [stringBody?_cons hfeed hquote hslash] at h
    obtain ⟨⟨inner, m⟩, hinner, heq⟩ := map_eq_some_iff.mp h
    cases heq
    obtain ⟨hm, ⟨body, hbody, hends⟩, htake⟩ := ih hinner
    refine ⟨Nat.succ_le_succ hm, ⟨c :: body, by simp [hbody], not_infix_of_stringBody? hinner hbody hends⟩, fun b => ?_⟩
    show stringBody? (c :: (rest.take m ++ b)) = _
    rw [stringBody?_cons hfeed hquote hslash, htake b]
    rfl

/-! ### Numbers -/

/-- The text goes on with neither a digit of the base nor a mark between digits. -/
def StopsDigits (base : Nat) (b : List Char) : Prop :=
  ∀ c, b.head? = some c → (digitValue? base c).isSome = false ∧ c ≠ '\''

theorem digitRun_eq_nil (hb : StopsDigits base b) (seen : Bool) : digitRun base seen b = ([], 0) := by
  cases b with
  | nil => rfl
  | cons c b =>
    obtain ⟨hdigit, hmark⟩ := hb c rfl
    simp [digitRun, hdigit, hmark]

/-- The text starts with a run of digits, which is read again before what does not continue it. -/
structure IsRun (base : Nat) (seen : Bool) (digits run rest : List Char) : Prop where
  read : digitRun base seen (run ++ rest) = (digits, run.length)
  again : ∀ b, StopsDigits base b → digitRun base seen (run ++ b) = (digits, run.length)
  chars : ∀ x ∈ run, (digitValue? base x).isSome ∨ x = '\''
  /-- Behind a run of digits there is no mark between digits. -/
  mark : seen ∨ digits ≠ [] → rest.head? ≠ some '\''

theorem exists_isRun (base : Nat) (seen : Bool) (cs : List Char) :
    ∃ digits run rest, cs = run ++ rest ∧ IsRun base seen digits run rest := by
  induction cs generalizing seen with
  | nil => exact ⟨[], [], [], rfl, rfl, fun b hb => digitRun_eq_nil hb seen, nofun, by simp⟩
  | cons c cs ih =>
    obtain ⟨digits, run, rest, rfl, h⟩ := ih true
    by_cases hdigit : (digitValue? base c).isSome
    · refine ⟨c :: digits, c :: run, rest, rfl, ?_, fun b hb => ?_, forall_mem_cons.mpr ⟨.inl hdigit, h.chars⟩,
        fun _ => h.mark (.inl rfl)⟩
      · simp [digitRun, hdigit, h.read]
      · simp [digitRun, hdigit, h.again b hb]
    by_cases hmark : (c = '\'' && seen)
    · have hc := (Bool.and_eq_true_iff.mp hmark).1
      refine ⟨digits, c :: run, rest, rfl, ?_, fun b hb => ?_,
        forall_mem_cons.mpr ⟨.inr (of_decide_eq_true hc), h.chars⟩, fun _ => h.mark (.inl rfl)⟩
      · rw [cons_append, digitRun, if_neg hdigit, if_pos hmark, h.read]
        rfl
      · rw [cons_append, digitRun, if_neg hdigit, if_pos hmark, h.again b hb]
        rfl
    · refine ⟨[], [], c :: (run ++ rest), rfl, ?_, fun b hb => digitRun_eq_nil hb seen, nofun, ?_⟩
      · rw [nil_append, digitRun, if_neg hdigit, if_neg hmark]
        rfl
      · rintro h heq
        cases heq
        simp_all

theorem stopsDigits_of_head (hword : b.head?.any isWordChar ≠ true)
    (hmark : b.head? ≠ some '\'') : StopsDigits base b := by
  intro c hc
  rw [hc] at hword hmark
  refine ⟨?_, fun h => hmark (h ▸ rfl)⟩
  cases hdigit : (digitValue? base c).isSome with
  | false => rfl
  | true => exact absurd (isWordChar_of_isAlphanum (isAlphanum_of_digitValue? hdigit)) hword

theorem decimalNumber_of_fraction
    (hwhole : digitRun 10 false cs = (whole, n)) (hdrop : cs.drop n = '.' :: d :: rest) (hd : d.isDigit)
    (hfraction : digitRun 10 false (d :: rest) = (fraction, k)) : decimalNumber cs =
      .ok (.float (Float.ofScientific (numberOf 10 (whole ++ fraction)) true fraction.length), n + 1 + k) := by
  unfold decimalNumber
  simp only [hwhole, hdrop, hd, if_true, hfraction]

theorem decimalNumber_of_whole (hwhole : digitRun 10 false cs = (whole, n))
    (hdrop : startsFraction (cs.drop n) = false) : decimalNumber cs = decimalNumber.wholeNumber whole n := by
  unfold decimalNumber
  simp only [hwhole]
  split
  · next d rest heq =>
      rw [heq] at hdrop
      exact if_neg (ne_true_of_eq_false hdrop)
  · rfl

theorem startsFraction_eq_true_iff : startsFraction b ↔ ∃ d rest, b = '.' :: d :: rest ∧ d.isDigit := by
  constructor
  · intro h
    unfold startsFraction at h
    split at h
    · next d rest => exact ⟨d, rest, rfl, h⟩
    · cases h
  · rintro ⟨d, rest, rfl, hd⟩
    exact hd

/-- What may follow a number: no word, no mark between digits and no fraction unless one follows it already. -/
structure EndsNumber (b a : List Char) : Prop where
  word : b.head?.any isWordChar ≠ true
  mark : b.head? = some '\'' → a.head? = some '\''
  fraction : startsFraction b → startsFraction a

theorem EndsNumber.of_noMore (h : NoMore b a) (ha : a.head?.any isWordChar ≠ true) : EndsNumber b a where
  word hb := ha (h.word hb)
  mark := h.sign _ (by decide)
  fraction := h.fraction

variable {kind : TokenKind}

/-- The characters of a number: only a fraction has a point, and only whole numbers have letters. -/
inductive NumberChars (lexeme : List Char) : TokenKind → Prop
  | int {v} : (∀ x ∈ lexeme, isNameChar x ∨ x = '\'') → NumberChars lexeme (.int v)
  | float {v} : (∀ x ∈ lexeme, isInert x ∨ x.isDigit) → NumberChars lexeme (.float v)

/-- Behind its first character a number is read, and read again before what ends it. -/
structure IsNumber (f : List Char → Except LexFault (TokenKind × Nat)) (c : Char) (run rest : List Char)
    (kind : TokenKind) : Prop where
  chars : NumberChars (c :: run) kind
  again : ∀ b, EndsNumber b rest → f (run ++ b) = .ok (kind, run.length + 1)

theorem IsRun.before (h : IsRun base false digits run rest) (hdigits : digits ≠ [])
    (hb : EndsNumber b rest) : digitRun base false (run ++ b) = (digits, run.length) :=
  h.again b (stopsDigits_of_head hb.word fun hmark => h.mark (.inr hdigits) (hb.mark hmark))

theorem exists_decimalRun (hc : c.isDigit) (cs : List Char) : ∃ digits run rest, cs = run ++ rest ∧
    digits ≠ [] ∧ IsRun 10 false digits (c :: run) rest ∧ ∀ x ∈ c :: run, x.isDigit ∨ x = '\'' := by
  have hdigit : (digitValue? 10 c).isSome := by rw [digitValue_of_isDigit hc]; rfl
  obtain ⟨digits, run, rest, heq, h⟩ := exists_isRun 10 false (c :: cs)
  have hread := h.read
  rw [← heq, digitRun, if_pos hdigit] at hread
  obtain ⟨hdigits, hlength⟩ := Prod.mk.inj hread
  cases run with
  | nil => cases hlength
  | cons d run =>
    obtain ⟨rfl, rfl⟩ := List.cons.inj heq
    exact ⟨digits, run, rest, rfl, hdigits ▸ cons_ne_nil _ _, h,
      fun x hx => (h.chars x hx).imp_left isDigit_of_digitValue?⟩

theorem exists_decimalNumber (hc : c.isDigit) (h : decimalNumber (c :: cs) = .ok (kind, n)) :
    ∃ run rest, cs = run ++ rest ∧ n = run.length + 1 ∧ IsNumber (fun cs => decimalNumber (c :: cs)) c run rest kind := by
  obtain ⟨whole, run, rest, rfl, hne, hrun, hchars⟩ := exists_decimalRun hc cs
  have hdrop (b : List Char) : (c :: (run ++ b)).drop (run.length + 1) = b := drop_left
  cases hstarts : startsFraction rest with
  | false =>
    have hwhole := decimalNumber_of_whole hrun.read ((congrArg startsFraction (hdrop rest)).trans hstarts)
    rw [show c :: (run ++ rest) = c :: run ++ rest from rfl, hwhole] at h
    have hagain (b : List Char) (hb : EndsNumber b rest) := decimalNumber_of_whole (hrun.before hne hb) (by
      rw [length_cons, cons_append, hdrop b]
      exact eq_false_of_ne_true fun hb' => absurd (hb.fraction hb') (ne_true_of_eq_false hstarts))
    simp only [decimalNumber.wholeNumber] at h hagain
    split at h
    · cases h
    · cases h
      rename_i hbound
      refine ⟨run, rest, rfl, rfl, .int fun x hx => (hchars x hx).imp_left isNameChar_of_isDigit, fun b hb => ?_⟩
      exact (hagain b hb).trans (if_neg hbound)
  | true =>
    obtain ⟨d, tail, rfl, hd⟩ := startsFraction_eq_true_iff.mp hstarts
    obtain ⟨fraction, part, rest, rfl, hne', hpart, hchars'⟩ := exists_decimalRun hd tail
    -- the number is its whole part, the point and the digits of the fraction
    have hread := decimalNumber_of_fraction hrun.read (hdrop _) hd hpart.read
    rw [show c :: (run ++ '.' :: d :: (part ++ rest)) = c :: run ++ '.' :: d :: (part ++ rest) from rfl, hread] at h
    cases h
    refine ⟨run ++ '.' :: d :: part, rest, by simp, by simp; omega, .float fun x hx => ?_, fun b hb => ?_⟩
    · have hinert {x : Char} (h : x.isDigit ∨ x = '\'') : isInert x ∨ x.isDigit := by
        rcases h with hdigit | rfl
        · exact .inr hdigit
        · exact .inl (by decide)
      rcases mem_append.mp (show x ∈ c :: run ++ '.' :: d :: part from hx) with hx | hx
      · exact hinert (hchars x hx)
      · rcases mem_cons.mp hx with rfl | hx
        · exact .inl (by decide)
        · exact hinert (hchars' x hx)
    · have hstop : StopsDigits 10 ('.' :: d :: (part ++ b)) := by
        intro x hx
        cases hx
        exact ⟨by decide, by decide⟩
      have hread := decimalNumber_of_fraction (hrun.again _ hstop) (hdrop _) hd (hpart.before hne' hb)
      simp only [append_assoc, cons_append] at hread ⊢
      rw [hread]
      simp
      omega

theorem exists_basedNumber (h : basedNumber base rest = .ok (kind, n)) : ∃ run behind, rest = run ++ behind ∧
    n = run.length + 2 ∧ (∃ v, kind = .int v) ∧ (∀ x ∈ run, isNameChar x ∨ x = '\'') ∧
      ∀ b, EndsNumber b behind → basedNumber base (run ++ b) = .ok (kind, n) := by
  obtain ⟨digits, run, behind, rfl, hrun⟩ := exists_isRun base false rest
  simp only [basedNumber, hrun.read] at h
  split at h
  · cases h
  next hok =>
    cases h
    have hdigits : digits ≠ [] := fun hnil => hok (by rw [hnil]; rfl)
    refine ⟨run, behind, rfl, rfl, ⟨_, rfl⟩, fun x hx => (hrun.chars x hx).imp_left fun hdigit => ?_, fun b hb => ?_⟩
    · simp [isNameChar, isAlphanum_of_digitValue? hdigit]
    · simp only [basedNumber, hrun.before hdigits hb, if_neg hok]

def radix? (first : Char) (second : Option Char) : Option Nat := if first = '0' then
    if second = some 'x' ∨ second = some 'X' then some 16
    else if second = some 'b' ∨ second = some 'B' then some 2
    else none
  else none

def unchecked (c : Char) (rest : List Char) : Except LexFault (TokenKind × Nat) :=
  (radix? c rest.head?).elim (decimalNumber (c :: rest)) fun base => basedNumber base rest.tail

theorem radix?_eq_none (hx : ∀ tail, c :: rest ≠ '0' :: 'x' :: tail)
    (hX : ∀ tail, c :: rest ≠ '0' :: 'X' :: tail) (hb : ∀ tail, c :: rest ≠ '0' :: 'b' :: tail)
    (hB : ∀ tail, c :: rest ≠ '0' :: 'B' :: tail) : radix? c rest.head? = none := by
  unfold radix?
  cases rest with
  | nil => simp
  | cons d rest =>
    by_cases hc : c = '0'
    · subst hc
      have hd : d ≠ 'x' ∧ d ≠ 'X' ∧ d ≠ 'b' ∧ d ≠ 'B' := by
        refine ⟨?_, ?_, ?_, ?_⟩ <;> rintro rfl
        · exact hx rest rfl
        · exact hX rest rfl
        · exact hb rest rfl
        · exact hB rest rfl
      simp [hd]
    · rw [if_neg hc]

theorem number_eq (c : Char) (rest : List Char) : number (c :: rest) = unchecked c rest >>= fun r =>
      if ((c :: rest).drop r.2).head?.any isWordChar then .error .invalidNumber else .ok r := by
  unfold number unchecked
  dsimp only
  split
  case h_5 hx hX hb hB =>
    rw [radix?_eq_none hx hX hb hB]
    refine congrArg (bind (decimalNumber _)) (funext fun r => ?_)
    split <;> next heq => rw [heq]; rfl
  all_goals
    next heq =>
      cases heq
      refine congrArg (bind (basedNumber _ _)) (funext fun r => ?_)
      split <;> next heq => rw [heq]; rfl

theorem radix?_congr (h : radix? c second = none)
    (hsecond : second' = second ∨ second'.any isWordChar ≠ true) : radix? c second' = none := by
  rcases hsecond with rfl | hword
  · exact h
  · unfold radix?
    have hx : second' ≠ some 'x' ∧ second' ≠ some 'X' ∧ second' ≠ some 'b' ∧ second' ≠ some 'B' := by
      refine ⟨?_, ?_, ?_, ?_⟩ <;> (rintro rfl; exact hword (by decide))
    simp [hx]

theorem radix?_eq_some (h : radix? c second = some base) : ∃ d, second = some d ∧ isNameChar d := by
  unfold radix? at h
  split at h
  · split at h
    · next hx => rcases hx with rfl | rfl <;> exact ⟨_, rfl, by decide⟩
    · split at h
      · next hb => rcases hb with rfl | rfl <;> exact ⟨_, rfl, by decide⟩
      · cases h
  · cases h

theorem exists_unchecked (hc : c.isDigit) (h : unchecked c rest = .ok (kind, n)) :
    ∃ run behind, rest = run ++ behind ∧ n = run.length + 1 ∧ IsNumber (unchecked c) c run behind kind := by
  unfold unchecked at h
  cases hradix : radix? c rest.head? with
  | none =>
    rw [hradix] at h
    obtain ⟨run, behind, rfl, rfl, hchars, hagain⟩ := exists_decimalNumber hc h
    refine ⟨run, behind, rfl, rfl, hchars, fun b hb => ?_⟩
    have hnone : radix? c (run ++ b).head? = none := by
      refine radix?_congr hradix ?_
      cases run with
      | nil => exact .inr hb.word
      | cons d run => exact .inl rfl
    rw [unchecked, hnone]
    exact hagain b hb
  | some base =>
    rw [hradix] at h
    obtain ⟨d, hhead, hd⟩ := radix?_eq_some hradix
    obtain ⟨tail, rfl⟩ := head?_eq_some_iff.mp hhead
    obtain ⟨run, behind, htail, rfl, ⟨v, rfl⟩, hchars, hagain⟩ := exists_basedNumber h
    refine ⟨d :: run, behind, congrArg (d :: ·) htail, rfl, .int ?_, fun b hb => ?_⟩
    · exact forall_mem_cons.mpr ⟨.inl (isNameChar_of_isDigit hc), forall_mem_cons.mpr ⟨.inl hd, hchars⟩⟩
    · show (radix? c (some d)).elim _ _ = _
      rw [show radix? c (some d) = some base from hradix]
      exact hagain b hb

theorem exists_number (hc : c.isDigit) (h : number (c :: rest) = .ok (kind, n)) :
    ∃ run behind, rest = run ++ behind ∧ n = run.length + 1 ∧ behind.head?.any isWordChar ≠ true ∧
      IsNumber (fun rest => number (c :: rest)) c run behind kind := by
  rw [number_eq] at h
  obtain ⟨r, hr, hcheck⟩ := bind_eq_ok.mp h
  split at hcheck
  · cases hcheck
  · next hword =>
      cases hcheck
      obtain ⟨run, behind, rfl, rfl, hchars, hagain⟩ := exists_unchecked hc hr
      have hdrop (b : List Char) : (c :: (run ++ b)).drop (run.length + 1) = b := drop_left
      rw [hdrop behind] at hword
      refine ⟨run, behind, rfl, rfl, hword, hchars, fun b hb => ?_⟩
      rw [number_eq, hagain b hb]
      show (if ((c :: (run ++ b)).drop (run.length + 1)).head?.any isWordChar then _ else _) = _
      rw [hdrop b, if_neg hb.word]

theorem slash_eq_token (h : slash rest = .ok (token kind more)) : rest.head? ≠ some '/' ∧ rest.head? ≠ some '*' := by
  unfold slash at h
  split at h
  · cases h
  · split at h <;> cases h
  · next hslash hstar =>
      constructor <;> intro hhead <;> obtain ⟨tail, rfl⟩ := head?_eq_some_iff.mp hhead
      · exact hslash tail rfl
      · exact hstar tail rfl

theorem slash_eq_withEquals (hslash : rest.head? ≠ some '/') (hstar : rest.head? ≠ some '*') :
    slash rest = .ok (withEquals .div .slash rest) := by
  unfold slash
  split
  · exact absurd rfl hslash
  · exact absurd rfl hstar
  · rfl

theorem isSign_of_slash (h : slash rest = .ok (token kind more)) : IsSign slash rest (token kind more) := by
  obtain ⟨hslash, hstar⟩ := slash_eq_token h
  rw [slash_eq_withEquals hslash hstar] at h
  obtain ⟨hkind, hle, hchars, hagain⟩ := (readsSigns_withEquals _ _).isSign h
  refine ⟨hkind, hle, hchars, fun b hb => ?_⟩
  rw [slash_eq_withEquals (hb.head_append_ne hle (by decide) hslash) (hb.head_append_ne hle (by decide) hstar)]
  exact hagain b hb

theorem isLocal_quote : IsLocal (read '"') := by
  intro rest kind more h
  simp only [read] at h
  split at h
  · next text n hbody =>
      cases h
      obtain ⟨hn, _, htake⟩ := stringBody?_take hbody
      refine ⟨hn, fun b _ => ?_⟩
      simp only [read, htake b]
  · cases h

theorem isLocal_register : IsLocal (read '$') := by
  intro rest kind more h
  simp only [read] at h
  split at h
  · cases h
  · next hname =>
      cases h
      refine ⟨length_word_le rest, fun b hb => ?_⟩
      simp only [read, word_take hb, if_neg hname]

theorem isLocal_swizzle : IsLocal (read '.') := by
  intro rest kind more h
  simp only [read] at h
  split at h
  · next s hs =>
      cases h
      refine ⟨length_word_le rest, fun b hb => ?_⟩
      simp only [read, word_take hb, hs]
  · cases h

theorem isLocal_number (hc : c.isDigit) :
    IsLocal fun rest => (number (c :: rest)).map fun (kind, n) => token kind (n - 1) := by
  intro rest kind more h
  obtain ⟨⟨_, n⟩, hnumber, heq⟩ := map_eq_ok.mp h
  cases heq
  obtain ⟨run, behind, rfl, rfl, hword, _, hagain⟩ := exists_number hc hnumber
  rw [Nat.add_sub_cancel, take_left, drop_left]
  refine ⟨by simp, fun b hb => ?_⟩
  show (number (c :: (run ++ b))).map _ = _
  rw [hagain b (.of_noMore hb hword)]
  rfl

theorem isLocal_word (hc : isWordChar c) : IsLocal fun rest => .ok
    (token (wordKind (String.ofList (word (c :: rest)))) ((word (c :: rest)).length - 1)) := by
  have hword : ∀ rest, word (c :: rest) = c :: word rest := fun rest => takeWhile_cons_of_pos hc
  intro rest kind more h
  simp only [hword] at h ⊢
  cases h
  refine ⟨length_word_le rest, fun b hb => ?_⟩
  have htake : word (rest.take (word rest).length ++ b) = word rest := word_take hb
  simp only [length_cons, Nat.add_sub_cancel, htake]

inductive Opens (c : Char) : Prop
  | blank (hc : c ∈ [' ', '\t', '\r', '\n']) (hread : read c = fun _ => .ok (skip 0))
  | slash (hc : c = '/')
  | quote (hc : c = '"')
  | register (hc : c = '$')
  | swizzle (hc : c = '.')
  | sign (hc : isInert c) (hread : ReadsSigns (read c))
  | number (hc : c.isDigit)
      (hread : read c = fun rest => (number (c :: rest)).map fun (kind, n) => token kind (n - 1))
  | word (hc : (c.isAlpha || c = '_')) (hread : read c = fun rest =>
    .ok (token (wordKind (String.ofList (word (c :: rest)))) ((word (c :: rest)).length - 1)))
  | unexpected (hread : read c = fun _ => .error (.unexpectedChar c))

def marks : List Char :=
  [' ', '\t', '\r', '\n', '/', '"', '$', '.', '+', '-', '*', '%', '&', '|', '^', '~', '!', '=', '<', '>']

theorem isInert_of_simpleSign {s : Sign} (h : simpleSign? c = some s) : isInert c := by
  unfold simpleSign? at h
  split at h
  case h_12 => cases h
  all_goals decide

theorem opens_of_not_mark (hc : c ∉ marks) : Opens c := by
  have hread : read c = fun rest =>
      if c.isDigit then (number (c :: rest)).map fun (kind, n) => token kind (n - 1)
      else if c.isAlpha || c = '_' then
        .ok (token (wordKind (String.ofList (word (c :: rest)))) ((word (c :: rest)).length - 1))
      else ((simpleSign? c).map fun s => .ok (token (.sign s) 0)).getD (.error (.unexpectedChar c)) := by
    funext rest
    unfold read
    split
    case h_21 => cases simpleSign? c <;> rfl
    all_goals exact absurd (by decide) hc
  by_cases hdigit : c.isDigit
  · exact .number hdigit (by simpa only [if_pos hdigit] using hread)
  by_cases hletter : (c.isAlpha || c = '_')
  · exact .word hletter (by simpa only [if_neg hdigit, if_pos hletter] using hread)
  simp only [if_neg hdigit, if_neg hletter] at hread
  cases hsign : simpleSign? c with
  | none => exact .unexpected (by simpa only [hsign, map_none, getD_none] using hread)
  | some s =>
    simp only [hsign, map_some, getD_some] at hread
    exact .sign (isInert_of_simpleSign hsign) (hread ▸ readsSigns_sign s)

theorem opens (c : Char) : Opens c := by
  by_cases hc : c ∈ marks
  · simp only [marks, mem_cons, not_mem_nil, or_false] at hc
    rcases hc with rfl | rfl | rfl | rfl | rfl | rfl | rfl | rfl | rfl | hc
    · exact .blank (by decide) rfl
    · exact .blank (by decide) rfl
    · exact .blank (by decide) rfl
    · exact .blank (by decide) rfl
    · exact .slash rfl
    · exact .quote rfl
    · exact .register rfl
    · exact .swizzle rfl
    · exact .sign (by decide) readsSigns_plus
    · rcases hc with rfl | rfl | rfl | rfl | rfl | rfl | rfl | rfl | rfl | rfl | rfl
      all_goals refine .sign (by decide) ?_
      all_goals first
        | exact readsSigns_withEquals _ _
        | exact readsSigns_orLonger (by decide) _ _
        | exact readsSigns_angle (by decide) _ _ _ _
  · exact opens_of_not_mark hc

theorem isLocal_read (c : Char) : IsLocal (read c) := by
  intro rest kind more h
  cases opens c with
  | blank _ hread | unexpected hread =>
    rw [hread] at h
    cases h
  | slash hc =>
    subst hc
    exact ⟨(isSign_of_slash h).le, (isSign_of_slash h).again⟩
  | quote hc =>
    subst hc
    exact isLocal_quote rest kind more h
  | register hc =>
    subst hc
    exact isLocal_register rest kind more h
  | swizzle hc =>
    subst hc
    exact isLocal_swizzle rest kind more h
  | sign _ hread => exact ⟨(hread.isSign h).le, (hread.isSign h).again⟩
  | number hc hread =>
    rw [hread] at h ⊢
    exact isLocal_number hc rest kind more h
  | word hc hread =>
    rw [hread] at h ⊢
    exact isLocal_word (isWordChar_of_letter hc) rest kind more h

end Lexeme
end Microcode
