import Microcode.Proofs.Lexeme

/-!
Where the tokens of a text lie.

The lexer walks over a text once and takes away a lexeme after the other.
-/

namespace Microcode

variable {rest gap follow piece text cs b : List Char} {Piece Piece' : List Char → List Char → Prop} {kind : TokenKind}

open List

variable {tokens : List Token} {c : Char} {more : Nat}

/-! ### Places -/

def byteLength (cs : List Char) : Nat := (String.ofList cs).utf8ByteSize

theorem byteLength_append (cs ds : List Char) : byteLength (cs ++ ds) = byteLength cs + byteLength ds := by
  rw [byteLength, String.ofList_append, String.utf8ByteSize_append]
  rfl

theorem byteLength_le_append (cs ds : List Char) : byteLength cs ≤ byteLength (cs ++ ds) :=
  byteLength_append cs ds ▸ Nat.le_add_right _ _

theorem byteLength_singleton (c : Char) : byteLength [c] = c.utf8Size := by
  rw [byteLength, ← String.singleton_eq_ofList, String.utf8ByteSize_singleton]

theorem byteLength_pos (h : cs ≠ []) : 0 < byteLength cs := by
  cases cs with
  | nil => exact absurd rfl h
  | cons c cs =>
    have : 0 < byteLength [c] := byteLength_singleton c ▸ Char.utf8Size_pos c
    rw [show c :: cs = [c] ++ cs from rfl, byteLength_append]
    omega

def takeBytes : Nat → List Char → List Char
  | _, [] => []
  | n, c :: cs => if n = 0 then [] else c :: takeBytes (n - c.utf8Size) cs

def dropBytes : Nat → List Char → List Char
  | _, [] => []
  | n, c :: cs => if n = 0 then c :: cs else dropBytes (n - c.utf8Size) cs

theorem byteLength_cons (c : Char) (cs : List Char) : byteLength (c :: cs) = c.utf8Size + byteLength cs := by
  rw [← byteLength_singleton, ← byteLength_append]
  rfl

theorem byteLength_cons_ne (c : Char) (cs : List Char) : byteLength (c :: cs) ≠ 0 :=
  Nat.ne_of_gt (byteLength_pos (cons_ne_nil c cs))

theorem takeBytes_append (cs ds : List Char) : takeBytes (byteLength cs) (cs ++ ds) = cs := by
  induction cs with
  | nil => cases ds <;> rfl
  | cons c cs ih =>
    rw [cons_append, takeBytes, if_neg (byteLength_cons_ne c cs), byteLength_cons, Nat.add_sub_cancel_left, ih]

theorem dropBytes_append (cs ds : List Char) : dropBytes (byteLength cs) (cs ++ ds) = ds := by
  induction cs with
  | nil => cases ds <;> rfl
  | cons c cs ih =>
    rw [cons_append, dropBytes, if_neg (byteLength_cons_ne c cs), byteLength_cons, Nat.add_sub_cancel_left, ih]

namespace Position

/-- The place behind a text: its line and column are counted from one, the column in characters since the last
line feed. -/
def behind (before : List Char) : Position :=
  ⟨byteLength before, 1 + before.count '\n', 1 + (before.reverse.takeWhile (· != '\n')).length⟩

theorem behind_nil : behind [] = start := rfl

theorem behind_concat (before : List Char) (c : Char) : behind (before ++ [c]) = (behind before).after c := by
  by_cases hc : c = '\n'
  · subst hc
    simp [behind, after, byteLength_append, byteLength_singleton, Nat.add_assoc]
  · simp [behind, after, byteLength_append, byteLength_singleton, hc, Nat.add_comm]

theorem afterAll_behind (before cs : List Char) : (behind before).afterAll cs = behind (before ++ cs) := by
  induction cs generalizing before with
  | nil => rw [append_nil]; rfl
  | cons c cs ih =>
    show ((behind before).after c).afterAll cs = _
    rw [← behind_concat, ih, append_assoc]
    rfl

end Position

/-- A blank or a complete comment, in front of a given text. -/
inductive Skipped : List Char → List Char → Prop
  | blank {c : Char} {follow : List Char} : c ∈ [' ', '\t', '\r', '\n'] → Skipped [c] follow
  /-- A line comment goes up to the end of its line. -/
  | lineComment {body follow : List Char} : '\n' ∉ body → (∀ c, follow.head? = some c → c = '\n') →
      Skipped ('/' :: '/' :: body) follow
  /-- A block comment goes up to the first end mark. -/
  | blockComment {body follow : List Char} : ¬ ['*', '/'] <:+: body →
      Skipped ('/' :: '*' :: (body ++ ['*', '/'])) follow

inductive Gap (Piece : List Char → List Char → Prop) : List Char → List Char → Prop
  | nil {follow : List Char} : Gap Piece [] follow
  | cons {piece gap follow : List Char} : Piece piece (gap ++ follow) → Gap Piece gap follow →
      Gap Piece (piece ++ gap) follow

theorem Gap.mono (h : Gap Piece gap follow)
    (hpiece : ∀ piece follow, Piece piece follow → Piece' piece follow) : Gap Piece' gap follow := by
  induction h with
  | nil => exact .nil
  | cons hp _ ih => exact .cons (hpiece _ _ hp) ih

namespace Lexeme

theorem commentLength?_cons (h : ¬ ['*', '/'] <+: c :: rest) :
    commentLength? (c :: rest) = (commentLength? rest).map (· + 1) := by
  rw [commentLength?]
  rintro tail rfl rfl
  exact h ⟨tail, rfl⟩

theorem commentLength?_eq_some_iff {n : Nat} : commentLength? text = some n ↔
      ∃ body follow, text = body ++ '*' :: '/' :: follow ∧ n = body.length + 2 ∧ ¬ ['*', '/'] <:+: body := by
  constructor
  · intro h
    induction text generalizing n with
    | nil => cases h
    | cons c text ih =>
      by_cases hend : ['*', '/'] <+: c :: text
      · obtain ⟨follow, heq⟩ := hend
        cases heq
        cases h
        exact ⟨[], follow, rfl, rfl, by simp⟩
      · rw [commentLength?_cons hend] at h
        obtain ⟨m, hm, rfl⟩ := Option.map_eq_some_iff.mp h
        obtain ⟨body, follow, rfl, rfl, hbody⟩ := ih hm
        refine ⟨c :: body, follow, rfl, rfl, fun hin => ?_⟩
        rcases infix_cons_iff.mp hin with hlead | hin
        · exact hend (hlead.trans ⟨_, rfl⟩)
        · exact hbody hin
  · rintro ⟨body, follow, rfl, rfl, hbody⟩
    induction body with
    | nil => rfl
    | cons c body ih =>
      have hend : ¬ ['*', '/'] <+: c :: (body ++ '*' :: '/' :: follow) := by
        rintro ⟨tail, heq⟩
        cases body with
        | nil => cases heq
        | cons d body =>
          cases heq
          exact hbody ⟨[], body, rfl⟩
      rw [cons_append, commentLength?_cons hend, ih fun hin => hbody (hin.trans (suffix_cons c body).isInfix)]
      rfl

theorem skipped_of_slash (h : slash rest = .ok (skip more)) :
    more ≤ rest.length ∧ Skipped ('/' :: rest.take more) (rest.drop more) := by
  unfold slash at h
  split at h
  · next line =>
      cases h
      have hline := takeWhile_append_dropWhile (p := (· != '\n')) (l := line)
      have hbody : '\n' ∉ line.takeWhile (· != '\n') := fun hmem => by
        have := all_eq_true.mp (all_takeWhile (p := (· != '\n')) (l := line)) _ hmem
        simp at this
      have hfollow : ∀ c, (line.dropWhile (· != '\n')).head? = some c → c = '\n' := fun c hc => by
        have := head?_dropWhile_not (· != '\n') line
        rw [hc] at this
        simpa using this
      generalize line.takeWhile (· != '\n') = body at hline hbody ⊢
      generalize line.dropWhile (· != '\n') = follow at hline hfollow
      subst hline
      rw [Nat.add_comm 1]
      have htake : ('/' :: (body ++ follow)).take (body.length + 1) = '/' :: body := by simp
      have hdrop : ('/' :: (body ++ follow)).drop (body.length + 1) = follow := by simp
      rw [htake, hdrop]
      exact ⟨by simp, .lineComment hbody hfollow⟩
  · next text =>
      split at h
      · next n hn =>
          cases h
          obtain ⟨body, follow, rfl, rfl, hbody⟩ := commentLength?_eq_some_iff.mp hn
          rw [Nat.add_comm 1]
          have hsplit : '*' :: (body ++ '*' :: '/' :: follow) = ('*' :: (body ++ ['*', '/'])) ++ follow := by simp
          have hlength : body.length + 2 + 1 = ('*' :: (body ++ ['*', '/'])).length := by simp
          rw [hsplit, hlength, take_left]
          exact ⟨by simp, .blockComment hbody⟩
      · cases h
  · obtain ⟨_, hkind, _⟩ := ((readsSigns_withEquals _ _).isSign h).kind
    cases hkind

theorem skipped_of_read (h : read c rest = .ok (skip more)) :
    more ≤ rest.length ∧ Skipped (c :: rest.take more) (rest.drop more) := by
  cases opens c with
  | blank hc hread =>
    rw [hread] at h
    cases h
    exact ⟨Nat.zero_le _, .blank hc⟩
  | slash hc =>
    subst hc
    exact skipped_of_slash h
  | quote hc | register hc | swizzle hc =>
    subst hc
    simp only [read] at h
    split at h <;> cases h
  | sign _ hread =>
    obtain ⟨_, hkind, _⟩ := (hread.isSign h).kind
    cases hkind
  | number _ hread =>
    rw [hread] at h
    obtain ⟨r, _, heq⟩ := map_eq_ok.mp h
    cases heq
  | word _ hread | unexpected hread =>
    rw [hread] at h
    cases h

theorem read_of_skipped (h : Skipped piece follow) :
    ∃ c more, piece = c :: more ∧ read c (more ++ follow) = .ok (skip more.length) := by
  cases h with
  | @blank c _ hc =>
    refine ⟨c, [], rfl, ?_⟩
    simp only [mem_cons, not_mem_nil, or_false] at hc
    rcases hc with rfl | rfl | rfl | rfl <;> rfl
  | @lineComment body _ hbody hfollow =>
    refine ⟨'/', '/' :: body, rfl, ?_⟩
    have hall : ∀ c ∈ body, (c != '\n') := fun c hc => bne_iff_ne.mpr fun h => hbody (h ▸ hc)
    have hwhile : (body ++ follow).takeWhile (· != '\n') = body := by
      rw [takeWhile_append_of_pos hall]
      cases follow with
      | nil => simp
      | cons c follow => simp [hfollow c rfl]
    show Except.ok (skip (1 + ((body ++ follow).takeWhile (· != '\n')).length)) = _
    rw [hwhile, Nat.add_comm]
    rfl
  | @blockComment body _ hbody =>
    refine ⟨'/', '*' :: (body ++ ['*', '/']), rfl, ?_⟩
    have hlength : commentLength? (body ++ ['*', '/'] ++ follow) = some (body.length + 2) :=
      commentLength?_eq_some_iff.mpr ⟨body, follow, by simp, rfl, hbody⟩
    show slash ('*' :: (body ++ ['*', '/'] ++ follow)) = _
    simp only [slash, hlength]
    simp [Nat.add_comm]

end Lexeme

/-- The tokens lie in a text, which stands behind another, as they say: only pieces of the given kind are between
them, each starts and stops where its characters do, and these read as the token's kind in front of the text
that follows them.  The last token marks the end. -/
inductive Laid (Piece : List Char → List Char → Prop) (Reads : List Char → List Char → TokenKind → Prop) :
    List Char → List Char → List Token → Prop
  | last {before gap : List Char} : Gap Piece gap [] →
      Laid Piece Reads before gap [⟨.eof, .behind (before ++ gap), byteLength (before ++ gap)⟩]
  | token {before gap lexeme rest : List Char} {kind : TokenKind} {tokens : List Token} :
      Gap Piece gap (lexeme ++ rest) → lexeme ≠ [] → Reads lexeme rest kind →
      Laid Piece Reads (before ++ gap ++ lexeme) rest tokens →
      Laid Piece Reads before (gap ++ (lexeme ++ rest))
        (⟨kind, .behind (before ++ gap), byteLength (before ++ gap ++ lexeme)⟩ :: tokens)

namespace Laid

variable {Reads Reads' : List Char → List Char → TokenKind → Prop} {before : List Char}

theorem mono (h : Laid Piece Reads before text tokens)
    (hpiece : ∀ piece follow, Piece piece follow → Piece' piece follow)
    (hreads : ∀ lexeme rest kind, Reads lexeme rest kind → Reads' lexeme rest kind) :
    Laid Piece' Reads' before text tokens := by
  induction h with
  | last hgap => exact .last (hgap.mono hpiece)
  | token hgap hne hread _ ih => exact .token (hgap.mono hpiece) hne (hreads _ _ _ hread) ih

theorem nil (before : List Char) : Laid Piece Reads before [] [⟨.eof, .behind before, byteLength before⟩] := by
  have h : Laid Piece Reads before [] [⟨.eof, .behind (before ++ []), byteLength (before ++ [])⟩] := .last .nil
  rwa [append_nil] at h

theorem cons {lexeme} (hne : lexeme ≠ []) (hread : Reads lexeme rest kind)
    (h : Laid Piece Reads (before ++ lexeme) rest tokens) :
    Laid Piece Reads before (lexeme ++ rest) (⟨kind, .behind before, byteLength (before ++ lexeme)⟩ :: tokens) := by
  rw [← append_nil before] at h
  have hcons := Laid.token (.nil : Gap Piece [] (lexeme ++ rest)) hne hread h
  rwa [append_nil] at hcons

theorem skip (hpiece : Piece piece text) (h : Laid Piece Reads (before ++ piece) text tokens) :
    Laid Piece Reads before (piece ++ text) tokens := by
  cases h with
  | last hgap =>
    rw [append_assoc]
    exact .last (.cons (by rwa [append_nil]) hgap)
  | token hgap hne hread hrest =>
    rw [append_assoc before piece] at hrest
    rw [← append_assoc piece, append_assoc before piece]
    exact .token (.cons hpiece hgap) hne hread hrest

theorem start_le (h : Laid Piece Reads before text tokens) : ∀ t ∈ tokens, byteLength before ≤ t.start.byte := by
  induction h with
  | last hgap =>
    intro t ht
    cases mem_singleton.mp ht
    exact byteLength_le_append _ _
  | token _ _ _ _ ih =>
    intro t ht
    rcases mem_cons.mp ht with rfl | ht
    · exact byteLength_le_append _ _
    · rw [append_assoc] at ih
      exact Nat.le_trans (byteLength_le_append _ _) (ih t ht)

theorem pairwise (h : Laid Piece Reads before text tokens) : tokens.Pairwise fun s t => s.stop ≤ t.start.byte := by
  induction h with
  | last => exact pairwise_singleton _ _
  | token _ _ _ hrest ih => exact .cons hrest.start_le ih

theorem start_lt_stop (h : Laid Piece Reads before text tokens) : ∀ t ∈ tokens.dropLast, t.start.byte < t.stop := by
  induction h with
  | last => exact fun t ht => by cases ht
  | @token before gap lexeme _ _ tokens _ hne _ hrest ih =>
    intro t ht
    have htokens : tokens ≠ [] := by cases hrest <;> exact cons_ne_nil _ _
    rw [dropLast_cons_of_ne_nil htokens] at ht
    rcases mem_cons.mp ht with rfl | ht
    · have := byteLength_pos hne
      show byteLength (before ++ gap) < byteLength (before ++ gap ++ lexeme)
      rw [byteLength_append _ lexeme]
      omega
    · exact ih t ht

theorem getLast? (h : Laid Piece Reads before text tokens) :
    tokens.getLast? = some ⟨.eof, .behind (before ++ text), byteLength (before ++ text)⟩ := by
  induction h with
  | last => rfl
  | token _ _ _ _ ih =>
    rw [getLast?_cons, ih]
    simp

end Laid

/-! ### The tokens of a text -/

def Lexeme.Reads (lexeme rest : List Char) (kind : TokenKind) : Prop :=
  ∃ c more, lexeme = c :: more ∧ read c (more ++ rest) = .ok (token kind more.length)

theorem Lexeme.Reads.of_noMore {lexeme} (h : Reads lexeme rest kind) (hb : NoMore b rest) : Reads lexeme b kind := by
  obtain ⟨c, more, rfl, hread⟩ := h
  refine ⟨c, more, rfl, ?_⟩
  have := (isLocal_read c _ _ _ hread).2 b
  rw [drop_left, take_left] at this
  exact this hb

namespace Token

def before (t : Token) (source : List Char) : List Char := takeBytes t.start.byte source

def lexeme (t : Token) (source : List Char) : List Char :=
  takeBytes (t.stop - t.start.byte) (dropBytes t.start.byte source)

open Position (behind_nil behind_concat afterAll_behind)

theorem before_eq (kind : TokenKind) (stop : Nat) (before text : List Char) :
    Token.before ⟨kind, Position.behind before, stop⟩ (before ++ text) = before :=
  takeBytes_append before text

theorem lexeme_eq (kind : TokenKind) (before lexeme rest : List Char) :
    Token.lexeme ⟨kind, Position.behind before, byteLength (before ++ lexeme)⟩ (before ++ (lexeme ++ rest)) = lexeme := by
  show takeBytes (byteLength (before ++ lexeme) - byteLength before) (dropBytes (byteLength before) _) = lexeme
  rw [dropBytes_append, byteLength_append, Nat.add_sub_cancel_left, takeBytes_append]

variable {before : List Char}

theorem listFrom_skip {more} (h : Lexeme.read c (more ++ rest) = .ok (.skip more.length)) :
    listFrom (Position.behind before) (c :: (more ++ rest)) = listFrom
    (Position.behind (before ++ c :: more)) rest := by
  rw [listFrom, h]
  show listFrom (((Position.behind before).after c).afterAll ((more ++ rest).take more.length))
    ((more ++ rest).drop more.length) = _
  rw [take_left, drop_left, ← behind_concat, afterAll_behind, append_assoc]
  rfl

theorem listFrom_token {more} (h : Lexeme.read c (more ++ rest) = .ok (.token kind more.length)) :
    listFrom (Position.behind before) (c :: (more ++ rest)) =
      (listFrom (Position.behind (before ++ c :: more)) rest).map
        (⟨kind, Position.behind before, byteLength (before ++ c :: more)⟩ :: ·) := by
  rw [listFrom, h]
  show (listFrom (((Position.behind before).after c).afterAll ((more ++ rest).take more.length))
    ((more ++ rest).drop more.length)).map
      (⟨kind, Position.behind before,
        (((Position.behind before).after c).afterAll ((more ++ rest).take more.length)).byte⟩ :: ·) = _
  rw [take_left, drop_left, ← behind_concat, afterAll_behind, append_assoc]
  rfl

theorem laid_of_listFrom (h : listFrom (Position.behind before) text = .ok tokens) :
    Laid Skipped Lexeme.Reads before text tokens := by
  -- the text left gets shorter with each lexeme
  induction hlength : text.length using Nat.strongRecOn generalizing before text tokens with
  | ind n ih =>
    cases text with
    | nil =>
      rw [listFrom] at h
      cases h
      exact .nil before
    | cons c text =>
      cases hread : Lexeme.read c text with
      | error fault =>
        rw [listFrom, hread] at h
        cases h
      | ok lexeme =>
        obtain ⟨kind?, more⟩ := lexeme
        have hmore : more ≤ text.length := by
          cases kind? with
          | none => exact (Lexeme.skipped_of_read hread).1
          | some kind => exact (Lexeme.isLocal_read c text kind more hread).1
        obtain ⟨covered, rest, rfl, rfl⟩ : ∃ covered rest, text = covered ++ rest ∧ more = covered.length :=
          ⟨_, _, (take_append_drop more text).symm, (length_take_of_le hmore).symm⟩
        have hshorter : rest.length < n := by
          rw [← hlength, length_cons, length_append]
          omega
        cases kind? with
        | none =>
          have hskip := (Lexeme.skipped_of_read hread).2
          rw [take_left, drop_left] at hskip
          rw [listFrom_skip hread] at h
          exact (ih _ hshorter h rfl).skip hskip
        | some kind =>
          rw [listFrom_token hread] at h
          obtain ⟨tokens, hrest, rfl⟩ := map_eq_ok.mp h
          exact .cons (cons_ne_nil c covered) ⟨c, covered, rfl, hread⟩ (ih _ hshorter hrest rfl)

theorem listFrom_gap (h : Gap Skipped gap follow) :
    listFrom (Position.behind before) (gap ++ follow) = listFrom (Position.behind (before ++ gap)) follow := by
  induction h generalizing before with
  | nil => rw [append_nil]; rfl
  | cons hpiece _ ih =>
    obtain ⟨c, more, rfl, hread⟩ := Lexeme.read_of_skipped hpiece
    rw [append_assoc]
    exact (listFrom_skip hread).trans (by rw [ih, append_assoc])

theorem listFrom_of_laid (h : Laid Skipped Lexeme.Reads before text tokens) : listFrom
    (Position.behind before) text = .ok tokens := by
  induction h with
  | @last before gap hgap =>
    have h : listFrom (Position.behind before) (gap ++ []) = _ := listFrom_gap hgap
    rw [append_nil] at h
    rw [h, listFrom]
    rfl
  | token hgap hne hread _ ih =>
    obtain ⟨c, more, rfl, hread⟩ := hread
    rw [listFrom_gap hgap]
    exact (listFrom_token hread).trans (by rw [ih]; rfl)

theorem listFrom_eq_ok_iff :
    listFrom (Position.behind before) text = .ok tokens ↔ Laid Skipped Lexeme.Reads before text tokens :=
  ⟨laid_of_listFrom, listFrom_of_laid⟩

theorem ofText_eq_ok_iff {source : String} :
    ofText source = .ok tokens ↔ Laid Skipped Lexeme.Reads [] source.toList tokens := by
  rw [ofText, ← behind_nil]
  exact listFrom_eq_ok_iff

def IsTextOf (lexeme _rest : List Char) (kind : TokenKind) : Prop :=
  (ofText (String.ofList lexeme)).map (·.map Token.kind) = .ok [kind, .eof]

theorem isTextOf_of_reads {lexeme} (h : Lexeme.Reads lexeme rest kind) : IsTextOf lexeme rest kind := by
  have hne : lexeme ≠ [] := by
    obtain ⟨c, more, rfl, _⟩ := h
    exact cons_ne_nil c more
  have hlaid : Laid Skipped Lexeme.Reads [] (lexeme ++ []) _ := .cons hne (h.of_noMore (.nil rest)) (.nil _)
  rw [append_nil] at hlaid
  have htokens : ofText (String.ofList lexeme) = _ := ofText_eq_ok_iff.mpr (by rw [String.toList_ofList]; exact hlaid)
  rw [IsTextOf, htokens]
  rfl

/-- The tokens of a text lie in it: between them there are only blanks and comments, and each has the place of its
characters, which alone read as a token of its kind.  So the spans are in order and apart, and none is empty
but the last, which marks the end of the text. -/
theorem ofText_laid {source : String} {tokens : List Token} (h : ofText source = .ok tokens) :
    Laid Skipped IsTextOf [] source.toList tokens
      ∧ (∀ t ∈ tokens.dropLast, t.start.byte < t.stop)
      ∧ tokens.Pairwise (fun s t => s.stop ≤ t.start.byte)
      ∧ tokens.getLast? = some ⟨.eof, .behind source.toList, source.utf8ByteSize⟩ := by
  have hlaid := ofText_eq_ok_iff.mp h
  refine ⟨hlaid.mono (fun _ _ h => h) fun _ _ _ => isTextOf_of_reads, hlaid.start_lt_stop, hlaid.pairwise, ?_⟩
  rw [hlaid.getLast?, List.nil_append, byteLength, String.ofList_toList]

def wideSource : String := "a /* é */ 0x1'f \"ö\\\n\" // ü\n <<=.x"

theorem zero_lt_eight : 0 < 8 := Nat.zero_lt_succ 7

def wideTokens : List Token :=
  [⟨.ident "a", ⟨0, 1, 1⟩, 1⟩, ⟨.int 0x1f, ⟨11, 1, 11⟩, 16⟩, ⟨.string "ö\\\n", ⟨17, 1, 17⟩, 23⟩,
    ⟨.compound .shl, ⟨31, 3, 2⟩, 34⟩, ⟨.swizzle (.lane ⟨0, zero_lt_eight⟩), ⟨34, 3, 5⟩, 36⟩, ⟨.eof, ⟨36, 3, 7⟩, 36⟩]

theorem wideSource_laid : ofText wideSource = .ok wideTokens ∧ Laid Skipped IsTextOf [] wideSource.toList wideTokens := by
  have hok : ofText wideSource = .ok wideTokens := ok_of_toOption (by decide +kernel)
  exact ⟨hok, (ofText_laid hok).1⟩

end Token
end Microcode
