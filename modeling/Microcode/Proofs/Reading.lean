import Microcode.Proofs.Number
import Microcode.Proofs.Spelling

/-!
Reading a program back from its spelling.

`Parser.Reads p before after Q` says what a reader does with tokens of which only the kinds are known: from
any tokens that spell `before` it takes some, leaves tokens that spell `after`, and what it gives has the
property `Q`.
-/

namespace Microcode.Parser

open List Operand

variable {α β γ : Type}

/-- From tokens that spell `before` the reader goes to tokens that spell `after`, with a result that has
the property. -/
def Reads (p : Parser α) (before after : List TokenKind) (Q : α → Prop) : Prop :=
  ∀ tokens : List Token, tokens.map Token.kind = before →
    ∃ a rest, p.run tokens = .ok (a, rest) ∧ rest.map Token.kind = after ∧ Q a

namespace Reads

variable {p : Parser α} {f : α → Parser β} {k k' k'' : List TokenKind} {P : α → Prop} {Q : β → Prop}

theorem pure {b : β} (h : Q b) : Reads (pure b) k k Q := fun tokens htokens => ⟨b, tokens, rfl, htokens, h⟩

theorem bind (hp : Reads p k k' P) (hf : ∀ a, P a → Reads (f a) k' k'' Q) : Reads (p >>= f) k k'' Q := by
  intro tokens htokens
  obtain ⟨a, mid, hmid, hkinds, ha⟩ := hp tokens htokens
  obtain ⟨b, rest, hrest, hkinds', hb⟩ := hf a ha mid hkinds
  refine ⟨b, rest, ?_, hkinds', hb⟩
  rw [StateT.run_bind, hmid]
  exact hrest

theorem step {a : α} (hp : Reads p k k' (· = a)) (hf : Reads (f a) k' k'' Q) : Reads (p >>= f) k k'' Q := by
  refine hp.bind fun b hb => ?_
  subst hb
  exact hf

theorem mono {P'} (hp : Reads p k k' P) (h : ∀ a, P a → P' a) : Reads p k k' P' := by
  intro tokens htokens
  obtain ⟨a, rest, hrest, hkinds, ha⟩ := hp tokens htokens
  exact ⟨a, rest, hrest, hkinds, h a ha⟩

/-! ### Single tokens -/

theorem get {f} (h : ∀ tokens, tokens.length = k.length → Reads (f tokens) k k' Q) :
    Reads (MonadState.get >>= f) k k' Q := by
  intro tokens htokens
  exact h tokens (by rw [← htokens, length_map]) tokens htokens

theorem peek {f} (h : Reads (f (k.headD .eof)) k k' Q) : Reads (peek >>= f) k k' Q := by
  refine step (fun tokens htokens => ⟨_, tokens, ?_, htokens, rfl⟩) h
  subst htokens
  cases tokens <;> rfl

theorem peekSecond {f} (h : Reads (f (k.tail.headD .eof)) k k' Q) : Reads (peekSecond >>= f) k k' Q := by
  refine step (fun tokens htokens => ⟨_, tokens, ?_, htokens, rfl⟩) h
  subst htokens
  rcases tokens with _ | ⟨_, _ | ⟨_, _⟩⟩ <;> rfl

theorem line {f} (h : ∀ n, Reads (f n) k k' Q) : Reads (line >>= f) k k' Q := by
  refine bind (P := fun _ => True) (fun tokens htokens => ?_) fun n _ => h n
  cases tokens with
  | nil => exact ⟨0, [], rfl, htokens, trivial⟩
  | cons t rest => exact ⟨t.start.line, t :: rest, rfl, htokens, trivial⟩

variable {kind : TokenKind}

theorem advance {f} (h : Reads (f ()) k k' Q) : Reads (advance >>= f) (kind :: k) k' Q := by
  refine step (fun tokens htokens => ⟨(), tokens.drop 1, rfl, ?_, rfl⟩) h
  rw [map_drop, htokens, drop_one, tail_cons]

theorem eat {f} (h : Reads (f true) k k' Q) : Reads (eat kind >>= f) (kind :: k) k' Q := by
  refine step (peek ?_) h
  rw [headD_cons, if_pos rfl]
  exact advance (pure rfl)

theorem notEat {f} (hk : k.headD .eof ≠ kind) (h : Reads (f false) k k' Q) : Reads (Parser.eat kind >>= f) k k' Q := by
  refine step (peek ?_) h
  rw [if_neg hk]
  exact pure rfl

theorem expectSign {s : Sign} {f} (h : Reads (f ()) k k' Q) : Reads (expectSign s >>= f) (.sign s :: k) k' Q := by
  refine step (a := ()) (peek ?_) h
  rw [headD_cons, if_pos rfl]
  exact advance (k := k) (pure rfl)

end Reads
variable {k : List TokenKind}

theorem reads_identifier {name : String} : Reads identifier (.ident name :: k) k (· = name) :=
  .peek (.advance (.pure rfl))

theorem reads_stringLiteral {text : String} : Reads stringLiteral (.string text :: k) k (· = text) :=
  .peek (.advance (.pure rfl))

theorem reads_dataType {type} : Reads dataType (.type type :: k) k (· = type) := .peek (.advance (.pure rfl))

theorem reads_word {n : Nat} (h : n < UInt32.size) : Reads word (.int (Int64.ofNat n) :: k) k (· = n) := by
  refine Reads.step (a := Int64.ofNat n) (.peek (.advance (.pure rfl))) (.pure ?_)
  exact lowWord_ofNat h

/-- What follows an operand or a call without swizzle is no swizzle. -/
def NoSwizzle (k : List TokenKind) : Prop := ∀ s, k.headD .eof ≠ .swizzle s

theorem noSwizzle_sign (s : Sign) (k : List TokenKind) : NoSwizzle (.sign s :: k) := nofun

theorem reads_swizzle {s} (hk : NoSwizzle k) : Reads swizzle? (spellSwizzle s ++ k) k (· = s) := by
  cases s with
  | some s => exact .peek (.advance (.pure rfl))
  | none =>
    refine .peek ?_
    split
    next s hs => exact absurd hs (hk s)
    · exact .pure rfl

variable {bound : Nat}

section
variable {asks : TokenKind → Bool} {item : Parser α} {spell : γ → List TokenKind} (view : α → β) (want : γ → β)
  {items : List γ}

/-- Items behind each other.  What is behind an item is the rest of the items; `view` is the part of what
is read that is known. -/
theorem reads_repeated (hk : asks (k.headD .eof) = false) (hbound : items.length < bound)
    (hasks : ∀ a ∈ items, ∃ kind more, spell a = kind :: more ∧ asks kind)
    (hitem : ∀ a rest, a :: rest <:+ items →
      Reads item (spell a ++ (rest.flatMap spell ++ k)) (rest.flatMap spell ++ k) (view · = want a)) :
    Reads (repeated asks item bound) (items.flatMap spell ++ k) k (·.map view = items.map want) := by
  induction items generalizing bound with
  | nil =>
    obtain ⟨bound, rfl⟩ : ∃ n, bound = n + 1 := ⟨bound - 1, by omega⟩
    refine .peek ?_
    rw [flatMap_nil, nil_append, hk]
    exact .pure rfl
  | cons a items ih =>
    obtain ⟨bound, rfl⟩ : ∃ n, bound = n + 1 := ⟨bound - 1, by omega⟩
    obtain ⟨kind, more, hkind, hask⟩ := hasks a (.head _)
    have hhead : ((a :: items).flatMap spell ++ k).headD .eof = kind := by
      rw [flatMap_cons, hkind]
      rfl
    refine .peek ?_
    rw [hhead, hask, flatMap_cons, append_assoc]
    refine (hitem a items suffix_rfl).bind fun a' ha' => ?_
    refine (ih (Nat.lt_of_succ_lt_succ hbound) (fun b hb => hasks b (.tail a hb))
      fun b rest hb => hitem b rest (hb.trans (suffix_cons a items))).bind fun more hmore => ?_
    exact .pure (by rw [map_cons, map_cons, ha', hmore])

theorem length_le_flatMap (h : ∀ a ∈ items, ∃ kind more, spell a = kind :: more ∧ asks kind) :
    items.length ≤ (items.flatMap spell).length := by
  induction items with
  | nil => exact Nat.le_refl 0
  | cons a items ih =>
    obtain ⟨kind, more, hkind, -⟩ := h a (.head _)
    have hrest := ih fun b hb => h b (.tail a hb)
    rw [flatMap_cons, hkind, length_append, length_cons, length_cons]
    omega

theorem reads_many (hk : asks (k.headD .eof) = false)
    (hasks : ∀ a ∈ items, ∃ kind more, spell a = kind :: more ∧ asks kind)
    (hitem : ∀ a rest, a :: rest <:+ items →
      Reads item (spell a ++ (rest.flatMap spell ++ k)) (rest.flatMap spell ++ k) (view · = want a)) :
    Reads (many asks item) (items.flatMap spell ++ k) k (·.map view = items.map want) := by
  refine .get fun tokens hlength => reads_repeated view want hk ?_ hasks hitem
  have hle := length_le_flatMap hasks
  rw [hlength, length_append]
  omega

theorem reads_many_eq (want : γ → α) (hk : asks (k.headD .eof) = false)
    (hasks : ∀ a ∈ items, ∃ kind more, spell a = kind :: more ∧ asks kind)
    (hitem : ∀ a rest, a :: rest <:+ items →
      Reads item (spell a ++ (rest.flatMap spell ++ k)) (rest.flatMap spell ++ k) (· = want a)) :
    Reads (many asks item) (items.flatMap spell ++ k) k (· = items.map want) := by
  refine (reads_many id want hk hasks hitem).mono fun r hr => ?_
  rwa [List.map_id] at hr

theorem reads_manyUntil {close : Sign} (hfirst : ∀ a ∈ items, ∃ kind more, spell a = kind :: more ∧ kind ≠ .sign close)
    (hitem : ∀ a rest, a :: rest <:+ items → Reads item (spell a ++ (rest.flatMap spell ++ .sign close :: k))
        (rest.flatMap spell ++ .sign close :: k) (view · = want a)) :
    Reads (manyUntil close item) (items.flatMap spell ++ .sign close :: k) k (·.map view = items.map want) := by
  refine (reads_many view want ?_ ?_ hitem).bind fun r hr => .advance (.pure hr)
  · simp
  · intro a ha
    obtain ⟨kind, more, hkind, hne⟩ := hfirst a ha
    exact ⟨kind, more, hkind, by simpa using hne⟩

end

section
variable {item : Parser α} {spell : α → List TokenKind} {close : Sign}

theorem reads_listedItems (hclose : close ≠ .comma) {a : α} {more : List α} (hbound : more.length < bound)
    (hitem : ∀ b ∈ a :: more, ∀ s k', s = .comma ∨ s = close →
      Reads item (spell b ++ .sign s :: k') (.sign s :: k') (· = b)) :
    Reads (listedItems close item bound) (spellListed spell (a :: more) ++ .sign close :: k) k (· = a :: more) := by
  induction more generalizing a bound with
  | nil =>
    obtain ⟨bound, rfl⟩ : ∃ n, bound = n + 1 := ⟨bound - 1, by omega⟩
    rw [spellListed, flatMap_nil, append_nil]
    refine (hitem a (.head _) close k (.inr rfl)).step ?_
    exact .eat (.pure rfl)
  | cons b more ih =>
    obtain ⟨bound, rfl⟩ : ∃ n, bound = n + 1 := ⟨bound - 1, by omega⟩
    rw [spellListed, flatMap_cons, append_assoc, append_assoc]
    refine (hitem a (.head _) .comma _ (.inl rfl)).step ?_
    refine .notEat (by simpa using hclose.symm) (.expectSign ?_)
    have hmore := ih (Nat.lt_of_succ_lt_succ hbound) fun c hc => hitem c (.tail a hc)
    rw [spellListed, append_assoc] at hmore
    exact hmore.step (.pure rfl)

theorem length_le_spellListed (spell : α → List TokenKind) (a : α) (more : List α) :
    more.length ≤ (spellListed spell (a :: more)).length := by
  rw [spellListed, length_append]
  induction more with
  | nil => exact Nat.zero_le _
  | cons b more ih =>
    rw [flatMap_cons, length_append, length_cons, length_cons]
    omega

theorem reads_listed (hclose : close ≠ .comma) {items : List α}
    (hfirst : ∀ a ∈ items, ∃ kind more, spell a = kind :: more ∧ kind ≠ .sign close)
    (hitem : ∀ a ∈ items, ∀ s k', s = .comma ∨ s = close →
      Reads item (spell a ++ .sign s :: k') (.sign s :: k') (· = a)) :
    Reads (listed close item) (spellListed spell items ++ .sign close :: k) k (· = items) := by
  cases items with
  | nil => exact .eat (.pure rfl)
  | cons a more =>
    obtain ⟨kind, others, hkind, hne⟩ := hfirst a (.head _)
    refine .notEat ?_ (.get fun tokens hlength => reads_listedItems hclose ?_ hitem)
    · rw [spellListed, hkind]
      exact hne
    · have hle := length_le_spellListed spell a more
      rw [hlength, length_append]
      omega

end

/-! ### Operands and expressions -/

theorem reads_number {c} : Reads number (c.spelling ++ k) k (· = c) := by
  unfold Constant.spelling
  split
  · refine .eat (.peek ?_)
    cases c with
    | int v => exact .step (.pure rfl) (.advance (.pure (Constant.negate_negate (.int v))))
    | float x => exact .step (.pure rfl) (.advance (.pure (Constant.negate_negate (.float x))))
  · refine .notEat (by cases c <;> nofun) (.peek ?_)
    cases c with
    | int v | float x => exact .step (.pure rfl) (.advance (.pure rfl))

theorem headD_constant (c : Constant) (k : List TokenKind) :
    ((c.spelling ++ k).headD .eof = .sign .minus ∧ ∃ d : Constant, (c.spelling ++ k).tail.headD .eof = d.literal) ∨
      (c.spelling ++ k).headD .eof = c.literal := by
  unfold Constant.spelling
  split
  · exact .inl ⟨rfl, c.negate, rfl⟩
  · exact .inr rfl

variable {o : Operand}

theorem reads_operand (ho : o.Writable) (hk : NoSwizzle k) : Reads operand (o.spelling ++ k) k (· = o) := by
  rcases ho with ⟨name, hname⟩ | ⟨c, rfl⟩
  · obtain ⟨atom, swizzle⟩ := o
    obtain rfl : atom = .variable name := hname
    exact .peek (.advance ((reads_swizzle hk).step (.pure rfl)))
  · have hnumber : Reads (do pure (ofConstant (← number))) (c.spelling ++ k) k
        (· = ofConstant c) := reads_number.step (.pure rfl)
    have hspell : (ofConstant c).spelling = c.spelling := rfl
    rw [hspell]
    refine .peek ?_
    rcases headD_constant c k with ⟨hhead, -⟩ | hhead
    · rw [hhead]
      exact hnumber
    · rw [hhead]
      cases c with
      | int v | float x => exact hnumber

theorem binaryOp_sign (op : BinaryOp) : op.sign.binaryOp? = some op := by cases op <;> rfl

theorem compareOp_sign (op : CompareOp) : op.sign.compareOp? = some op := by cases op <;> rfl

variable {c : Comparison}

theorem reads_comparison (hc : c.Writable) (hk : NoSwizzle k) : Reads comparison (c.spelling ++ k) k (· = c) := by
  unfold Comparison.spelling
  rw [append_assoc]
  refine (reads_operand hc.1 (noSwizzle_sign _ _)).step (.peek ?_)
  have hop : (TokenKind.sign c.op.sign).compareOp? = some c.op := compareOp_sign c.op
  rw [headD_cons, hop]
  exact .advance ((reads_operand hc.2 hk).step (.pure rfl))

theorem reads_condition (hc : c.Writable) : Reads condition (spellCondition c ++ k) k (· = c) := by
  unfold spellCondition
  rw [cons_append, append_assoc]
  refine .expectSign ((reads_comparison hc (noSwizzle_sign _ _)).step ?_)
  exact .expectSign (.pure rfl)

inductive StartsOperand : TokenKind → Prop
  | name (name : String) : StartsOperand (.ident name)
  | literal (c : Constant) : StartsOperand c.literal
  | minus : StartsOperand (.sign .minus)

theorem startsOperand_constant (c : Constant) : ∃ kind more, c.spelling = kind :: more ∧ StartsOperand kind := by
  unfold Constant.spelling
  split
  · exact ⟨.sign .minus, _, rfl, .minus⟩
  · exact ⟨c.literal, [], rfl, .literal c⟩

theorem startsOperand_operand (ho : o.Writable) : ∃ kind more, o.spelling = kind :: more ∧ StartsOperand kind := by
  rcases ho with ⟨name, hname⟩ | ⟨c, rfl⟩
  · refine ⟨.ident name, spellSwizzle o.swizzle, ?_, .name name⟩
    rw [spelling, hname]
  · exact startsOperand_constant c

theorem StartsOperand.ne_sign {kind} (h : StartsOperand kind) {s : Sign} (hs : s ≠ .minus) : kind ≠ .sign s := by
  intro hkind
  cases h with
  | name _ => cases hkind
  | literal c => cases c <;> cases hkind
  | minus => exact hs (TokenKind.sign.inj hkind).symm

theorem StartsOperand.ne_string {kind} (h : StartsOperand kind) (text : String) : kind ≠ .string text := by
  intro hkind
  cases h with
  | name _ | minus => cases hkind
  | literal c => cases c <;> cases hkind

theorem reads_callArg {a : CallArg} (ha : a.Writable) (hk : NoSwizzle k) : Reads (do match ← peek with
      | .string text => advance; pure (.string text)
      | _ => pure (.operand (← operand))) (a.spelling ++ k) k (· = a) := by
  cases a with
  | string text => exact .peek (.advance (.pure rfl))
  | operand o =>
    obtain ⟨kind, more, hkind, hstart⟩ := startsOperand_operand ha
    have hhead : ((CallArg.operand o).spelling ++ k).headD .eof = kind := by
      rw [CallArg.spelling, hkind]
      rfl
    refine .peek ?_
    rw [hhead]
    split
    · exact absurd rfl (hstart.ne_string _)
    · exact (reads_operand ha hk).step (.pure rfl)

theorem reads_callArgs {args : List CallArg} (h : ∀ a ∈ args, a.Writable) :
    Reads callArgs (spellArgs args ++ k) k (· = args) := by
  unfold spellArgs
  rw [cons_append, append_assoc]
  refine .expectSign (reads_listed (by decide) (fun a ha => ?_) fun a ha s k' _ => ?_)
  · cases a with
    | string text => exact ⟨.string text, [], rfl, nofun⟩
    | operand o =>
      obtain ⟨kind, more, hkind, hstart⟩ := startsOperand_operand (h _ ha)
      exact ⟨kind, more, hkind, hstart.ne_sign (by decide)⟩
  · exact reads_callArg (h a ha) (noSwizzle_sign s k')

/-! Terms and groups nest, so they are taken together; the bound is the length of the spelling. -/

/-- A term is read back if the reader may enter as many groups as it has tokens. -/
def ReadsTerm (t : Part) : Prop := ∀ ⦃bound : Nat⦄ ⦃k : List TokenKind⦄, t.spelling.length ≤ bound → NoSwizzle k →
    Reads (term bound) (t.spelling ++ k) k (· = t)

def spellPair (pair : BinaryOp × Part) : List TokenKind := .sign pair.1.sign :: pair.2.spelling

def pairParts (pair : BinaryOp × Part) : List Part := [.op pair.1, pair.2]

theorem spellParts_flatMap (pairs : List (BinaryOp × Part)) :
    spellParts (pairs.flatMap pairParts) = pairs.flatMap spellPair := by
  induction pairs with
  | nil => simp [spellParts]
  | cons pair pairs ih => simp [pairParts, spellPair, spellParts, Part.spelling, ih]

theorem noSwizzle_pairs (hk : NoSwizzle k) (pairs : List (BinaryOp × Part)) :
    NoSwizzle (pairs.flatMap spellPair ++ k) := by
  cases pairs with
  | nil => exact hk
  | cons pair pairs => exact noSwizzle_sign _ _

theorem reads_arithmetic {first : Part} {pairs : List (BinaryOp × Part)} (hfirst : ReadsTerm first)
    (hpairs : ∀ pair ∈ pairs, ReadsTerm pair.2)
    (hbound : (first.spelling ++ pairs.flatMap spellPair).length ≤ bound) (hk : NoSwizzle k)
    (hend : (k.headD .eof).binaryOp? = none) :
    Reads (arithmetic (term bound)) (first.spelling ++ (pairs.flatMap spellPair ++ k)) k
      (· = first :: pairs.flatMap pairParts) := by
  rw [length_append] at hbound
  refine (hfirst (by omega) (noSwizzle_pairs hk pairs)).step ?_
  have hmore : Reads (many (·.binaryOp?.isSome) do
      let op := (← peek).binaryOp?.getD .add
      advance
      pure [Part.op op, ← term bound]) (pairs.flatMap spellPair ++ k) k (· = pairs.map pairParts) := by
    refine reads_many_eq pairParts (by rw [hend]; rfl) (fun pair _ => ?_) fun pair rest h => ?_
    · refine ⟨_, _, rfl, ?_⟩
      show pair.1.sign.binaryOp?.isSome
      rw [binaryOp_sign]
      rfl
    · have hmem : pair ∈ pairs := h.mem (.head _)
      have hlength : (spellPair pair).length ≤ (pairs.flatMap spellPair).length :=
        (sublist_flatten_of_mem (mem_map_of_mem hmem)).length_le
      have hop : (TokenKind.sign pair.1.sign).binaryOp?.getD .add = pair.1 := by
        show pair.1.sign.binaryOp?.getD .add = pair.1
        rw [binaryOp_sign]
        rfl
      rw [spellPair, length_cons] at hlength
      refine .peek (.advance ?_)
      refine (hpairs pair hmem (by omega) (noSwizzle_pairs hk rest)).step (.pure ?_)
      rw [pairParts, spellPair, cons_append, headD_cons, hop]
  exact hmore.step (.pure (by rw [flatMap]))

mutual

theorem readsTerm_of_isTerm : ∀ {t : Part}, t.IsTerm → ReadsTerm t
  | .operand o, h => by
    intro bound k hbound hk
    obtain ⟨kind, more, hkind, hstart⟩ := startsOperand_operand h
    rw [Part.spelling] at hbound ⊢
    obtain ⟨bound, rfl⟩ : ∃ n, bound = n + 1 := by
      rw [hkind, length_cons] at hbound
      exact ⟨bound - 1, by omega⟩
    refine .notEat ?_ ((reads_operand h hk).step (.pure rfl))
    rw [hkind]
    exact hstart.ne_sign (by decide)
  | .group parts, h => by
    intro bound k hbound hk
    rw [Part.spelling] at hbound ⊢
    rw [length_cons, length_append] at hbound
    obtain ⟨bound, rfl⟩ : ∃ n, bound = n + 1 := ⟨bound - 1, by omega⟩
    rw [cons_append, append_assoc]
    refine .eat ((readsParts_of_alternating h (by omega) (noSwizzle_sign _ _) rfl).step ?_)
    exact .expectSign (.pure rfl)

theorem readsParts_of_alternating : ∀ {parts : List Part}, Alternating parts →
    ∀ {bound : Nat} {k : List TokenKind}, (spellParts parts).length ≤ bound → NoSwizzle k →
      (k.headD .eof).binaryOp? = none →
      Reads (arithmetic (term bound)) (spellParts parts ++ k) k (· = parts)
  | first :: rest, h, bound, k, hbound, hk, hend => by
    obtain ⟨pairs, rfl, hpairs⟩ := pairs_of_continues h.2
    rw [spellParts, spellParts_flatMap] at hbound ⊢
    rw [append_assoc]
    exact reads_arithmetic (readsTerm_of_isTerm h.1) hpairs hbound hk hend

theorem pairs_of_continues : ∀ {rest : List Part}, Continues rest →
    ∃ pairs : List (BinaryOp × Part), rest = pairs.flatMap pairParts ∧ ∀ pair ∈ pairs, ReadsTerm pair.2
  | [], _ => ⟨[], rfl, nofun⟩
  | .op op :: t :: rest, h => by
    obtain ⟨pairs, rfl, hpairs⟩ := pairs_of_continues h.2
    refine ⟨(op, t) :: pairs, rfl, forall_mem_cons.mpr ⟨?_, hpairs⟩⟩
    exact readsTerm_of_isTerm h.1

end

/-- The tokens start an arithmetic expression or a comparison: neither a call nor a unary operator. -/
structure StartsParts (k : List TokenKind) : Prop where
  noCall : ∀ name, k.headD .eof = .ident name → k.tail.headD .eof ≠ .sign .lParen
  noUnary : unaryOp? (k.headD .eof) (k.tail.headD .eof) = none

theorem startsParts_operand (ho : o.Writable) (hk : k.headD .eof ≠ .sign .lParen) : StartsParts (o.spelling ++ k) := by
  rcases ho with ⟨name, hname⟩ | ⟨c, rfl⟩
  · obtain ⟨atom, swizzle⟩ := o
    obtain rfl : atom = .variable name := hname
    refine ⟨fun _ _ => ?_, rfl⟩
    cases swizzle with
    | none => exact hk
    | some s => nofun
  · show StartsParts (c.spelling ++ k)
    unfold Constant.spelling
    split
    · exact ⟨nofun, by cases c <;> rfl⟩
    · exact ⟨by cases c <;> nofun, by cases c <;> rfl⟩

theorem reads_value_of_startsParts {k' Q} (hk : StartsParts k)
    (h : Reads valueOfParts k k' Q) : Reads value k k' Q := by
  refine .peek (.peekSecond ?_)
  split
  next name hname hparen => exact absurd hparen (hk.noCall name hname)
  · rw [hk.noUnary]
    exact h

theorem startsParts_alternating {parts} (h : Alternating parts)
    (hk : k.headD .eof ≠ .sign .lParen) : StartsParts (spellParts parts ++ k) := by
  cases parts with
  | nil => rw [Alternating] at h; exact h.elim
  | cons first rest =>
    rw [Alternating] at h
    obtain ⟨pairs, rfl, -⟩ := pairs_of_continues h.2
    rw [spellParts, append_assoc]
    rcases first with o | op | inner
    · refine startsParts_operand (by simpa [Part.IsTerm] using h.1) ?_
      cases pairs with
      | nil => exact hk
      | cons pair pairs =>
        show TokenKind.sign pair.1.sign ≠ .sign .lParen
        cases pair.1 <;> nofun
    · exact h.1.elim
    · exact ⟨nofun, rfl⟩

theorem reads_parts {parts} (h : Alternating parts) :
    Reads value (spellParts parts ++ .sign .semicolon :: k) (.sign .semicolon :: k) (· = Expr.ofParts parts) := by
  refine reads_value_of_startsParts (startsParts_alternating h nofun) ?_
  refine .get fun tokens hlength => ?_
  rw [length_append] at hlength
  refine (readsParts_of_alternating h (by omega) (noSwizzle_sign _ _) rfl).step (.peek ?_)
  split
  next hsome => cases hsome
  · exact .pure rfl

theorem reads_comparisonValue {k'} {e : Expr} (hc : c.Writable) (hk : NoSwizzle k) (h : Reads (do
      if ← eat (.sign .question) then
        let yes ← operand
        expectSign .colon
        let no ← operand
        pure (.choose c yes no)
      else pure (.test c)) k k' (· = e)) : Reads value (c.spelling ++ k) k' (· = e) := by
  have hleft : Alternating [.operand c.left] := by simp [Alternating, Part.IsTerm, Continues, hc.1]
  have hop : (TokenKind.sign c.op.sign).compareOp? = some c.op := compareOp_sign c.op
  have hspell : c.spelling ++ k = spellParts [.operand c.left] ++ .sign c.op.sign :: (c.right.spelling ++ k) := by
    simp [Comparison.spelling, spellParts, Part.spelling]
  rw [hspell]
  refine reads_value_of_startsParts (startsParts_alternating hleft ?_) ?_
  · cases c.op <;> nofun
  refine .get fun tokens hlength => ?_
  rw [length_append] at hlength
  refine (readsParts_of_alternating hleft (by omega) (noSwizzle_sign _ _) ?_).step (.peek ?_)
  · cases c.op <;> rfl
  · rw [headD_cons, hop]
    exact .advance ((reads_operand hc.2 hk).step h)

theorem name_of_isVariable (h : o.IsVariable) : ∃ name, o.name? = some name := by
  obtain ⟨name, hname⟩ := h
  exact ⟨name, by rw [name?, hname]⟩

theorem constant_of_isVariable (h : o.IsVariable) : o.constant? = none := by
  obtain ⟨name, hname⟩ := h
  obtain ⟨atom, swizzle⟩ := o
  obtain rfl : atom = .variable name := hname
  rfl

theorem ofParts_copy (h : o.IsVariable) : Expr.ofParts [.operand o] = .copy o := by
  rw [Expr.ofParts, constant_of_isVariable h]

theorem ofParts_withConstant (h : o.IsVariable) (op : BinaryOp) (c : Constant) :
    Expr.ofParts [.operand o, .op op, .operand (.ofConstant c)] = .withConstant op o c := by
  obtain ⟨name, hname⟩ := name_of_isVariable h
  rw [Expr.ofParts, hname]
  rfl

theorem ofParts_binary {l r} (hl : l.IsVariable) (hr : r.IsVariable) (op : BinaryOp) :
    Expr.ofParts [.operand l, .op op, .operand r] = .binary op l r := by
  obtain ⟨name, hname⟩ := name_of_isVariable hl
  rw [Expr.ofParts, hname, constant_of_isVariable hr]

theorem reads_value {e : Expr} (he : e.Writable) :
    Reads value (e.spelling ++ .sign .semicolon :: k) (.sign .semicolon :: k) (· = e) := by
  -- the forms that come from parts are read as these parts
  have hparts : ∀ parts, Alternating parts → spellParts parts = e.spelling → Expr.ofParts parts = e →
      Reads value (e.spelling ++ .sign .semicolon :: k) (.sign .semicolon :: k) (· = e) := by
    intro parts halt hspell hof
    rw [← hspell, ← hof]
    exact reads_parts halt
  cases e with
  | constant c =>
    refine hparts [.operand (.ofConstant c)] ?_ ?_ (by rw [Expr.ofParts]; rfl)
    · simp [Alternating, Part.IsTerm, Continues, Writable]
    · simp [spellParts, Part.spelling, spelling, ofConstant, Expr.spelling]
  | copy o =>
    refine hparts [.operand o] ?_ ?_ (ofParts_copy he)
    · simp [Alternating, Part.IsTerm, Continues, Writable, show o.IsVariable from he]
    · simp [spellParts, Part.spelling, Expr.spelling]
  | unary op o =>
    have hread : Reads operand (o.spelling ++ .sign .semicolon :: k) (.sign .semicolon :: k) (· = o) :=
      reads_operand he.1 (noSwizzle_sign _ _)
    cases op with
    | not | logicalNot => exact .peek (.peekSecond (.advance (hread.step (.pure rfl))))
    | neg =>
      obtain ⟨name, hname⟩ := he.2 rfl
      obtain ⟨atom, swizzle⟩ := o
      obtain rfl : atom = .variable name := hname
      exact .peek (.peekSecond (.advance (hread.step (.pure rfl))))
  | binary op l r =>
    refine hparts [.operand l, .op op, .operand r] ?_ ?_ (ofParts_binary he.1 he.2 op)
    · simp [Alternating, Part.IsTerm, Continues, Writable, he.1, he.2]
    · simp [spellParts, Part.spelling, Expr.spelling]
  | withConstant op l c =>
    refine hparts [.operand l, .op op, .operand (.ofConstant c)] ?_ ?_ (ofParts_withConstant he op c)
    · simp [Alternating, Part.IsTerm, Continues, Writable, show l.IsVariable from he]
    · simp [spellParts, Part.spelling, spelling, ofConstant, Expr.spelling]
  | call name args swizzle =>
    rw [Expr.spelling, cons_append, append_assoc]
    refine .peek (.peekSecond (.advance ((reads_callArgs he).step ?_)))
    exact (reads_swizzle (noSwizzle_sign _ _)).step (.pure rfl)
  | test c => exact reads_comparisonValue he (noSwizzle_sign _ _) (.notEat (by simp) (.pure rfl))
  | choose c yes no =>
    rw [Expr.spelling, append_assoc, cons_append, append_assoc]
    refine reads_comparisonValue he.1 (noSwizzle_sign _ _) (.eat ?_)
    refine (reads_operand he.2.1 (noSwizzle_sign _ _)).step (.expectSign ?_)
    exact (reads_operand he.2.2 (noSwizzle_sign _ _)).step (.pure rfl)
  | flat parts => exact hparts parts he.1 rfl he.2

end Microcode.Parser
