import Microcode.Proofs.Reading.Program

/-!
What is read can be written, and so a program that was read is read back from its spelling.

For most readers it is enough to look at the result.  Statements are the exception: that no loop without a condition
stands in front of the word `while` is a fact about the tokens around them.
-/

namespace Microcode

open List Statement

variable {α β : Type} {tokens : List Token} {P : α → Prop}

namespace Parser

def Gives (p : Parser α) (Q : α → Prop) : Prop := ∀ tokens, GivesFrom p tokens fun a _ => Q a

def nextKind : List Token → TokenKind
  | [] => .eof
  | t :: _ => t.kind

end Parser

namespace GivesFrom

open Microcode.Parser

variable {Q : β → List Token → Prop}
variable {f : TokenKind → Parser β}

theorem peek (h : GivesFrom (f (nextKind tokens)) tokens Q) : GivesFrom (peek >>= f) tokens Q := by
  cases tokens <;> exact h

theorem peekSecond (h : GivesFrom (f (nextKind (tokens.drop 1))) tokens Q) : GivesFrom (peekSecond >>= f) tokens Q := by
  rcases tokens with _ | ⟨_, _ | ⟨_, _⟩⟩ <;> exact h

variable {f : Unit → Parser β}

theorem advance (h : GivesFrom (f ()) (tokens.drop 1) Q) : GivesFrom (advance >>= f) tokens Q := h

variable {f : Nat → Parser β}

theorem line (h : ∀ n, GivesFrom (f n) tokens Q) : GivesFrom (line >>= f) tokens Q := by
  cases tokens with
  | nil => exact h 0
  | cons t rest => exact h t.start.line

variable {f : Bool → Parser β}

theorem eat {kind} (hyes : nextKind tokens = kind → GivesFrom (f true) (tokens.drop 1) Q)
    (hno : nextKind tokens ≠ kind → GivesFrom (f false) tokens Q) : GivesFrom (eat kind >>= f) tokens Q := by
  have heat : GivesFrom (Parser.eat kind) tokens fun eaten rest =>
      (eaten ∧ nextKind tokens = kind ∧ rest = tokens.drop 1) ∨
        (eaten = false ∧ nextKind tokens ≠ kind ∧ rest = tokens) := by
    refine peek ?_
    split
    next hkind => exact advance (pure (.inl ⟨rfl, hkind, rfl⟩))
    next hkind => exact pure (.inr ⟨rfl, hkind, rfl⟩)
  refine bind heat fun eaten rest h => ?_
  rcases h with ⟨rfl, hkind, rfl⟩ | ⟨rfl, hkind, rfl⟩
  · exact hyes hkind
  · exact hno hkind

end GivesFrom

namespace Parser

namespace Gives

variable {p : Parser α} {f : α → Parser β} {Q : β → Prop}

theorem pure {b : β} (h : Q b) : Gives (pure b) Q := fun _ => .pure h

theorem bind (hp : Gives p P) (hf : ∀ a, P a → Gives (f a) Q) : Gives (p >>= f) Q :=
  fun tokens => .bind (hp tokens) fun a mid ha => hf a ha mid

theorem skip (hf : ∀ a, Gives (f a) Q) : Gives (p >>= f) Q :=
  bind (P := fun _ => True) (fun _ _ _ _ => trivial) fun a _ => hf a

theorem throw {e} : Gives (throw e) P := nofun

theorem fail {expected} : Gives (fail expected) P := by
  refine skip fun tokens => ?_
  split
  · exact throw
  · split
    · exact throw
    · exact throw

end Gives

section
variable {asks : TokenKind → Bool} {item : Parser α} {close : Sign}

theorem gives_many (h : Gives item P) : Gives (many asks item) (∀ a ∈ ·, P a) := by
  refine .skip fun tokens => ?_
  generalize tokens.length + 1 = bound
  induction bound with
  | zero => exact .throw
  | succ bound ih =>
    refine .skip fun kind => ?_
    split
    · exact .bind h fun a ha => .bind ih fun more hmore => .pure (forall_mem_cons.mpr ⟨ha, hmore⟩)
    · exact .pure nofun

theorem gives_listed (h : Gives item P) : Gives (listed close item) (∀ a ∈ ·, P a) := by
  refine .skip fun closed => ?_
  split
  · exact .pure nofun
  · refine .skip fun tokens => ?_
    generalize tokens.length + 1 = bound
    induction bound with
    | zero => exact .throw
    | succ bound ih =>
      refine .bind h fun a ha => .skip fun closed => ?_
      split
      · exact .pure (forall_mem_singleton.mpr ha)
      · refine .skip fun _ => .bind ih fun more hmore => .pure ?_
        exact forall_mem_cons.mpr ⟨ha, hmore⟩

end

/-! ### Operands and expressions -/

theorem gives_word : Gives word (· < UInt32.size) := by
  refine .skip fun v => .pure ?_
  exact UInt32.toNat_lt_size _

theorem gives_operand : Gives operand Operand.Writable := by
  have hnumber : Gives (do pure (Operand.ofConstant (← number))) Operand.Writable :=
    .skip fun c => .pure (.inr ⟨c, rfl⟩)
  refine .skip fun kind => ?_
  cases kind with
  | ident name => exact .skip fun _ => .skip fun s => .pure (.inl ⟨name, rfl⟩)
  | int v | float x => exact hnumber
  | sign s => cases s <;> first | exact hnumber | exact .fail
  | _ => exact .fail

theorem gives_comparison : Gives comparison Comparison.Writable := by
  refine .bind gives_operand fun left hleft => .skip fun kind => ?_
  split
  · exact .fail
  · exact .skip fun _ => .bind gives_operand fun right hright => .pure ⟨hleft, hright⟩

theorem gives_condition : Gives condition Comparison.Writable :=
  .skip fun _ => .bind gives_comparison fun _ hc => .skip fun _ => .pure hc

theorem gives_callArgs : Gives callArgs (∀ a ∈ ·, CallArg.Writable a) := by
  refine .skip fun _ => gives_listed (.skip fun kind => ?_)
  split
  · exact .skip fun _ => .pure trivial
  · exact .bind gives_operand fun o ho => .pure ho

variable {pairs : List (List Part)} {o : Operand} {make : String → Action}

theorem continues_flatten (h : ∀ pair ∈ pairs, ∃ op t, pair = [Part.op op, t] ∧ t.IsTerm) :
    Continues pairs.flatten := by
  induction pairs with
  | nil => simp [Continues]
  | cons pair pairs ih =>
    obtain ⟨⟨op, t, rfl, ht⟩, hrest⟩ := forall_mem_cons.mp h
    exact ⟨ht, ih hrest⟩

theorem gives_arithmetic {item} (h : Gives item Part.IsTerm) : Gives (arithmetic item) Alternating := by
  have hpair : Gives (do
      let op := (← peek).binaryOp?.getD .add
      advance
      pure [Part.op op, ← item]) fun pair => ∃ op t, pair = [Part.op op, t] ∧ t.IsTerm :=
    .skip fun kind => .skip fun _ => .bind h fun t ht => .pure ⟨_, t, rfl, ht⟩
  refine .bind h fun first hfirst => .bind (gives_many hpair) fun pairs hpairs => .pure ?_
  exact ⟨hfirst, continues_flatten hpairs⟩

theorem gives_term (bound : Nat) : Gives (term bound) Part.IsTerm := by
  induction bound with
  | zero => exact .throw
  | succ bound ih =>
    refine .skip fun opened => ?_
    split
    · refine .bind (gives_arithmetic ih) fun inner hinner => .skip fun _ => .pure ?_
      exact hinner
    · refine .bind gives_operand fun o ho => .pure ?_
      exact ho

theorem isVariable_of_constant (ho : o.Writable) (h : o.constant? = none) : o.IsVariable := by
  rcases ho with ho | ⟨c, rfl⟩
  · exact ho
  · cases h

variable {name : String}

theorem isVariable_of_name (h : o.name? = some name) : o.IsVariable := by
  unfold Operand.name? at h
  split at h
  next name' hname => exact ⟨name', hname⟩
  · cases h

theorem writable_ofParts {parts} (h : Alternating parts) : (Expr.ofParts parts).Writable := by
  fun_induction Expr.ofParts parts with
  | case1 o c hc => trivial
  | case2 o hc =>
    have ho : o.Writable := by simpa [Alternating, Part.IsTerm, Continues] using h
    exact isVariable_of_constant ho hc
  | case3 left op right name c hc hname => exact isVariable_of_name hname
  | case4 left op right name hc hname =>
    have hright : right.Writable := by
      exact h.2.1
    exact ⟨isVariable_of_name hname, isVariable_of_constant hright hc⟩
  | case5 left op right hname => exact ⟨h, by rw [Expr.ofParts, hname]⟩
  | case6 inner ih =>
    exact ih h.1
  | case7 parts hone hthree hgroup => exact ⟨h, by rw [Expr.ofParts]; all_goals assumption⟩

theorem gives_comparisonValue {left op} (hleft : left.Writable) : Gives (comparisonValue left op) Expr.Writable := by
  refine .bind gives_operand fun right hright => .skip fun asked => ?_
  split
  · refine .bind gives_operand fun yes hyes => .skip fun _ => .bind gives_operand fun no hno => .pure ?_
    exact ⟨⟨hleft, hright⟩, hyes, hno⟩
  · exact .pure ⟨hleft, hright⟩

theorem gives_valueOfParts : Gives valueOfParts Expr.Writable := by
  refine .skip fun tokens => .bind (gives_arithmetic (gives_term _)) fun parts hparts => .skip fun kind => ?_
  split
  next left op _ =>
    have hleft : left.Writable := by simpa [Alternating, Part.IsTerm, Continues] using hparts
    exact .skip fun _ => gives_comparisonValue hleft
  · exact .pure (writable_ofParts hparts)

theorem givesFrom_operand (h : nextKind tokens = .ident name) : GivesFrom operand tokens fun o _ => o.IsVariable := by
  refine .peek ?_
  rw [h]
  refine .advance (.bind (P := fun _ _ => True) (fun _ _ _ => trivial) fun s _ _ => .pure ?_)
  exact ⟨name, rfl⟩

theorem givesFrom_unary {op} (hop : unaryOp? (nextKind tokens) (nextKind (tokens.drop 1)) = some op) : GivesFrom (do
      advance
      pure (Expr.unary op (← operand))) tokens fun e _ => e.Writable := by
  refine .advance ?_
  by_cases hneg : op = .neg
  · -- a minus sign is an operator only in front of a name
    obtain ⟨name, hname⟩ : ∃ name, nextKind (tokens.drop 1) = .ident name := by
      unfold unaryOp? at hop
      split at hop
      · exact ⟨_, ‹_›⟩
      · cases hop; cases hneg
      · cases hop; cases hneg
      · cases hop
    exact .bind (givesFrom_operand hname) fun o _ ho => .pure ⟨.inl ho, fun _ => ho⟩
  · exact .bind (gives_operand _) fun o _ ho => .pure ⟨ho, fun h => absurd h hneg⟩

theorem gives_value : Gives value Expr.Writable := by
  intro tokens
  refine .peek (.peekSecond ?_)
  split
  · exact Gives.skip (fun _ => .bind gives_callArgs fun args hargs => .skip fun s => .pure hargs) tokens
  · split
    next op hop => exact givesFrom_unary hop
    · exact gives_valueOfParts tokens

theorem writable_bindingOf {line : Nat} {b} (h : bindingOf name line = .ok b) : b.Writable := by
  unfold bindingOf at h
  dsimp only at h
  split at h
  · split at h
    · cases h
      assumption
    · cases h
  next hdigits =>
    cases h
    exact eq_false_of_ne_true hdigits

theorem gives_binding : Gives binding? fun register => ∀ b, register = some b → b.Writable := by
  refine .skip fun asked => ?_
  split
  · refine .skip fun line => .skip fun kind => ?_
    cases kind with
    | register name =>
      refine .skip fun _ => .bind (P := Binding.Writable) ?_ fun b hb => .skip fun _ => .pure ?_
      · intro tokens b rest h
        cases hb : bindingOf name line with
        | error e =>
          rw [hb] at h
          cases h
        | ok b' =>
          rw [hb] at h
          cases h
          exact writable_bindingOf hb
      · intro b' hb'
        cases hb'
        exact hb
    | _ => exact .fail
  · exact .pure nofun

theorem gives_declaration : Gives declaration Action.Writable := by
  refine .skip fun isConst => .skip fun type => .bind gives_binding fun register hregister => ?_
  refine .skip fun first => .skip fun others => ?_
  split
  · refine .skip fun assigned => ?_
    split
    · exact .bind gives_value fun v hv => .skip fun _ => .pure ⟨hregister, hv⟩
    · exact .skip fun _ => .pure hregister
  next hothers =>
    refine .skip fun _ => .pure ⟨?_, hregister⟩
    have hlength : others.length ≠ 0 := by simpa using hothers
    rw [length_cons]
    omega

theorem gives_assignment : Gives assignment Action.Writable := by
  refine .skip fun target => .skip fun swizzle => .skip fun kind => ?_
  have hrest : ∀ op, Gives (do
      advance
      let v ← value
      expectSign .semicolon
      pure (.assign ⟨target, swizzle, op, v, false⟩)) Action.Writable := fun op =>
    .skip fun _ => .bind gives_value fun v hv => .skip fun _ => .pure ⟨rfl, hv⟩
  split
  · exact .skip hrest
  · exact .skip hrest
  · exact .bind (P := fun _ => False) .fail nofun

theorem gives_namedAction (name : String) : Gives (namedAction name) Action.Writable := by
  refine .skip fun second => ?_
  split
  · exact .skip fun _ => .skip fun _ => .pure trivial
  · exact .skip fun _ => .bind gives_callArgs fun args hargs => .skip fun _ => .pure hargs
  · exact gives_assignment

theorem gives_nameAction (h : ∀ name, (make name).Writable) : Gives (nameAction make) Action.Writable :=
  .skip fun _ => .skip fun name => .skip fun _ => .pure (h name)

theorem gives_wordAction {a : Action} (h : a.Writable) : Gives (wordAction a) Action.Writable :=
  .skip fun _ => .skip fun _ => .pure h

theorem gives_action : Gives action Action.Writable := by
  refine .skip fun kind => ?_
  split
  · exact gives_declaration
  · exact gives_declaration
  · exact gives_nameAction fun _ => trivial
  · exact gives_wordAction trivial
  · exact gives_wordAction trivial
  · exact gives_wordAction trivial
  · exact gives_nameAction fun _ => trivial
  · exact .skip fun _ => .skip fun _ => .skip fun _ => .skip fun _ => .skip fun _ => .pure trivial
  · exact gives_namedAction _
  · exact .fail

/-- What holds of a statement that was read between these tokens: a loop without a condition ends where
no `while` stands, and a loop that is written with `while` at the front starts with it. -/
structure ReadBetween (tokens : List Token) (s : Statement) (rest : List Token) : Prop where
  writable : s.Writable
  notWhile : s.IsOpenLoop → nextKind rest ≠ .keyword .whileKw
  startsWithWhile : s.StartsWithWhile → nextKind tokens = .keyword .whileKw

variable {inner : Parser Statement}

theorem gives_block (h : ∀ tokens, GivesFrom inner tokens (ReadBetween tokens)) :
    Gives (block inner) writableBlock := by
  have hitems : ∀ bound tokens, GivesFrom (repeated (· ≠ .sign .rBrace) inner bound) tokens fun body _ =>
      writableBlock body ∧ ∀ s ∈ body.head?, s.StartsWithWhile → nextKind tokens = .keyword .whileKw := by
    intro bound
    induction bound with
    | zero => exact fun tokens => nofun
    | succ bound ih =>
      intro tokens
      refine .peek ?_
      split
      · refine .bind (h tokens) fun s mid hs => .bind (ih mid) fun body rest hbody => .pure ⟨?_, ?_⟩
        · exact ⟨hs.writable, fun hopen next hnext hwhile =>
            hs.notWhile hopen (hbody.2 next hnext hwhile), hbody.1⟩
        · intro s' hs'
          cases hs'
          exact hs.startsWithWhile
      · refine .pure ⟨?_, nofun⟩
        trivial
  refine .skip fun _ => .bind (.skip fun tokens => ?_) fun body hbody => .skip fun _ => .pure hbody
  exact fun tokens' _ _ hbody => (hitems _ tokens' hbody).1

theorem gives_body (h : ∀ tokens, GivesFrom inner tokens (ReadBetween tokens)) : Gives (body inner) writableBlock := by
  refine .skip fun kind => ?_
  split
  · exact gives_block h
  · refine .bind (fun tokens s rest hs => (h tokens hs).writable) fun s hs => .pure ?_
    exact ⟨hs, nofun, trivial⟩

theorem givesFrom_bareStatement (h : ∀ tokens, GivesFrom inner tokens (ReadBetween tokens)) (tag : Tag)
    (tokens : List Token) :
    GivesFrom (bareStatement inner tag) tokens fun s rest => s.tag = tag ∧ ReadBetween tokens s rest := by
  -- most statements end and start in any way
  have hplain : ∀ {s : Statement} {rest : List Token}, s.Writable → s.tag = tag → ¬ s.IsOpenLoop →
      ¬ s.StartsWithWhile → s.tag = tag ∧ ReadBetween tokens s rest :=
    fun hs htag hopen hwhile =>
      ⟨htag, hs, fun h => absurd h hopen, fun h => absurd h hwhile⟩
  refine .peek ?_
  split
  · refine .bind (gives_block h tokens) fun body _ hbody => .pure (hplain ?_ rfl id id)
    exact hbody
  · refine .advance (.bind (gives_condition _) fun c mid hc => .bind (gives_body h mid) fun yes mid' hyes => ?_)
    refine .eat (fun _ => ?_) fun _ => .pure (hplain ?_ rfl id id)
    · refine .bind (gives_body h _) fun no _ hno => .pure (hplain ?_ rfl id id)
      exact ⟨hc, hyes, hno⟩
    · exact ⟨hc, hyes⟩
  next hkind =>
    refine .advance (.bind (gives_condition _) fun c mid hc => .bind (gives_body h mid) fun body _ hbody => ?_)
    refine .pure ⟨rfl, ?_, nofun, fun _ => hkind⟩
    exact ⟨hc, hbody⟩
  · refine .advance (.bind (gives_body h _) fun body mid hbody => .eat (fun _ => ?_) fun hkind => ?_)
    · refine .bind (gives_condition _) fun c mid' hc =>
        .bind (P := fun _ _ => True) (fun _ _ _ => trivial) fun _ _ _ => .pure (hplain ?_ rfl id id)
      exact ⟨hbody, hc⟩
    · refine .pure ⟨rfl, ?_, fun _ => hkind, nofun⟩
      exact hbody
  · refine .bind (gives_action tokens) fun a _ ha => .pure (hplain ?_ rfl id id)
    exact ha

theorem givesFrom_markers (tokens : List Token) : GivesFrom markers tokens fun ms rest => ms = [] → rest = tokens := by
  show GivesFrom (repeated (· = .sign .atSign) marker (tokens.length + 1)) tokens _
  refine .peek ?_
  split
  · exact .bind (P := fun _ _ => True) (fun _ _ _ => trivial) fun m _ _ =>
      .bind (P := fun _ _ => True) (fun _ _ _ => trivial) fun ms _ _ => .pure nofun
  · exact .pure fun _ => rfl

theorem markers_of_startsWithWhile {s : Statement} (h : s.StartsWithWhile) : s.tag.markers = [] := by
  cases s with
  | whileLoop tag c body => exact h
  | _ => exact h.elim

theorem givesFrom_statement (bound : Nat) : ∀ tokens, GivesFrom (statement bound) tokens (ReadBetween tokens) := by
  induction bound with
  | zero => exact fun tokens => nofun
  | succ bound ih =>
    intro tokens
    refine .bind (givesFrom_markers tokens) fun ms mid hms => .line fun n => ?_
    intro s rest hs
    obtain ⟨htag, hs⟩ := givesFrom_bareStatement ih _ mid hs
    refine ⟨hs.writable, hs.notWhile, fun hwhile => ?_⟩
    have hmarkers := markers_of_startsWithWhile hwhile
    rw [htag] at hmarkers
    rw [← hms hmarkers]
    exact hs.startsWithWhile hwhile

theorem gives_alignment : Gives alignment? fun align => ∀ n, align = some n → n < UInt32.size := by
  refine .skip fun asked => ?_
  split
  · refine .skip fun _ => .bind gives_word fun a ha => .skip fun _ => .pure fun n hn => ?_
    cases hn
    exact ha
  · exact .pure nofun

theorem gives_stateVariable : Gives stateVariable StateVariable.Writable := by
  have hdim : Gives dimension (· < UInt32.size) := .skip fun _ => .bind gives_word fun n hn => .skip fun _ => .pure hn
  refine .skip fun line => .skip fun isExtern => .bind gives_alignment fun align halign => ?_
  refine .skip fun type => .skip fun name => .bind (gives_many hdim) fun dims hdims => ?_
  exact .skip fun init => .skip fun _ => .pure ⟨halign, hdims⟩

theorem gives_parameter : Gives parameter Parameter.Writable :=
  .skip fun _ => .bind gives_binding fun _ hregister => .skip fun _ => .pure hregister

theorem gives_routineKind : Gives routineKind RoutineKind.Writable := by
  refine .skip fun kind => ?_
  split
  · exact .skip fun _ => .pure trivial
  · exact .skip fun _ => .pure trivial
  · exact .skip fun _ => .skip fun _ => .bind gives_word fun n hn => .skip fun _ => .pure hn
  · exact .fail

theorem gives_routineBody : Gives routineBody fun body => ∀ b, body = some b → writableBlock b := by
  refine .skip fun announced => ?_
  split
  · exact .pure nofun
  · refine .skip fun tokens => .bind (gives_block (givesFrom_statement _)) fun body hbody => .pure ?_
    intro b hb
    cases hb
    exact hbody

theorem gives_routine : Gives routine Routine.Writable := by
  refine .skip fun markers => .skip fun line => .bind gives_routineKind fun kind hkind => ?_
  refine .skip fun name => .skip fun _ => .bind (gives_listed gives_parameter) fun params hparams => ?_
  exact .bind gives_routineBody fun body hbody => .pure ⟨hkind, hparams, hbody⟩

theorem gives_stateBlock : Gives stateBlock (∀ v ∈ ·, StateVariable.Writable v) :=
  .skip fun _ => .skip fun _ => .bind (gives_many gives_stateVariable) fun _ h => .skip fun _ => .pure h

theorem gives_program : Gives program Program.Writable := by
  have hrest : ∀ includes state, (∀ v ∈ state, v.Writable) → Gives (do
      let routines ← many (fun k => k ≠ .eof && k ≠ .keyword .includeKw) routine
      let trailingIncludes ← many (· = .keyword .includeKw) includePath
      if (← peek) = .eof then pure ⟨includes, state, routines, trailingIncludes⟩
      else fail .endOfFile) Program.Writable := by
    intro includes state hstate
    refine .bind (gives_many gives_routine) fun routines hroutines => .skip fun trailing => .skip fun kind => ?_
    split
    · exact .pure ⟨hstate, hroutines⟩
    · exact .fail
  refine .skip fun includes => .skip fun kind => ?_
  split
  · exact .bind gives_stateBlock (hrest includes)
  · exact .bind (P := fun state => ∀ v ∈ state, StateVariable.Writable v) (.pure nofun) (hrest includes)

end Parser

/-- A program that was read is read back from any tokens that spell it in the canonical way; it is the
same but for its lines. -/
theorem Program.ofTokens_spelling {tokens : List Token} {p : Program}
    (h : Program.ofTokens tokens = .ok p) {written : List Token}
    (hwritten : written.map Token.kind = p.spelling) :
    ∃ q, Program.ofTokens written = .ok q ∧ q.unlined = p.unlined := by
  obtain ⟨⟨p, rest⟩, hread, rfl⟩ := map_eq_ok.mp h
  have hp : p.Writable := Parser.gives_program tokens hread
  obtain ⟨q, rest', hq, -, hlines⟩ := Parser.reads_program hp written hwritten
  exact ⟨q, map_eq_ok.mpr ⟨(q, rest'), hq, rfl⟩, hlines⟩

def loopingTokens : List Token := [.keyword .functionKw, .ident "f", .sign .lParen, .sign .rParen, .sign .lBrace,
    .keyword .loopKw, .ident "a", .sign .assign, .ident "a", .sign .lt, .sign .minus, .int 1,
    .sign .question, .ident "b", .sign .colon, .int 2, .sign .semicolon,
    .sign .atSign, .ident "Unlikely", .keyword .whileKw, .sign .lParen, .ident "a", .sign .notEq, .int 3,
    .sign .rParen, .keyword .exitKw, .sign .semicolon, .sign .rBrace, .eof].mapIdx
      fun i kind => ⟨kind, ⟨i, i + 1, 1⟩, i + 1⟩

def Program.looping : Program where
  routines := [⟨.function, "f", [], some [.loop ⟨6, []⟩ [.action ⟨7, []⟩ (.assign ⟨"a", none, none,
          .choose ⟨.ofName "a", .lt, .ofConstant (.int (-1))⟩ (.ofName "b") (.ofConstant (.int 2)), false⟩)]
        none,
       .whileLoop ⟨20, [⟨.unlikely, none⟩]⟩ ⟨.ofName "a", .ne, .ofConstant (.int 3)⟩ [.action ⟨26, []⟩ .exit]],
      [], 1⟩]

theorem Program.looping_ofTokens_spelling :
    Program.ofTokens loopingTokens = .ok Program.looping ∧
      ∃ q, Program.ofTokens (Program.looping.spelling.map fun kind => ⟨kind, .start, 0⟩) = .ok q ∧
        q.unlined = Program.looping.unlined := by
  have hread : Program.ofTokens loopingTokens = .ok Program.looping := rfl
  refine ⟨hread, Program.ofTokens_spelling hread ?_⟩
  rw [List.map_map]
  exact List.map_id _

end Microcode
