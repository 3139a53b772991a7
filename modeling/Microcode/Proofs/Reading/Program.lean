import Microcode.Proofs.Reading

/-!
Statements, routines and whole programs read back from their spelling.

What is read is the same up to lines, since a statement keeps the line of its first token.
-/

namespace Microcode.Parser

open List Routine StateVariable Statement

variable {k : List TokenKind}

theorem ofName_name (kind : MarkerKind) : MarkerKind.ofName? kind.name = some kind := by cases kind <;> decide

theorem reads_marker {m : Marker} (hk : k.headD .eof ≠ .sign .lParen) : Reads marker (m.spelling ++ k) k (· = m) := by
  obtain ⟨kind, value⟩ := m
  refine .line fun n => .advance (reads_identifier.step ?_)
  rw [ofName_name]
  rcases value with _ | v | text
  · exact .step (.notEat hk (.pure rfl)) (.pure rfl)
  · exact .step (.eat (.peek (.step (.pure rfl) (.advance (.expectSign (.pure rfl)))))) (.pure rfl)
  · exact .step (.eat (.peek (.step (.pure rfl) (.advance (.expectSign (.pure rfl)))))) (.pure rfl)

theorem reads_markers {ms} (hat : k.headD .eof ≠ .sign .atSign) (hparen : k.headD .eof ≠ .sign .lParen) :
    Reads markers (ms.flatMap Marker.spelling ++ k) k (· = ms) := by
  have h : Reads markers (ms.flatMap Marker.spelling ++ k) k (· = ms.map id) := by
    refine reads_many_eq id (by simpa using hat) (fun m _ => ⟨_, _, rfl, by simp⟩) fun m rest _ => ?_
    refine reads_marker ?_
    cases rest with
    | nil => exact hparen
    | cons => nofun
  rwa [List.map_id] at h

theorem bindingOf_token {b} (hb : b.Writable) :
    ∃ name, b.token = .register name ∧ ∀ line, bindingOf name line = .ok b := by
  cases b with
  | named name =>
    refine ⟨name, rfl, fun line => ?_⟩
    have hdigits : (name.toList.drop 1).all Char.isDigit = false := hb
    simp only [bindingOf, hdigits, Bool.false_eq_true, if_false]
  | index n => exact ⟨"$" ++ toString n, rfl, bindingOf_number hb⟩

theorem reads_binding {b} (hb : ∀ x, b = some x → x.Writable)
    (hk : k.headD .eof ≠ .sign .lt) : Reads binding? (spellBinding b ++ k) k (· = b) := by
  cases b with
  | none => exact .notEat hk (.pure rfl)
  | some b =>
    obtain ⟨name, htoken, hof⟩ := bindingOf_token (hb b rfl)
    rw [spellBinding, htoken]
    refine .eat (.line fun n => .peek (.advance ?_))
    refine .step (a := b) (fun tokens htokens => ⟨b, tokens, ?_, htokens, rfl⟩) (.expectSign (.pure rfl))
    rw [hof]
    rfl

variable {a : Action} {k' : List TokenKind} {register : Option Binding}

/-- A declaration up to its last name; `h` is for what follows. -/
theorem reads_declaration {isConst : Bool} {type} {first : String} (others : List String)
    (hregister : ∀ b, register = some b → b.Writable) (hk : k.headD .eof ≠ .sign .comma) (h : Reads (do
      if others.isEmpty then
        let d : Declaration := ⟨first, type, register, isConst⟩
        if ← eat (.sign .assign) then
          let v ← value
          expectSign .semicolon
          pure (.declareInit d v)
        else
          expectSign .semicolon
          pure (.declare d)
      else
        expectSign .semicolon
        pure (.declareMany (first :: others) type register isConst)) k k' (· = a)) :
    Reads declaration (spellType isConst type register
      ++ (spellListed (fun name => [.ident name]) (first :: others) ++ k)) k' (· = a) := by
  have hothers : Reads (many (· = .sign .comma) do
      advance
      identifier) (others.flatMap (fun name => [.sign .comma, .ident name]) ++ k) k (· = others.map id) := by
    refine reads_many_eq id (by simpa using hk) (fun name _ => ⟨_, _, rfl, by simp⟩) fun name rest _ => ?_
    exact .advance reads_identifier
  rw [List.map_id] at hothers
  cases isConst with
  | true =>
    refine .eat (reads_dataType.step (.step (reads_binding hregister ?_) (reads_identifier.step (hothers.step h))))
    nofun
  | false =>
    refine .notEat nofun (reads_dataType.step (.step (reads_binding hregister ?_)
      (reads_identifier.step (hothers.step h))))
    nofun

theorem reads_assignment {a} (hinit : a.isInit = false) (hvalue : a.value.Writable) :
    Reads assignment ((Action.assign a).spelling ++ k) k (· = .assign a) := by
  obtain ⟨target, swizzle, op, v, isInit⟩ := a
  obtain rfl : isInit = false := hinit
  rw [Action.spelling, cons_append, append_assoc, cons_append, append_assoc]
  refine reads_identifier.step ((reads_swizzle ?_).step (.peek ?_))
  · cases op <;> nofun
  · cases op with
    | none | some op => exact .step (.pure rfl) (.advance ((reads_value hvalue).step (.expectSign (.pure rfl))))

theorem reads_action_of_declaration {isConst : Bool} {type k''}
    (h : Reads declaration (spellType isConst type register ++ k') k'' (· = a)) :
    Reads action (spellType isConst type register ++ k') k'' (· = a) := by
  cases isConst with
  | true | false => exact .peek h

theorem reads_action_of_assignment {a} (h : Reads assignment ((Action.assign a).spelling ++ k) k (· = .assign a)) :
    Reads action ((Action.assign a).spelling ++ k) k (· = .assign a) := by
  obtain ⟨target, swizzle, op, v, isInit⟩ := a
  refine .peek (.peekSecond ?_)
  cases swizzle with
  | some s => exact h
  | none => cases op <;> exact h

theorem reads_action (ha : a.Writable) : Reads action (a.spelling ++ k) k (· = a) := by
  cases a with
  | declare d =>
    rw [Action.spelling, append_assoc]
    refine reads_action_of_declaration (reads_declaration [] ha nofun ?_)
    exact .notEat nofun (.expectSign (.pure rfl))
  | declareInit d v =>
    rw [Action.spelling, append_assoc, cons_append, cons_append, append_assoc]
    refine reads_action_of_declaration (reads_declaration [] ha.1 nofun ?_)
    exact .eat ((reads_value ha.2).step (.expectSign (.pure rfl)))
  | declareMany names type register isConst =>
    rw [Action.spelling, append_assoc, append_assoc]
    obtain ⟨hnames, hregister⟩ := ha
    rcases names with _ | ⟨first, _ | ⟨second, more⟩⟩
    · cases hnames
    · simp at hnames
    · refine reads_action_of_declaration (reads_declaration (second :: more) hregister nofun ?_)
      exact .expectSign (.pure rfl)
  | declareAlias name target type => exact ha.elim
  | undefine name | goto target => exact .peek (.advance (reads_identifier.step (.expectSign (.pure rfl))))
  | assign a => exact reads_action_of_assignment (reads_assignment ha.1 ha.2)
  | call name args =>
    rw [Action.spelling, cons_append, append_assoc]
    exact .peek (.peekSecond (.advance ((reads_callArgs ha).step (.expectSign (.pure rfl)))))
  | label name => exact .peek (.peekSecond (.advance (.advance (.pure rfl))))
  | breakLoop | continueLoop | exit => exact .peek (.advance (.expectSign (.pure rfl)))
  | asm text =>
    refine .peek (.advance (.expectSign (reads_stringLiteral.step ?_)))
    exact .expectSign (.expectSign (.pure rfl))

theorem spelling_action (ha : a.Writable) : ∃ kind more, a.spelling = kind :: more ∧
    (∀ s, kind ≠ .sign s) ∧ kind ≠ .keyword .elseKw ∧ kind ≠ .keyword .whileKw := by
  have htype : ∀ (isConst : Bool) (type : DataType) (register : Option Binding) (k : List TokenKind),
      ∃ kind more, spellType isConst type register ++ k = kind :: more ∧
        (∀ s, kind ≠ .sign s) ∧ kind ≠ .keyword .elseKw ∧ kind ≠ .keyword .whileKw := by
    intro isConst type register k
    cases isConst with
    | true => exact ⟨.keyword .constKw, _, rfl, nofun, nofun, nofun⟩
    | false => exact ⟨.type type, _, rfl, nofun, nofun, nofun⟩
  cases a with
  | declare d | declareInit d v | declareMany names type register isConst => exact htype _ _ _ _
  | declareAlias name target type => exact ha.elim
  | _ => exact ⟨_, _, rfl, nofun, nofun, nofun⟩

variable {s : Statement}

theorem bareSpelling_cons (hs : s.Writable) :
    ∃ kind more, s.bareSpelling = kind :: more ∧ (∀ sign, kind = .sign sign → sign = .lBrace) ∧
      kind ≠ .keyword .elseKw ∧ (kind = .keyword .whileKw → s.tag.markers = [] → s.StartsWithWhile) := by
  have hbrace : ∀ sign, TokenKind.sign .lBrace = .sign sign → sign = .lBrace :=
    fun sign h => (TokenKind.sign.inj h).symm
  rcases s with ⟨tag, body⟩ | ⟨tag, c, yes, _ | no⟩ | ⟨tag, c, body⟩ | ⟨tag, body, _ | c⟩ | ⟨tag, a⟩
  · exact ⟨.sign .lBrace, _, rfl, hbrace, nofun, nofun⟩
  · exact ⟨.keyword .ifKw, _, rfl, nofun, nofun, nofun⟩
  · exact ⟨.keyword .ifKw, _, rfl, nofun, nofun, nofun⟩
  · exact ⟨.keyword .whileKw, _, rfl, nofun, nofun, fun _ h => h⟩
  · exact ⟨.keyword .loopKw, _, rfl, nofun, nofun, nofun⟩
  · exact ⟨.keyword .loopKw, _, rfl, nofun, nofun, nofun⟩
  · obtain ⟨kind, more, hkind, hsign, helse, hwhile⟩ := spelling_action hs
    exact ⟨kind, more, hkind, fun sign h => absurd h (hsign sign), helse, fun h => absurd h hwhile⟩

theorem spelling_cons (hs : s.Writable) : ∃ kind more, s.spelling = kind :: more ∧ kind ≠ .sign .rBrace ∧
      kind ≠ .keyword .elseKw ∧ (kind = .keyword .whileKw → s.StartsWithWhile) := by
  obtain ⟨kind, more, hkind, hsign, helse, hwhile⟩ := bareSpelling_cons hs
  unfold Statement.spelling
  cases hmarkers : s.tag.markers with
  | nil =>
    refine ⟨kind, more, hkind, fun h => ?_, helse, fun h => hwhile h hmarkers⟩
    exact absurd (hsign _ h) (by decide)
  | cons m ms => exact ⟨.sign .atSign, _, rfl, nofun, nofun, nofun⟩

structure Allows (s : Statement) (kind : TokenKind) : Prop where
  notElse : kind ≠ .keyword .elseKw
  notWhile : s.IsOpenLoop → kind ≠ .keyword .whileKw

/-- A statement is read back if the reader may enter as many blocks as it has tokens. -/
def ReadsStatement (s : Statement) : Prop :=
  ∀ ⦃bound : Nat⦄ ⦃k : List TokenKind⦄, s.spelling.length ≤ bound → Allows s (k.headD .eof) →
    Reads (statement bound) (s.spelling ++ k) k (·.unlined = s.unlined)

variable {body : List Statement}

theorem writableBlock_suffix {rest} (h : writableBlock body) (hrest : rest <:+ body) : writableBlock rest := by
  induction body with
  | nil => rwa [suffix_nil.mp hrest]
  | cons s body ih =>
    rcases suffix_cons_iff.mp hrest with rfl | hrest
    · exact h
    · exact ih h.2.2 hrest

theorem writable_of_mem (h : writableBlock body) (hs : s ∈ body) : s.Writable := by
  obtain ⟨front, rest, rfl⟩ := append_of_mem hs
  have hrest := writableBlock_suffix h (suffix_append front (s :: rest))
  exact hrest.1

theorem allows_of_writableBlock {rest} (h : writableBlock (s :: rest)) :
    Allows s ((rest.flatMap Statement.spelling ++ .sign .rBrace :: k).headD .eof) := by
  cases rest with
  | nil => exact ⟨nofun, nofun⟩
  | cons next rest =>
    obtain ⟨-, hnext, hrest⟩ := h
    obtain ⟨kind, more, hkind, -, helse, hwhile⟩ := spelling_cons hrest.1
    rw [flatMap_cons, hkind]
    exact ⟨helse, fun hopen h => hnext hopen next rfl (hwhile h)⟩

def ReadsBlock (body : List Statement) : Prop :=
  ∀ ⦃bound : Nat⦄ ⦃k : List TokenKind⦄, (spellBlock body).length ≤ bound →
    Reads (block (statement bound)) (spellBraces (spellBlock body) ++ k) k (unlinedBlock · = unlinedBlock body)

theorem reads_block (hbody : writableBlock body) (hread : ∀ s ∈ body, ReadsStatement s) : ReadsBlock body := by
  intro bound k hbound
  rw [spellBlock_eq] at hbound
  have hitems : Reads (manyUntil .rBrace (statement bound)) (body.flatMap Statement.spelling ++ .sign .rBrace :: k) k
      (·.map Statement.unlined = body.map Statement.unlined) := by
    refine reads_manyUntil Statement.unlined Statement.unlined (fun s hs => ?_) fun s rest h => ?_
    · obtain ⟨kind, more, hkind, hbrace, -⟩ := spelling_cons (writable_of_mem hbody hs)
      exact ⟨kind, more, hkind, hbrace⟩
    · have hmem : s ∈ body := h.mem (.head _)
      have hlength : s.spelling.length ≤ (body.flatMap Statement.spelling).length :=
        (sublist_flatten_of_mem (mem_map_of_mem hmem)).length_le
      exact hread s hmem (by omega) (allows_of_writableBlock (writableBlock_suffix hbody h))
  unfold spellBraces
  rw [spellBlock_eq, cons_append, append_assoc]
  refine .expectSign (hitems.mono fun r hr => ?_)
  rw [unlinedBlock_eq, unlinedBlock_eq, hr]

theorem readsStatement_of_bare (hs : s.Writable)
    (h : ∀ {bound : Nat} {k : List TokenKind} (n : Nat), s.bareSpelling.length ≤ bound + 1 → Allows s (k.headD .eof) →
      Reads (bareStatement (statement bound) ⟨n, s.tag.markers⟩) (s.bareSpelling ++ k) k
        (·.unlined = s.unlined)) : ReadsStatement s := by
  intro bound k hbound hk
  obtain ⟨kind, more, hkind, hsign, -⟩ := bareSpelling_cons hs
  have hne : ∀ sign, sign ≠ .lBrace → (s.bareSpelling ++ k).headD .eof ≠ .sign sign := by
    intro sign hsign' hhead
    rw [hkind] at hhead
    exact hsign' (hsign sign hhead)
  rw [Statement.spelling, length_append] at hbound
  obtain ⟨bound, rfl⟩ : ∃ n, bound = n + 1 := by
    rw [hkind, length_cons] at hbound
    exact ⟨bound - 1, by omega⟩
  rw [Statement.spelling, append_assoc]
  refine (reads_markers (hne _ (by decide)) (hne _ (by decide))).step (.line fun n => ?_)
  exact h n (by omega) hk

theorem reads_body {inner Q} (h : Reads (block inner) (spellBraces (spellBlock body) ++ k) k' Q) :
    Reads (Parser.body inner) (spellBraces (spellBlock body) ++ k) k' Q :=
  .peek h

theorem reads_bareStatement_action (ha : a.Writable) {inner} {tag : Tag}
    {Q} (h : Q (.action tag a)) : Reads (bareStatement inner tag) (a.spelling ++ k) k Q := by
  have hread : Reads (do pure (Statement.action tag (← action))) (a.spelling ++ k) k Q :=
    (reads_action ha).step (.pure h)
  cases a with
  | declare d | declareInit d v =>
    obtain ⟨name, type, register, isConst⟩ := d
    cases isConst <;> exact .peek hread
  | declareMany names type register isConst => cases isConst <;> exact .peek hread
  | declareAlias name target type => exact ha.elim
  | _ => exact .peek hread

theorem length_spellBraces (inner : List TokenKind) : (spellBraces inner).length = inner.length + 2 := by
  rw [spellBraces, length_cons, length_append, length_singleton]

mutual

theorem readsStatement_of_writable : ∀ {s : Statement}, s.Writable → ReadsStatement s
  | .block tag body, h => by
    refine readsStatement_of_bare h fun {bound k} n hbound _ => ?_
    have hbody := reads_block h (readsStatements_of_writable h)
    rw [bareSpelling] at hbound ⊢
    rw [length_spellBraces] at hbound
    refine .peek ((hbody (by omega)).bind fun b hb => .pure ?_)
    rw [Statement.unlined, hb]
    rfl
  | .branch tag c yes none, h => by
    refine readsStatement_of_bare h fun {bound k} n hbound hk => ?_
    have hyes := reads_block h.2 (readsStatements_of_writable h.2)
    rw [bareSpelling] at hbound ⊢
    rw [length_cons, length_append, length_spellBraces] at hbound
    rw [cons_append, append_assoc]
    refine .peek (.advance ((reads_condition h.1).step ?_))
    refine (reads_body (hyes (by omega))).bind fun b hb => .notEat hk.notElse (.pure ?_)
    rw [Statement.unlined, hb]
    rfl
  | .branch tag c yes (some no), h => by
    refine readsStatement_of_bare h fun {bound k} n hbound hk => ?_
    have hyes := reads_block h.2.1 (readsStatements_of_writable h.2.1)
    have hno := reads_block h.2.2 (readsStatements_of_writable h.2.2)
    rw [bareSpelling] at hbound ⊢
    rw [length_cons, length_append, length_append, length_cons, length_spellBraces, length_spellBraces] at hbound
    rw [cons_append, append_assoc, append_assoc]
    refine .peek (.advance ((reads_condition h.1).step ?_))
    refine (reads_body (hyes (by omega))).bind fun b hb => .eat ?_
    refine (reads_body (hno (by omega))).bind fun b' hb' => .pure ?_
    rw [Statement.unlined, hb, hb']
    rfl
  | .whileLoop tag c body, h => by
    refine readsStatement_of_bare h fun {bound k} n hbound _ => ?_
    have hbody := reads_block h.2 (readsStatements_of_writable h.2)
    rw [bareSpelling] at hbound ⊢
    rw [length_cons, length_append, length_spellBraces] at hbound
    rw [cons_append, append_assoc]
    refine .peek (.advance ((reads_condition h.1).step ?_))
    refine (reads_body (hbody (by omega))).bind fun b hb => .pure ?_
    rw [Statement.unlined, hb]
    rfl
  | .loop tag body none, h => by
    refine readsStatement_of_bare h fun {bound k} n hbound hk => ?_
    have hbody := reads_block h (readsStatements_of_writable h)
    rw [bareSpelling] at hbound ⊢
    rw [length_cons, length_spellBraces] at hbound
    refine .peek (.advance ((reads_body (hbody (by omega))).bind fun b hb => ?_))
    refine .notEat (hk.notWhile trivial) (.pure ?_)
    rw [Statement.unlined, hb]
    rfl
  | .loop tag body (some c), h => by
    refine readsStatement_of_bare h fun {bound k} n hbound _ => ?_
    have hbody := reads_block h.1 (readsStatements_of_writable h.1)
    rw [bareSpelling] at hbound ⊢
    rw [length_cons, length_append, length_spellBraces] at hbound
    rw [cons_append, append_assoc, cons_append, append_assoc]
    refine .peek (.advance ((reads_body (hbody (by omega))).bind fun b hb => .eat ?_))
    refine (reads_condition h.2).step (.expectSign (.pure ?_))
    rw [Statement.unlined, hb]
    rfl
  | .action tag a, h => by
    refine readsStatement_of_bare h fun {bound k} n _ _ => ?_
    refine reads_bareStatement_action h ?_
    rfl

theorem readsStatements_of_writable : ∀ {body : List Statement}, writableBlock body → ∀ s ∈ body, ReadsStatement s
  | [], _ => nofun
  | s :: body, h => by
    exact forall_mem_cons.mpr ⟨readsStatement_of_writable h.1, readsStatements_of_writable h.2.2⟩

end

theorem reads_includes {paths} (hk : k.headD .eof ≠ .keyword .includeKw) :
    Reads (many (· = .keyword .includeKw) includePath) (paths.flatMap spellInclude ++ k) k (· = paths) := by
  have h : Reads (many (· = .keyword .includeKw) includePath) (paths.flatMap spellInclude ++ k) k
      (· = paths.map id) := by
    refine reads_many_eq id (by simpa using hk) (fun path _ => ⟨_, _, rfl, by simp⟩) fun path rest _ => ?_
    refine .step (a := ()) (.peek ?_) (reads_stringLiteral.step (.expectSign (.pure rfl)))
    exact .advance (.pure rfl)
  rwa [List.map_id] at h

theorem reads_alignment {align} (h : ∀ n, align = some n → n < UInt32.size) (hk : k.headD .eof ≠ .keyword .alignasKw) :
    Reads alignment? (spellAlign align ++ k) k (· = align) := by
  cases align with
  | none => exact .notEat hk (.pure rfl)
  | some n => exact .eat (.expectSign ((reads_word (h n rfl)).step (.expectSign (.pure rfl))))

theorem reads_dimensions {dims} (h : ∀ n ∈ dims, n < UInt32.size) (hk : k.headD .eof ≠ .sign .lBracket) :
    Reads (many (· = .sign .lBracket) dimension) (dims.flatMap spellDim ++ k) k (· = dims) := by
  have hdims : Reads (many (· = .sign .lBracket) dimension) (dims.flatMap spellDim ++ k) k (· = dims.map id) := by
    refine reads_many_eq id (by simpa using hk) (fun n _ => ⟨_, _, rfl, by simp⟩) fun n rest hn => ?_
    exact .advance ((reads_word (h n (hn.mem (.head _)))).step (.expectSign (.pure rfl)))
  rwa [List.map_id] at hdims

theorem reads_initialValues {init} (hk : k.headD .eof ≠ .sign .assign) :
    Reads initialValues (spellInit init ++ k) k (· = init) := by
  cases init with
  | nil => exact .notEat hk (.pure rfl)
  | cons c more =>
    rw [spellInit, cons_append, cons_append, append_assoc]
    refine .eat (.expectSign (reads_listed (by decide) (fun d _ => ?_) fun d _ s k' _ => reads_number))
    obtain ⟨kind, rest, hkind, hstart⟩ := startsOperand_constant d
    exact ⟨kind, rest, hkind, hstart.ne_sign (by decide)⟩

theorem reads_stateVariable {v : StateVariable} (hv : v.Writable) :
    Reads stateVariable (v.spelling ++ k) k (·.unlined = v.unlined) := by
  obtain ⟨name, type, isExtern, align, dims, init, line⟩ := v
  have hrest : ∀ n, Reads (do
      let align ← alignment?
      let type ← dataType
      let name ← identifier
      let dims ← many (· = .sign .lBracket) dimension
      let init ← initialValues
      expectSign .semicolon
      pure (StateVariable.mk name type isExtern align dims init n))
      (spellAlign align ++ (.type type :: .ident name :: (dims.flatMap spellDim
        ++ (spellInit init ++ .sign .semicolon :: k)))) k
      (·.unlined = ⟨name, type, isExtern, align, dims, init, 0⟩) := by
    intro n
    refine .step (reads_alignment hv.align nofun) (reads_dataType.step (reads_identifier.step ?_))
    refine .step (reads_dimensions hv.dims ?_) (.step (reads_initialValues nofun) (.expectSign (.pure rfl)))
    cases init <;> nofun
  unfold StateVariable.spelling
  rw [append_assoc, append_assoc, cons_append, cons_append, append_assoc,
    append_assoc]
  refine .line fun n => ?_
  cases isExtern with
  | true => exact .eat (hrest n)
  | false =>
    refine .notEat ?_ (hrest n)
    cases align <;> nofun

theorem reads_parameter {p} (hp : p.Writable) : Reads parameter (p.spelling ++ k) k (· = p) := by
  unfold Parameter.spelling
  rw [cons_append, append_assoc]
  refine reads_dataType.step (.step (reads_binding hp ?_) (reads_identifier.step (.pure rfl)))
  nofun

theorem reads_routineKind {kind} (h : kind.Writable) : Reads routineKind (kind.spelling ++ k) k (· = kind) := by
  cases kind with
  | function | template => exact .peek (.advance (.pure rfl))
  | command index => exact .peek (.advance (.expectSign ((reads_word h).step (.expectSign (.pure rfl)))))

theorem reads_routineBody {body} (h : ∀ b, body = some b → writableBlock b) :
    Reads routineBody (spellBody body ++ k) k (·.map unlinedBlock = body.map unlinedBlock) := by
  cases body with
  | none => exact .eat (.pure rfl)
  | some body =>
    have hbody := h body rfl
    refine .notEat nofun (.get fun tokens hlength => ?_)
    rw [spellBody, length_append, length_spellBraces] at hlength
    refine (reads_block hbody (readsStatements_of_writable hbody) (by omega)).bind fun b hb => .pure ?_
    rw [Option.map_some, Option.map_some, hb]

theorem reads_routine {r : Routine} (hr : r.Writable) : Reads routine (r.spelling ++ k) k (·.unlined = r.unlined) := by
  obtain ⟨kind, name, params, body, markers, line⟩ := r
  unfold Routine.spelling
  rw [append_assoc, append_assoc, cons_append, cons_append, append_assoc]
  refine (reads_markers ?_ ?_).step (.line fun n => ?_)
  · cases kind <;> nofun
  · cases kind <;> nofun
  refine (reads_routineKind hr.kind).step (reads_identifier.step (.expectSign ?_))
  refine .step (reads_listed (by decide) (fun p _ => ⟨_, _, rfl, nofun⟩) fun p hp s k' _ => ?_) ?_
  · exact reads_parameter (hr.params p hp)
  · refine (reads_routineBody hr.body).bind fun b hb => .pure ?_
    simp only [Routine.unlined, hb]

theorem reads_stateBlock {state : List StateVariable} (h : ∀ v ∈ state, v.Writable) :
    Reads stateBlock (.keyword .stateKw :: (spellBraces (state.flatMap StateVariable.spelling) ++ k)) k
      (·.map StateVariable.unlined = state.map StateVariable.unlined) := by
  unfold spellBraces
  rw [cons_append, append_assoc]
  refine .step (a := ()) (.peek (.advance (.pure rfl))) (.expectSign ?_)
  refine reads_manyUntil StateVariable.unlined StateVariable.unlined (fun v _ => ?_) fun v rest hv => ?_
  · obtain ⟨name, type, isExtern, align, dims, init, line⟩ := v
    cases isExtern with
    | true => exact ⟨.keyword .externKw, _, rfl, nofun⟩
    | false =>
      cases align with
      | some n => exact ⟨.keyword .alignasKw, _, rfl, nofun⟩
      | none => exact ⟨.type type, _, rfl, nofun⟩
  · exact reads_stateVariable (h v (hv.mem (.head _)))

theorem reads_routines {routines : List Routine} (h : ∀ r ∈ routines, r.Writable)
    (hk : k.headD .eof = .eof ∨ k.headD .eof = .keyword .includeKw) :
    Reads (many (fun k => k ≠ .eof && k ≠ .keyword .includeKw) routine) (routines.flatMap Routine.spelling ++ k) k
      (·.map Routine.unlined = routines.map Routine.unlined) := by
  refine reads_many Routine.unlined Routine.unlined ?_ (fun r _ => ?_) fun r rest hr => ?_
  · rcases hk with hk | hk
    · rw [hk]
      rfl
    · rw [hk]
      rfl
  · obtain ⟨kind, name, params, body, markers, line⟩ := r
    cases markers with
    | cons m ms => exact ⟨.sign .atSign, _, rfl, rfl⟩
    | nil => cases kind <;> exact ⟨_, _, rfl, rfl⟩
  · exact reads_routine (h r (hr.mem (.head _)))

theorem reads_program {p : Program} (hp : p.Writable) : Reads program p.spelling [.eof] (·.unlined = p.unlined) := by
  obtain ⟨includes, state, routines, trailing⟩ := p
  refine .step (reads_includes nofun) (.peek ?_)
  refine .bind (reads_stateBlock hp.state) fun vs hvs => ?_
  refine .bind (reads_routines hp.routines ?_) fun rs hrs => ?_
  · cases trailing with
    | nil => exact .inl rfl
    | cons => exact .inr rfl
  refine .step (reads_includes nofun) (.peek (.pure ?_))
  simp only [Program.unlined, hvs, hrs]

end Microcode.Parser
