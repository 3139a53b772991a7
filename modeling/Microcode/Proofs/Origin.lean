import Microcode.Proofs.Reading.Writable
import Microcode.Proofs.Translation

/-!
The statements that lines come from.

A program is brought into plain form before it is lowered, and the plain form no longer shows where a
statement was written: a chain of assignments was one, and a block may have been the call of a macro.
`Issued` goes back to the source.
-/

namespace Microcode

open List Statement Instruction ScopeStack

def Action.isAlias : Action → Bool
  | .declareAlias .. => true
  | _ => false

def NamesOnce (body : List Statement) : Prop := everyIn (fun a => a.isAlias = false) (fun _ => True) body

def Program.NamesOnce (p : Program) : Prop := ∀ r ∈ p.routines, ∀ body, r.body = some body → Microcode.NamesOnce body

variable {p : Program} {tag : Tag} {a : Action} {state : List String} {actions : List Action}
  {out body : List Statement}

theorem Program.namesOnce_ofTokens {tokens} (h : Program.ofTokens tokens = .ok p) : p.NamesOnce := by
  obtain ⟨⟨p, rest⟩, hread, rfl⟩ := map_eq_ok.mp h
  have hp : p.Writable := Parser.gives_program tokens hread
  refine hp.every (fun a ha => ?_) fun _ _ => trivial
  cases a with
  | declareAlias => exact ha.elim
  | _ => rfl

theorem Statement.alias?_of_isAlias (h : a.isAlias = false) : (action tag a).alias? = none := by
  cases a with
  | declareAlias => cases h
  | _ => rfl

theorem Action.isAlias_of_plain (ha : a.isAlias = false) (h : a.plain state = .ok actions) :
    ∀ b ∈ actions, b.isAlias = false := by
  intro b hb
  cases Action.standsFor_of_plain h b hb with
  | self => exact ha
  | _ => rfl

section
variable {s : Surroundings} {d : Nat}
variable {st : Statement} {names : List Statement} {line : Nat} {args : List CallArg}

theorem StandsFor.alias? {piece : Piece} (h : StandsFor s d piece out)
    (hpiece : piece.Every (fun a => a.isAlias = false) (fun _ => True)) : ∀ t ∈ out, t.alias? = none := by
  induction h with
  | nil => simp
  | cons _ _ _ ih ih' => exact forall_mem_append.mpr ⟨ih hpiece.1, ih' hpiece.2⟩
  | actions hcall hactions =>
    exact forall_mem_map.mpr fun b hb => alias?_of_isAlias (Action.isAlias_of_plain hpiece hactions b hb)
  | _ => exact forall_mem_singleton.mpr rfl

theorem leadingAliases_eq_nil (h : ∀ t ∈ body, t.alias? = none) : leadingAliases body = [] := by
  cases body with
  | nil => rfl
  | cons t rest => simp [leadingAliases, h t]

theorem withoutAliases_eq_self (h : ∀ t ∈ body, t.alias? = none) : withoutAliases body = body := by
  cases body with
  | nil => rfl
  | cons t rest => simp [withoutAliases, h t]

theorem leadingAliases_append (hnames : ∀ t ∈ names, t.alias?.isSome) (hbody : ∀ t ∈ body, t.alias? = none) :
    leadingAliases (names ++ body) = leadingAliases names := by
  induction names with
  | nil => exact leadingAliases_eq_nil hbody
  | cons t rest ih =>
    obtain ⟨a, ha⟩ := Option.isSome_iff_exists.mp (hnames t (by simp))
    simp [leadingAliases, ha, ih fun u hu => hnames u (by simp [hu])]

theorem withoutAliases_append (hnames : ∀ t ∈ names, t.alias?.isSome) (hbody : ∀ t ∈ body, t.alias? = none) :
    withoutAliases (names ++ body) = body := by
  induction names with
  | nil => exact withoutAliases_eq_self hbody
  | cons t rest ih => simp [withoutAliases, hnames t (by simp), ih fun u hu => hnames u (by simp [hu])]

theorem alias?_of_aliases {params} (h : aliases state line params args = some names) :
    ∀ t ∈ names, t.alias?.isSome := by
  fun_induction aliases state line params args generalizing names with
  | case1 p params a args ih =>
    simp only [Option.bind_eq_bind, Option.bind_eq_some_iff, Option.pure_def, Option.some.injEq] at h
    obtain ⟨target, -, rest, hrest, rfl⟩ := h
    simpa [alias?] using ih hrest
  | case2 => simp_all

theorem Statement.actions_of_plain (hcall : ∀ name args, a = .call name args → s.template? name = none)
    (h : (action tag a).plain s (expander s d) = .ok out) :
    ∃ actions, a.plain s.state = .ok actions ∧ out = actions.map (.action tag) := by
  cases standsFor_of_plain h with
  | expanded hm => exact absurd (hcall _ _ rfl) (by simp [hm])
  | call => exact ⟨_, rfl, rfl⟩
  | actions _ hactions => exact ⟨_, hactions, rfl⟩

end

/-! ### The description -/

/-- Lines that are emitted in a row for one statement and for none inside it. -/
structure Emission where
  /-- The statement and those around it, the innermost first. -/
  path : List Statement
  /-- The scopes that the statement starts with. -/
  scopes : ScopeStack
  lines : List Line

def emitted (emissions : List Emission) : List Line := emissions.flatMap Emission.lines

@[simp] theorem emitted_nil : emitted [] = [] := rfl

@[simp] theorem emitted_cons (e : Emission) (rest : List Emission) :
    emitted (e :: rest) = e.lines ++ emitted rest := flatMap_cons

@[simp] theorem emitted_append (front rest : List Emission) :
    emitted (front ++ rest) = emitted front ++ emitted rest := flatMap_append

def afterAll (σ : ScopeStack) (body : List Statement) : ScopeStack := body.foldl (fun σ s => s.after σ) σ

/-- What is emitted for a piece of a body as it is written, inside of the statements of a path.  Macros may
still be expanded to a depth; frame, scopes and numbers are those of `Translated`, but that the frame is the
one around the piece. -/
inductive Issued (s : Surroundings) : Nat → List Statement → Frame → ScopeStack → Nat → Piece →
    List Emission → Nat → Prop
  | nil {d path f σ n} : Issued s d path f σ n (.all []) [] n
  | cons {d path f σ n first out rest es m more k} (hplain : first.plain s (expander s d) = .ok out)
      (hfirst : Issued s d path f σ n (.one first) es m)
      (hrest : Issued s d path f (afterAll σ out) m (.all rest) more k) :
      Issued s d path f σ n (.all (first :: rest)) (es ++ more) k
  | block {d path f σ n tag body es m}
      (hbody : Issued s d (.block tag body :: path) (f.marked tag.markers) σ.push n (.all body) es m) :
      Issued s d path f σ n (.one (.block tag body)) es m
  | branch (line : Nat) {d path f g σ n tag c yes test es m st} (hst : st = .branch tag c yes none)
      (hg : g = f.marked tag.markers)
      (htest : branchIf σ (c.resolve s.state).negate (labelName n) = .ok test)
      (hyes : Issued s d (st :: path) g σ.push (n + 1) (.all yes) es m) :
      Issued s d path f σ n (.one st) (⟨st :: path, σ, f.comment st ++ stamped ⟨line, g.barrier⟩ test⟩ :: es
          ++ [⟨st :: path, σ, [.label (labelName n)]⟩]) m
  | branchElse (line line' : Nat) {d path f g σ n tag c yes no test es m es' k st}
      (hst : st = .branch tag c yes (some no)) (hg : g = f.marked tag.markers)
      (htest : branchIf σ (c.resolve s.state).negate (labelName n) = .ok test)
      (hyes : Issued s d (st :: path) g σ.push (n + 2) (.all yes) es m)
      (hno : Issued s d (st :: path) g σ.push m (.all no) es' k) :
      Issued s d path f σ n (.one st) (⟨st :: path, σ, f.comment st ++ stamped ⟨line, g.barrier⟩ test⟩ :: es
          ++ ⟨st :: path, σ, stamped ⟨line', g.barrier⟩ (jump .j (labelName (n + 1)))
            ++ [.label (labelName n)]⟩ :: es'
          ++ [⟨st :: path, σ, [.label (labelName (n + 1))]⟩]) k
  | whileLoop (line line' : Nat) {d path f g σ n tag c body test es m st} (hst : st = .whileLoop tag c body)
      (hg : g = f.marked tag.markers)
      (htest : branchIf σ (c.resolve s.state).negate (labelName (n + 1)) = .ok test)
      (hbody : Issued s d (st :: path) { g with innermost := some ⟨labelName n, labelName (n + 1)⟩ } σ.push
        (n + 2) (.all body) es m) :
      Issued s d path f σ n (.one st)
        (⟨st :: path, σ, f.comment st ++ .label (labelName n) :: stamped ⟨line, g.barrier⟩ test⟩ :: es
          ++ [⟨st :: path, σ, stamped ⟨line', g.barrier⟩ (jump .j (labelName n))
            ++ [.label (labelName (n + 1))]⟩]) m
  | loop (line : Nat) {d path f g σ n tag body es m st} (hst : st = .loop tag body none) (hg : g = f.marked tag.markers)
      (hbody : Issued s d (st :: path) { g with innermost := some ⟨labelName n, labelName (n + 1)⟩ } σ.push
        (n + 2) (.all body) es m) :
      Issued s d path f σ n (.one st) (⟨st :: path, σ, f.comment st ++ [.label (labelName n)]⟩ :: es
          ++ [⟨st :: path, σ, stamped ⟨line, g.barrier⟩ (jump .j (labelName n))
            ++ [.label (labelName (n + 1))]⟩]) m
  | loopUntil (line : Nat) {d path f g σ n tag body c test es m st} (hst : st = .loop tag body (some c))
      (hg : g = f.marked tag.markers) (htest : branchIf σ (c.resolve s.state) (labelName n) = .ok test)
      (hbody : Issued s d (st :: path) { g with innermost := some ⟨labelName (n + 1), labelName (n + 2)⟩ }
        σ.push (n + 3) (.all body) es m) :
      Issued s d path f σ n (.one st) (⟨st :: path, σ, f.comment st ++ [.label (labelName n)]⟩ :: es
          ++ [⟨st :: path, σ, .label (labelName (n + 1)) :: stamped ⟨line, g.barrier⟩ test
            ++ [.label (labelName (n + 2))]⟩]) m
  | expanded {d path f σ n tag name args template names body es m} (htemplate : s.template? name = some template)
      (hnames : template.instantiate s.state args tag.line = .ok (names, body))
      (hbody : Issued s d (.action tag (.call name args) :: path) f (σ.enter names) n (.all body) es m) :
      Issued s (d + 1) path f σ n (.one (.action tag (.call name args))) es m
  | action {d path f σ n tag a out lines m} (htemplate : ∀ name args, a = .call name args → s.template? name = none)
      (hplain : (Statement.action tag a).plain s (expander s d) = .ok out)
      (hlines : Translated f σ n (.all out) lines m) :
      Issued s d path f σ n (.one (.action tag a)) [⟨.action tag a :: path, σ, lines⟩] m

section
variable {s : Surroundings} {f : Frame} {σ : ScopeStack} {n k : Nat} {lines : List Line}

theorem Translated.split {front rest} (h : Translated f σ n (.all (front ++ rest)) lines k) :
    ∃ lines₁ m lines₂, Translated f σ n (.all front) lines₁ m ∧
      Translated f (afterAll σ front) m (.all rest) lines₂ k ∧ lines = lines₁ ++ lines₂ := by
  induction front generalizing σ n lines with
  | nil => exact ⟨[], n, lines, .nil h.proper, h, rfl⟩
  | cons t front ih =>
    cases h with
    | @cons _ _ _ _ _ lines m more _ hσ hfirst hrest =>
      obtain ⟨lines₁, m', lines₂, hfront, hback, rfl⟩ := ih hrest
      refine ⟨_, m', lines₂, .cons hσ hfirst hfront, hback, ?_⟩
      simp only [append_assoc]

theorem Translated.single {t} (h : Translated f σ n (.all [t]) lines k) :
    ∃ code, Translated (f.marked t.tag.markers) σ n (.one t) code k ∧ lines = f.comment t ++ code := by
  cases h with
  | cons _ hfirst hrest =>
    cases hrest
    exact ⟨_, hfirst, by simp⟩

def IsIssued (s : Surroundings) (d : Nat) (f : Frame) (σ : ScopeStack) (n : Nat) (piece : Piece)
    (lines : List Line) (k : Nat) : Prop :=
  ∀ path, ∃ es, Issued s d path f σ n piece es k ∧ emitted es = lines

variable {d : Nat} {piece : Piece}

theorem Translated.pushed (h : Translated f (σ.enter out) n (.all (withoutAliases out)) lines k)
    (hout : StandsFor s d (.all body) out) (hbody : NamesOnce body) : Translated f σ.push n (.all out) lines k := by
  have halias := hout.alias? hbody
  rw [withoutAliases_eq_self halias, enter, leadingAliases_eq_nil halias] at h
  exact h

theorem StandsFor.isIssued (htemplates : ∀ m ∈ s.macros, ∀ body, m.body = some body → NamesOnce body)
    (h : StandsFor s d piece out) (hpiece : piece.Every (fun a => a.isAlias = false) (fun _ => True))
    (htranslated : Translated f σ n (.all out) lines k) : IsIssued s d f σ n piece lines k := by
  intro path
  induction h generalizing f σ n k lines path with
  | nil =>
    cases htranslated
    exact ⟨[], .nil, rfl⟩
  | cons hplain _ _ ih ih' =>
    obtain ⟨lines₁, m, lines₂, h₁, h₂, rfl⟩ := htranslated.split
    obtain ⟨es, hes, rfl⟩ := ih hpiece.1 h₁ path
    obtain ⟨es', hes', rfl⟩ := ih' hpiece.2 h₂ path
    exact ⟨es ++ es', .cons hplain hes hes', by simp⟩
  | block hbody ih =>
    obtain ⟨code, hcode, rfl⟩ := htranslated.single
    cases hcode with
    | block hin =>
      obtain ⟨es, hes, rfl⟩ := ih hpiece (hin.pushed hbody hpiece) _
      exact ⟨es, .block hes, by simp [Frame.comment, isBlock]⟩
  | branch hyes ih =>
    obtain ⟨code, hcode, rfl⟩ := htranslated.single
    cases hcode with
    | @branch _ _ _ _ _ _ _ line _ _ htest hin =>
      obtain ⟨es, hes, rfl⟩ := ih hpiece.2.1 (hin.pushed hyes hpiece.2.1) _
      refine ⟨_, .branch line rfl rfl htest hes, ?_⟩
      simp [Frame.comment, isBlock, Statement.line, Statement.tag]
  | branchElse hyes hno ih ih' =>
    obtain ⟨code, hcode, rfl⟩ := htranslated.single
    cases hcode with
    | @branchElse _ _ _ _ _ _ _ _ line _ _ line' _ _ htest hin hin' =>
      obtain ⟨es, hes, rfl⟩ := ih hpiece.2.1 (hin.pushed hyes hpiece.2.1) _
      obtain ⟨es', hes', rfl⟩ := ih' hpiece.2.2 (hin'.pushed hno hpiece.2.2) _
      refine ⟨_, .branchElse line line' rfl rfl htest hes hes', ?_⟩
      simp [Frame.comment, isBlock, Statement.line, Statement.tag]
  | whileLoop hbody ih =>
    obtain ⟨code, hcode, rfl⟩ := htranslated.single
    cases hcode with
    | @whileLoop _ _ _ _ _ _ _ line _ line' _ htest hin =>
      obtain ⟨es, hes, rfl⟩ := ih hpiece.2 (hin.pushed hbody hpiece.2) _
      refine ⟨_, .whileLoop line line' rfl rfl htest hes, ?_⟩
      simp [Frame.comment, isBlock, Statement.line, Statement.tag]
  | @loop _ _ _ _ c hbody ih =>
    obtain ⟨code, hcode, rfl⟩ := htranslated.single
    cases c with
    | none =>
      cases hcode with
      | @loop _ _ _ _ _ _ line _ hin =>
        obtain ⟨es, hes, rfl⟩ := ih hpiece.1 (hin.pushed hbody hpiece.1) _
        refine ⟨_, .loop line rfl rfl hes, ?_⟩
        simp [Frame.comment, isBlock, Statement.line, Statement.tag]
    | some c =>
      cases hcode with
      | @loopUntil _ _ _ _ _ _ _ _ line _ htest hin =>
        obtain ⟨es, hes, rfl⟩ := ih hpiece.1 (hin.pushed hbody hpiece.1) _
        refine ⟨_, .loopUntil line rfl rfl htest hes, ?_⟩
        simp [Frame.comment, isBlock, Statement.line, Statement.tag]
  | expanded hm hnames hbody ih =>
    obtain ⟨-, haliases, hwritten⟩ := Routine.instantiate_cases hnames
    have honce := htemplates _ (Surroundings.mem_of_template? hm) _ hwritten
    have hsecond := alias?_of_aliases haliases
    have hnone := hbody.alias? honce
    obtain ⟨code, hcode, rfl⟩ := htranslated.single
    cases hcode with
    | block hin =>
      rw [withoutAliases_append hsecond hnone, enter, leadingAliases_append hsecond hnone] at hin
      obtain ⟨es, hes, rfl⟩ := ih honce hin _
      exact ⟨es, .expanded hm hnames hes, by simp [Frame.comment, isBlock]⟩
  | call hnone =>
    refine ⟨_, .action ?_ (by simp only [plain, hnone]) htranslated, by simp⟩
    rintro _ _ ⟨⟩
    exact hnone
  | actions hcall hactions =>
    exact ⟨_, .action (fun name args h => absurd h (hcall name args)) (by rw [plain_action hcall, hactions]) htranslated,
      by simp⟩

theorem Issued.exists_action {path} {piece : Piece} {es}
    (h : Issued s d path f σ n piece es k) {e} (he : e ∈ es) {around}
    (hpath : e.path = .action tag a :: around) : ∃ f n actions k,
      a.plain s.state = .ok actions ∧ Translated f e.scopes n (.all (actions.map (.action tag))) e.lines k := by
  induction h with
  | nil => cases he
  | cons _ _ _ ih ih' =>
    rcases mem_append.mp he with he | he
    · exact ih he
    · exact ih' he
  | block _ ih => exact ih he
  | branch line hst _ _ _ ih | whileLoop line line' hst _ _ _ ih | loop line hst _ _ ih
  | loopUntil line hst _ _ _ ih =>
    subst hst
    simp only [cons_append, mem_cons, mem_append, not_mem_nil, or_false] at he
    rcases he with rfl | he | rfl
    · cases hpath
    · exact ih he
    · cases hpath
  | branchElse line line' hst _ _ _ _ ih ih' =>
    subst hst
    simp only [cons_append, mem_cons, mem_append, not_mem_nil, or_false] at he
    rcases he with rfl | (he | rfl | he) | rfl
    · cases hpath
    · exact ih he
    · cases hpath
    · exact ih' he
    · cases hpath
  | expanded _ _ _ ih => exact ih he
  | action htemplate hplain hlines =>
    cases mem_singleton.mp he
    cases hpath
    obtain ⟨actions, hactions, rfl⟩ := actions_of_plain htemplate hplain
    exact ⟨_, _, actions, _, hactions, hlines⟩

def Action.assignment? : Action → Option Assignment
  | .assign a => some a
  | .declareInit d value => some ⟨d.name, none, none, value, true⟩
  | _ => none

def Action.inside (σ : ScopeStack) : Action → ScopeStack
  | .declareInit d _ => (Action.declare d).after σ
  | _ => σ

theorem Translated.exists_assignment {b : Action} {a} (ha : b.assignment? = some a)
    (hplain : b.plain state = .ok actions) (h : Translated f σ n (.all (actions.map (.action tag))) lines k) :
    ∃ steps front more m, a.plain state = .ok steps ∧
      Translated f (b.inside σ) m (.all (steps.map fun a => .action tag (.assign a))) more k ∧
      lines = front ++ more ∧ ∀ l ∈ front, l.isComment := by
  cases b with
  | assign a' =>
    cases ha
    obtain ⟨steps, hsteps, hplain⟩ := bind_eq_ok.mp hplain
    cases hplain
    rw [map_map] at h
    exact ⟨steps, [], lines, n, hsteps, h, rfl, by simp⟩
  | declareInit d value =>
    cases ha
    obtain ⟨steps, hsteps, hplain⟩ := bind_eq_ok.mp hplain
    cases hplain
    rw [map_cons, map_map] at h
    cases h with
    | cons _ hfirst hrest =>
      cases hfirst with
      | declaration _ =>
        refine ⟨steps, _, _, _, hsteps, hrest, rfl, ?_⟩
        simpa using Frame.isComment_of_mem_comment f _
      | selected hcode => cases hcode
  | _ => cases ha

end

/-- The code of a routine with a body, as the program that it is written in has it: what is emitted for the
statements of the body, and a return unless the end is never reached. -/
structure Routine.Emits (p : Program) (o : Options) (r : Routine) (body : List Statement) (code : Code)
    (es : List Emission) (leave : List Line) : Prop where
  notMacro : r.kind ≠ .template
  hasBody : r.body = some body
  name : code.name = r.name
  lines : code.lines = emitted es ++ leave
  issued : ∃ signatures plain first last, Issued p.surroundings macroDepth [] (r.frame o signatures plain)
    (withParameters {} 0 r.params).push first (.all body) es last
  leaves : leave = [] ∨ ∃ line, leave = stamped ⟨line, none⟩ (returnCode r.command?.isSome)

theorem Routine.Leaves.cases {r : Routine} {leave} (h : r.Leaves body leave) :
    leave = [] ∨ ∃ line, leave = stamped ⟨line, none⟩ (returnCode r.command?.isSome) := by
  cases h with
  | closed => exact .inl rfl
  | returns line => exact .inr ⟨line, rfl⟩

theorem Program.NamesOnce.emits {q : Program} (hp : p.NamesOnce) (hplain : p.plain = .ok q) {o}
    {codes : List Code} {warnings} (hlower : q.lower o = .ok (codes, warnings)) {code : Code}
    (hcode : code ∈ codes) : ∃ r ∈ p.routines, ∃ body es leave, r.Emits p o body code es leave := by
  obtain ⟨made, htranslated⟩ := Program.translated_of_lower hlower
  obtain ⟨r', hr', body', hbody', first, last, hr⟩ := htranslated.routines.exists_routine hcode
  obtain ⟨routines, hroutines, hq⟩ := bind_eq_ok.mp hplain
  cases hq
  obtain ⟨r, hmem, hrplain⟩ := exists_of_mapM hroutines r' hr'
  obtain ⟨hr₀, hkind⟩ := mem_filter.mp hmem
  obtain ⟨hnone, rfl⟩ | ⟨body, plain, hbody, hblock, rfl⟩ := Program.plainRoutine_cases hrplain
  · rw [hnone] at hbody'
    cases hbody'
  · cases hbody'
    have honce := hp r hr₀ body hbody
    have hstands := standsFor_of_plainBlock hblock
    obtain ⟨lines, leave, hlines, hleave, hcode⟩ := hr.lines
    obtain ⟨es, hes, rfl⟩ := hstands.isIssued (fun m hm => hp m (mem_filter.mp hm).1) honce
      (hlines.pushed hstands honce) []
    exact ⟨r, hr₀, body, es, leave, by simpa using hkind, hbody, hr.name, hcode, ⟨_, _, _, _, hes⟩, hleave.cases⟩

end Microcode
