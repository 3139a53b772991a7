import Microcode.Compiler
import Microcode.Proofs.Occurrence

/-!
No compilation fails by a defect of the compiler.

Lowering refuses what the plain form does not have, and the passes refuse branches that they cannot turn
round and slots that are missing.  None of that happens.
-/

namespace Microcode

variable {α β γ δ ε : Type} {gaps : Prop} {m' n' : Lower β} {state : List String}
  {macros routines : List Routine} {s : Surroundings} {front rest : List Warning}

open List Line Program Microcode.Frame

variable {m : Lower α} {a : α} {P : α → Prop}

/-! ### What lowering may do -/

def WarnsOf (warnings : List Warning) (n : Nat) : Prop := ∃ w ∈ warnings, w.concern = .unusedCommand n

theorem warnsOf_append {n : Nat} : WarnsOf (front ++ rest) n ↔ WarnsOf front n ∨ WarnsOf rest n := by
  simp [WarnsOf, or_and_right, exists_or]

variable {fault : Fault} {q : Program} {codes : List Code}

namespace Lower

variable {f : α → Lower β}

/-- From there, the step fails by a fault of the program, or succeeds and warns of unused indices only where
that is allowed. -/
def BehavesAt (gaps : Prop) (m : Lower α) (p : Progress) : Prop := match m p with
  | .ok (_, q) => gaps ∨ ∀ n, WarnsOf q.session.warnings n ↔ WarnsOf p.session.warnings n
  | .error e => ∃ fault site, e = .semantic fault site

def Behaves (gaps : Prop) (m : Lower α) : Prop := ∀ p, BehavesAt gaps m p

namespace Behaves

theorem pure : Behaves gaps (pure a) := fun _ => .inr fun _ => .rfl

theorem bindFrom (hm : Behaves gaps m) (hgives : ∀ p, GivesFrom m p fun a _ => P a)
    (hf : ∀ a, P a → Behaves gaps (f a)) : Behaves gaps (m >>= f) := by
  intro p
  have hfirst := hm p
  have hrun : (m >>= f) p = (m p >>= fun r => f r.1 r.2) := rfl
  unfold BehavesAt at hfirst ⊢
  rw [hrun]
  cases hm : m p with
  | error e =>
    rw [hm] at hfirst
    exact hfirst
  | ok r =>
    rw [hm] at hfirst
    have hrest := hf r.1 (hgives p hm) r.2
    unfold BehavesAt at hrest
    show match f r.1 r.2 with
      | .ok (_, q) => gaps ∨ ∀ n, WarnsOf q.session.warnings n ↔ WarnsOf p.session.warnings n
      | .error e => ∃ fault site, e = .semantic fault site
    split at hrest
    · rcases hfirst with hgaps | hfirst
      · exact .inl hgaps
      · exact hrest.imp_right fun hrest n => (hrest n).trans (hfirst n)
    · exact hrest

theorem bind (hm : Behaves gaps m) (hf : ∀ a, Behaves gaps (f a)) : Behaves gaps (m >>= f) :=
  bindFrom (P := fun _ => True) hm (fun _ _ _ _ => trivial) fun a _ => hf a

theorem get {f : Progress → Lower β} (h : ∀ p, BehavesAt gaps (f p) p) : Behaves gaps (get >>= f) := h

theorem fail : Behaves gaps (fail fault : Lower α) := fun _ => ⟨fault, _, rfl⟩

theorem failed : Behaves gaps (Lower.fail fault >>= f) := fun _ => ⟨fault, _, rfl⟩

variable {g : Progress → Progress}

theorem modify (h : ∀ p, (g p).session.warnings = p.session.warnings) : Behaves gaps (modify g : Lower Unit) :=
  fun p => .inr fun n => iff_of_eq (congrArg (WarnsOf · n) (h p))

variable {g : Session → Session}

theorem modifySession (h : ∀ s : Session, (g s).warnings = s.warnings) :
    Behaves gaps (modifySession g) := modify fun p => h p.session

variable {g : ScopeStack → ScopeStack}

theorem modifyScopes : Behaves gaps (modifyScopes g) := modify fun _ => rfl

theorem warn {c} (h : ∀ n, c = .unusedCommand n → gaps) : Behaves gaps (Lower.modifySession (·.warn c)) := by
  intro p
  by_cases hgaps : gaps
  · exact .inl hgaps
  · refine .inr fun n => warnsOf_append.trans (or_iff_left ?_)
    rintro ⟨w, hw, hconcern⟩
    rw [mem_singleton.mp hw] at hconcern
    exact hgaps (h n hconcern)

variable {x : Except Fault α}

theorem checked : Behaves gaps (checked x) := by
  cases x with
  | ok a => exact .pure
  | error fault => exact .fail

theorem scopes : Behaves gaps scopes := fun _ => .inr fun _ => .rfl

variable {g : ScopeStack → Except ScopeError Unit × ScopeStack}

theorem changeScopes : Behaves gaps (changeScopes g) := by
  refine get fun p => ?_
  split
  · exact .inr fun _ => .rfl
  · exact fail p

theorem freshLabel : Behaves gaps freshLabel := fun _ => .inr fun _ => .rfl

end Behaves
end Lower

/-! ### What comments change -/

def bare (lines : List Line) : List Line := (stripComments lines).lines

def Code.bare (c : Code) : Code := { c with lines := Microcode.bare c.lines }

def Frame.uncommented (f : Frame) : Frame := { f with comments := false }

@[simp] theorem bare_nil : bare [] = [] := rfl

@[simp] theorem bare_append (a b : List Line) : bare (a ++ b) = bare a ++ bare b := filter_append a b

@[simp] theorem bare_bare (lines : List Line) : bare (bare lines) = bare lines := by simp [bare, stripComments]

@[simp] theorem bare_label (name : String) (rest : List Line) :
    bare (.label name :: rest) = .label name :: bare rest := rfl

@[simp] theorem bare_raw (text : String) (rest : List Line) : bare (.raw text :: rest) = .raw text :: bare rest :=
  rfl

theorem bare_ops (code : List Instruction) (f : Instruction → Instruction) :
    bare (code.map fun i => .op (f i)) = code.map fun i => .op (f i) := by
  induction code with
  | nil => rfl
  | cons i code ih => exact congrArg (op (f i) :: ·) ih

namespace Lower

variable {f : α → Lower γ} {f' : β → Lower δ} {g : α → β} {h : γ → δ}

/-- The first step behaves, and the second does what it does and gives the image of what it gives. -/
structure Mirrors (gaps : Prop) (g : α → β) (m : Lower α) (m' : Lower β) : Prop where
  behaves : Behaves gaps m
  image : m' = g <$> m

namespace Mirrors

theorem bindFrom (hm : Mirrors gaps g m m') (hgives : ∀ p, GivesFrom m p fun a _ => P a)
    (hf : ∀ a, P a → Mirrors gaps h (f a) (f' (g a))) : Mirrors gaps h (m >>= f) (m' >>= f') := by
  refine ⟨.bindFrom hm.behaves hgives fun a ha => (hf a ha).behaves, ?_⟩
  rw [hm.image, bind_map_left, map_bind]
  funext p
  show (m p >>= fun r => f' (g r.1) r.2) = (m p >>= fun r => (h <$> f r.1) r.2)
  cases hr : m p with
  | error e => rfl
  | ok r => exact congrFun (hf r.1 (hgives p hr)).image r.2

theorem bind (hm : Mirrors gaps g m m') (hf : ∀ a, Mirrors gaps h (f a) (f' (g a))) :
    Mirrors gaps h (m >>= f) (m' >>= f') :=
  bindFrom (P := fun _ => True) hm (fun _ _ _ _ => trivial) fun a _ => hf a

theorem same {f'} (hm : Behaves gaps m) (hf : ∀ a, Mirrors gaps h (f a) (f' a)) : Mirrors gaps h (m >>= f) (m >>= f') :=
  bind (g := id) ⟨hm, (id_map m).symm⟩ hf

theorem pure {b : β} (h : b = g a) : Mirrors gaps g (pure a) (pure b) := ⟨.pure, by rw [map_pure, h]⟩

theorem fail : Mirrors gaps g (fail fault) (fail fault) := ⟨.fail, rfl⟩

theorem failed {f' : α → Lower δ} : Mirrors gaps h (Lower.fail fault >>= f) (Lower.fail fault >>= f') := ⟨.failed, rfl⟩

theorem ite {c : Prop} [Decidable c] {n} (hm : Mirrors gaps g m m')
    (hn : Mirrors gaps g n n') : Mirrors gaps g (if c then m else n) (if c then m' else n') := by
  split
  · exact hm
  · exact hn

variable {frame : Frame}
variable {code : List Instruction}

theorem emit : Mirrors gaps bare (emit frame code) (emit frame.uncommented code) := by
  refine ⟨fun _ => .inr fun _ => .rfl, funext fun p => ?_⟩
  exact congrArg (fun lines => Except.ok (lines, p)) (bare_ops code _).symm

variable {code : ScopeStack → Except Fault (List Instruction)}

theorem emitChecked : Mirrors gaps bare (emitChecked frame code) (emitChecked frame.uncommented code) :=
  same .scopes fun _ => same .checked fun _ => emit

theorem emitReturn : Mirrors gaps bare (emitReturn frame) (emitReturn frame.uncommented) := ite emit emit

end Mirrors
end Lower

open Lower

def Frame.HasNoMacro (f : Frame) : Prop := ∀ name s, f.signatures.lookup name = some s → s.kind ≠ .template

section

theorem checkReserved_behaves (registers : List Register) : (checkReserved registers).Behaves gaps := by
  induction registers with
  | nil => exact .pure
  | cons r rest ih =>
    have hreturn : Behaves gaps (do
        if r = .returnAddress then modifySession (·.warn (.callRegister r))
        checkReserved rest) := by
      split
      · exact .bind (.warn (by simp)) fun _ => ih
      · exact ih
    unfold checkReserved
    dsimp only
    split
    · exact .failed
    · split
      · exact .bind (.warn (by simp)) fun _ => hreturn
      · exact hreturn

theorem declareVariable_behaves (name : String) (type : DataType) (binding : Option Binding)
    (isConst : Bool) : (declareVariable name type binding isConst).Behaves gaps := by
  have hdeclare (r : Register) : Behaves gaps (do
      checkReserved (Variable.mk r type isConst).registers
      changeScopes (·.declare name ⟨r, type, isConst⟩ false)) :=
    .bind (checkReserved_behaves _) fun _ => .changeScopes
  unfold declareVariable
  split
  · exact .bind .checked hdeclare
  · exact .bind .scopes fun _ => .bind .checked hdeclare

section
variable {f : Frame}

theorem lowerAssignment_mirrors {a : Assignment} (h : a.IsPlain state) :
    Mirrors gaps bare (lowerAssignment f a) (lowerAssignment f.uncommented a) := by
  unfold lowerAssignment
  rw [h.op]
  refine .same .scopes fun scopes => .same .checked fun v => .ite .failed (.ite .failed ?_)
  have hvalue := h.value
  cases hexpr : a.value with
  | call name args swizzle => exact .emitChecked
  | flat parts =>
    rw [hexpr] at hvalue
    exact hvalue.elim
  | choose c yes no =>
    refine .ite .emitChecked (.same .freshLabel fun otherwise => .same .freshLabel fun done => ?_)
    refine .same .scopes fun _ => .same .checked fun choice => ?_
    exact .bind .emit fun _ => .bind .emit fun _ => .pure (by simp)
  | _ => exact .ite .emitChecked .emitChecked

theorem lowerCall_mirrors (hf : f.HasNoMacro) (name : String) (args : List CallArg) :
    Mirrors gaps bare (lowerCall f name args) (lowerCall f.uncommented name args) := by
  unfold lowerCall
  cases Builtin.ofName? name with
  | some b => exact .emitChecked
  | none =>
    dsimp only [uncommented]
    cases hlookup : f.signatures.lookup name with
    | none => exact .fail
    | some signature =>
      obtain ⟨kind, params⟩ := signature
      cases kind with
      | command index => exact .fail
      | template => exact absurd rfl (hf name _ hlookup)
      | function => exact .emitChecked

theorem lowerAction_mirrors (hf : f.HasNoMacro) {a : Action} (h : a.IsPlain macros state) :
    Mirrors gaps bare (lowerAction f a) (lowerAction f.uncommented a) := by
  cases a with
  | declare d => exact .same (declareVariable_behaves _ _ _ _) fun _ => .pure rfl
  | declareInit d value | declareMany names type register isConst => exact h.elim
  | declareAlias name target type =>
    refine .same ?_ fun _ => .pure rfl
    exact .bind .scopes fun scopes => .bind .checked fun v => .changeScopes
  | undefine name => exact .same .changeScopes fun _ => .pure rfl
  | assign a => exact lowerAssignment_mirrors h
  | call name args => exact lowerCall_mirrors hf name args
  | goto target => exact .ite .emit (.ite .emit .fail)
  | label name | asm text => exact .pure rfl
  | breakLoop | continueLoop =>
    unfold lowerAction
    dsimp only [uncommented]
    cases f.innermost with
    | some exits => exact .emit
    | none => exact .fail
  | exit => exact .emitReturn

end

theorem Frame.annotated_mirrors (f : Frame) (isBranch : Bool) (markers : List Marker) :
    Mirrors gaps uncommented (f.annotated isBranch markers) (f.uncommented.annotated isBranch markers) := by
  induction markers generalizing f with
  | nil => exact .pure rfl
  | cons marker markers ih =>
    obtain ⟨kind, value⟩ := marker
    cases kind with
    | barrier =>
      cases value with
      | none => exact .fail
      | some value =>
        cases value with
        | string name => exact ih { f with barrier := some name }
        | int n => exact .fail
    | unlikely =>
      cases value with
      | none => exact .ite (ih f) .fail
      | some value => exact .fail
    | align | noReturn => exact .fail

theorem Frame.enter_mirrors {f : Frame} (hf : f.HasNoMacro) {s rest rest'}
    (h : ∀ g comment, g.HasNoMacro → Mirrors gaps bare (rest (g, comment)) (rest' (g.uncommented, bare comment))) :
    Mirrors gaps bare (f.enter s >>= rest) (f.uncommented.enter s >>= rest') := by
  have hgives (p : Progress) : GivesFrom (f.enter s) p fun r _ => r.1.HasNoMacro := by
    refine .modifySession (.bind (f.givesFrom_annotated _ _ _) fun g _ ⟨hg, _⟩ => .pure ?_)
    rw [hg, f.marked_eq]
    exact hf
  have henter : Mirrors gaps (fun r => (r.1.uncommented, bare r.2)) (f.enter s) (f.uncommented.enter s) := by
    refine .same (.modifySession fun _ => rfl) fun _ => .bind (f.annotated_mirrors _ _) fun g => .pure ?_
    show (g.uncommented, []) = _
    split <;> rfl
  exact .bindFrom henter hgives fun r => h r.1 r.2

theorem lookUpAliases_behaves (body : List Statement) : (lookUpAliases body).Behaves gaps := by
  induction body with
  | nil => exact .pure
  | cons s rest ih =>
    unfold lookUpAliases
    split
    · exact .pure
    · refine .bind (.modifySession fun _ => rfl) fun _ => .bind .scopes fun _ => .bind .checked fun _ => ?_
      exact .bind ih fun _ => .pure

theorem declareAliases_behaves (bound : List (Statement × String × Variable)) :
    (declareAliases bound).Behaves gaps := by
  induction bound with
  | nil => exact .pure
  | cons b rest ih => exact .bind (.modifySession fun _ => rfl) fun _ => .bind .changeScopes fun _ => ih

theorem inScope_mirrors (body : List Statement) {rest rest'} (h : Mirrors gaps bare rest rest') :
    Mirrors gaps bare (inScope body rest) (inScope body rest') := by
  refine .same .modifyScopes fun _ => .same (lookUpAliases_behaves body) fun bound => ?_
  exact .same (declareAliases_behaves bound) fun _ => .bind h fun code => .same .modifyScopes fun _ => .pure rfl

section
variable {C : Comparison → Prop}

mutual

/-- **A statement is lowered without comments as with them**, and the lines are those that are no
comments. -/
theorem Statement.lower_mirrors : ∀ {s : Statement} {f : Frame}, f.HasNoMacro →
    s.Every (Action.IsPlain macros state) C → Mirrors gaps bare (s.lower f) (s.lower f.uncommented)
  | .block tag body, f, hf, h => by
    refine enter_mirrors hf fun g comment hg => ?_
    exact .bind (inScope_mirrors body (lowerStatements_mirrors hg h)) fun code => .pure (by simp)
  | .branch tag condition yes none, f, hf, h => by
    refine enter_mirrors hf fun g comment hg => .same .freshLabel fun done => .bind .emitChecked fun test => ?_
    exact .bind (inScope_mirrors yes (lowerStatements_mirrors hg h.2.1)) fun yes => .pure (by simp)
  | .branch tag condition yes (some no), f, hf, h => by
    refine enter_mirrors hf fun g comment hg => ?_
    refine .same .freshLabel fun otherwise => .same .freshLabel fun done => .bind .emitChecked fun test => ?_
    refine .bind (inScope_mirrors yes (lowerStatements_mirrors hg h.2.1)) fun yes => .bind .emit fun skip => ?_
    exact .bind (inScope_mirrors no (lowerStatements_mirrors hg h.2.2)) fun no => .pure (by simp)
  | .whileLoop tag condition body, f, hf, h => by
    refine enter_mirrors hf fun g comment hg => ?_
    refine .same .freshLabel fun again => .same .freshLabel fun done => .bind .emitChecked fun test => ?_
    have hbody := @lowerStatements_mirrors body { g with innermost := some ⟨again, done⟩ } true hg h.2
    exact .bind (inScope_mirrors body hbody) fun body => .bind .emit fun back => .pure (by simp)
  | .loop tag body none, f, hf, h => by
    refine enter_mirrors hf fun g comment hg => ?_
    refine .same .freshLabel fun start => .same .freshLabel fun done => ?_
    have hbody := @lowerStatements_mirrors body { g with innermost := some ⟨start, done⟩ } true hg h.1
    exact .bind (inScope_mirrors body hbody) fun body => .bind .emit fun back => .pure (by simp)
  | .loop tag body (some condition), f, hf, h => by
    refine enter_mirrors hf fun g comment hg => ?_
    refine .same .freshLabel fun start => .same .freshLabel fun next => .same .freshLabel fun done => ?_
    have hbody := @lowerStatements_mirrors body { g with innermost := some ⟨next, done⟩ } true hg h.1
    exact .bind (inScope_mirrors body hbody) fun body => .bind .emitChecked fun back => .pure (by simp)
  | .action tag a, f, hf, h =>
    enter_mirrors hf fun g comment hg => .bind (lowerAction_mirrors hg h) fun code => .pure (by simp)

theorem lowerStatements_mirrors : ∀ {body : List Statement} {f : Frame} {atStart : Bool}, f.HasNoMacro →
    everyIn (Action.IsPlain macros state) C body →
      Mirrors gaps bare (lowerStatements f atStart body) (lowerStatements f.uncommented atStart body)
  | [], f, atStart, hf, h => .pure rfl
  | s :: rest, f, atStart, hf, h => by
    refine .ite (lowerStatements_mirrors hf h.2) (.bind (Statement.lower_mirrors hf h.1) fun first => ?_)
    exact .bind (lowerStatements_mirrors hf h.2) fun rest => .pure (by simp)

end
end

theorem checkState_behaves (state : List StateVariable) : (checkState state).Behaves gaps := by
  induction state with
  | nil => exact .pure
  | cons v rest ih =>
    refine .bind (.modifySession fun _ => rfl) fun _ => .bind (fun _ => .inr fun _ => .rfl) fun p => ?_
    split
    · exact .failed
    · exact .bind (.modifySession fun _ => rfl) fun _ => ih

theorem checkRoutines_behaves (routines : List Routine) (defined : List String)
    (commands : List (Nat × String)) : (checkRoutines routines defined commands).Behaves gaps := by
  induction routines generalizing defined commands with
  | nil => exact .pure
  | cons r rest ih =>
    refine .bind (.modifySession fun _ => rfl) fun _ => ?_
    split
    · exact ih _ _
    · dsimp only
      split
      · exact .failed
      · split
        · split
          · exact .fail
          · exact ih _ _
        · exact ih _ _

theorem warnUnused_behaves (hgaps : gaps) (commands : List (Nat × String)) : (warnUnused commands).Behaves gaps := by
  unfold warnUnused
  split
  · exact .pure
  · refine .bind (.modifySession fun _ => rfl) fun _ => ?_
    generalize filter _ _ = unused
    induction unused with
    | nil => exact .pure
    | cons i unused ih => exact .bind (.warn fun _ _ => hgaps) fun _ => ih

theorem declareParameters_behaves (position : Nat) (params : List Parameter) :
    (declareParameters position params).Behaves gaps := by
  induction params generalizing position with
  | nil => exact .pure
  | cons p rest ih =>
    unfold declareParameters
    split
    · exact .failed
    · exact .bind (declareVariable_behaves _ _ _ _) fun _ => ih _

variable {signatures : Signatures} (hsignatures : ∀ name t, signatures.lookup name = some t → t.kind ≠ .template)
include hsignatures

theorem lowerRoutine_mirrors (o : Options) {r : Routine} {body} (hbody : s.IsPlainBlock body) :
    Mirrors gaps Code.bare (lowerRoutine o signatures r body)
      (lowerRoutine { o with sourceComments := false } signatures r body) := by
  -- What comes behind the checks and declarations.
  have hlines (layout : Layout) : Mirrors gaps Code.bare (do
      let lines ← lowerBlock (r.frame o signatures body) body
      let leave ← if endsWithExit body || layout.noReturn then pure [] else emitReturn (r.frame o signatures body)
      pure (⟨r.name, r.command?, r.argSize, layout.align, lines ++ leave, none⟩ : Code)) (do
      let lines ← lowerBlock (r.frame o signatures body).uncommented body
      let leave ← if endsWithExit body || layout.noReturn then pure []
        else emitReturn (r.frame o signatures body).uncommented
      pure ⟨r.name, r.command?, r.argSize, layout.align, lines ++ leave, none⟩) := by
    refine .bind (inScope_mirrors body (lowerStatements_mirrors hsignatures hbody)) fun lines => ?_
    exact .ite (.pure (by simp [Code.bare])) (.bind .emitReturn fun leave => .pure (by simp [Code.bare]))
  refine .same (.modify fun _ => rfl) fun _ => .same .checked fun layout => .ite .failed ?_
  refine .same (declareParameters_behaves 0 r.params) fun _ => ?_
  dsimp only
  cases firstRepeated [] (labelsOf body) with
  | some name => exact .failed
  | none => exact hlines layout

theorem lowerRoutines_mirrors (o : Options) (hroutines : ∀ r ∈ routines, r.IsPlain s) :
    Mirrors gaps (List.map Code.bare) (lowerRoutines o signatures routines)
      (lowerRoutines { o with sourceComments := false } signatures routines) := by
  induction routines with
  | nil => exact .pure rfl
  | cons r rest ih =>
    obtain ⟨hr, hrest⟩ := forall_mem_cons.mp hroutines
    unfold lowerRoutines
    cases hbody : r.body with
    | none => exact ih hrest
    | some body =>
      refine .bind (lowerRoutine_mirrors hsignatures o (hr.body body hbody)) fun first => ?_
      exact .bind (ih hrest) fun rest => .pure rfl

omit hsignatures

theorem kind_of_lookup_signatures (h : ∀ r ∈ routines, r.kind ≠ .template) (name : String) (t : Signature)
    (ht : (signaturesOf routines).lookup name = some t) : t.kind ≠ .template := by
  obtain ⟨r, hr, heq⟩ := mem_map.mp (mem_reverse.mp (mem_of_lookup ht))
  obtain ⟨-, rfl⟩ := Prod.mk.inj heq
  exact h r hr

theorem Program.lower_mirrors (o : Options) (hq : q.IsPlain s) : Mirrors True (List.map Code.bare)
    (lowerProgram o q) (lowerProgram { o with sourceComments := false } q) := by
  refine .same (checkState_behaves q.state) fun _ => .same (checkRoutines_behaves _ _ _) fun commands => ?_
  refine .same (warnUnused_behaves trivial commands) fun _ => ?_
  exact lowerRoutines_mirrors (kind_of_lookup_signatures fun r hr => (hq r hr).kind) o hq

end

theorem SlotsAre.straight {lines} (h : SlotsAre isNop lines) : SlotsAre isStraight lines := by
  refine h.mono fun l hl => ?_
  obtain ⟨i, rfl, hi⟩ := eq_op_of_isNop hl
  exact (Bool.not_eq_true' i.isBranch).mpr (Instruction.isBranch_of_isNop hi)

/-- **Plain programs are lowered without a defect**, and every branch is followed by an instruction
without effect. -/
theorem Program.lower_of_isPlain (o : Options) (hq : q.IsPlain s) : (∀ d, q.lower o ≠ .error (.internal d)) ∧
      ∀ codes warnings, q.lower o = .ok (codes, warnings) → ∀ c ∈ codes, SlotsAre isNop c.lines := by
  refine ⟨fun d hd => ?_, fun codes warnings hlower c hc => ?_⟩
  · have h := (lower_mirrors o hq).behaves {}
    have hlower : q.lower o = (lowerProgram o q {}).map fun r => (r.1, r.2.session.warnings) := rfl
    rw [hlower] at hd
    unfold BehavesAt at h
    split at h
    next heq =>
      rw [heq] at hd
      cases hd
    next e heq =>
      rw [heq] at hd
      obtain ⟨fault, site, rfl⟩ := h
      cases hd
  · obtain ⟨made, htranslated⟩ := translated_of_lower hlower
    obtain ⟨r, hr, body, hbody, first, last, hcode⟩ := htranslated.routines.exists_routine hc
    exact hcode.slots

theorem mapM_optimize_of_slots (rounds : Nat) (h : ∀ c ∈ codes, SlotsAre isStraight c.lines) :
    ∃ out, codes.mapM (Code.optimize rounds) = .ok out := by
  induction codes with
  | nil => exact ⟨[], rfl⟩
  | cons c codes ih =>
    obtain ⟨hc, hrest⟩ := forall_mem_cons.mp h
    obtain ⟨lines, hlines, -⟩ := optimizeLines_slots rounds c.isCommand hc
    obtain ⟨rest, hrest⟩ := ih hrest
    refine ⟨{ c with lines } :: rest, ?_⟩
    rw [mapM_cons, Code.optimize, hlines, hrest]
    rfl

theorem optimizeAll_of_slots (o : Options) (h : ∀ c ∈ codes, SlotsAre isStraight c.lines) :
    ∃ out, optimizeAll o codes = .ok out := by
  unfold optimizeAll
  split
  · exact ⟨codes, rfl⟩
  · obtain ⟨out, hout⟩ := mapM_optimize_of_slots o.scheduleRounds h
    rw [hout]
    exact ⟨aliasCommands out, rfl⟩

def NoDefect {α : Type} (x : Except CompileError α) : Prop := ∀ d, x ≠ .error (.internal d)

section

theorem NoDefect.ok : NoDefect (.ok a) := by
  intro d h
  cases h

theorem NoDefect.error {e} (he : ∀ d, e ≠ .internal d) : NoDefect (.error e : Except _ α) :=
  fun d h => he d (Except.error.inj h)

variable {f : α → Except CompileError β} {x : Except CompileError α} {g : ε → CompileError}

theorem NoDefect.bind (hx : NoDefect x) (hf : ∀ a, x = .ok a → NoDefect (f a)) : NoDefect (x >>= f) := by
  cases x with
  | error e => exact fun d h => hx d (congrArg Except.error (Except.error.inj h))
  | ok a => exact hf a rfl

theorem noDefect_mapError {x : Except ε α} (hg : ∀ e d, g e ≠ .internal d) : NoDefect (x.mapError g) := by
  intro d h
  cases x with
  | error e => exact hg e d (Except.error.inj h)
  | ok a => exact nomatch h

theorem noDefect_mapM (hf : ∀ a, NoDefect (f a)) (list : List α) : NoDefect (list.mapM f) := by
  intro d h
  obtain ⟨a, -, ha⟩ := error_of_mapM h
  exact hf a d ha

end

theorem Program.ofSource_noDefect (source : String) (defines : Source.Defines)
    (loader : Source.Loader) : NoDefect (ofSource source defines loader) := by
  refine .bind (noDefect_mapError (by simp)) fun text _ => ?_
  exact .bind (noDefect_mapError (by simp)) fun tokens _ => noDefect_mapError (by simp)

theorem Program.plain_noDefect (p : Program) : NoDefect p.plain := by
  refine .bind (noDefect_mapM (fun r => ?_) _) fun routines _ => .ok
  unfold plainRoutine
  split
  · exact .ok
  · split
    · exact .ok
    · exact .error (by simp)

theorem compile_noDefect (source : String) (options : Options) (defines : Source.Defines)
    (loader : Source.Loader) : NoDefect (compile source options defines loader) := by
  refine .bind (ofSource_noDefect source defines loader) fun p _ => ?_
  refine .bind p.plain_noDefect fun q hq => ?_
  obtain ⟨hdefect, hslots⟩ := lower_of_isPlain options (isPlain_of_plain hq)
  refine .bind hdefect fun ⟨codes, warnings⟩ hcodes => ?_
  obtain ⟨out, hout⟩ := optimizeAll_of_slots options fun c hc => (hslots codes warnings hcodes c hc).straight
  dsimp only
  rw [hout]
  exact .ok

/-- **No compilation ends in a defect.**  Whatever the source text, the definitions, the loader and the
options, the compiler reports none.  For that, a plain form is lowered or has a fault of its own, and each
branch of its code is followed by an instruction without effect; and on code where every branch is
followed by an instruction that is no branch, each pass succeeds and leaves such code, and all of them in
a row leave code that the check accepts. -/
theorem compile_ne_internal :
    (∀ source options defines loader d, compile source options defines loader ≠ .error (.internal d)) ∧
      (∀ (p q : Program) options, p.plain = .ok q →
        (∀ d, q.lower options ≠ .error (.internal d)) ∧
          ∀ codes warnings, q.lower options = .ok (codes, warnings) →
            ∀ c ∈ codes, SlotsAre Line.isNop c.lines) ∧
      ∀ rounds isCommand lines, SlotsAre Line.isStraight lines →
        (∀ stage : Stage, ∃ out, stage.apply rounds isCommand lines = .ok out ∧
          SlotsAre Line.isStraight out) ∧
        ∃ out, optimizeLines rounds isCommand lines = .ok out ∧ SlotsAre Line.isStraight out ∧
          checkDelaySlots out = .ok () := by
  refine ⟨compile_noDefect, fun p q options h => ?_, fun rounds isCommand lines hs => ⟨?_, ?_⟩⟩
  · exact Program.lower_of_isPlain options (Program.isPlain_of_plain h)
  · exact fun stage => stage.apply_slots rounds isCommand hs
  · obtain ⟨out, hout, hs'⟩ := optimizeLines_slots rounds isCommand hs
    exact ⟨out, hout, hs', checkDelaySlots_of_slots hs'⟩

theorem doubled_lower_ne_internal :
    (∀ d, Program.doubled.lower {} ≠ .error (.internal d)) ∧
      ∃ out, optimizeLines 4 false ((Instruction.jump .j "END").map .op) = .ok out ∧
        SlotsAre Line.isStraight out ∧ checkDelaySlots out = .ok () :=
  ⟨(compile_ne_internal.2.1 Program.doubling Program.doubled {} rfl).1,
    (compile_ne_internal.2.2 4 false _ (SlotsAre.straight (emptySlots_withSlot _))).2⟩

end Microcode
