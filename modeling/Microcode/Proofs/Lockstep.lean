import Microcode.Proofs.Agreement
import Microcode.Proofs.Matching
import Microcode.Proofs.Translation

/-!
Two programs lowered side by side.

One program is written with names of which the other uses some differently.  What one step of lowering gives
for the first it gives for the second, and the two come to points that are linked: the same labels are made and
the same warnings given, and the scopes match.
-/

namespace Microcode

open List ScopeStack Microcode.Action Session

/-! ### Two points of lowering -/

/-- The second session is the first but for the statement that it is at. -/
def Session.Alike (s t : Session) : Prop := ∃ statement, t = { s with site := { s.site with statement } }

/-- Lowering has come to points of two programs that match, inside of scopes that need not. -/
structure Progress.Linked (R : Renaming) (K : String → Prop) (outside : Prop) (around around' : List Scope)
    (p p' : Progress) : Prop where
  session : p.session.Alike p'.session
  outer : p.scopes.outer = around
  outer' : p'.scopes.outer = around'
  proper : p.scopes.IsProper
  bound : p.scopes.top.OwnersBound
  owned : outside → p.scopes.top.Covered
  scopes : p.scopes.top.Matches R K p'.scopes.top

def Progress.Stays {α : Type} (p p' : Progress) (a : α) (q : Progress) (b : α) (q' : Progress) : Prop :=
  a = b ∧ q.scopes = p.scopes ∧ q'.scopes = p'.scopes ∧ q.session.Alike q'.session

def Progress.inside (p : Progress) : Progress := { p with scopes := p.scopes.push }

/-- Whatever the first step gives from one point, the second gives something from the other, and what they give
and the points that they come to are related. -/
def Follows {α β : Type} (m : Lower α) (m' : Lower β) (p p' : Progress)
    (Q : α → Progress → β → Progress → Prop) : Prop :=
  ∀ ⦃a : α⦄ ⦃q : Progress⦄, m.run p = .ok (a, q) → ∃ b q', m'.run p' = .ok (b, q') ∧ Q a q b q'

namespace Follows

open Lower

variable {α β γ δ : Type} {m : Lower α} {m' : Lower β} {f : α → Lower γ} {f' : β → Lower δ}
  {p p' : Progress} {P : α → Progress → β → Progress → Prop} {Q : γ → Progress → δ → Progress → Prop}

theorem pure {a : α} {b : β} (h : P a p b p') : Follows (pure a) (pure b) p p' P := by
  intro a' q hq
  cases hq
  exact ⟨b, p', rfl, h⟩

theorem bind (hm : Follows m m' p p' P) (hf : ∀ a q b q', P a q b q' → Follows (f a) (f' b) q q' Q) :
    Follows (m >>= f) (m' >>= f') p p' Q := by
  intro c r hc
  obtain ⟨⟨a, q⟩, ha, hc⟩ := bind_eq_ok.mp hc
  obtain ⟨b, q', hb, hP⟩ := hm ha
  obtain ⟨d, r', hd, hQ⟩ := hf a q b q' hP hc
  refine ⟨d, r', ?_, hQ⟩
  rw [StateT.run_bind, hb]
  exact hd

theorem same {f f'} {Q : γ → Progress → γ → Progress → Prop}
    (h : ∀ a q, Follows (f a) (f' a) q q Q) : Follows (m >>= f) (m >>= f') p p Q := by
  intro c r hc
  rw [StateT.run_bind] at hc
  obtain ⟨⟨a, q⟩, ha, hc⟩ := bind_eq_ok.mp hc
  obtain ⟨d, r', hd, hQ⟩ := h a q hc
  refine ⟨d, r', ?_, hQ⟩
  rw [StateT.run_bind, ha]
  exact hd

variable {P' : α → Progress → β → Progress → Prop}

theorem mono (hm : Follows m m' p p' P) (h : ∀ a q b q', P a q b q' → P' a q b q') : Follows m m' p p' P' := by
  intro a q ha
  obtain ⟨b, q', hb, hP⟩ := hm ha
  exact ⟨b, q', hb, h a q b q' hP⟩

variable {G : α → Progress → Prop} {fault : Fault}

theorem given (hm : Follows m m' p p' P) (hg : GivesFrom m p G) :
    Follows m m' p p' fun a q b q' => P a q b q' ∧ G a q := by
  intro a q ha
  obtain ⟨b, q', hb, hP⟩ := hm ha
  exact ⟨b, q', hb, hP, hg ha⟩

theorem fail : Follows (fail fault : Lower α) m' p p' P := by
  intro a q h
  cases h

theorem failed {m'} : Follows (Lower.fail fault >>= f) m' p p' Q := by
  intro a q h
  cases h

theorem thrown {e m'} : Follows ((throw e : Lower α) >>= f) m' p p' Q := by
  intro a q h
  cases h

theorem scopes {f f'}
    (h : Follows (f p.scopes) (f' p'.scopes) p p' Q) : Follows (scopes >>= f) (scopes >>= f') p p' Q := h

theorem modify {g g' f f'}
    (h : Follows (f ()) (f' ()) (g p) (g' p') Q) : Follows (modify g >>= f) (modify g' >>= f') p p' Q := h

theorem modifySession {g g' f f'}
    (h : Follows (f ()) (f' ()) { p with session := g p.session } { p' with session := g' p'.session } Q) :
    Follows (modifySession g >>= f) (modifySession g' >>= f') p p' Q := h

theorem modifyScopes {g g' f f'}
    (h : Follows (f ()) (f' ()) { p with scopes := g p.scopes } { p' with scopes := g' p'.scopes } Q) :
    Follows (modifyScopes g >>= f) (modifyScopes g' >>= f') p p' Q := h

theorem ite {c : Prop} [Decidable c] {n n'} (hm : Follows m m' p p' P)
    (hn : Follows n n' p p' P) : Follows (if c then m else n) (if c then m' else n') p p' P := by
  split
  · exact hm
  · exact hn

theorem checked {x y} {f f' : α → Lower γ} {Q} (hxy : Ensures x y) (h : ∀ a, x = .ok a → Follows (f a) (f' a) p p' Q) :
    Follows (checked x >>= f) (checked y >>= f') p p' Q := by
  cases x with
  | ok a =>
    rw [hxy a rfl]
    exact h a rfl
  | error fault => exact failed

end Follows

section

open Lower

variable {R : Renaming} {K : String → Prop} {outside : Prop} {around around' : List Scope} {p p' : Progress}
variable {s t : Session}

theorem Session.Alike.trans {u} (h : s.Alike t) (h' : t.Alike u) : s.Alike u := by
  obtain ⟨statement, rfl⟩ := h
  obtain ⟨statement', rfl⟩ := h'
  exact ⟨statement', rfl⟩

theorem Session.Alike.line (h : s.Alike t) : t.site.line = s.site.line := by
  obtain ⟨statement, rfl⟩ := h
  rfl

theorem Session.Alike.visit (h : s.Alike t) {a b} (hline : b.line = a.line) : (s.visit a).Alike (t.visit b) := by
  obtain ⟨statement, rfl⟩ := h
  exact ⟨some b.header, by simp [visit, hline]⟩

theorem Session.Alike.enter (h : s.Alike t) (name : String) (line : Nat) :
    (s.enter name line).Alike (t.enter name line) := by
  obtain ⟨statement, rfl⟩ := h
  exact ⟨none, rfl⟩

theorem Session.Alike.warn (h : s.Alike t) (concern : Concern) : (s.warn concern).Alike (t.warn concern) := by
  obtain ⟨statement, rfl⟩ := h
  exact ⟨statement, rfl⟩

variable {g : ScopeStack → Except ScopeError Unit × ScopeStack} {body : List Statement} {L : String → Prop}
  {code code' : ScopeStack → Except Fault (List Instruction)}

theorem changeScopes_run {σ} (h : g p.scopes = (.ok (), σ)) :
    (changeScopes g).run p = .ok ((), { p with scopes := σ }) := by
  simp only [changeScopes, StateT.run_bind, StateT.run_get, pure_bind, h]
  rfl

/-- Statements on one line that give second names: each of a name, the variable that it is for and a type. -/
def secondNames (line : Nat) (names : List (String × String × DataType)) : List Statement :=
  names.map fun x => .action ⟨line, []⟩ (.declareAlias x.1 x.2.1 (some x.2.2))

theorem lookUpAliases_eq_pure (h : ∀ t ∈ body, t.alias? = none) : lookUpAliases body = pure [] := by
  cases body with
  | nil => rfl
  | cons t rest =>
    unfold lookUpAliases
    rw [h t mem_cons_self]

theorem inScope_eq (body : List Statement) (rest : Lower (List Line)) : inScope body rest = (do
    modifyScopes ScopeStack.push
    (lookUpAliases body >>= declareAliases)
    let code ← rest
    modifyScopes pop
    pure code) := by
  simp only [inScope, bind_assoc]

theorem givesFrom_names (hp : p.scopes.IsProper) (body : List Statement) :
    GivesFrom (lookUpAliases body >>= declareAliases) p.inside fun _ q => q.scopes = p.scopes.enter body := by
  refine .bind (givesFrom_lookUpAliases (p := p.inside) hp.push body) fun bound q ⟨hmoves, hsuits, hbound⟩ => ?_
  refine (givesFrom_declareAliases (hmoves.scopes ▸ hmoves.proper) hsuits).mono fun _ q' hmoves' => ?_
  rw [hmoves'.scopes, hmoves.scopes]
  exact foldl_withName hbound

namespace Progress.Linked

section
variable (h : p.Linked R K outside around around' p')
include h

theorem mono (hL : ∀ name, L name → K name) : p.Linked R L outside around around' p' :=
  { h with scopes := h.scopes.mono hL }

theorem agrees : p.scopes.Agrees p'.scopes R.map K := h.scopes.known

theorem stays {α : Type} {a b : α} {q q'} (hq : Stays p p' a q b q') : q.Linked R K outside around around' q' := by
  obtain ⟨-, hscopes, hscopes', hsession⟩ := hq
  obtain ⟨session, scopes⟩ := q
  obtain ⟨session', scopes'⟩ := q'
  obtain rfl : scopes = p.scopes := hscopes
  obtain rfl : scopes' = p'.scopes := hscopes'
  exact { h with session := hsession }

end
end Progress.Linked

/-- From all points that are linked and have the scopes, both steps give the same and lowering is where it was. -/
def Together {α : Type} (R : Renaming) (K : String → Prop) (outside : Prop) (around around' : List Scope)
    (σ σ' : ScopeStack) (m m' : Lower α) : Prop :=
  ∀ ⦃p p' : Progress⦄, p.scopes = σ → p'.scopes = σ' → p.Linked R K outside around around' p' →
    Follows m m' p p' (p.Stays p')

namespace Together

variable {α β : Type} {σ σ' : ScopeStack}

theorem pure (a : α) : Together R K outside around around' σ σ' (pure a) (pure a) :=
  fun _ _ _ _ h => .pure ⟨rfl, rfl, rfl, h.session⟩

variable {f f' : α → Lower β}

theorem bind {m m'} (hm : Together R K outside around around' σ σ' m m')
    (hf : ∀ a, Together R K outside around around' σ σ' (f a) (f' a)) :
    Together R K outside around around' σ σ' (m >>= f) (m' >>= f') := by
  rintro p p' rfl rfl h
  refine .bind (hm rfl rfl h) fun a q b q' hstays => ?_
  obtain ⟨rfl, hq, hq', -⟩ := id hstays
  refine (hf a hq hq' (h.stays hstays)).mono ?_
  rintro c r _ r' ⟨rfl, hr, hr', hsession⟩
  exact ⟨rfl, hr.trans hq, hr'.trans hq', hsession⟩

theorem emit (f : Frame) (code : List Instruction) :
    Together R K outside around around' σ σ' (Lower.emit f code) (Lower.emit f code) := by
  intro p p' _ _ h lines q hq
  cases hq
  refine ⟨_, p', rfl, ?_, rfl, rfl, h.session⟩
  simp only [h.session.line]

theorem checked {x x' : ScopeStack → Except Fault α} (hx : Ensures (x σ) (x' σ'))
    (hf : ∀ a, Together R K outside around around' σ σ' (f a) (f' a)) :
    Together R K outside around around' σ σ'
      (scopes >>= fun τ => Lower.checked (x τ) >>= f) (scopes >>= fun τ => Lower.checked (x' τ) >>= f') := by
  rintro p p' rfl rfl h
  exact .scopes (.checked hx fun a _ => hf a rfl rfl h)

theorem emitChecked {f : Frame} (hcode : σ.Agrees σ' R.map K → Ensures (code σ) (code' σ')) :
    Together R K outside around around' σ σ' (Lower.emitChecked f code) (Lower.emitChecked f code') := by
  rintro p p' rfl rfl h
  exact checked (hcode h.agrees) (fun _ => emit f _) rfl rfl h

theorem freshLabel : Together R K outside around around' σ σ' Lower.freshLabel Lower.freshLabel := by
  intro p p' _ _ h label q hq
  obtain ⟨statement, hsession⟩ := h.session
  cases hq
  refine ⟨_, p'.labelled, rfl, ?_, rfl, rfl, statement, ?_⟩
  · simp only [hsession]
  · simp only [Progress.labelled, hsession]

end Together

namespace Progress.Linked

section
variable (h : p.Linked R K outside around around' p')
include h
variable {name : String}

theorem declare (hname : name ∉ R.avoided) {v} (hv : v.register.Suits v.type) {shares : Bool}
    (hshares : outside → shares = false) :
    Follows (changeScopes (·.declare name v shares)) (changeScopes (·.declare name v shares)) p p'
      fun _ q _ q' => q.Linked R (fun other => other = name ∨ K other) outside around around' q' := by
  intro _ q hq
  obtain ⟨hscopes, hsession⟩ := GivesFrom.changeScopes hq
  have htop : p.scopes.top.declare name v shares = (.ok (), q.scopes.top) := by
    simp only [ScopeStack.declare, Prod.mk.injEq] at hscopes
    exact Prod.ext hscopes.1 (congrArg top hscopes.2)
  have houter : q.scopes.outer = p.scopes.outer := by
    simp only [ScopeStack.declare, Prod.mk.injEq] at hscopes
    exact (congrArg ScopeStack.outer hscopes.2).symm
  obtain ⟨t, ht, hmatches⟩ := h.scopes.declare hname htop
  refine ⟨(), { p' with scopes := ⟨t, p'.scopes.outer⟩ }, ?_, ?_⟩
  · refine changeScopes_run ?_
    simp only [ScopeStack.declare, ht]
  · obtain ⟨-, hclash, heq⟩ := Scope.declare_eq_ok.mp htop
    refine ⟨hsession ▸ h.session, houter.trans h.outer, h.outer', ?_, ?_, ?_, hmatches⟩
    · have hproper := h.proper.declare hv name shares
      rwa [hscopes] at hproper
    · rw [heq]
      exact (h.bound.unbind name).bind (Scope.get?_unbind_self _ name) v
    · intro houtside
      rw [heq]
      exact ((h.owned houtside).unbind name).bind (Scope.clash?_eq_none.mp (hclash (hshares houtside))) name

theorem checkReserved (registers : List Register) :
    Follows (checkReserved registers) (checkReserved registers) p p' fun _ q _ q' =>
      q.scopes = p.scopes ∧ q'.scopes = p'.scopes ∧ q.Linked R K outside around around' q' := by
  induction registers generalizing p p' with
  | nil => exact .pure ⟨rfl, rfl, h⟩
  | cons r rest ih =>
    have hwarn (concern : Concern) : ({ p with session := p.session.warn concern } : Progress).Linked R K
        outside around around' { p' with session := p'.session.warn concern } :=
      { h with session := h.session.warn concern }
    refine .ite .failed (.ite (.modifySession ?_) ?_)
    · have hscratch := hwarn (.scratchRegister r)
      refine .ite (.modifySession ?_) (ih hscratch)
      exact ih { hscratch with session := hscratch.session.warn (.callRegister r) }
    · exact .ite (.modifySession (ih (hwarn (.callRegister r)))) (ih h)

theorem declareVariable (hname : name ∉ R.avoided) (type : DataType) (binding : Option Binding) (isConst : Bool) :
    Follows (declareVariable name type binding isConst) (declareVariable name type binding isConst) p p'
      fun _ q _ q' => q.Linked R (fun other => other = name ∨ K other) outside around around' q' := by
  have hrest (r : Register) (hr : p.scopes.newVariable name type binding isConst = .ok ⟨r, type, isConst⟩) : Follows (do
      Microcode.checkReserved (Variable.mk r type isConst).registers
      changeScopes (·.declare name ⟨r, type, isConst⟩ false)) (do
      Microcode.checkReserved (Variable.mk r type isConst).registers
      changeScopes (·.declare name ⟨r, type, isConst⟩ false)) p p'
        fun _ q _ q' => q.Linked R (fun other => other = name ∨ K other) outside around around' q' := by
    refine .bind ((h.checkReserved _).given (givesFrom_checkReserved h.proper _)) ?_
    rintro _ q _ q' ⟨⟨-, -, hlinked⟩, -, hreserved⟩
    have hmem : r ∈ (Variable.mk r type isConst).registers := by
      unfold Variable.registers Register.span
      split <;> exact (.head _)
    obtain ⟨hzero, hscratch⟩ := hreserved r hmem
    have hsuits : r.Suits type := ⟨hzero, hscratch, p.scopes.newVariable_isVector name type binding isConst _ hr⟩
    exact hlinked.declare hname hsuits fun _ => rfl
  cases binding with
  | some b =>
    refine .checked .refl fun r hr => hrest r ?_
    rw [newVariable, hr]
    rfl
  | none =>
    refine .scopes (.checked (.of_eq ?_) fun r hr => hrest r ?_)
    · rw [allocate_congr h.scopes.owners]
    · rw [newVariable, hr]
      rfl

variable {f : Frame}

theorem emits (f : Frame) (code : List Instruction) :
    Follows (Lower.emit f code) (Lower.emit f code) p p' (Stays p p') := Together.emit f code rfl rfl h

theorem selects (hcode : Ensures (code p.scopes) (code' p'.scopes)) :
    Follows (Lower.emitChecked f code) (Lower.emitChecked f code') p p' (Stays p p') :=
  Together.emitChecked (fun _ => hcode) rfl rfl h

theorem lowerAssignment {a : Assignment} (htarget : K a.target) (ha : a.value.All (Operand.Names K)) :
    Follows (lowerAssignment f a) (lowerAssignment f (a.rename R.map)) p p' (Stays p p') := by
  refine .ite .thrown (.scopes (.checked (h.agrees.variableNamed htarget) fun v hv => ?_))
  refine .ite .failed (.ite .failed ?_)
  obtain ⟨target, swizzle, op, value, isInit⟩ := a
  have hvector : Follows (Lower.emitChecked f (vectorValue · ⟨target, .ofVariable v swizzle⟩ value))
      (Lower.emitChecked f (vectorValue · ⟨R.map target, .ofVariable v swizzle⟩ (value.rename R.map))) p p'
      (Stays p p') := h.selects (h.agrees.vectorValue _ _ _ ha)
  have hscalar : Follows (Lower.emitChecked f (scalarValue · ⟨target, .ofVariable v swizzle⟩ value))
      (Lower.emitChecked f (scalarValue · ⟨R.map target, .ofVariable v swizzle⟩ (value.rename R.map))) p p'
      (Stays p p') := h.selects (h.agrees.scalarValue _ _ _ ha)
  cases value with
  | call name args z => exact h.selects (h.agrees.callValue f.signatures _ _ _ name ha z)
  | flat parts =>
    intro lines q hq
    cases hq
  | choose c yes no =>
    refine .ite hvector (Together.bind .freshLabel (fun otherwise => .bind .freshLabel fun done => ?_) rfl rfl h)
    refine .checked (h.agrees.scalarChoice _ _ _ ha.1 ha.2.1 ha.2.2 otherwise) fun choice => ?_
    exact .bind (.emit f _) fun first => .bind (.emit f _) fun second => .pure _
  | _ => exact .ite hvector hscalar

theorem lowerCall (name : String) {args} (hargs : ∀ a ∈ args, a.All (Operand.Names K)) :
    Follows (lowerCall f name args) (lowerCall f name (args.map (·.rename R.map))) p p' (Stays p p') := by
  unfold Microcode.lowerCall
  cases Builtin.ofName? name with
  | some b => exact h.selects (h.agrees.run b hargs)
  | none =>
    dsimp only
    split
    · exact .fail
    · exact .fail
    · intro lines q hq
      cases hq
    · exact h.selects (h.agrees.callFunction name _ hargs)

/-- **An action under other names becomes the same lines, and declares the same names.** -/
theorem lowerAction {a : Action} (hkeeps : a.keepsNames)
    (ha : a.Within K) (hdeclared : ∀ name ∈ a.declared, name ∉ R.avoided) :
    Follows (lowerAction f a) (lowerAction f (a.rename R.map)) p p' fun lines q lines' q' =>
      lines = lines' ∧ q.Linked R (fun name => name ∈ a.declared ∨ K name) outside around around' q' := by
  have hstays {m m' : Lower (List Line)} (hnothing : a.declared = []) (hm : Follows m m' p p' (Stays p p')) :
      Follows m m' p p' fun lines q lines' q' =>
        lines = lines' ∧ q.Linked R (fun name => name ∈ a.declared ∨ K name) outside around around' q' := by
    refine hm.mono fun lines q lines' q' hq => ⟨hq.1, (h.stays hq).mono ?_⟩
    simp [hnothing]
  have hpure (line : Line) : Follows (pure [line] : Lower (List Line)) (pure [line]) p p' (Stays p p') :=
    .pure ⟨rfl, rfl, rfl, h.session⟩
  cases a with
  | declare d =>
    have hname : d.name ∉ R.avoided := hdeclared d.name (by simp [declared])
    have hsame : (d.rename R.map).name = d.name := R.fixes d.name hname
    unfold Microcode.lowerAction
    dsimp only [rename]
    rw [hsame]
    refine .bind (h.declareVariable hname d.type d.register d.isConst) fun _ q _ q' hlinked => ?_
    refine .pure ⟨rfl, hlinked.mono ?_⟩
    simp [declared]
  | declareAlias name target type | undefine name => cases hkeeps
  | assign a => exact hstays rfl (h.lowerAssignment ha.1 ha.2)
  | call name args => exact hstays rfl (h.lowerCall name ha)
  | goto target => refine hstays rfl (.ite (h.emits f _) (.ite (h.emits f _) .fail))
  | label name | asm text => exact hstays rfl (hpure _)
  | breakLoop | continueLoop =>
    refine hstays rfl ?_
    unfold Microcode.lowerAction
    dsimp only [rename]
    split
    · exact h.emits f _
    · exact .fail
  | exit =>
    refine hstays rfl ?_
    show Follows (emitReturn f) (emitReturn f) p p' _
    rw [emitReturn_eq]
    exact h.emits f _
  | declareInit d value | declareMany names type register isConst =>
    intro lines q hq
    cases hq

omit h in
theorem annotated (f : Frame) (isBranch : Bool) (markers : List Marker) (p p' : Progress) :
    Follows (f.annotated isBranch markers) (f.annotated isBranch markers) p p' fun g q g' q' =>
      g = g' ∧ q = p ∧ q' = p' := by
  fun_induction Frame.annotated f isBranch markers with
  | case1 f => exact .pure ⟨rfl, rfl, rfl⟩
  | case2 f name rest ih | case4 f rest h ih => exact ih
  | case3 | case5 | case6 => exact .fail

theorem enter (f : Frame) (s s' : Statement) (htag : s'.tag = s.tag) (hbranch : s'.isBranch = s.isBranch)
    (hblock : s'.isBlock = s.isBlock) : Follows (f.enter s) (f.enter s') p p' fun r q r' q' =>
      Stays p p' r q r' q' ∧ q.session.site.line = s.line := by
  have hline : s'.line = s.line := congrArg Tag.line htag
  unfold Frame.enter
  rw [htag, hbranch, hblock, hline]
  refine .modifySession (.bind (annotated f _ _ _ _) ?_)
  rintro g _ _ _ ⟨rfl, rfl, rfl⟩
  exact .pure ⟨⟨rfl, rfl, rfl, h.session.visit hline⟩, rfl⟩

/-- **Actions in a row under other names become the same lines.** -/
theorem lowerActions (tag : Tag) {actions} (hkeeps : ∀ a ∈ actions, a.keepsNames) (hactions : withinActions K actions)
    (hdeclared : ∀ name ∈ actions.flatMap declared, name ∉ R.avoided) :
    Follows (lowerStatements f false (actions.map (.action tag)))
      (lowerStatements f false ((actions.map (·.rename R.map)).map (.action tag))) p p' fun lines q lines' q' =>
      lines = lines' ∧ q.Linked R (fun name => name ∈ actions.flatMap declared ∨ K name) outside around
        around' q' := by
  induction actions generalizing K p p' with
  | nil => exact .pure ⟨rfl, h.mono (by simp)⟩
  | cons a rest ih =>
    obtain ⟨ha, hrest⟩ := forall_mem_cons.mp hkeeps
    rw [flatMap_cons, forall_mem_append] at hdeclared
    refine .bind (P := fun lines q lines' q' => lines = lines' ∧
      q.Linked R (fun name => name ∈ a.declared ∨ K name) outside around around' q') ?_ ?_
    · refine .bind (h.enter f (.action tag a) (.action tag (a.rename R.map)) rfl rfl rfl) ?_
      rintro ⟨g, comment⟩ q _ q' ⟨hstays, -⟩
      obtain rfl := hstays.1
      refine .bind ((h.stays hstays).lowerAction ha hactions.1 hdeclared.1) ?_
      rintro code r _ r' ⟨rfl, hlinked⟩
      exact .pure ⟨rfl, hlinked⟩
    · rintro first q _ q' ⟨rfl, hlinked⟩
      refine .bind (ih hlinked hrest hactions.2 hdeclared.2) ?_
      rintro more r _ r' ⟨rfl, hlinked⟩
      refine .pure ⟨rfl, hlinked.mono ?_⟩
      rintro name (hname | hname)
      · rw [flatMap_cons, mem_append] at hname
        exact hname.elim (fun hname => .inr (.inl hname)) .inl
      · exact .inr (.inr hname)

theorem push : (inside p).Linked R K outside (p.scopes.top :: around) (p'.scopes.top :: around') (inside p') where
  session := h.session
  outer := congrArg (p.scopes.top :: ·) h.outer
  outer' := congrArg (p'.scopes.top :: ·) h.outer'
  proper := h.proper.push
  bound := h.bound
  owned := h.owned
  scopes := ⟨h.scopes.owners, h.scopes.known, h.scopes.owning, fun _ _ => .rfl⟩

theorem pushNone : (inside p).Linked .none (fun _ => False) False (p.scopes.top :: around) (p'.scopes.top :: around')
      (inside p') :=
  { h.push with
    owned := False.elim
    scopes := ⟨h.scopes.owners, fun _ => False.elim, h.scopes.owning, fun _ _ => .rfl⟩ }

end
variable {S : Renaming} {inner : Prop} {body' : List Statement} {ρ : String → String}
  {bound : List (Statement × String × Variable)}

/-- **Two blocks whose second names leave linked points, and whose statements become the same lines from there,
become the same lines.** -/
theorem inScope (hp : p.scopes.IsProper) {rest rest'}
    (hnames : Follows (lookUpAliases body >>= declareAliases) (lookUpAliases body' >>= declareAliases) (inside p) (inside p')
      fun _ q _ q' => q.Linked S L inner (p.scopes.top :: p.scopes.outer) (p'.scopes.top :: p'.scopes.outer) q')
    (hrest : ∀ q q', q.Linked S L inner (p.scopes.top :: p.scopes.outer) (p'.scopes.top :: p'.scopes.outer) q' →
      q.scopes = p.scopes.enter body → Follows rest rest' q q' fun lines r lines' r' => lines = lines'
        ∧ ∃ M, r.Linked S M inner (p.scopes.top :: p.scopes.outer) (p'.scopes.top :: p'.scopes.outer) r') :
    Follows (Microcode.inScope body rest) (Microcode.inScope body' rest') p p' (Stays p p') := by
  rw [inScope_eq, inScope_eq]
  refine .modifyScopes (.bind (hnames.given (givesFrom_names hp body)) ?_)
  rintro _ q _ q' ⟨hlinked, hscopes⟩
  refine .bind (hrest q q' hlinked hscopes) ?_
  rintro lines r _ r' ⟨rfl, M, hlinked⟩
  refine .modifyScopes (.pure ⟨rfl, ?_, ?_, hlinked.session⟩)
  · rw [pop, hlinked.outer]
  · rw [pop, hlinked.outer']

theorem noNames (h : p.Linked S L inner around around' p') (hbody : ∀ t ∈ body, t.alias? = none)
    (hbody' : ∀ t ∈ body', t.alias? = none) :
    Follows (lookUpAliases body >>= declareAliases) (lookUpAliases body' >>= declareAliases) p p'
      fun _ q _ q' => q.Linked S L inner around around' q' := by
  rw [lookUpAliases_eq_pure hbody, lookUpAliases_eq_pure hbody']
  exact .pure h

variable {rest rest' : List Statement} {names : List (String × String × DataType)}

theorem lookUpNames (hsession : p.session.Alike p'.session) (hagrees : p.scopes.Agrees p'.scopes ρ K)
    (line : Nat) (hnames : ∀ x ∈ names, K x.2.1) (hrest : ∀ t ∈ rest, t.alias? = none)
    (hrest' : ∀ t ∈ rest', t.alias? = none) : Follows (lookUpAliases (secondNames line names ++ rest))
      (lookUpAliases (secondNames line (names.map fun x => (x.1, ρ x.2.1, x.2.2)) ++ rest')) p p'
      fun bound q bound' q' => bound.map (fun b => (b.1.line, b.2)) = bound'.map (fun b => (b.1.line, b.2)) ∧
        bound.map (·.2.1) = names.map Prod.fst ∧
        q.scopes = p.scopes ∧ q'.scopes = p'.scopes ∧ q.session.Alike q'.session := by
  induction names generalizing p p' with
  | nil =>
    simp only [secondNames, map_nil, nil_append]
    rw [lookUpAliases_eq_pure hrest, lookUpAliases_eq_pure hrest']
    exact .pure ⟨rfl, rfl, rfl, rfl, hsession⟩
  | cons x names ih =>
    obtain ⟨hx, hnames⟩ := forall_mem_cons.mp hnames
    refine .modifySession (.scopes (.checked (hagrees.aliasOf hx (some x.2.2)) fun v _ => ?_))
    refine .bind (ih (hsession.visit rfl) hagrees hnames) ?_
    rintro bound q bound' q' ⟨hbound, hfirst, hq, hq', hsession⟩
    refine .pure ⟨?_, ?_, hq, hq', hsession⟩
    · simp only [map_cons, hbound]
      rfl
    · simp only [map_cons, hfirst]

theorem declareNames (h : p.Linked .none K False around around' p') {bound'}
    (hsame : bound.map (fun b => (b.1.line, b.2)) = bound'.map (fun b => (b.1.line, b.2)))
    (hsuits : ∀ b ∈ bound, b.2.2.register.Suits b.2.2.type) :
    Follows (declareAliases bound) (declareAliases bound') p p' fun _ q _ q' =>
      q.Linked .none (fun name => name ∈ bound.map (·.2.1) ∨ K name) False around around' q' := by
  induction bound generalizing bound' p p' K with
  | nil =>
    obtain rfl : bound' = [] := by simpa using hsame.symm
    exact .pure (h.mono (by simp))
  | cons b bound ih =>
    cases bound' with
    | nil => simp at hsame
    | cons b' bound' =>
      obtain ⟨hb, hrest⟩ := forall_mem_cons.mp hsuits
      obtain ⟨s, name, v⟩ := b
      obtain ⟨s', name', v'⟩ := b'
      simp only [map_cons, List.cons.injEq, Prod.mk.injEq] at hsame
      obtain ⟨⟨hline, rfl, rfl⟩, hsame⟩ := hsame
      have hvisit : ({ p with session := p.session.visit s } : Progress).Linked .none K False around around'
          { p' with session := p'.session.visit s' } := { h with session := h.session.visit hline.symm }
      refine .modifySession (.bind (hvisit.declare (by simp [Renaming.none]) hb False.elim) ?_)
      intro _ q _ q' hlinked
      refine (ih hlinked hsame hrest).mono fun _ r _ r' hr => hr.mono ?_
      simp only [map_cons, mem_cons]
      rintro other ((hother | hother) | hother)
      · exact .inr (.inl hother)
      · exact .inl hother
      · exact .inr (.inr hother)

/-- **Blocks that give the same second names to variables that are the same on both sides.** -/
theorem bothNames (h : p.Linked .none (fun _ => False) False around around' p')
    (hagrees : p.scopes.Agrees p'.scopes ρ K) (line : Nat) (hnames : ∀ x ∈ names, K x.2.1)
    (hrest : ∀ t ∈ rest, t.alias? = none) (hrest' : ∀ t ∈ rest', t.alias? = none) :
    Follows (lookUpAliases (secondNames line names ++ rest) >>= declareAliases)
      (lookUpAliases (secondNames line (names.map fun x => (x.1, ρ x.2.1, x.2.2)) ++ rest') >>= declareAliases)
      p p' fun _ q _ q' => q.Linked .none (· ∈ names.map Prod.fst) False around around' q' := by
  refine .bind ((lookUpNames h.session hagrees line hnames hrest hrest').given (givesFrom_lookUpAliases h.proper _)) ?_
  rintro bound q bound' q' ⟨⟨hsame, hfirst, hq, hq', hsession⟩, -, hsuits, -⟩
  obtain ⟨session, scopes⟩ := q
  obtain ⟨session', scopes'⟩ := q'
  obtain rfl : scopes = p.scopes := hq
  obtain rfl : scopes' = p'.scopes := hq'
  have hlinked : Progress.Linked .none (fun _ => False) False around around' ⟨session, p.scopes⟩
      ⟨session', p'.scopes⟩ := { h with session := hsession }
  refine (hlinked.declareNames hsame hsuits).mono fun _ r _ r' hr => hr.mono fun name hname => ?_
  exact .inl (hfirst ▸ hname)

variable {line : Nat}

theorem givesFrom_declareNames (hline : p.session.site.line = line) {t : Scope}
    {names} (htop : p.scopes.top.Extends names t)
    (hlines : ∀ b ∈ bound, b.1.line = line) (hnew : ∀ b ∈ bound, t.get? b.2.1 = none)
    (howned : ∀ b ∈ bound, ∀ q ∈ b.2.2.registers, t.isFree q = false) :
    GivesFrom (declareAliases bound) p fun _ q => q.session.Alike p.session ∧
      q.scopes.outer = p.scopes.outer ∧ q.scopes.top.Extends ((bound.map (·.2)).reverse ++ names) t := by
  induction bound generalizing p names with
  | nil => exact .pure ⟨⟨p.session.site.statement, rfl⟩, rfl, htop⟩
  | cons b bound ih =>
    obtain ⟨hb, hlines⟩ := forall_mem_cons.mp hlines
    obtain ⟨hnewb, hnew⟩ := forall_mem_cons.mp hnew
    obtain ⟨hownedb, howned⟩ := forall_mem_cons.mp howned
    refine .modifySession (.bind GivesFrom.changeScopes fun _ q ⟨hchange, hsession⟩ => ?_)
    simp only [ScopeStack.declare, Prod.mk.injEq] at hchange
    have hdeclare : p.scopes.top.declare b.2.1 b.2.2 true = (.ok (), q.scopes.top) :=
      Prod.ext hchange.1 (congrArg top hchange.2)
    have hextends := htop.declare hnewb hownedb hdeclare
    have hvisit : q.session.Alike p.session := by
      rw [hsession]
      refine ⟨p.session.site.statement, ?_⟩
      have hsite : p.session.site = ⟨p.session.site.routine, line, p.session.site.statement⟩ := by rw [← hline]
      simp only [visit, hb]
      rw [← hsite]
    have hline' : q.session.site.line = line := by
      rw [hsession]
      exact hb
    refine (ih hline' hextends hlines hnew howned).mono fun _ r ⟨hr, houter, htop⟩ => ⟨?_, ?_, ?_⟩
    · exact hr.trans hvisit
    · rw [houter, ← congrArg ScopeStack.outer hchange.2]
    · simpa using htop

theorem givesFrom_lookUpNames (hline : p.session.site.line = line)
    (names : List (String × String × DataType)) (hrest : ∀ t ∈ rest, t.alias? = none) :
    GivesFrom (lookUpAliases (secondNames line names ++ rest)) p fun bound q => q.session.Alike p.session ∧
      q.scopes = p.scopes ∧ (∀ b ∈ bound, b.1.line = line) ∧ bound.map (fun b => (b.2.1, Except.ok b.2.2))
        = names.map fun x => (x.1, p.scopes.aliasOf x.2.1 (some x.2.2)) := by
  induction names generalizing p with
  | nil =>
    simp only [secondNames, map_nil, nil_append]
    rw [lookUpAliases_eq_pure hrest]
    exact .pure ⟨⟨p.session.site.statement, rfl⟩, rfl, by simp, rfl⟩
  | cons x names ih =>
    refine .modifySession (.scopes (.checked fun v hv => ?_))
    refine .bind (ih rfl) fun bound q ⟨hsession, hq, hlines, hbound⟩ => .pure ⟨?_, hq, ?_, ?_⟩
    · refine hsession.trans ⟨p.session.site.statement, ?_⟩
      have hsite : p.session.site = ⟨p.session.site.routine, line, p.session.site.statement⟩ := by rw [← hline]
      simp only [visit, Statement.line, Statement.tag]
      rw [← hsite]
    · exact forall_mem_cons.mpr ⟨rfl, hlines⟩
    · rw [map_cons, map_cons, hbound, hv]

/-- **A block that starts with second names, and one that uses the first names instead.** -/
theorem oneSidedNames (h : p.Linked .none K outside around around' p') (hlocals : p.scopes.top.locals = [])
    (hline : p.session.site.line = line)
    (hnames : ∀ x ∈ names, p.scopes.top.Spares K x)
    (hrest : ∀ t ∈ rest, t.alias? = none) (hrest' : ∀ t ∈ rest', t.alias? = none) :
    Follows (lookUpAliases (secondNames line names ++ rest) >>= declareAliases)
      (lookUpAliases rest' >>= declareAliases) p p' fun _ q _ q' =>
        q.Linked (.ofPairs (names.map fun x => (x.1, x.2.1)))
    (· ∈ names.map Prod.fst) False around around' q' := by
  rw [lookUpAliases_eq_pure hrest']
  intro _ q hq
  obtain ⟨⟨bound, mid⟩, hlookup, hdeclare⟩ := bind_eq_ok.mp hq
  obtain ⟨hsession, hmid, hlines, hvars⟩ := givesFrom_lookUpNames hline names hrest hlookup
  obtain ⟨-, hsuits, -⟩ := givesFrom_lookUpAliases h.proper _ hlookup
  have hfirst : bound.map (·.2.1) = names.map Prod.fst := by
    have := congrArg (List.map Prod.fst) hvars
    simpa only [map_map, Function.comp_def] using this
  -- each name stands for the variable that its first name stands for
  have hvariable {x : String × String × DataType} (hx : x ∈ names) {v : Variable}
      (hv : p.scopes.aliasOf x.2.1 (some x.2.2) = .ok v) :
      p.scopes.top.get? x.2.1 = some v ∧ ∀ q ∈ v.registers, p.scopes.top.isFree q = false := by
    obtain ⟨w, hw, htype, howned⟩ := (hnames x hx).fits
    rw [← htype, aliasOf_type hw] at hv
    cases hv
    exact ⟨hw, howned⟩
  have hbound : ∀ b ∈ bound, ∃ x ∈ names, x.1 = b.2.1 ∧ p.scopes.aliasOf x.2.1 (some x.2.2) = .ok b.2.2 := by
    intro b hb
    have hmem := mem_map_of_mem (f := fun b => (b.2.1, (Except.ok b.2.2 : Except Fault Variable))) hb
    rw [hvars] at hmem
    obtain ⟨x, hx, heq⟩ := mem_map.mp hmem
    exact ⟨x, hx, (Prod.mk.inj heq).1, (Prod.mk.inj heq).2⟩
  have hextends : mid.scopes.top.Extends [] p.scopes.top := by
    rw [hmid]
    exact ⟨rfl, fun _ => rfl, rfl, nodup_nil⟩
  have hnew : ∀ name ∈ names.map Prod.fst, p.scopes.top.get? name = none := by
    intro name hname
    obtain ⟨x, hx, rfl⟩ := mem_map.mp hname
    exact (hnames x hx).unbound
  have howned : ∀ b ∈ bound, ∀ q ∈ b.2.2.registers, p.scopes.top.isFree q = false := by
    intro b hb
    obtain ⟨x, hx, -, hv⟩ := hbound b hb
    exact (hvariable hx hv).2
  obtain ⟨hsession', houter, htop⟩ := givesFrom_declareNames (hsession.line.symm.trans hline) hextends hlines
    (fun b hb => hnew b.2.1 (hfirst ▸ mem_map_of_mem hb)) howned hdeclare
  have hmoves := givesFrom_declareAliases (hmid ▸ h.proper) hsuits hdeclare
  rw [append_nil] at htop
  have hkeys : (bound.map (·.2)).reverse.map Prod.fst = (names.map Prod.fst).reverse := by
    rw [map_reverse, map_map, ← hfirst]
    rfl
  have hpairs : ∀ x ∈ names, ∃ v, (x.1, v) ∈ (bound.map (·.2)).reverse ∧ p.scopes.top.get? x.2.1 = some v := by
    intro x hx
    have hmem := mem_map_of_mem (f := fun x => (x.1, p.scopes.aliasOf x.2.1 (some x.2.2))) hx
    rw [← hvars] at hmem
    obtain ⟨b, hb, heq⟩ := mem_map.mp hmem
    obtain ⟨hname, hv⟩ := Prod.mk.inj heq
    refine ⟨b.2.2, ?_, (hvariable hx hv.symm).1⟩
    rw [← hname, mem_reverse]
    exact mem_map_of_mem hb
  refine ⟨(), p', rfl, (hsession'.trans hsession).trans h.session, ?_, h.outer',
    hmoves.scopes ▸ hmoves.proper, htop.ownersBound hkeys h.bound hnew, False.elim,
    htop.matches hkeys h.scopes h.bound hnames hpairs⟩
  rw [houter, hmid, h.outer]

end Progress.Linked
end
end Microcode
