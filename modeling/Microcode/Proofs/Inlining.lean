import Microcode.Proofs.Counterpart

/-!
Calls of macros and copies of their bodies.

A call of a macro stands for a block in which the parameters are second names for the arguments.  It can be
replaced by a block with the macro's body in which each parameter is replaced by its argument, and the
program becomes the same lines.
-/

namespace Microcode

open List CallArg Statement ScopeStack Program Nat Routine

def Statement.declared : Statement → List String
  | .action _ a => a.declared
  | _ => []

mutual

/-- All variables that a statement uses have names with the property, or are declared before in the same block
or in one around it. -/
def Statement.Within (K : String → Prop) : Statement → Prop
  | .block _ body => withinAll K body
  | .branch _ c yes no =>
    c.All (Operand.Names K) ∧ withinAll K yes ∧ match no with
      | none => True
      | some no => withinAll K no
  | .whileLoop _ c body => c.All (Operand.Names K) ∧ withinAll K body
  | .loop _ body c => withinAll K body ∧ ∀ c', c = some c' → c'.All (Operand.Names K)
  | .action _ a => a.Within K

def withinAll (K : String → Prop) : List Statement → Prop
  | [] => True
  | t :: rest => t.Within K ∧ withinAll (fun name => name ∈ t.declared ∨ K name) rest

end

section
variable {K : String → Prop} (hK : ∀ name, K name)
include hK

theorem Operand.names_of_forall (o : Operand) : o.Names K := fun name _ => hK name

theorem Expr.names_of_forall (e : Expr) : e.All (Operand.Names K) := e.all_of_forall (Operand.names_of_forall hK)

theorem Action.within_of_forall (a : Action) : a.Within K := by
  cases a with
  | declareInit d value => exact Expr.names_of_forall (fun name => .inr (hK name)) value
  | declareAlias name target type => exact hK target
  | undefine name => exact hK name
  | assign a => exact ⟨hK a.target, a.value.names_of_forall hK⟩
  | call name args => exact Expr.names_of_forall hK (.call name args none)
  | _ => trivial

omit hK in
mutual

theorem Statement.within_of_forall {K} (hK : ∀ name, K name) : ∀ t : Statement, t.Within K
  | .block _ body => withinAll_of_forall hK body
  | .branch _ _ yes none => ⟨⟨fun _ _ => hK _, fun _ _ => hK _⟩, withinAll_of_forall hK yes, trivial⟩
  | .branch _ _ yes (some no) =>
    ⟨⟨fun _ _ => hK _, fun _ _ => hK _⟩, withinAll_of_forall hK yes, withinAll_of_forall hK no⟩
  | .whileLoop _ _ body => ⟨⟨fun _ _ => hK _, fun _ _ => hK _⟩, withinAll_of_forall hK body⟩
  | .loop _ body _ => ⟨withinAll_of_forall hK body, fun _ _ => ⟨fun _ _ => hK _, fun _ _ => hK _⟩⟩
  | .action _ a => a.within_of_forall hK

theorem withinAll_of_forall {K} (hK : ∀ name, K name) : ∀ body : List Statement, withinAll K body
  | [] => trivial
  | t :: rest => ⟨t.within_of_forall hK, withinAll_of_forall (fun name => .inr (hK name)) rest⟩

end
end

namespace Piece

def plain (s : Surroundings) (expandCall : Expander) : Piece → Except Misstep (List Statement)
  | one t => t.plain s expandCall
  | all body => plainBlock s expandCall body

def rename (ρ : String → String) : Piece → Piece
  | one t => one (t.rename ρ)
  | all body => all (renameAll ρ body)

def declared : Piece → List String
  | one t => t.declared
  | all body => body.flatMap Statement.declared

def Within (K : String → Prop) : Piece → Prop
  | one t => t.Within K
  | all body => withinAll K body

def EveryAction (P : Action → Prop) : Piece → Prop
  | one t => t.Every P fun _ => True
  | all body => everyIn P (fun _ => True) body

theorem rename_id (piece : Piece) : piece.rename id = piece := by
  cases piece with
  | one t => exact congrArg one t.rename_id
  | all body => exact congrArg all (renameAll_id body)

end Piece

/-! ### Arguments -/

/-- What a call binds: the name of each parameter, the variable that is its argument, and its type. -/
def bindings (params : List Parameter) (targets : List String) : List (String × String × DataType) :=
  zipWith (fun p target => (p.name, target, p.type)) params targets

def CallArg.ofName (name : String) : CallArg := .operand (.ofName name)

variable {args : List CallArg} {names body body' : List Statement} {m r r' : Routine} {name : String}
  {targets : List String} {K L P : String → Prop} {R : Renaming} {t : Statement} {σ : ScopeStack}
  {s' : Surroundings}

section
variable {state : List String} {line : Nat} {params : List Parameter} {targets : List String}

theorem map_fst_bindings (h : targets.length = params.length) :
    (bindings params targets).map Prod.fst = params.map Parameter.name := by
  induction params generalizing targets with
  | nil => rfl
  | cons p params ih =>
    cases targets with
    | nil => cases h
    | cons target targets => exact congrArg (p.name :: ·) (ih (succ.inj h))

theorem map_snd_bindings (h : targets.length = params.length) : (bindings params targets).map (·.2.1) = targets := by
  induction params generalizing targets with
  | nil => exact (eq_nil_of_length_eq_zero h).symm
  | cons p params ih =>
    cases targets with
    | nil => cases h
    | cons target targets => exact congrArg (target :: ·) (ih (succ.inj h))

theorem bindings_map (ρ : String → String) :
    bindings params (targets.map ρ) = (bindings params targets).map fun x => (x.1, ρ x.2.1, x.2.2) := by
  simp only [bindings, zipWith_map_right, map_zipWith]

theorem aliases_of_targets (hlength : targets.length = params.length) (hstate : ∀ target ∈ targets, target ∉ state) :
    aliases state line params (targets.map ofName) = some (secondNames line (bindings params targets)) := by
  induction params generalizing targets with
  | nil =>
    obtain rfl := eq_nil_of_length_eq_zero hlength
    rfl
  | cons p params ih =>
    cases targets with
    | nil => cases hlength
    | cons target targets =>
      obtain ⟨htarget, hrest⟩ := forall_mem_cons.mp hstate
      have haliased : (ofName target).aliased? state = some target := by
        simp [ofName, Operand.ofName, aliased?, htarget]
      rw [map_cons, aliases, haliased, ih (succ.inj hlength) hrest]
      rfl

theorem CallArg.aliased?_eq_some {a : CallArg} {target : String} (h : a.aliased? state = some target) :
    a = .ofName target ∧ target ∉ state := by
  unfold aliased? at h
  split at h
  · split at h
    · cases h
    next hname =>
      cases h
      exact ⟨rfl, by simpa using hname⟩
  · cases h

theorem targets_of_aliases (hlength : args.length = params.length)
    (h : aliases state line params args = some names) : ∃ targets, targets.length = params.length ∧
      (∀ target ∈ targets, target ∉ state) ∧ args = targets.map ofName ∧
      names = secondNames line (bindings params targets) := by
  induction params generalizing args names with
  | nil =>
    obtain rfl := eq_nil_of_length_eq_zero hlength
    cases h
    exact ⟨[], rfl, by simp, rfl, rfl⟩
  | cons p params ih =>
    cases args with
    | nil => cases hlength
    | cons a args =>
      simp only [aliases, Option.bind_eq_bind, Option.bind_eq_some_iff, Option.pure_def, Option.some.injEq] at h
      obtain ⟨target, ha, rest, hrest, rfl⟩ := h
      obtain ⟨rfl, htarget⟩ := aliased?_eq_some ha
      obtain ⟨targets, htargets, hstate, rfl, rfl⟩ := ih (succ.inj hlength) hrest
      exact ⟨target :: targets, congrArg succ htargets, forall_mem_cons.mpr ⟨htarget, hstate⟩, rfl, rfl⟩

theorem Routine.instantiate_of_targets (m : Routine) (line : Nat) (hlength : targets.length = m.params.length)
    (hstate : ∀ target ∈ targets, target ∉ state) (hbody : m.body = some body) :
    m.instantiate state (targets.map ofName) line = .ok (secondNames line (bindings m.params targets), body) := by
  rw [instantiate, if_neg (by simpa using hlength), aliases_of_targets hlength hstate, hbody]

theorem Routine.targets_of_instantiate (h : m.instantiate state args line = .ok (names, body)) :
    ∃ targets, targets.length = m.params.length ∧ (∀ target ∈ targets, target ∉ state) ∧ args = targets.map ofName ∧
      names = secondNames line (bindings m.params targets) ∧ m.body = some body := by
  obtain ⟨hlength, hnames, hbody⟩ := instantiate_cases h
  obtain ⟨targets, htargets, hstate, rfl, rfl⟩ := targets_of_aliases hlength hnames
  exact ⟨targets, htargets, hstate, rfl, rfl, hbody⟩

end

/-- The names that a copy of a macro's body uses in place of the parameters. -/
def Routine.renaming (m : Routine) (targets : List String) : Renaming :=
  .ofPairs ((bindings m.params targets).map fun x => (x.1, x.2.1))

/-- A call with variables for arguments that may be replaced by a copy of the macro's body. -/
structure Routine.Copyable (m : Routine) (state : List String) (σ : ScopeStack) (targets : List String)
    (body : List Statement) : Prop where
  arity : targets.length = m.params.length
  distinct : targets.Nodup
  /-- The arguments have exactly the types of the parameters. -/
  typed : ∀ x ∈ bindings m.params targets, ∃ v, σ.top.get? x.2.1 = some v ∧ v.type = x.2.2
  /-- Nothing else has the name of a parameter. -/
  unbound : ∀ name ∈ m.params.map Parameter.name, σ.top.get? name = none ∧ name ∉ state
  /-- The body declares neither a parameter nor an argument. -/
  fresh : everyIn (fun a => ∀ name ∈ a.declared, name ∉ (m.renaming targets).avoided) (fun _ => True) body

def ScopeStack.Owned (σ : ScopeStack) (targets : List String) : Prop :=
  ∀ target ∈ targets, ∀ v, σ.top.get? target = some v → ∀ q ∈ v.registers, σ.top.isFree q = false

/-- The second piece is the first with calls of macros replaced by copies of their bodies.  The scopes are those
at the first piece, and its macros may still be expanded to a depth, which is less than the full depth inside of
macros; there the registers of arguments have owners. -/
inductive Inlines (s s' : Surroundings) : Nat → ScopeStack → Piece → Piece → Prop
  | nil {d σ} : Inlines s s' d σ (.all []) (.all [])
  | cons {d σ first first' out rest rest'} (hplain : first.plain s (expander s d) = .ok out)
      (hfirst : Inlines s s' d σ (.one first) (.one first'))
      (hrest : Inlines s s' d (afterAll σ out) (.all rest) (.all rest')) :
      Inlines s s' d σ (.all (first :: rest)) (.all (first' :: rest'))
  | block {d σ tag body body'} (hbody : Inlines s s' d σ.push (.all body) (.all body')) :
      Inlines s s' d σ (.one (.block tag body)) (.one (.block tag body'))
  | branch {d σ tag c yes yes'} (hyes : Inlines s s' d σ.push (.all yes) (.all yes')) :
      Inlines s s' d σ (.one (.branch tag c yes none)) (.one (.branch tag c yes' none))
  | branchElse {d σ tag c yes yes' no no'} (hyes : Inlines s s' d σ.push (.all yes) (.all yes'))
      (hno : Inlines s s' d σ.push (.all no) (.all no')) :
      Inlines s s' d σ (.one (.branch tag c yes (some no))) (.one (.branch tag c yes' (some no')))
  | whileLoop {d σ tag c body body'} (hbody : Inlines s s' d σ.push (.all body) (.all body')) :
      Inlines s s' d σ (.one (.whileLoop tag c body)) (.one (.whileLoop tag c body'))
  | loop {d σ tag body body' c} (hbody : Inlines s s' d σ.push (.all body) (.all body')) :
      Inlines s s' d σ (.one (.loop tag body c)) (.one (.loop tag body' c))
  | action {d σ tag a} (hcall : ∀ name args, a = .call name args → s.template? name = none ∧ s'.template? name = none) :
      Inlines s s' d σ (.one (.action tag a)) (.one (.action tag a))
  | call {d σ tag name args m m' names body body'} (hm : s.template? name = some m)
      (hm' : s'.template? name = some m') (hparams : m'.params = m.params)
      (hcall : m.instantiate s.state args tag.line = .ok (names, body)) (hbody' : m'.body = some body')
      (hbody : Inlines s s' d (σ.enter names) (.all body) (.all body')) :
      Inlines s s' (d + 1) σ (.one (.action tag (.call name args))) (.one (.action tag (.call name args)))
  | copy {d σ tag name m targets body} (hm : s.template? name = some m) (hwritten : m.body = some body)
      (hcopyable : m.Copyable s.state σ targets body) (howned : d + 1 < macroDepth → σ.Owned targets)
      (hbody : Inlines s s' d (σ.enter (secondNames tag.line (bindings m.params targets))) (.all body) (.all body)) :
      Inlines s s' (d + 1) σ (.one (.action tag (.call name (targets.map ofName))))
        (.one (.block ⟨tag.line, []⟩ (renameAll (m.renaming targets).map body)))

variable {s : Surroundings} {d : Nat} {tag : Tag} {a : Action} {state : List String} {σ : ScopeStack}
  {routines routines' : List Routine}

section
variable {actions : List Action} {out : List Statement}

theorem Statement.plain_of_actions {expandCall}
    (hcall : ∀ name args, a = .call name args → s.template? name = none) (h : a.plain s.state = .ok actions) :
    (Statement.action tag a).plain s expandCall = .ok (actions.map (.action tag)) := by
  by_cases hcalls : ∃ name args, a = .call name args
  · obtain ⟨name, args, rfl⟩ := hcalls
    cases h
    simp only [Statement.plain, hcall name args rfl]
    rfl
  · rw [plain_action fun name args heq => hcalls ⟨name, args, heq⟩, h]

theorem Statement.plain_of_instantiate (hm : s.template? name = some m)
    (hcall : m.instantiate s.state args tag.line = .ok (names, body))
    (hbody : plainBlock s (expander s d) body = .ok out) :
    (Statement.action tag (.call name args)).plain s (expander s (d + 1))
      = .ok [.block ⟨tag.line, []⟩ (names ++ out)] := by
  simp only [Statement.plain, hm, expander, hcall]
  rw [hbody]
  rfl

theorem Statement.call_of_plain (hm : s.template? name = some m)
    (hcall : m.instantiate s.state args tag.line = .ok (names, body))
    (h : (Statement.action tag (.call name args)).plain s (expander s (d + 1)) = .ok out) :
    ∃ inner, plainBlock s (expander s d) body = .ok inner ∧ out = [.block ⟨tag.line, []⟩ (names ++ inner)] := by
  simp only [Statement.plain, hm, expander, hcall] at h
  obtain ⟨t, ht, h⟩ := bind_eq_ok.mp h
  obtain ⟨inner, hinner, ht⟩ := bind_eq_ok.mp ht
  cases ht
  exact ⟨inner, hinner, (Except.ok.inj h).symm⟩

theorem Statement.notMem_of_plain (hm : s.template? name = some m)
    (h : (Statement.action tag (.call name (targets.map ofName))).plain s (expander s d) = .ok out) :
    ∀ target ∈ targets, target ∉ s.state := by
  cases standsFor_of_plain h with
  | expanded hm' hcall =>
    obtain ⟨targets', -, hstate, hargs, -⟩ := targets_of_instantiate hcall
    have hinjective (a b : String) (hab : ofName a = ofName b) : a = b := by simpa [ofName, Operand.ofName] using hab
    obtain rfl := (List.map_inj_right hinjective).mp hargs
    exact hstate
  | call hnone => exact absurd hm (by simp [hnone])
  | actions hcall => exact absurd rfl (hcall _ _)

theorem Action.keepsNames_of_plain (ha : a.keepsNames)
    (h : a.plain state = .ok actions) : ∀ b ∈ actions, b.keepsNames := by
  intro b hb
  cases Action.standsFor_of_plain h b hb with
  | self => exact ha
  | _ => rfl

end

def inRegisters (state : List String) (K : String → Prop) (name : String) : Prop := K name ∧ name ∉ state

theorem inRegisters_mono (h : ∀ name, K name → L name) :
    ∀ name, inRegisters state K name → inRegisters state L name := fun name hname => ⟨h name hname.1, hname.2⟩

/-- A piece that can be put under other names: it uses names with the property and what it declares, gives no
second names and undefines none, and declares no name to keep clear of. -/
structure Piece.Fits (R : Renaming) (state : List String) (K : String → Prop) (piece : Piece) : Prop where
  within : piece.Within K
  keeps : piece.EveryAction fun a => a.keepsNames ∧ ∀ name ∈ a.declared, name ∉ R.avoided
  renames : Renames state R.map K

theorem Renames.declare (h : Renames state R.map K) {names : List String}
    (hnames : ∀ name ∈ names, name ∉ R.avoided) : Renames state R.map fun name => name ∈ names ∨ K name := by
  have hnew {name other : String} (hname : name ∈ names) (heq : R.map name = R.map other) : name = other := by
    rw [R.fixes name (hnames name hname)] at heq
    by_cases hother : other = name
    · exact hother.symm
    · exact absurd heq.symm (R.map_ne (hnames name hname) hother)
  refine { h with injective := fun name other hname hother hstate hstate' heq => ?_ }
  rcases hname with hname | hname
  · exact hnew hname heq
  · rcases hother with hother | hother
    · exact (hnew hother heq.symm).symm
    · exact h.injective name other hname hother hstate hstate' heq

theorem Statement.declared_of_every (h : t.Every (fun a => a.keepsNames ∧ ∀ name ∈ a.declared, P name) fun _ => True) :
    ∀ name ∈ t.declared, P name := by
  cases t with
  | action tag a => exact h.2
  | _ => exact fun name hname => absurd hname not_mem_nil

/-- Macros use only their parameters, variables in memory and what they declare, give no second names and
undefine none. -/
structure Surroundings.IsClosed (s : Surroundings) : Prop where
  within : ∀ m ∈ s.macros, ∀ body, m.body = some body →
    withinAll (fun name => name ∈ m.params.map Parameter.name ∨ name ∈ s.state) body
  keeps : ∀ m ∈ s.macros, ∀ body, m.body = some body → everyIn (fun a => a.keepsNames) (fun _ => True) body

theorem everyIn_none (body : List Statement) :
    everyIn (fun a => ∀ name ∈ a.declared, name ∉ Renaming.none.avoided) (fun _ => True) body :=
  everyIn_mono (fun _ _ _ _ => not_mem_nil) (fun _ h => h) (everyIn_true body)

theorem Surroundings.IsClosed.fits (hs : s.IsClosed) (hm : s.template? name = some m) (hbody : m.body = some body)
    (hdeclared : everyIn (fun a => ∀ name ∈ a.declared, name ∉ R.avoided) (fun _ => True) body)
    (hρ : Renames s.state R.map fun name => name ∈ m.params.map Parameter.name ∨ name ∈ s.state) :
    (Piece.all body).Fits R s.state fun name => name ∈ m.params.map Parameter.name ∨ name ∈ s.state := by
  have hmem : m ∈ s.macros := mem_reverse.mp (mem_of_find?_eq_some hm)
  exact ⟨hs.within m hmem body hbody, everyIn_and (hs.keeps m hmem body hbody) hdeclared, hρ⟩

theorem Routine.Copyable.renames (h : m.Copyable state σ targets body) (hstate : ∀ target ∈ targets, target ∉ state) :
    Renames state (m.renaming targets).map fun name => name ∈ m.params.map Parameter.name ∨ name ∈ state := by
  have hfst : ((bindings m.params targets).map fun x => (x.1, x.2.1)).map Prod.fst = m.params.map Parameter.name := by
    rw [map_map]
    exact map_fst_bindings h.arity
  have hsnd : ((bindings m.params targets).map fun x => (x.1, x.2.1)).map Prod.snd = targets := by
    rw [map_map]
    exact map_snd_bindings h.arity
  have havoided : ∀ name ∈ (m.renaming targets).avoided, name ∉ state := by
    show ∀ name ∈ _ ++ _, name ∉ state
    rw [hfst, hsnd, forall_mem_append]
    exact ⟨fun name hname => (h.unbound name hname).2, hstate⟩
  refine ⟨fun name hname => ?_, fun name hname => ?_, ?_⟩
  · exact (m.renaming targets).fixes name fun hmem => havoided name hmem hname
  · rcases (m.renaming targets).lands name with hsame | hmem
    · rwa [hsame]
    · exact havoided _ hmem
  · intro name other hname hother hn ho heq
    refine Renaming.ofPairs_injective ?_ ?_ ?_ heq
    · rw [hsnd]
      exact h.distinct
    · rw [hfst]
      exact hname.resolve_right hn
    · rw [hfst]
      exact hother.resolve_right ho

/-! ### Both sides -/

/-- Under all names that fit, what the second piece stands for is the counterpart of what the first stands
for. -/
def Corresponds (s s' : Surroundings) (d : Nat) (σ : ScopeStack) (piece piece' : Piece) : Prop :=
  ∀ (R : Renaming) (K : String → Prop) (outside : Prop) (d' : Nat) (out : List Statement),
    d ≤ macroDepth → (d = macroDepth → outside) → d ≤ d' → R = .none ∨ piece' = piece →
    piece.Fits R s.state K → piece.plain s (expander s d) = .ok out →
    ∃ out', (piece'.rename R.map).plain s' (expander s' d') = .ok out' ∧ Counterpart R outside σ (inRegisters s.state K)
        (inRegisters s.state fun name => name ∈ piece.declared ∨ K name) out out'

namespace Corresponds

variable {s' : Surroundings}

theorem nil : Corresponds s s' d σ (.all []) (.all []) := by
  intro R K outside d' out _ _ _ _ _ hplain
  cases hplain
  refine ⟨[], rfl, Counterpart.nil.mono (fun _ h => h) (inRegisters_mono ?_)⟩
  simp [Piece.declared]

theorem cons {first first' : Statement} {out₁ rest rest'}
    (hout₁ : first.plain s (expander s d) = .ok out₁) (hfirst : Corresponds s s' d σ (.one first) (.one first'))
    (hrest : Corresponds s s' d (afterAll σ out₁) (.all rest) (.all rest')) :
    Corresponds s s' d σ (.all (first :: rest)) (.all (first' :: rest')) := by
  intro R K outside d' out hle houtside hd hright hfits hplain
  obtain ⟨out₁', out₂, hplain₁, hplain₂, hplain⟩ := bind₂_eq_ok.mp hplain
  cases hplain
  cases hout₁.symm.trans hplain₁
  have hright₁ : R = .none ∨ Piece.one first' = .one first :=
    hright.imp_right fun h => congrArg Piece.one (List.cons.inj (Piece.all.inj h)).1
  have hright₂ : R = .none ∨ Piece.all rest' = .all rest :=
    hright.imp_right fun h => congrArg Piece.all (List.cons.inj (Piece.all.inj h)).2
  obtain ⟨out₁', hplain₁', hcounterpart₁⟩ := hfirst R K outside d' out₁ hle houtside hd hright₁
    ⟨hfits.within.1, hfits.keeps.1, hfits.renames⟩ hplain₁
  have hdeclared := declared_of_every hfits.keeps.1
  obtain ⟨out₂', hplain₂', hcounterpart₂⟩ := hrest R _ outside d' out₂ hle houtside hd hright₂
    ⟨hfits.within.2, hfits.keeps.2, hfits.renames.declare hdeclared⟩ hplain₂
  refine ⟨out₁' ++ out₂', bind₂_eq_ok.mpr ⟨out₁', out₂', hplain₁', hplain₂', rfl⟩, ?_⟩
  refine (hcounterpart₁.append hcounterpart₂).mono (fun _ h => h) (inRegisters_mono fun name hname => ?_)
  rcases hname with hname | hname
  · rcases mem_append.mp hname with hname | hname
    · exact .inr (.inl hname)
    · exact .inl hname
  · exact .inr (.inr hname)

theorem of_undeclared {t'} (hdeclared : t.declared = [])
    (h : ∀ (R : Renaming) (K : String → Prop) (outside : Prop) (d' : Nat) (out : List Statement),
      d ≤ macroDepth → (d = macroDepth → outside) → d ≤ d' → R = .none ∨ t' = t → (Piece.one t).Fits R s.state K →
      t.plain s (expander s d) = .ok out → ∃ out', (t'.rename R.map).plain s' (expander s' d') = .ok out' ∧
        Counterpart R outside σ (inRegisters s.state K) (inRegisters s.state K) out out') :
    Corresponds s s' d σ (.one t) (.one t') := by
  intro R K outside d' out hle houtside hd hright hfits hplain
  obtain ⟨out', hplain', hcounterpart⟩ := h R K outside d' out hle houtside hd
    (hright.imp_right Piece.one.inj) hfits hplain
  refine ⟨out', hplain', hcounterpart.mono (fun _ h => h) (inRegisters_mono fun name hname => ?_)⟩
  exact hname.resolve_left (by simp [Piece.declared, hdeclared])

theorem block (hbody : Corresponds s s' d σ.push (.all body) (.all body')) :
    Corresponds s s' d σ (.one (.block tag body)) (.one (.block tag body')) := by
  refine of_undeclared rfl fun R K outside d' out hle houtside hd hright hfits hplain => ?_
  obtain ⟨inner, hinner, hplain⟩ := bind_eq_ok.mp hplain
  cases hplain
  obtain ⟨inner', hinner', hcounterpart⟩ := hbody R K outside d' inner hle houtside hd
    (hright.imp_right fun h => congrArg Piece.all (Statement.block.inj h).2)
    ⟨hfits.within, hfits.keeps, hfits.renames⟩ hinner
  exact ⟨_, bind_eq_ok.mpr ⟨inner', hinner', rfl⟩, hcounterpart.block⟩

section
variable (hstate : s'.state = s.state) {c : Comparison} {yes yes' no no' body body' : List Statement}
include hstate

theorem resolve_condition (hρ : Renames s.state R.map K) (c : Comparison) :
    (c.rename R.map).resolve s'.state = (c.resolve s.state).rename R.map := by
  rw [hstate]
  exact c.resolve_rename hρ

theorem branch (hyes : Corresponds s s' d σ.push (.all yes) (.all yes')) :
    Corresponds s s' d σ (.one (.branch tag c yes none)) (.one (.branch tag c yes' none)) := by
  refine of_undeclared rfl fun R K outside d' out hle houtside hd hright hfits hplain => ?_
  obtain ⟨hc, hwithin, -⟩ := hfits.within
  obtain ⟨inner, hinner, hplain⟩ := bind_eq_ok.mp hplain
  cases hplain
  obtain ⟨inner', hinner', hcounterpart⟩ := hyes R K outside d' inner hle houtside hd
    (hright.imp_right fun h => congrArg Piece.all (Statement.branch.inj h).2.2.1)
    ⟨hwithin, hfits.keeps.2.1, hfits.renames⟩ hinner
  refine ⟨_, bind_eq_ok.mpr ⟨inner', hinner', rfl⟩, ?_⟩
  rw [resolve_condition hstate hfits.renames]
  exact hcounterpart.branch (hc.resolve fun _ h => h.resolve s.state)

theorem branchElse (hyes : Corresponds s s' d σ.push (.all yes) (.all yes'))
    (hno : Corresponds s s' d σ.push (.all no) (.all no')) :
    Corresponds s s' d σ (.one (.branch tag c yes (some no))) (.one (.branch tag c yes' (some no'))) := by
  refine of_undeclared rfl fun R K outside d' out hle houtside hd hright hfits hplain => ?_
  obtain ⟨hc, hwithin, hwithin'⟩ := hfits.within
  obtain ⟨inner, other, hinner, hother, hplain⟩ := bind₂_eq_ok.mp hplain
  cases hplain
  obtain ⟨inner', hinner', hcounterpart⟩ := hyes R K outside d' inner hle houtside hd
    (hright.imp_right fun h => congrArg Piece.all (Statement.branch.inj h).2.2.1)
    ⟨hwithin, hfits.keeps.2.1, hfits.renames⟩ hinner
  obtain ⟨other', hother', hcounterpart'⟩ := hno R K outside d' other hle houtside hd
    (hright.imp_right fun h => congrArg Piece.all (Option.some.inj (Statement.branch.inj h).2.2.2))
    ⟨hwithin', hfits.keeps.2.2, hfits.renames⟩ hother
  refine ⟨_, bind₂_eq_ok.mpr ⟨inner', other', hinner', hother', rfl⟩, ?_⟩
  rw [resolve_condition hstate hfits.renames]
  exact hcounterpart.branchElse (hc.resolve fun _ h => h.resolve s.state) hcounterpart'

theorem whileLoop (hbody : Corresponds s s' d σ.push (.all body) (.all body')) :
    Corresponds s s' d σ (.one (.whileLoop tag c body)) (.one (.whileLoop tag c body')) := by
  refine of_undeclared rfl fun R K outside d' out hle houtside hd hright hfits hplain => ?_
  obtain ⟨hc, hwithin⟩ := hfits.within
  obtain ⟨inner, hinner, hplain⟩ := bind_eq_ok.mp hplain
  cases hplain
  obtain ⟨inner', hinner', hcounterpart⟩ := hbody R K outside d' inner hle houtside hd
    (hright.imp_right fun h => congrArg Piece.all (Statement.whileLoop.inj h).2.2)
    ⟨hwithin, hfits.keeps.2, hfits.renames⟩ hinner
  refine ⟨_, bind_eq_ok.mpr ⟨inner', hinner', rfl⟩, ?_⟩
  rw [resolve_condition hstate hfits.renames]
  exact hcounterpart.whileLoop (hc.resolve fun _ h => h.resolve s.state)

theorem loop {c} (hbody : Corresponds s s' d σ.push (.all body) (.all body')) :
    Corresponds s s' d σ (.one (.loop tag body c)) (.one (.loop tag body' c)) := by
  refine of_undeclared rfl fun R K outside d' out hle houtside hd hright hfits hplain => ?_
  obtain ⟨hwithin, hc⟩ := hfits.within
  obtain ⟨inner, hinner, hplain⟩ := bind_eq_ok.mp hplain
  cases hplain
  obtain ⟨inner', hinner', hcounterpart⟩ := hbody R K outside d' inner hle houtside hd
    (hright.imp_right fun h => congrArg Piece.all (Statement.loop.inj h).2.1)
    ⟨hwithin, hfits.keeps.1, hfits.renames⟩ hinner
  refine ⟨_, bind_eq_ok.mpr ⟨inner', hinner', rfl⟩, ?_⟩
  have hresolve : (c.map (·.rename R.map)).map (·.resolve s'.state)
      = (c.map (·.resolve s.state)).map (·.rename R.map) := by
    cases c with
    | none => rfl
    | some c => exact congrArg some (resolve_condition hstate hfits.renames c)
  rw [hresolve]
  refine hcounterpart.loop fun c' hc' => ?_
  obtain ⟨c, rfl, rfl⟩ := Option.map_eq_some_iff.mp hc'
  exact (hc c rfl).resolve fun _ h => h.resolve s.state

theorem action (hcall : ∀ name args, a = .call name args → s.template? name = none ∧ s'.template? name = none) :
    Corresponds s s' d σ (.one (.action tag a)) (.one (.action tag a)) := by
  intro R K outside d' out _ _ _ _ hfits hplain
  obtain ⟨hkeeps, hdeclared⟩ := hfits.keeps
  obtain ⟨actions, hactions, rfl⟩ := actions_of_plain (fun name args h => (hcall name args h).1) hplain
  obtain ⟨hwithin, hsame⟩ := a.within_of_plain hkeeps hfits.within hactions
  have hactions' := a.plain_rename (hfits.renames.declare hdeclared) hfits.within hactions
  rw [← hstate] at hactions'
  have hcall' : ∀ name args, a.rename R.map = .call name args → s'.template? name = none := by
    intro name args h
    cases a with
    | call other args' =>
      obtain ⟨rfl, -⟩ := Action.call.inj h
      exact (hcall other args' rfl).2
    | _ => cases h
  refine ⟨_, plain_of_actions hcall' hactions', ?_⟩
  refine (Counterpart.actions (Action.keepsNames_of_plain hkeeps hactions) hwithin (hsame ▸ hdeclared)).mono
    (fun _ h => h) fun name hname => ?_
  rw [hsame]
  exact hname.1.imp_right fun hK => ⟨hK, hname.2⟩

end

section
variable (hs : s.IsClosed) {name : String} {m m' : Routine} {targets : List String} {body body' : List Statement}
include hs

theorem call (hstate : s'.state = s.state) (hm : s.template? name = some m)
    (hm' : s'.template? name = some m') (hparams : m'.params = m.params)
    (hcall : m.instantiate s.state args tag.line = .ok (names, body)) (hwritten' : m'.body = some body')
    (hbody : Corresponds s s' d (σ.enter names) (.all body) (.all body')) :
    Corresponds s s' (d + 1) σ (.one (.action tag (.call name args))) (.one (.action tag (.call name args))) := by
  refine of_undeclared rfl fun R K outside d' out hle _ hd _ hfits hplain => ?_
  obtain ⟨d', rfl⟩ : ∃ k, d' = k + 1 := ⟨d' - 1, by omega⟩
  obtain ⟨inner, hinner, rfl⟩ := call_of_plain hm hcall hplain
  obtain ⟨targets, hlength, hregisters, rfl, rfl, hwritten⟩ := targets_of_instantiate hcall
  obtain ⟨inner', hinner', hcounterpart⟩ := hbody .none _ False d' inner (by omega) (by omega) (by omega) (.inl rfl)
    (hs.fits hm hwritten (everyIn_none body) (renames_id _ _)) hinner
  have hbody' : plainBlock s' (expander s' d') body' = .ok inner' := by
    have hid : renameAll Renaming.none.map body' = body' := renameAll_id body'
    rw [← hinner']
    exact congrArg (plainBlock s' (expander s' d')) hid.symm
  have hargs : (targets.map ofName).map (·.rename R.map) = (targets.map R.map).map ofName := by
    simp only [map_map]
    rfl
  have hregisters' : ∀ target ∈ targets.map R.map, target ∉ s'.state := by
    rw [hstate]
    intro target htarget
    obtain ⟨other, hother, rfl⟩ := mem_map.mp htarget
    exact hfits.renames.avoids other (hregisters other hother)
  have hcall' := m'.instantiate_of_targets tag.line (by simpa [hparams] using hlength) hregisters' hwritten'
  rw [hparams, bindings_map, ← hargs] at hcall'
  refine ⟨_, plain_of_instantiate hm' hcall' hbody', ?_⟩
  refine Counterpart.secondNames (fun x hx => ?_) (hcounterpart.mono (fun name hname => ?_) fun _ h => h)
  · have htarget : x.2.1 ∈ targets := map_snd_bindings hlength ▸ mem_map_of_mem hx
    have harg := hfits.within (.ofName x.2.1) (mem_map_of_mem htarget)
    exact ⟨harg x.2.1 rfl, hregisters _ htarget⟩
  · rw [map_fst_bindings hlength]
    exact hname.1.resolve_right hname.2

/-- **A call that is replaced by a copy of the macro's body.** -/
theorem copy (hm : s.template? name = some m) (hwritten : m.body = some body)
    (hcopyable : m.Copyable s.state σ targets body) (howned : d + 1 < macroDepth → σ.Owned targets)
    (hbody : Corresponds s s' d (σ.enter (secondNames tag.line (bindings m.params targets))) (.all body) (.all body)) :
    Corresponds s s' (d + 1) σ (.one (.action tag (.call name (targets.map ofName))))
      (.one (.block ⟨tag.line, []⟩ (renameAll (m.renaming targets).map body))) := by
  refine of_undeclared rfl fun R K outside d' out hle houtside hd hright hfits hplain => ?_
  obtain rfl : R = .none := hright.resolve_right fun h => by cases h
  have hregisters := notMem_of_plain hm hplain
  have hcall := m.instantiate_of_targets tag.line hcopyable.arity hregisters hwritten
  obtain ⟨inner, hinner, rfl⟩ := call_of_plain hm hcall hplain
  obtain ⟨inner', hinner', hcounterpart⟩ := hbody (m.renaming targets) _ False d' inner (by omega) (by omega)
    (by omega) (.inr rfl) (hs.fits hm hwritten hcopyable.fresh (hcopyable.renames hregisters)) hinner
  refine ⟨[.block ⟨tag.line, []⟩ inner'], ?_, ?_⟩
  · rw [show Renaming.none.map = id from rfl, Statement.rename_id]
    exact bind_eq_ok.mpr ⟨inner', hinner', rfl⟩
  refine Counterpart.firstNames ⟨tag.line, []⟩ (fun hall x hx => ?_)
    (hcounterpart.mono (fun name hname => ?_) fun _ h => h)
  · have htarget : x.2.1 ∈ targets := map_snd_bindings hcopyable.arity ▸ mem_map_of_mem hx
    have hparam : x.1 ∈ m.params.map Parameter.name := map_fst_bindings hcopyable.arity ▸ mem_map_of_mem hx
    have harg := hfits.within (.ofName x.2.1) (mem_map_of_mem htarget)
    obtain ⟨v, hv, htype⟩ := hcopyable.typed x hx
    refine ⟨(hcopyable.unbound x.1 hparam).1, ⟨harg x.2.1 rfl, hregisters _ htarget⟩, v, hv, htype, ?_⟩
    by_cases hdepth : d + 1 < macroDepth
    · exact howned hdepth x.2.1 htarget v hv
    · intro q hq
      exact Scope.isFree_of_owner (hall (houtside (by omega)) x.2.1 q ⟨v, hv, hq⟩)
  · rw [map_fst_bindings hcopyable.arity]
    exact hname.1.resolve_right hname.2

end
end Corresponds

theorem Inlines.corresponds (hs : s.IsClosed) (hstate : s'.state = s.state) {piece piece' : Piece}
    (h : Inlines s s' d σ piece piece') : Corresponds s s' d σ piece piece' := by
  induction h with
  | nil => exact .nil
  | cons hplain _ _ hfirst hrest => exact .cons hplain hfirst hrest
  | block _ hbody => exact .block hbody
  | branch _ hyes => exact .branch hstate hyes
  | branchElse _ _ hyes hno => exact .branchElse hstate hyes hno
  | whileLoop _ hbody => exact .whileLoop hstate hbody
  | loop _ hbody => exact .loop hstate hbody
  | action hcall => exact .action hstate hcall
  | call hm hm' hparams hcall hbody' _ hbody => exact .call hs hstate hm hm' hparams hcall hbody' hbody
  | copy hm hwritten hcopyable howned _ hbody => exact .copy hs hm hwritten hcopyable howned hbody

section

open Lower

variable {o : Options} {signatures : Signatures}

def Routine.parameterScopes (r : Routine) : ScopeStack := withParameters {} 0 r.params

variable {p p' : Progress}

theorem follows_declareParameters {around around'} (h : p.Linked .none K True around around' p')
    (position : Nat) (params : List Parameter) :
    Follows (declareParameters position params) (declareParameters position params) p p' fun _ q _ q' =>
      q.Linked .none K True around around' q' := by
  induction params generalizing p p' position with
  | nil => exact .pure h
  | cons parameter rest ih =>
    unfold declareParameters
    cases parameter.binding? position with
    | none => exact .failed
    | some b =>
      refine .bind (h.declareVariable not_mem_nil parameter.type (some b) false) fun _ q _ q' hlinked => ?_
      exact ih (hlinked.mono fun _ => .inr) (position + 1)

/-- **Two routines alike but for their bodies, of which one is a counterpart of the other, become the same
code.** -/
theorem follows_routine (hr : ∃ other, r' = { r with body := other })
    (h : Counterpart .none True r.parameterScopes.push K L body body') (hsession : p.session.Alike p'.session) :
    Follows (lowerRoutine o signatures r body) (lowerRoutine o signatures r' body') p p' fun code q code' q' =>
      code = code' ∧ q.session.Alike q'.session := by
  obtain ⟨other, rfl⟩ := hr
  have hstart : Progress.Linked .none (fun _ => True) True [] [] ⟨p.session.enter r.name r.line, {}⟩
      ⟨p'.session.enter r.name r.line, {}⟩ :=
    ⟨hsession.enter r.name r.line, rfl, rfl, isProper_empty, Scope.ownersBound_empty,
      fun _ => Scope.covered_empty, .refl _ _⟩
  have hexits : endsWithExit body' = endsWithExit body := by rw [endsWithExit_eq, endsWithExit_eq, h.exits]
  unfold lowerRoutine
  rw [h.labels, hexits]
  refine .modify (.checked .refl fun layout _ => .ite .failed ?_)
  refine .bind ((follows_declareParameters hstart 0 r.params).given
    (givesFrom_declareParameters isProper_empty 0 r.params)) ?_
  rintro _ q _ q' ⟨hlinked, hmoves⟩
  have hlinked : q.Linked .none K True [] [] q' := hlinked.mono fun _ _ => trivial
  dsimp only
  cases firstRepeated [] (labelsOf body) with
  | some name => exact .failed
  | none =>
    refine .bind (h.inScope _ hmoves.scopes rfl hlinked) ?_
    rintro lines u _ u' hstays
    obtain ⟨rfl, -⟩ := id hstays
    have hlinked := hlinked.stays hstays
    refine .ite (.pure ⟨rfl, hlinked.session⟩) ?_
    rw [emitReturn_eq, emitReturn_eq]
    refine .bind (hlinked.emits _ _) ?_
    rintro leave _ _ _ ⟨rfl, -, -, hsession⟩
    exact .pure ⟨rfl, hsession⟩

inductive Paired : List Routine → List Routine → Prop
  | nil : Paired [] []
  | declared {r rest rest'} (hbody : r.body = none) (hrest : Paired rest rest') : Paired (r :: rest) (r :: rest')
  | defined {r body body' K L rest rest'} (hbody : r.body = some body)
      (hcounterpart : Counterpart .none True r.parameterScopes.push K L body body') (hrest : Paired rest rest') :
      Paired (r :: rest) ({ r with body := some body' } :: rest')

namespace Paired

theorem signaturesOf_eq (h : Paired routines routines') : signaturesOf routines' = signaturesOf routines := by
  unfold signaturesOf
  congr 1
  induction h with
  | nil => rfl
  | declared _ _ ih | defined _ _ _ ih => rw [map_cons, map_cons, ih]

theorem checkRoutines_eq (h : Paired routines routines') (defined : List String) (commands : List (Nat × String)) :
    checkRoutines routines' defined commands = checkRoutines routines defined commands := by
  induction h generalizing defined commands with
  | nil => rfl
  | declared hbody _ ih | defined hbody _ _ ih => simp only [checkRoutines, hbody, ih]

theorem follows (h : Paired routines routines') (hsession : p.session.Alike p'.session) :
    Follows (lowerRoutines o signatures routines) (lowerRoutines o signatures routines') p p'
      fun codes q codes' q' => codes = codes' ∧ q.session.Alike q'.session := by
  induction h generalizing p p' with
  | nil => exact .pure ⟨rfl, hsession⟩
  | declared hbody _ ih =>
    simp only [lowerRoutines, hbody]
    exact ih hsession
  | defined hbody hcounterpart _ ih =>
    simp only [lowerRoutines, hbody]
    refine .bind (follows_routine ⟨_, rfl⟩ hcounterpart hsession) ?_
    rintro code q _ q' ⟨rfl, hsession⟩
    refine .bind (ih hsession) ?_
    rintro codes r _ r' ⟨rfl, hsession⟩
    exact .pure ⟨rfl, hsession⟩

end Paired
end

/-! ### Programs -/

/-- The routines of the second list are those of the first with calls of macros replaced by copies of their
bodies.  The bodies of macros may be any: what they become is compared at each call. -/
inductive InlinesRoutines (s s' : Surroundings) : List Routine → List Routine → Prop
  | nil : InlinesRoutines s s' [] []
  | template {r rest rest'} (other : Option (List Statement)) (hkind : r.kind = .template)
      (hrest : InlinesRoutines s s' rest rest') :
      InlinesRoutines s s' (r :: rest) ({ r with body := other } :: rest')
  | declared {r rest rest'} (hkind : r.kind ≠ .template) (hbody : r.body = none)
      (hrest : InlinesRoutines s s' rest rest') : InlinesRoutines s s' (r :: rest) (r :: rest')
  | defined {r body body' rest rest'} (hkind : r.kind ≠ .template) (hbody : r.body = some body)
      (hinlines : Inlines s s' macroDepth r.parameterScopes.push (.all body) (.all body'))
      (hrest : InlinesRoutines s s' rest rest') :
      InlinesRoutines s s' (r :: rest) ({ r with body := some body' } :: rest')

namespace Program

structure Inlines (p p' : Program) : Prop where
  state : p'.state = p.state
  routines : InlinesRoutines p.surroundings p'.surroundings p.routines p'.routines

/-- Macros use only their parameters, variables in memory and what they declare themselves. -/
def MacrosClosed (p : Program) : Prop := ∀ m ∈ p.routines, m.kind = .template → ∀ body, m.body = some body →
    withinAll (fun name => name ∈ m.params.map Parameter.name ∨ name ∈ p.state.map StateVariable.name) body

def NeverUndefines (p : Program) : Prop := ∀ r ∈ p.routines, ∀ body, r.body = some body →
    everyIn (fun a => ∀ name, a ≠ .undefine name) (fun _ => True) body

variable {p : Program}

theorem NamesOnce.keepsNames (h : p.NamesOnce) (h' : p.NeverUndefines) (hr : r ∈ p.routines)
    (hbody : r.body = some body) : everyIn (fun a => a.keepsNames) (fun _ => True) body := by
  refine everyIn_mono (fun a ha => ?_) (fun _ h => h) (everyIn_and (h r hr body hbody) (h' r hr body hbody))
  cases a with
  | declareAlias => cases ha.1
  | undefine name => exact absurd rfl (ha.2 name)
  | _ => rfl

theorem isClosed_surroundings (hclosed : p.MacrosClosed) (hnames : p.NamesOnce)
    (hundefines : p.NeverUndefines) : p.surroundings.IsClosed where
  within m hm body hbody := by
    obtain ⟨hm, hkind⟩ := mem_filter.mp hm
    exact hclosed m hm (by simpa using hkind) body hbody
  keeps m hm _ hbody := hnames.keepsNames hundefines (mem_filter.mp hm).1 hbody

theorem body_of_plainRoutine (hbody : r.body = some body) (h : plainRoutine s r = .ok r') :
    ∃ inner, plainBlock s (expander s macroDepth) body = .ok inner ∧ r' = { r with body := some inner } := by
  unfold plainRoutine at h
  rw [hbody] at h
  dsimp only at h
  split at h
  next inner hinner => exact ⟨inner, hinner, (Except.ok.inj h).symm⟩
  · cases h

theorem plainRoutine_of_body {inner} (hbody : r.body = some body)
    (hinner : plainBlock s (expander s macroDepth) body = .ok inner) :
    plainRoutine s r = .ok { r with body := some inner } := by
  unfold plainRoutine
  rw [hbody]
  dsimp only
  rw [hinner]

end Program

theorem InlinesRoutines.paired (hs : s.IsClosed) (hstate : s'.state = s.state)
    (h : InlinesRoutines s s' routines routines')
    (hkeeps : ∀ r ∈ routines, ∀ body, r.body = some body → everyIn (fun a => a.keepsNames) (fun _ => True) body)
    {out}
    (hplain : (routines.filter (·.kind != .template)).mapM (plainRoutine s) = .ok out) :
    ∃ out', (routines'.filter (·.kind != .template)).mapM (plainRoutine s') = .ok out' ∧ Paired out out' := by
  induction h generalizing out with
  | nil =>
    cases hplain
    exact ⟨[], rfl, .nil⟩
  | template other hkind _ ih =>
    rw [filter_cons_of_neg (by simp [hkind])] at hplain ⊢
    exact ih (forall_mem_cons.mp hkeeps).2 hplain
  | declared hkind hbody _ ih =>
    rw [filter_cons_of_pos (by simp [hkind]), mapM_cons] at hplain ⊢
    obtain ⟨r, rest, hr, hrest, hplain⟩ := bind₂_eq_ok.mp hplain
    cases hplain
    simp only [plainRoutine, hbody] at hr
    cases hr
    obtain ⟨rest', hrest', hpaired⟩ := ih (forall_mem_cons.mp hkeeps).2 hrest
    refine ⟨_, bind₂_eq_ok.mpr ⟨_, rest', ?_, hrest', rfl⟩, .declared hbody hpaired⟩
    simp only [plainRoutine, hbody]
  | defined hkind hbody hinlines _ ih =>
    rw [filter_cons_of_pos (by simp [hkind]), mapM_cons] at hplain ⊢
    obtain ⟨r, rest, hr, hrest, hplain⟩ := bind₂_eq_ok.mp hplain
    cases hplain
    obtain ⟨inner, hinner, rfl⟩ := body_of_plainRoutine hbody hr
    obtain ⟨hkeeps, hkeepsRest⟩ := forall_mem_cons.mp hkeeps
    have hfits : (Piece.all _).Fits .none s.state fun _ => True :=
      ⟨withinAll_of_forall (fun _ => trivial) _, everyIn_and (hkeeps _ hbody) (everyIn_none _), renames_id _ _⟩
    obtain ⟨inner', hinner', hcounterpart⟩ := hinlines.corresponds hs hstate .none _ True macroDepth inner
      (le_refl _) (fun _ => trivial) (le_refl _) (.inl rfl) hfits hinner
    rw [show Renaming.none.map = id from rfl, Piece.rename_id] at hinner'
    obtain ⟨rest', hrest', hpaired⟩ := ih hkeepsRest hrest
    refine ⟨_, bind₂_eq_ok.mpr ⟨_, rest', plainRoutine_of_body rfl hinner', hrest', rfl⟩, ?_⟩
    exact .defined rfl hcounterpart hpaired

namespace Program

/-- **A program with calls of macros replaced by copies of their bodies becomes the same lines, with the same
warnings.** -/
theorem lower_inlines {p p' q : Program} (hnames : p.NamesOnce) (hundefines : p.NeverUndefines)
    (hclosed : p.MacrosClosed) (hinlines : p.Inlines p')
    (hplain : p.plain = .ok q) {o : Options} {codes : List Code} {warnings : List Warning}
    (hlower : q.lower o = .ok (codes, warnings)) :
    ∃ q', p'.plain = .ok q' ∧ q'.lower o = .ok (codes, warnings) := by
  have hstate : p'.surroundings.state = p.surroundings.state :=
    congrArg (List.map StateVariable.name) hinlines.state
  obtain ⟨routines, hroutines, hplain⟩ := bind_eq_ok.mp hplain
  obtain rfl := Except.ok.inj hplain
  obtain ⟨routines', hroutines', hpaired⟩ := hinlines.routines.paired
    (isClosed_surroundings hclosed hnames hundefines) hstate
    (fun r hr body hbody => hnames.keepsNames hundefines hr hbody) hroutines
  refine ⟨{ p' with routines := routines' }, bind_eq_ok.mpr ⟨routines', hroutines', rfl⟩, ?_⟩
  obtain ⟨⟨code, progress⟩, hcode, hlower⟩ := bind_eq_ok.mp hlower
  obtain ⟨rfl, rfl⟩ := Prod.mk.inj (Except.ok.inj hlower)
  have hfollows : Follows (lowerProgram o { p with routines }) (lowerProgram o { p' with routines := routines' })
      {} {} fun codes q codes' q' => codes = codes' ∧ q.session.Alike q'.session := by
    unfold lowerProgram
    dsimp only
    rw [hinlines.state, hpaired.checkRoutines_eq, hpaired.signaturesOf_eq]
    refine .same fun _ r => .same fun commands r => .same fun _ r => ?_
    exact hpaired.follows ⟨r.session.site.statement, rfl⟩
  obtain ⟨_, progress', hcode', rfl, statement, hsession⟩ := hfollows hcode
  refine bind_eq_ok.mpr ⟨_, hcode', ?_⟩
  simp only [hsession]
  rfl

def turned (target source : String) : Statement :=
  .action ⟨1, []⟩ (.assign ⟨target, none, none, .unary .not (.ofName source), false⟩)

def mirrored (source : String) : List Statement :=
  [.action ⟨1, []⟩ (.declare ⟨"w", .u32, none, false⟩), turned "w" source]

def mirror : Routine := ⟨.template, "n", [⟨"z", .u32, none⟩], some (mirrored "z"), [], 1⟩

def mirrorTwice (first : Statement) : Routine :=
  ⟨.template, "m", [⟨"y", .u32, none⟩], some [first, turned "y" "y"], [], 1⟩

def callWith (name target : String) : Statement := .action ⟨1, []⟩ (.call name [.ofName target])

def mirroring : Program where
  routines := [mirror, mirrorTwice (callWith "n" "y"),
     ⟨.function, "f", [⟨"a", .u32, none⟩], some [callWith "m" "a"], [], 1⟩,
     ⟨.function, "g", [⟨"b", .u32, none⟩], some [callWith "m" "b"], [], 1⟩]

def mirroringCopies : Program where
  routines := [mirror, mirrorTwice (.block ⟨1, []⟩ (mirrored "y")),
     ⟨.function, "f", [⟨"a", .u32, none⟩], some [.block ⟨1, []⟩ [callWith "n" "a", turned "a" "a"]], [], 1⟩,
     ⟨.function, "g", [⟨"b", .u32, none⟩], some [callWith "m" "b"], [], 1⟩]

def mirroringCode (name : String) : Code where
  name := name
  command := none
  argSize := 0
  align := none
  lines := [.op ⟨.nor, [.reg (.scalar 8), .reg (.scalar 4), .reg .zero], ⟨1, none⟩⟩,
     .op ⟨.nor, [.reg (.scalar 4), .reg (.scalar 4), .reg .zero], ⟨1, none⟩⟩,
     .op ⟨.jr, [.reg .returnAddress], ⟨1, none⟩⟩,
     .op ⟨.nop, [], ⟨1, none⟩⟩]

section

theorem inlines_turned (target source : String) :
    Microcode.Inlines s s' d σ (.one (turned target source)) (.one (turned target source)) := by
  refine .action fun name args h => ?_
  cases h

theorem inlines_mirrored : Microcode.Inlines mirroring.surroundings mirroringCopies.surroundings d σ
    (.all (mirrored "z")) (.all (mirrored "z")) := by
  refine .cons rfl (.action fun name args h => ?_) (.cons rfl (inlines_turned _ _) .nil)
  cases h

theorem inlines_mirror {v} (hv : σ.top.get? "y" = some v) (htype : v.type = .u32)
    (hz : σ.top.get? "z" = none) (howned : ∀ q ∈ v.registers, σ.top.isFree q = false) :
    Microcode.Inlines mirroring.surroundings mirroringCopies.surroundings (d + 1) σ (.one (callWith "n" "y"))
      (.one (.block ⟨1, []⟩ (mirrored "y"))) := by
  show Microcode.Inlines _ _ (d + 1) σ (.one (.action ⟨1, []⟩ (.call "n" (["y"].map ofName))))
    (.one (.block ⟨1, []⟩ (renameAll (mirror.renaming ["y"]).map (mirrored "z"))))
  have hcopyable : mirror.Copyable [] σ ["y"] (mirrored "z") :=
    { arity := rfl
      distinct := by simp
      typed := by simp [bindings, mirror, hv, htype]
      unbound := by simp [mirror, hz]
      fresh := by
        simp [everyIn, mirrored, turned, Statement.Every, Action.declared, Routine.renaming, Renaming.ofPairs,
          bindings, mirror] }
  refine .copy rfl rfl hcopyable (fun _ target htarget w hw => ?_) inlines_mirrored
  obtain rfl := mem_singleton.mp htarget
  cases hv.symm.trans hw
  exact howned

theorem inlines_mirrorTwice : Microcode.Inlines mirroring.surroundings mirroringCopies.surroundings (d + 1) σ
    (.all [callWith "n" "y", turned "y" "y"]) (.all [callWith "n" "y", turned "y" "y"]) :=
  .cons rfl (.call rfl rfl rfl rfl rfl inlines_mirrored) (.cons rfl (inlines_turned _ _) .nil)

end

theorem mirroring_inlines : mirroring.Inlines mirroringCopies := by
  refine ⟨rfl, .template _ rfl (.template _ rfl (.defined (by decide) rfl ?_ (.defined (by decide) rfl ?_ .nil)))⟩
  · refine .cons rfl ?_ .nil
    show Microcode.Inlines _ _ (63 + 1) _ (.one (.action ⟨1, []⟩ (.call "m" (["a"].map ofName))))
      (.one (.block ⟨1, []⟩ (renameAll ((mirrorTwice (callWith "n" "y")).renaming ["a"]).map
        [callWith "n" "y", turned "y" "y"])))
    refine .copy rfl rfl ⟨rfl, by simp, ?_, ?_, ?_⟩ (fun h => absurd h (by decide)) inlines_mirrorTwice
    · exact forall_mem_singleton.mpr ⟨⟨.scalar 4, .u32, false⟩, rfl, rfl⟩
    · exact forall_mem_singleton.mpr ⟨rfl, not_mem_nil⟩
    · simp [everyIn, turned, callWith, Statement.Every, Action.declared]
  · refine .cons rfl (.call (d := 63) rfl rfl rfl rfl rfl (.cons rfl ?_ (.cons rfl (inlines_turned _ _) .nil))) .nil
    exact inlines_mirror (v := ⟨.scalar 4, .u32, false⟩) rfl rfl rfl (by decide)

theorem mirroring_lower : mirroring.NamesOnce ∧ mirroring.NeverUndefines ∧ mirroring.MacrosClosed ∧
    mirroring.Inlines mirroringCopies ∧
    ∃ q q', mirroring.plain = .ok q ∧ q.lower {} = .ok ([mirroringCode "f", mirroringCode "g"], []) ∧
      mirroringCopies.plain = .ok q' ∧ q'.lower {} = .ok ([mirroringCode "f", mirroringCode "g"], []) := by
  obtain ⟨hnames, hundefines⟩ : mirroring.NamesOnce ∧ mirroring.NeverUndefines := by
    constructor <;> intro r hr body hbody
    all_goals
      simp only [mirroring, List.mem_cons, List.not_mem_nil, or_false] at hr
      rcases hr with rfl | rfl | rfl | rfl
      all_goals
        cases hbody
        simp [Microcode.NamesOnce, everyIn, mirrored, turned, callWith, Statement.Every, Action.isAlias]
  have hclosed : mirroring.MacrosClosed := by
    intro m hm hkind body hbody
    simp only [mirroring, List.mem_cons, List.not_mem_nil, or_false] at hm
    rcases hm with rfl | rfl | rfl | rfl
    · cases hbody
      simp [withinAll, Statement.Within, Action.Within, mirrored, mirror, turned, Statement.declared, Action.declared,
        Expr.All, Operand.Names, Operand.name?, Operand.ofName]
    · cases hbody
      simp [withinAll, Statement.Within, Action.Within, mirrorTwice, callWith, turned, Statement.declared,
        Action.declared, Expr.All, CallArg.All, CallArg.ofName, Operand.Names, Operand.name?, Operand.ofName]
    all_goals cases hkind
  have hcode : (mirroring.plain >>= fun q => q.lower {}) = .ok ([mirroringCode "f", mirroringCode "g"], []) := by
    have hoption : (mirroring.plain >>= fun q => q.lower {}).toOption =
      some ([mirroringCode "f", mirroringCode "g"], []) := by decide +kernel
    exact ok_of_toOption hoption
  obtain ⟨q, hplain, hlower⟩ := bind_eq_ok.mp hcode
  obtain ⟨q', hplain', hlower'⟩ := lower_inlines hnames hundefines hclosed mirroring_inlines hplain hlower
  exact ⟨hnames, hundefines, hclosed, mirroring_inlines, q, q', hplain, hlower, hplain', hlower'⟩

def concealing (second : Statement) : Program where
  routines := [mirror, ⟨.template, "m", [⟨"y", .u32, none⟩],
      some [.action ⟨1, []⟩ (.declare ⟨"x", .u32, some (.index 9), false⟩), second], [], 1⟩,
     ⟨.function, "f", [],
      some [.action ⟨1, []⟩ (.declare ⟨"x", .u32, some (.index 8), false⟩), callWith "m" "x"], [], 1⟩]

-- the register of `y` has no owner at the call: only the call gives it one, and `w` is put elsewhere
example : ((concealing (callWith "n" "y")).plain >>= (·.lower {})).toOption
    ≠ ((concealing (.block ⟨1, []⟩ (mirrored "y"))).plain >>= (·.lower {})).toOption := by decide +kernel

end Program
end Microcode
