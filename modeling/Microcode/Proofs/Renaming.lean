import Microcode.Proofs.Address

/-!
Other names for variables.

A program can be written with other names for its variables.  A name that stands for another wherever it is
used goes through the step to plain form unnoticed; only a chain asks whether an operand is its own target.
-/

namespace Microcode

open List Statement Function

variable {ρ : String → String} {K : String → Prop} {target : String} {state : List String}

def Operand.rename (ρ : String → String) (o : Operand) : Operand := match o.atom with
  | .variable name => ⟨.variable (ρ name), o.swizzle⟩
  | _ => o

def Comparison.rename (ρ : String → String) (c : Comparison) : Comparison := ⟨c.left.rename ρ, c.op, c.right.rename ρ⟩

def CallArg.rename (ρ : String → String) : CallArg → CallArg
  | .operand o => .operand (o.rename ρ)
  | .string text => .string text

def Expr.rename (ρ : String → String) : Expr → Expr
  | .constant c => .constant c
  | .copy o => .copy (o.rename ρ)
  | .unary op o => .unary op (o.rename ρ)
  | .binary op l r => .binary op (l.rename ρ) (r.rename ρ)
  | .withConstant op l c => .withConstant op (l.rename ρ) c
  | .call name args z => .call name (args.map (·.rename ρ)) z
  | .test c => .test (c.rename ρ)
  | .choose c yes no => .choose (c.rename ρ) (yes.rename ρ) (no.rename ρ)
  | .flat parts => .flat (mapParts (·.rename ρ) parts)

def Assignment.rename (ρ : String → String) (a : Assignment) : Assignment :=
  { a with target := ρ a.target, value := a.value.rename ρ }

def Declaration.rename (ρ : String → String) (d : Declaration) : Declaration := { d with name := ρ d.name }

def Action.rename (ρ : String → String) : Action → Action
  | .declare d => .declare (d.rename ρ)
  | .declareInit d value => .declareInit (d.rename ρ) (value.rename ρ)
  | .declareMany names type register isConst => .declareMany (names.map ρ) type register isConst
  | .declareAlias name target type => .declareAlias (ρ name) (ρ target) type
  | .undefine name => .undefine (ρ name)
  | .assign a => .assign (a.rename ρ)
  | .call name args => .call name (args.map (·.rename ρ))
  | other => other

mutual

def Statement.rename (ρ : String → String) : Statement → Statement
  | .block tag body => .block tag (renameAll ρ body)
  | .branch tag c yes no =>
    .branch tag (c.rename ρ) (renameAll ρ yes) (match no with
      | none => none
      | some no => some (renameAll ρ no))
  | .whileLoop tag c body => .whileLoop tag (c.rename ρ) (renameAll ρ body)
  | .loop tag body c => .loop tag (renameAll ρ body) (c.map (·.rename ρ))
  | .action tag a => .action tag (a.rename ρ)

def renameAll (ρ : String → String) : List Statement → List Statement
  | [] => []
  | s :: rest => s.rename ρ :: renameAll ρ rest

end

theorem Operand.rename_id (o : Operand) : o.rename id = o := by
  obtain ⟨atom, swizzle⟩ := o
  cases atom <;> rfl

theorem CallArg.rename_id (a : CallArg) : a.rename id = a := by
  cases a with
  | operand o => exact congrArg CallArg.operand o.rename_id
  | string text => rfl

theorem Comparison.rename_id (c : Comparison) : c.rename id = c := by
  rw [Comparison.rename, Operand.rename_id, Operand.rename_id]

theorem Expr.rename_id (e : Expr) : e.rename id = e := by
  cases e with
  | flat parts =>
    have hall : allParts (fun o => o.rename id = o) parts := allParts_of_forall Operand.rename_id parts
    rw [Expr.rename, mapParts_of_all (fun _ h => h) hall]
  | _ => simp [Expr.rename, Operand.rename_id, Comparison.rename_id, CallArg.rename_id]

theorem Action.rename_id (a : Action) : a.rename id = a := by
  cases a <;>
    simp [Action.rename, Declaration.rename, Assignment.rename, Expr.rename_id, CallArg.rename_id]

mutual

theorem Statement.rename_id : ∀ s : Statement, s.rename id = s
  | .block tag body => by rw [rename, renameAll_id body]
  | .branch tag c yes none => by rw [rename, renameAll_id yes, Comparison.rename_id]
  | .branch tag c yes (some no) => by
    rw [rename, renameAll_id yes, renameAll_id no, Comparison.rename_id]
  | .whileLoop tag c body => by rw [rename, renameAll_id body, Comparison.rename_id]
  | .loop tag body none => by rw [rename, renameAll_id body, Option.map_none]
  | .loop tag body (some c) => by
    rw [rename, renameAll_id body, Option.map_some, Comparison.rename_id]
  | .action tag a => by rw [rename, Action.rename_id]

theorem renameAll_id : ∀ body : List Statement, renameAll id body = body
  | [] => rfl
  | s :: rest => by rw [renameAll, Statement.rename_id s, renameAll_id rest]

end

/-! ### Names that are used and names that are declared -/

def Operand.Names (K : String → Prop) (o : Operand) : Prop := ∀ name, o.name? = some name → K name

def Action.declared : Action → List String
  | .declare d | .declareInit d _ => [d.name]
  | .declareMany names _ _ _ => names
  | .declareAlias name _ _ => [name]
  | _ => []

/-- Whether the action leaves the names that are known, and what they stand for, but for new variables. -/
def Action.keepsNames : Action → Bool
  | .declareAlias .. | .undefine _ => false
  | _ => true

/-- All variables that the action uses have names with the property.  A variable that is given a value where
it is declared may already be used there. -/
def Action.Within (K : String → Prop) : Action → Prop
  | .declareInit d value => value.All (Operand.Names fun name => name = d.name ∨ K name)
  | .declareAlias _ target _ => K target
  | .undefine name => K name
  | .assign a => K a.target ∧ a.value.All (Operand.Names K)
  | .call _ args => ∀ a ∈ args, a.All (Operand.Names K)
  | _ => True

variable {P Q : Operand → Prop} {L K' : String → Prop} {o : Operand} {actions : List Action} {parts : List Part}

theorem Operand.Names.mono (hKL : ∀ name, K name → L name) (h : o.Names K) :
    o.Names L := fun name hname => hKL name (h name hname)

theorem Action.Within.mono (hKL : ∀ name, K name → L name) {a : Action} (h : a.Within K) : a.Within L := by
  cases a with
  | declareInit d value => exact Expr.All.mono (fun _ => Operand.Names.mono fun name => .imp_right (hKL name)) h
  | declareAlias name target type | undefine name => exact hKL _ h
  | assign a => exact ⟨hKL _ h.1, h.2.mono fun _ => Operand.Names.mono hKL⟩
  | call name args => exact fun a ha => (h a ha).mono fun _ => Operand.Names.mono hKL
  | _ => trivial

/-- All variables that actions in a row use have names with the property, or are declared by one before. -/
def withinActions (K : String → Prop) : List Action → Prop
  | [] => True
  | a :: rest => a.Within K ∧ withinActions (fun name => name ∈ a.declared ∨ K name) rest

theorem withinActions_of_forall (h : ∀ a ∈ actions, a.Within K) : withinActions K actions := by
  induction actions generalizing K with
  | nil => trivial
  | cons a rest ih =>
    obtain ⟨ha, hrest⟩ := forall_mem_cons.mp h
    exact ⟨ha, ih fun b hb => (hrest b hb).mono fun _ => .inr⟩

/-- Other names for some variables: those in memory keep theirs, no other variable gets one of them, and
different names of those with the property stay different. -/
structure Renames (state : List String) (ρ : String → String) (K : String → Prop) : Prop where
  keeps : ∀ name ∈ state, ρ name = name
  avoids : ∀ name, name ∉ state → ρ name ∉ state
  injective : ∀ name other, K name → K other → name ∉ state → other ∉ state → ρ name = ρ other → name = other

theorem Renames.mono (h : Renames state ρ K) (hK : ∀ name, K' name → K name) : Renames state ρ K' :=
  { h with injective := fun name other hname hother => h.injective name other (hK _ hname) (hK _ hother) }

theorem renames_id (state : List String) (K : String → Prop) : Renames state id K where
  keeps _ _ := rfl
  avoids _ h := h
  injective _ _ _ _ _ _ h := h

@[simp] theorem Operand.name?_rename (ρ : String → String) (o : Operand) : (o.rename ρ).name? = o.name?.map ρ := by
  obtain ⟨atom, swizzle⟩ := o
  cases atom <;> rfl

theorem Operand.keepsConstants_rename (ρ : String → String) : KeepsConstants (Operand.rename ρ) where
  constant? o := by
    obtain ⟨atom, swizzle⟩ := o
    cases atom <;> rfl
  ofConstant _ := rfl

theorem Operand.rename_ofName (ρ : String → String) (name : String) :
    (Operand.ofName name).rename ρ = .ofName (ρ name) := rfl

section

theorem Expr.ofOperand_rename (o : Operand) : Expr.ofOperand (o.rename ρ) = (Expr.ofOperand o).rename ρ := by
  unfold Expr.ofOperand
  rw [(Operand.keepsConstants_rename ρ).constant?]
  split <;> rfl

theorem Expr.ofStep_rename (op : BinaryOp) (l r : Operand) :
    Expr.ofStep op (l.rename ρ) (r.rename ρ) = (Expr.ofStep op l r).rename ρ := by
  unfold Expr.ofStep
  rw [(Operand.keepsConstants_rename ρ).constant?]
  split <;> rfl

def Operand.Keeps (ρ : String → String) (target : String) (o : Operand) : Prop :=
  ∀ name, o.name? = some name → ρ name = ρ target → name = target

variable {steps : List (BinaryOp × Operand)} {values : List Expr}

theorem laterSteps_rename (hsteps : ∀ x ∈ steps, x.2.Keeps ρ target) (h : laterSteps target steps = .ok values) :
    laterSteps (ρ target) (steps.map fun x => (x.1, x.2.rename ρ)) = .ok (values.map (·.rename ρ)) := by
  obtain ⟨hnames, rfl⟩ := laterSteps_eq_ok.mp h
  refine laterSteps_eq_ok.mpr ⟨forall_mem_map.mpr fun x hx heq => ?_, ?_⟩
  · rw [Operand.name?_rename, Option.map_eq_some_iff] at heq
    obtain ⟨name, hsome, heq⟩ := heq
    exact hnames x hx (hsteps x hx name hsome heq ▸ hsome)
  · simp [← Operand.rename_ofName, Expr.ofStep_rename]

theorem chainSteps_rename {head} (hsteps : ∀ x ∈ steps, x.2.Keeps ρ target)
    (h : chainSteps target head steps = .ok values) :
    chainSteps (ρ target) (head.rename ρ) (steps.map fun x => (x.1, x.2.rename ρ)) = .ok (values.map (·.rename ρ)) := by
  obtain ⟨value, rest, later, hopens, hlater, rfl⟩ := chainSteps_eq_ok.mp h
  have hconst := (Operand.keepsConstants_rename ρ).constant? head
  cases hopens with
  | load hload =>
    refine chainSteps_eq_ok.mpr ⟨_, _, _, .load ?_, laterSteps_rename hsteps hlater, ?_⟩
    · simpa [hconst] using hload
    · rw [Expr.ofOperand_rename, map_cons]
  | combine hcombine =>
    refine chainSteps_eq_ok.mpr ⟨_, _, _, .combine (hconst.trans hcombine),
      laterSteps_rename (forall_mem_cons.mp hsteps).2 hlater, ?_⟩
    rw [Expr.ofStep_rename, map_cons]

variable {steps : List Assignment}

/-- **A chain under other names is the chain.** -/
theorem chainOfParts_rename {swizzle} (hparts : allParts (Operand.Keeps ρ target) parts)
    (h : chainOfParts target swizzle parts = .ok steps) :
    chainOfParts (ρ target) swizzle (mapParts (·.rename ρ) parts) = .ok (steps.map (·.rename ρ)) := by
  obtain ⟨head, rest, values, hrest, hvalues, rfl⟩ := chainOfParts_eq_ok.mp h
  have htarget : (Operand.ofName target).Keeps ρ target := fun _ hname _ => (Option.some.inj hname).symm
  have hconst (c : Constant) : (Operand.ofConstant c).Keeps ρ target := fun _ hname => nomatch hname
  have hkeeps := (hrest.all htarget rfl hconst hparts).2
  refine chainOfParts_eq_ok.mpr ⟨_, _, _, hrest.map (Operand.keepsConstants_rename ρ),
    chainSteps_rename hkeeps hvalues, ?_⟩
  simp [Assignment.rename, comp_def]

end

/-! ### The plain form -/

section

theorem Operand.resolve_rename (hρ : Renames state ρ K) (o : Operand) :
    (o.rename ρ).resolve state = (o.resolve state).rename ρ := by
  obtain ⟨atom, swizzle⟩ := o
  cases atom with
  | «variable» name =>
    unfold Operand.resolve Operand.rename
    dsimp only
    by_cases hname : name ∈ state
    · rw [hρ.keeps name hname]
      simp [hname]
    · simp [hname, hρ.avoids name hname]
  | address name => rfl
  | constant c => rfl

theorem Comparison.resolve_rename (hρ : Renames state ρ K) (c : Comparison) :
    (c.rename ρ).resolve state = (c.resolve state).rename ρ := by
  simp only [Comparison.resolve, Comparison.rename, Operand.resolve_rename hρ]

theorem CallArg.resolve_rename (hρ : Renames state ρ K) (a : CallArg) :
    (a.rename ρ).resolve state = (a.resolve state).rename ρ := by
  cases a with
  | operand o => exact congrArg CallArg.operand (o.resolve_rename hρ)
  | string text => rfl

theorem map_resolve_rename (hρ : Renames state ρ K) (args : List CallArg) :
    (args.map (·.rename ρ)).map (·.resolve state) = (args.map (·.resolve state)).map (·.rename ρ) := by
  simp only [map_map, comp_def, CallArg.resolve_rename hρ]

mutual

theorem Part.resolve_map (hρ : Renames state ρ K) : ∀ p : Part,
    (p.map (·.rename ρ)).resolve state = (p.resolve state).map (·.rename ρ)
  | .operand o => congrArg Part.operand (o.resolve_rename hρ)
  | .op _ => rfl
  | .group parts => congrArg Part.group (resolveParts_map hρ parts)

theorem resolveParts_map (hρ : Renames state ρ K) : ∀ parts : List Part,
    resolveParts state (mapParts (·.rename ρ) parts) = mapParts (·.rename ρ) (resolveParts state parts)
  | [] => rfl
  | p :: rest => by rw [mapParts, resolveParts, Part.resolve_map hρ p, resolveParts_map hρ rest]; rfl

end

theorem Expr.resolve_rename (hρ : Renames state ρ K) (e : Expr) :
    (e.rename ρ).resolve state = (e.resolve state).rename ρ := by
  cases e with
  | flat parts => exact congrArg Expr.flat (resolveParts_map hρ parts)
  | call name args z => exact congrArg (Expr.call name · z) (map_resolve_rename hρ args)
  | _ => simp only [Expr.rename, Expr.resolve, Operand.resolve_rename hρ, Comparison.resolve_rename hρ]

theorem Expr.compound?_rename (target : String) (op : BinaryOp) (e : Expr) :
    (e.rename ρ).compound? (ρ target) op = (e.compound? target op).map (·.rename ρ) := by
  cases e <;> rfl

theorem Assignment.whole?_rename (a : Assignment) : (a.rename ρ).whole? = a.whole?.map (·.rename ρ) := by
  unfold Assignment.whole?
  rw [show (a.rename ρ).op = a.op from rfl]
  cases a.op with
  | none => rfl
  | some op => exact Expr.compound?_rename a.target op a.value

/-! #### The operands that are left -/

theorem Operand.Names.resolve (state : List String) (h : o.Names K) :
    (o.resolve state).Names fun name => K name ∧ name ∉ state := by
  intro name hname
  obtain ⟨atom, swizzle⟩ := o
  cases atom with
  | «variable» other =>
    unfold Operand.resolve at hname
    dsimp only at hname
    split at hname
    · cases hname
    next hother =>
      cases hname
      exact ⟨h _ rfl, by simpa using hother⟩
  | address other | constant c => cases hname

theorem Operand.Names.keeps (hρ : Renames state ρ K) (htarget : K target)
    (hstate : target ∉ state) (h : o.Names fun name => K name ∧ name ∉ state) : o.Keeps ρ target := by
  intro name hname heq
  obtain ⟨hK, hmem⟩ := h name hname
  exact hρ.injective name target hK htarget hmem hstate heq

variable {a : Assignment} {value : Expr}

theorem Operand.names_ofConstant (c : Constant) : (Operand.ofConstant c).Names K := fun _ h => nomatch h

theorem Operand.names_ofName {name : String} (h : K name) : (Operand.ofName name).Names K := by
  intro other hother
  cases hother
  exact h

variable {steps : List Assignment}

/-- **An assignment under other names has the same plain form under other names.** -/
theorem Assignment.plain_rename (hρ : Renames state ρ K) (htarget : K a.target)
    (ha : a.value.All (Operand.Names K)) (h : a.plain state = .ok steps) :
    (a.rename ρ).plain state = .ok (steps.map (·.rename ρ)) := by
  obtain ⟨hstate, value, hwhole, h⟩ := Assignment.plain_cases h
  have hstate' : (a.rename ρ).target ∉ state := hρ.avoids a.target hstate
  have hwhole' : (a.rename ρ).whole? = some (value.rename ρ) := by
    rw [Assignment.whole?_rename, hwhole]
    rfl
  rcases h with ⟨parts, chain, hparts, hchain, rfl⟩ | ⟨hflat, rfl⟩
  · have hall := (a.all_of_whole? Operand.names_ofConstant (Operand.names_ofName htarget) ha hwhole).resolve
      (fun _ h => Operand.Names.resolve state h)
    rw [hparts] at hall
    have hkeeps := allParts_mono (fun _ h => Operand.Names.keeps hρ htarget hstate h) hall
    have hparts' : (value.rename ρ).resolve state = .flat (mapParts (·.rename ρ) parts) := by
      rw [Expr.resolve_rename hρ, hparts]
      rfl
    rw [Assignment.plain_of_chain hstate' hwhole' hparts' (chainOfParts_rename hkeeps hchain)]
    simp [Assignment.rename, comp_def]
  · have hflat' (parts : List Part) : (value.rename ρ).resolve state ≠ .flat parts := by
      rw [Expr.resolve_rename hρ]
      cases hvalue : value.resolve state with
      | flat parts => exact absurd hvalue (hflat parts)
      | _ => simp [Expr.rename]
    rw [Assignment.plain_of_single hstate' hwhole' hflat', Expr.resolve_rename hρ]
    rfl

/-! #### Actions -/

variable (type : DataType) (isConst : Bool) (base : Option Nat) (names : List String)

theorem consecutive_rename :
    consecutive type isConst base (names.map ρ) = (consecutive type isConst base names).map (Action.rename ρ) := by
  induction names generalizing base with
  | nil => rfl
  | cons name rest ih =>
    rw [map_cons, consecutive, ih]
    rfl

/-- **An action under other names has the same plain form under other names.** -/
theorem Action.plain_rename {a : Action} (hρ : Renames state ρ fun name => name ∈ a.declared ∨ K name)
    (ha : a.Within K) (h : a.plain state = .ok actions) :
    (a.rename ρ).plain state = .ok (actions.map (·.rename ρ)) := by
  have hassigns (steps : List Assignment) :
      (steps.map (·.rename ρ)).map Action.assign = (steps.map Action.assign).map (·.rename ρ) := by
    simp [Action.rename, comp_def]
  cases a with
  | declareInit d value =>
    obtain ⟨steps, hsteps, h⟩ := bind_eq_ok.mp h
    cases h
    have hρ' : Renames state ρ fun name => name = d.name ∨ K name := by simpa [Action.declared] using hρ
    have hsteps' := Assignment.plain_rename (a := ⟨d.name, none, none, value, true⟩) hρ' (.inl rfl) ha hsteps
    refine bind_eq_ok.mpr ⟨_, hsteps', ?_⟩
    rw [hassigns]
    rfl
  | declareMany names type register isConst =>
    cases register with
    | none =>
      cases h
      exact congrArg Except.ok (consecutive_rename type isConst none names)
    | some binding =>
      obtain ⟨base, hbase, h⟩ := bind_eq_ok.mp h
      cases h
      exact bind_eq_ok.mpr ⟨base, hbase, congrArg Except.ok (consecutive_rename type isConst base names)⟩
  | assign assignment =>
    obtain ⟨steps, hsteps, h⟩ := bind_eq_ok.mp h
    cases h
    have hρ' : Renames state ρ K := hρ.mono fun _ => .inr
    refine bind_eq_ok.mpr ⟨_, Assignment.plain_rename hρ' ha.1 ha.2 hsteps, ?_⟩
    rw [hassigns]
    rfl
  | call name args =>
    cases h
    exact congrArg (fun args => Except.ok [Action.call name args]) (map_resolve_rename hρ args)
  | _ =>
    cases h
    rfl

theorem declared_consecutive : (consecutive type isConst base names).flatMap Action.declared = names := by
  induction names generalizing base with
  | nil => rfl
  | cons name rest ih => exact congrArg (name :: ·) (ih _)

theorem within_consecutive : ∀ a ∈ consecutive type isConst base names, a.Within K := by
  induction names generalizing base with
  | nil => exact fun a ha => absurd ha not_mem_nil
  | cons name rest ih => exact forall_mem_cons.mpr ⟨trivial, ih _⟩

theorem declared_assigns (steps : List Assignment) : (steps.map Action.assign).flatMap Action.declared = [] := by
  simp [Action.declared]

theorem within_assigns (htarget : K a.target) (ha : a.value.All (Operand.Names K)) (h : a.plain state = .ok steps) :
    ∀ b ∈ steps.map Action.assign, b.Within fun name => K name ∧ name ∉ state := by
  have hvalues := Assignment.all_of_plain (fun _ h => Operand.Names.resolve state h) Operand.names_ofConstant
    (Operand.names_ofName htarget) ha h
  have htargets (b : Assignment) (hb : b ∈ steps) : b.target = a.target := (Assignment.step_of_plain h hb).1
  intro b hb
  obtain ⟨step, hstep, rfl⟩ := mem_map.mp hb
  exact ⟨by rw [htargets step hstep]; exact ⟨htarget, (Assignment.plain_cases h).1⟩, hvalues step hstep⟩

theorem Action.within_of_plain {a : Action} (hkeeps : a.keepsNames) (ha : a.Within K)
    (h : a.plain state = .ok actions) : withinActions (fun name => K name ∧ name ∉ state) actions ∧
      actions.flatMap Action.declared = a.declared := by
  cases a with
  | declareInit d value =>
    obtain ⟨steps, hsteps, h⟩ := bind_eq_ok.mp h
    cases h
    refine ⟨⟨trivial, withinActions_of_forall ?_⟩, ?_⟩
    · have hwithin := within_assigns (K := fun name => name = d.name ∨ K name)
        (a := ⟨d.name, none, none, value, true⟩) (.inl rfl) ha hsteps
      refine fun b hb => (hwithin b hb).mono fun name ⟨hname, hstate⟩ => ?_
      exact hname.imp (fun heq => mem_singleton.mpr heq) fun hK => ⟨hK, hstate⟩
    · rw [flatMap_cons, declared_assigns]
      rfl
  | declareMany names type register isConst =>
    cases register with
    | none =>
      cases h
      exact ⟨withinActions_of_forall (within_consecutive type isConst none names),
        declared_consecutive type isConst none names⟩
    | some binding =>
      obtain ⟨base, -, h⟩ := bind_eq_ok.mp h
      cases h
      exact ⟨withinActions_of_forall (within_consecutive type isConst base names),
        declared_consecutive type isConst base names⟩
  | assign assignment =>
    obtain ⟨steps, hsteps, h⟩ := bind_eq_ok.mp h
    cases h
    exact ⟨withinActions_of_forall (within_assigns ha.1 ha.2 hsteps), declared_assigns steps⟩
  | call name args =>
    cases h
    refine ⟨withinActions_of_forall (forall_mem_singleton.mpr ?_), rfl⟩
    exact CallArg.All.resolve (fun _ h => Operand.Names.resolve state h) ha
  | declareAlias name target type | undefine name => cases hkeeps
  | _ =>
    cases h
    exact ⟨⟨trivial, trivial⟩, rfl⟩

end
end Microcode
