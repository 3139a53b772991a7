import Microcode.Program.Plain
import Microcode.Proofs.Operand

/-!
The plain form of a program is plain.

What makes a statement plain is said of its actions and conditions, at whatever depth they stand: one
variable to a declaration, no operator in front of the equals sign, one operation to an assignment, no call
of a macro, and no operand that names a variable in memory.
-/

namespace Microcode

variable {r r' m : Routine} {P Q before after : Action → Prop} {C D tested resolved : Comparison → Prop}
  {s : Surroundings} {p q : Program} {body front rest names : List Statement}

open List Statement Operand Option Microcode.Expr Except Comparison

variable {state : List String}

mutual

def Statement.Every (P : Action → Prop) (C : Comparison → Prop) : Statement → Prop
  | .block _ body => everyIn P C body
  | .branch _ condition yes no =>
    C condition ∧ everyIn P C yes ∧ match no with
      | none => True
      | some no => everyIn P C no
  | .whileLoop _ condition body => C condition ∧ everyIn P C body
  | .loop _ body condition => everyIn P C body ∧ ∀ c, condition = some c → C c
  | .action _ a => P a

def everyIn (P : Action → Prop) (C : Comparison → Prop) : List Statement → Prop
  | [] => True
  | s :: rest => s.Every P C ∧ everyIn P C rest

end
variable {actions : List Action} {name : String} {args : List CallArg} {a : Action}

section

theorem everyIn_iff : everyIn P C body ↔ ∀ s ∈ body, s.Every P C := by
  induction body with
  | nil => simp [everyIn]
  | cons s rest ih => simp only [everyIn, ih, forall_mem_cons]

theorem everyIn_append : everyIn P C (front ++ rest) ↔ everyIn P C front ∧ everyIn P C rest := by
  simp only [everyIn_iff, forall_mem_append]

theorem everyIn_actions (tag : Tag) (h : ∀ a ∈ actions, P a) : everyIn P C (actions.map (.action tag)) := by
  rw [everyIn_iff]
  intro s hs
  obtain ⟨a, ha, rfl⟩ := mem_map.mp hs
  exact h a ha

mutual

theorem Statement.Every.mono (hQ : ∀ a, P a → Q a) (hD : ∀ c, C c → D c) : ∀ {s : Statement}, s.Every P C → s.Every Q D
  | .block _ _, h => everyIn_mono hQ hD h
  | .branch _ _ _ none, h => ⟨hD _ h.1, everyIn_mono hQ hD h.2.1, trivial⟩
  | .branch _ _ _ (some _), h => ⟨hD _ h.1, everyIn_mono hQ hD h.2.1, everyIn_mono hQ hD h.2.2⟩
  | .whileLoop _ _ _, h => ⟨hD _ h.1, everyIn_mono hQ hD h.2⟩
  | .loop _ _ _, h => ⟨everyIn_mono hQ hD h.1, fun c hc => hD c (h.2 c hc)⟩
  | .action _ a, h => hQ a h

theorem everyIn_mono (hQ : ∀ a, P a → Q a) (hD : ∀ c, C c → D c) :
    ∀ {body : List Statement}, everyIn P C body → everyIn Q D body
  | [], _ => trivial
  | _ :: _, h => ⟨h.1.mono hQ hD, everyIn_mono hQ hD h.2⟩

end

mutual

theorem Statement.Every.and : ∀ {s : Statement}, s.Every P C → s.Every Q C → s.Every (fun a => P a ∧ Q a) C
  | .block _ _, h, h' => everyIn_and h h'
  | .branch _ _ _ none, h, h' => ⟨h.1, everyIn_and h.2.1 h'.2.1, trivial⟩
  | .branch _ _ _ (some _), h, h' => ⟨h.1, everyIn_and h.2.1 h'.2.1, everyIn_and h.2.2 h'.2.2⟩
  | .whileLoop _ _ _, h, h' => ⟨h.1, everyIn_and h.2 h'.2⟩
  | .loop _ _ _, h, h' => ⟨everyIn_and h.1 h'.1, h.2⟩
  | .action _ _, h, h' => ⟨h, h'⟩

theorem everyIn_and :
    ∀ {body : List Statement}, everyIn P C body → everyIn Q C body → everyIn (fun a => P a ∧ Q a) C body
  | [], _, _ => trivial
  | _ :: _, h, h' => ⟨h.1.and h'.1, everyIn_and h.2 h'.2⟩

end
end

def Operand.IsResolved (state : List String) (o : Operand) : Prop := ∀ name, o.atom = .variable name → name ∉ state

def Comparison.IsResolved (state : List String) (c : Comparison) : Prop :=
  c.left.IsResolved state ∧ c.right.IsResolved state

def CallArg.IsResolved (state : List String) : CallArg → Prop
  | .operand o => o.IsResolved state
  | .string _ => True

section

theorem Operand.isResolved_resolve (o : Operand) : (o.resolve state).IsResolved state := by
  unfold resolve
  split
  next name hname =>
    split
    · intro n hn
      simp at hn
    next hmem =>
      intro n hn
      rw [hname] at hn
      obtain rfl := Atom.variable.inj hn
      simpa using hmem
  next hvariable =>
    intro n hn
    exact absurd hn (hvariable n)

theorem Operand.resolve_of_isResolved {o : Operand} (h : o.IsResolved state) : o.resolve state = o := by
  unfold resolve
  split
  next name hname =>
    rw [if_neg]
    simpa using h name hname
  · rfl

theorem Operand.isResolved_ofConstant (c : Constant) : (ofConstant c).IsResolved state := by
  intro name hname
  exact absurd hname (by simp [ofConstant])

theorem Operand.isResolved_ofName (h : name ∉ state) : (ofName name).IsResolved state := by
  intro n hn
  obtain rfl := Atom.variable.inj hn
  exact h

theorem Comparison.isResolved_resolve (c : Comparison) : (c.resolve state).IsResolved state :=
  ⟨c.left.isResolved_resolve, c.right.isResolved_resolve⟩

theorem Comparison.resolve_of_isResolved {c : Comparison} (h : c.IsResolved state) : c.resolve state = c := by
  unfold resolve
  rw [Operand.resolve_of_isResolved h.1, Operand.resolve_of_isResolved h.2]

theorem CallArg.resolve_of_isResolved {a : CallArg} (h : a.IsResolved state) : a.resolve state = a := by
  cases a with
  | operand o => exact congrArg CallArg.operand (Operand.resolve_of_isResolved h)
  | string text => rfl

theorem map_resolve_of_isResolved (h : ∀ a ∈ args, a.IsResolved state) : args.map (·.resolve state) = args :=
  (map_congr_left fun a ha => CallArg.resolve_of_isResolved (h a ha)).trans (map_id' args)

variable {P : Operand → Prop}

mutual

theorem Part.all_resolve : ∀ p : Part, (p.resolve state).All P ↔ p.All fun o => P (o.resolve state)
  | .operand _ | .op _ => .rfl
  | .group parts => allParts_resolve parts

theorem allParts_resolve : ∀ parts : List Part,
    allParts P (resolveParts state parts) ↔ allParts (fun o => P (o.resolve state)) parts
  | [] => .rfl
  | p :: rest => and_congr p.all_resolve (allParts_resolve rest)

end

theorem CallArg.all_resolve (args : List CallArg) :
    (∀ a ∈ args.map (·.resolve state), a.All P) ↔ ∀ a ∈ args, a.All fun o => P (o.resolve state) := by
  rw [List.forall_mem_map]
  refine forall₂_congr fun a _ => ?_
  cases a <;> exact .rfl

theorem isResolved_map_resolve (args : List CallArg) : ∀ a ∈ args.map (·.resolve state), a.IsResolved state :=
  (CallArg.all_resolve args).mpr fun a _ => a.all_of_forall isResolved_resolve

theorem Expr.all_resolve (e : Expr) : (e.resolve state).All P ↔ e.All fun o => P (o.resolve state) := by
  cases e with
  | call name args swizzle => exact CallArg.all_resolve args
  | flat parts => exact allParts_resolve parts
  | _ => exact .rfl

end

/-! ### Right-hand sides and assignments -/

/-- The right-hand side is at most one operation, and names no variable that lives in memory. -/
def Expr.IsPlain (state : List String) : Expr → Prop
  | .constant _ => True
  | .copy o | .unary _ o => o.IsResolved state
  | .binary _ l r => l.IsResolved state ∧ r.IsResolved state
  | .withConstant _ l _ => l.IsResolved state
  | .call _ args _ => ∀ a ∈ args, a.IsResolved state
  | .test c => c.IsResolved state
  | .choose c yes no => c.IsResolved state ∧ yes.IsResolved state ∧ no.IsResolved state
  | .flat _ => False

/-- The assignment has no operator of its own, a target that is no variable in memory, and a plain
right-hand side. -/
structure Assignment.IsPlain (state : List String) (a : Assignment) : Prop where
  op : a.op = none
  target : a.target ∉ state
  value : a.value.IsPlain state

section

variable {e : Expr} {a : Assignment}

theorem Expr.isPlain_iff : e.IsPlain state ↔ e.All (Operand.IsResolved state) ∧ ∀ parts, e ≠ .flat parts := by
  cases e with
  | flat parts => exact iff_of_false id fun h => h.2 parts rfl
  | _ => exact (and_iff_left fun _ h => by cases h).symm

theorem Expr.isPlain_resolve (e : Expr) (h : ∀ parts, e.resolve state ≠ .flat parts) : (e.resolve state).IsPlain state :=
  isPlain_iff.mpr ⟨e.all_resolve.mpr (e.all_of_forall isResolved_resolve), h⟩

theorem Expr.resolve_of_isPlain (h : e.IsPlain state) : e.resolve state = e := by
  cases e with
  | constant c => rfl
  | copy o => exact congrArg copy (resolve_of_isResolved h)
  | unary op o => exact congrArg (unary op) (resolve_of_isResolved h)
  | binary op l r => rw [resolve, resolve_of_isResolved h.1, resolve_of_isResolved h.2]
  | withConstant op l c => rw [resolve, resolve_of_isResolved h]
  | call name args swizzle => rw [resolve, map_resolve_of_isResolved h]
  | test c => exact congrArg test (resolve_of_isResolved h)
  | choose c yes no =>
    rw [resolve, resolve_of_isResolved h.1, resolve_of_isResolved h.2.1,
      resolve_of_isResolved h.2.2]
  | flat parts => exact h.elim

/-- The value that an assignment gives its target, the operator of a compound one carried out. -/
def Assignment.whole? (a : Assignment) : Option Expr := match a.op with
  | none => some a.value
  | some op => a.value.compound? a.target op

variable {steps : List Assignment}

theorem Assignment.plain_whole (h : a.plain state = .ok steps) :
    ∃ value, a.whole? = some value ∧ Assignment.plain state { a with op := none, value } = .ok steps := by
  unfold Assignment.whole?
  cases hop : a.op with
  | none => exact ⟨a.value, rfl, hop ▸ h⟩
  | some op =>
    unfold Assignment.plain at h ⊢
    simp only [hop] at h
    split at h
    · obtain ⟨_, hthrow, -⟩ := bind_eq_ok.mp h
      cases hthrow
    next htarget =>
      split at h
      next value hcompound => exact ⟨value, hcompound, (if_neg htarget).trans h⟩
      · cases h

/-- Whatever an assignment stands for, it is the chain of several operations or one assignment of the
resolved value. -/
theorem Assignment.plain_cases (h : a.plain state = .ok steps) :
    a.target ∉ state ∧ ∃ value : Expr, a.whole? = some value ∧ ((∃ parts chain, value.resolve state = .flat parts ∧
        chainOfParts a.target a.swizzle parts = .ok chain ∧
        steps = chain.map fun step => { step with isInit := a.isInit }) ∨
      (∀ parts, value.resolve state ≠ .flat parts) ∧
        steps = [{ a with op := none, value := value.resolve state }]) := by
  obtain ⟨value, hwhole, h⟩ := Assignment.plain_whole h
  unfold Assignment.plain at h
  dsimp only at h
  split at h
  · obtain ⟨_, hthrow, -⟩ := bind_eq_ok.mp h
    cases hthrow
  next htarget =>
    refine ⟨by simpa using htarget, value, hwhole, ?_⟩
    rw [pure_bind] at h
    split at h
    next parts hparts =>
      split at h
      next chain hchain => exact .inl ⟨parts, chain, hparts, hchain, (ok.inj h).symm⟩
      · cases h
    next hflat => exact .inr ⟨hflat, (ok.inj h).symm⟩

theorem Assignment.plain_of_whole? (htarget : a.target ∉ state) {value} (hwhole : a.whole? = some value) :
    a.plain state = Assignment.plain state { a with op := none, value } := by
  have hcontains : state.contains a.target = false := by simpa using htarget
  unfold Assignment.whole? at hwhole
  unfold Assignment.plain
  cases hop : a.op with
  | none =>
    rw [hop] at hwhole
    rw [Option.some.inj hwhole]
  | some op =>
    rw [hop] at hwhole
    simp only [hwhole]

theorem Assignment.plain_of_chain {parts chain} (htarget : a.target ∉ state) {value} (hwhole : a.whole? = some value)
    (hparts : value.resolve state = .flat parts) (hchain : chainOfParts a.target a.swizzle parts = .ok chain) :
    a.plain state = .ok (chain.map fun step => { step with isInit := a.isInit }) := by
  have hcontains : state.contains a.target = false := by simpa using htarget
  rw [Assignment.plain_of_whole? htarget hwhole, Assignment.plain]
  simp only [hcontains, Bool.false_eq_true, if_false, pure_bind, hparts, hchain]
  rfl

theorem Assignment.plain_of_single (htarget : a.target ∉ state) {value}
    (hwhole : a.whole? = some value) (hflat : ∀ parts, value.resolve state ≠ .flat parts) :
    a.plain state = .ok [{ a with op := none, value := value.resolve state }] := by
  have hcontains : state.contains a.target = false := by simpa using htarget
  rw [Assignment.plain_of_whole? htarget hwhole, Assignment.plain]
  simp only [hcontains, Bool.false_eq_true, if_false, pure_bind]
  rfl

theorem Assignment.isPlain_of_plain (h : a.plain state = .ok steps) : ∀ b ∈ steps, b.IsPlain state := by
  obtain ⟨htarget, value, -, ⟨parts, chain, hparts, hchain, rfl⟩ | ⟨hflat, rfl⟩⟩ := Assignment.plain_cases h
  · -- The operands of the pieces are resolved, and so are those of the steps of the chain.
    have hresolved : allParts (Operand.IsResolved state) parts := by
      cases value with
      | flat written =>
        obtain rfl := Expr.flat.inj hparts
        exact (allParts_resolve written).mpr (allParts_of_forall isResolved_resolve written)
      | _ => exact absurd hparts (by simp [Expr.resolve])
    intro b hb
    obtain ⟨step, hstep, rfl⟩ := mem_map.mp hb
    obtain ⟨hname, hop, hvalue⟩ := isStep_chainOfParts (isResolved_ofName htarget)
      isResolved_ofConstant hresolved hchain step hstep
    exact ⟨hop, by rw [hname]; exact htarget, isPlain_iff.mpr ⟨hvalue.all, hvalue.ne_flat⟩⟩
  · exact forall_mem_singleton.mpr ⟨rfl, htarget, value.isPlain_resolve hflat⟩

theorem Assignment.plain_of_isPlain (h : a.IsPlain state) : a.plain state = .ok [a] := by
  obtain ⟨target, swizzle, op, value, isInit⟩ := a
  obtain ⟨rfl, htarget, hvalue⟩ := h
  have hcontains : state.contains target = false := by simpa using htarget
  simp only [Assignment.plain, hcontains, Bool.false_eq_true, if_false, pure_bind, resolve_of_isPlain hvalue]
  split
  · exact hvalue.elim
  · rfl

end

/-- The action declares at most one variable and gives it no value, assigns in plain form, and calls no
macro. -/
def Action.IsPlain (macros : List Routine) (state : List String) : Action → Prop
  | .declareInit .. | .declareMany .. => False
  | .assign a => a.IsPlain state
  | .call name args => (∀ m ∈ macros, m.name ≠ name) ∧ ∀ a ∈ args, a.IsResolved state
  | _ => True

section
variable {macros : List Routine}

theorem Action.IsPlain.mono (h : a.IsPlain macros state) {fewer} (hfewer : fewer ⊆ macros) : a.IsPlain fewer state := by
  cases a with
  | call name args => exact ⟨fun m hm => h.1 m (hfewer hm), h.2⟩
  | _ => exact h

def Action.isSimple : Action → Bool
  | .declareInit .. | .declareMany .. | .assign _ | .call .. => false
  | _ => true

inductive Action.StandsFor (state : List String) (a : Action) : Action → Prop
  | declare (d : Declaration) : StandsFor state a (.declare d)
  | init {d : Declaration} {value : Expr} {step : Assignment} {steps : List Assignment} (ha : a = .declareInit d value)
      (hsteps : Assignment.plain state ⟨d.name, none, none, value, true⟩ = .ok steps) (hstep : step ∈ steps) :
      StandsFor state a (.assign step)
  | assign {b step : Assignment} {steps : List Assignment} (ha : a = .assign b) (hsteps : b.plain state = .ok steps)
      (hstep : step ∈ steps) : StandsFor state a (.assign step)
  | call {name : String} {args : List CallArg} (ha : a = .call name args) :
      StandsFor state a (.call name (args.map (·.resolve state)))
  | self (ha : a.isSimple) : StandsFor state a a

theorem Action.standsFor_of_plain (h : a.plain state = .ok actions) : ∀ b ∈ actions, a.StandsFor state b := by
  have hdeclares (type : DataType) (isConst : Bool) (base : Option Nat) (names : List String) :
      ∀ b ∈ consecutive type isConst base names, a.StandsFor state b := by
    induction names generalizing base with
    | nil => exact fun b hb => absurd hb not_mem_nil
    | cons name rest ih => exact forall_mem_cons.mpr ⟨.declare _, ih _⟩
  cases a with
  | declareInit d value =>
    obtain ⟨steps, hsteps, h⟩ := bind_eq_ok.mp h
    cases h
    exact forall_mem_cons.mpr ⟨.declare d, forall_mem_map.mpr fun step hstep => .init rfl hsteps hstep⟩
  | declareMany names type register isConst =>
    cases register with
    | none =>
      cases h
      exact hdeclares type isConst none names
    | some binding =>
      obtain ⟨base, -, h⟩ := bind_eq_ok.mp h
      cases h
      exact hdeclares type isConst base names
  | assign b =>
    obtain ⟨steps, hsteps, h⟩ := bind_eq_ok.mp h
    cases h
    exact forall_mem_map.mpr fun step hstep => .assign rfl hsteps hstep
  | call name args =>
    cases h
    exact forall_mem_singleton.mpr (.call rfl)
  | _ =>
    cases h
    exact forall_mem_singleton.mpr (.self rfl)

theorem Action.isPlain_of_plain (hcall : ∀ name args, a ≠ .call name args) (h : a.plain state = .ok actions) :
    ∀ b ∈ actions, b.IsPlain macros state := by
  intro b hb
  cases Action.standsFor_of_plain h b hb with
  | declare d => trivial
  | init _ hsteps hstep | assign _ hsteps hstep => exact Assignment.isPlain_of_plain hsteps _ hstep
  | call ha => exact absurd ha (hcall _ _)
  | self ha =>
    cases a with
    | declareInit | declareMany | assign | call => cases ha
    | _ => trivial

theorem Action.plain_of_isPlain (h : a.IsPlain macros state) : a.plain state = .ok [a] := by
  cases a with
  | declareInit d value | declareMany names type register isConst => exact h.elim
  | assign assignment =>
    rw [Action.plain, Assignment.plain_of_isPlain h]
    rfl
  | call name args =>
    rw [Action.plain, map_resolve_of_isResolved h.2]
    rfl
  | _ => rfl

end

theorem Surroundings.template?_eq_none : s.template? name = none ↔ ∀ m ∈ s.macros, m.name ≠ name := by
  simp [Surroundings.template?, find?_eq_none]

def Surroundings.IsPlainBlock (s : Surroundings) (body : List Statement) : Prop :=
  everyIn (Action.IsPlain s.macros s.state) (Comparison.IsResolved s.state) body

section
variable {expandCall : Expander}
variable {tag : Tag}

theorem Statement.plain_action (hcall : ∀ name args, a ≠ .call name args) :
    (action tag a).plain s expandCall = match a.plain s.state with
      | .ok actions => .ok (actions.map (.action tag))
      | .error fault => .error ⟨fault, .action tag a⟩ := by
  cases a with
  | call name args => exact absurd rfl (hcall name args)
  | _ => rfl

theorem Routine.instantiate_cases {line : Nat} (h : m.instantiate state args line = .ok (names, body)) :
    args.length = m.params.length ∧ aliases state line m.params args = some names ∧ m.body = some body := by
  unfold Routine.instantiate at h
  split at h
  · cases h
  next hlength =>
    split at h
    · cases h
    · cases h
    next hnames hbody =>
      cases h
      exact ⟨by simpa using hlength, hnames, hbody⟩

theorem Surroundings.mem_of_template? (h : s.template? name = some m) : m ∈ s.macros :=
  mem_reverse.mp (mem_of_find?_eq_some h)

inductive Piece where
  | one (s : Statement)
  | all (body : List Statement)

/-- The plain statements that a piece of a body stands for while macros may be expanded to a depth. -/
inductive StandsFor (s : Surroundings) : Nat → Piece → List Statement → Prop
  | nil {d} : StandsFor s d (.all []) []
  | cons {d first out rest more} (hplain : first.plain s (expander s d) = .ok out)
      (hfirst : StandsFor s d (.one first) out) (hrest : StandsFor s d (.all rest) more) :
      StandsFor s d (.all (first :: rest)) (out ++ more)
  | block {d tag body body'} (hbody : StandsFor s d (.all body) body') :
      StandsFor s d (.one (.block tag body)) [.block tag body']
  | branch {d tag c yes yes'} (hyes : StandsFor s d (.all yes) yes') :
      StandsFor s d (.one (.branch tag c yes none)) [.branch tag (c.resolve s.state) yes' none]
  | branchElse {d tag c yes yes' no no'} (hyes : StandsFor s d (.all yes) yes') (hno : StandsFor s d (.all no) no') :
      StandsFor s d (.one (.branch tag c yes (some no))) [.branch tag (c.resolve s.state) yes' (some no')]
  | whileLoop {d tag c body body'} (hbody : StandsFor s d (.all body) body') :
      StandsFor s d (.one (.whileLoop tag c body)) [.whileLoop tag (c.resolve s.state) body']
  | loop {d tag body body' c} (hbody : StandsFor s d (.all body) body') :
      StandsFor s d (.one (.loop tag body c)) [.loop tag body' (c.map (·.resolve s.state))]
  | expanded {d tag name args m names body body'} (htemplate : s.template? name = some m)
      (hnames : m.instantiate s.state args tag.line = .ok (names, body)) (hbody : StandsFor s d (.all body) body') :
      StandsFor s (d + 1) (.one (.action tag (.call name args))) [.block ⟨tag.line, []⟩ (names ++ body')]
  | call {d tag name args} (htemplate : s.template? name = none) :
      StandsFor s d (.one (.action tag (.call name args))) [.action tag (.call name (args.map (·.resolve s.state)))]
  | actions {d tag a actions} (hcall : ∀ name args, a ≠ .call name args) (hactions : a.plain s.state = .ok actions) :
      StandsFor s d (.one (.action tag a)) (actions.map (.action tag))

/-- The statements that calls of macros are expanded to are those that they stand for. -/
def Surroundings.StandForCalls (s : Surroundings) (d : Nat) : Prop :=
  ∀ {name m args tag t}, s.template? name = some m → expander s d m args tag = .ok t →
    StandsFor s d (.one (.action tag (.call name args))) [t]

mutual

theorem Statement.standsFor {d : Nat} (hcalls : s.StandForCalls d) :
    ∀ {t : Statement} {out : List Statement}, t.plain s (expander s d) = .ok out → StandsFor s d (.one t) out
  | .block tag body, out, h => by
    obtain ⟨body', hbody, h⟩ := bind_eq_ok.mp h
    exact ok.inj h ▸ .block (standsFor_block hcalls hbody)
  | .branch tag c yes none, out, h => by
    obtain ⟨yes', hyes, h⟩ := bind_eq_ok.mp h
    exact ok.inj h ▸ .branch (standsFor_block hcalls hyes)
  | .branch tag c yes (some no), out, h => by
    obtain ⟨yes', no', hyes, hno, h⟩ := bind₂_eq_ok.mp h
    exact ok.inj h ▸ .branchElse (standsFor_block hcalls hyes) (standsFor_block hcalls hno)
  | .whileLoop tag c body, out, h => by
    obtain ⟨body', hbody, h⟩ := bind_eq_ok.mp h
    exact ok.inj h ▸ .whileLoop (standsFor_block hcalls hbody)
  | .loop tag body c, out, h => by
    obtain ⟨body', hbody, h⟩ := bind_eq_ok.mp h
    exact ok.inj h ▸ .loop (standsFor_block hcalls hbody)
  | .action tag a, out, h => by
    by_cases hcall : ∃ name args, a = .call name args
    · obtain ⟨name, args, rfl⟩ := hcall
      simp only [plain] at h
      split at h
      next m hm =>
        obtain ⟨t, ht, h⟩ := bind_eq_ok.mp h
        exact ok.inj h ▸ hcalls hm ht
      next hnone => exact ok.inj h ▸ .call hnone
    · have hcall : ∀ name args, a ≠ .call name args := fun n args e => hcall ⟨n, args, e⟩
      rw [plain_action hcall] at h
      split at h
      next actions hactions => exact ok.inj h ▸ .actions hcall hactions
      · cases h

theorem standsFor_block {d : Nat} (hcalls : s.StandForCalls d) :
    ∀ {body out : List Statement}, plainBlock s (expander s d) body = .ok out → StandsFor s d (.all body) out
  | [], out, h => ok.inj h ▸ .nil
  | t :: rest, out, h => by
    obtain ⟨first, more, hfirst, hmore, h⟩ := bind₂_eq_ok.mp h
    exact ok.inj h ▸ .cons hfirst (t.standsFor hcalls hfirst) (standsFor_block hcalls hmore)

end

theorem Surroundings.standForCalls (s : Surroundings) (d : Nat) : s.StandForCalls d := by
  induction d with
  | zero => exact fun _ h => nomatch h
  | succ d ih =>
    intro name m args tag t hm h
    simp only [expander] at h
    split at h
    · cases h
    next names body hnames =>
      obtain ⟨body', hbody, h⟩ := bind_eq_ok.mp h
      exact ok.inj h ▸ .expanded hm hnames (standsFor_block ih hbody)

variable {out : List Statement}

theorem Statement.standsFor_of_plain {d : Nat} {t}
    (h : t.plain s (expander s d) = .ok out) : StandsFor s d (.one t) out := t.standsFor (s.standForCalls d) h

theorem standsFor_of_plainBlock {d : Nat} (h : plainBlock s (expander s d) body = .ok out) :
    StandsFor s d (.all body) out := standsFor_block (s.standForCalls d) h

def Piece.Every (P : Action → Prop) (C : Comparison → Prop) : Piece → Prop
  | one t => t.Every P C
  | all body => everyIn P C body

theorem Program.plainRoutine_cases (h : plainRoutine s r = .ok r') : r.body = none ∧ r' = r ∨
    ∃ body plain, r.body = some body ∧ plainBlock s (expander s macroDepth) body = .ok plain
      ∧ r' = { r with body := some plain } := by
  unfold plainRoutine at h
  split at h
  · exact .inl ⟨‹_›, (ok.inj h).symm⟩
  · split at h
    · exact .inr ⟨_, _, ‹_›, ‹_›, (ok.inj h).symm⟩
    · cases h

/-- What the step to plain form carries over: actions and conditions with the properties before it, also
those of the macros, stand for actions and conditions with the properties behind it. -/
structure Surroundings.Carries (s : Surroundings) (before : Action → Prop) (tested : Comparison → Prop)
    (after : Action → Prop) (resolved : Comparison → Prop) : Prop where
  condition : ∀ c, tested c → resolved (c.resolve s.state)
  action : ∀ {a actions}, before a → (∀ name args, a ≠ .call name args) → a.plain s.state = .ok actions →
    ∀ b ∈ actions, after b
  call : ∀ {name args}, before (.call name args) → (∀ m ∈ s.macros, m.name ≠ name) →
    after (.call name (args.map (·.resolve s.state)))
  secondName : ∀ name target type, after (.declareAlias name target type)
  macros : ∀ m ∈ s.macros, ∀ body, m.body = some body → everyIn before tested body

namespace Surroundings.Carries

variable (hs : s.Carries before tested after resolved)
include hs

theorem aliases {line : Nat} {params}
    (h : Microcode.aliases state line params args = some names) : everyIn after resolved names := by
  induction params generalizing args names with
  | nil =>
    obtain rfl : [] = names := by simpa [Microcode.aliases] using h
    trivial
  | cons p params ih =>
    cases args with
    | nil =>
      obtain rfl : [] = names := by simpa [Microcode.aliases] using h
      trivial
    | cons a args =>
      simp only [Microcode.aliases, bind_eq_bind, bind_eq_some_iff, Option.pure_def,
        some.injEq] at h
      obtain ⟨target, -, rest, hrest, rfl⟩ := h
      exact ⟨hs.secondName p.name target p.type, ih hrest⟩

theorem standsFor {d : Nat} {piece : Piece} (h : StandsFor s d piece out)
    (hpiece : piece.Every before tested) : everyIn after resolved out := by
  induction h with
  | nil => trivial
  | cons _ _ _ ih ih' => exact everyIn_append.mpr ⟨ih hpiece.1, ih' hpiece.2⟩
  | block _ ih => exact ⟨ih hpiece, trivial⟩
  | branch _ ih => exact ⟨⟨hs.condition _ hpiece.1, ih hpiece.2.1, trivial⟩, trivial⟩
  | branchElse _ _ ih ih' => exact ⟨⟨hs.condition _ hpiece.1, ih hpiece.2.1, ih' hpiece.2.2⟩, trivial⟩
  | whileLoop _ ih => exact ⟨⟨hs.condition _ hpiece.1, ih hpiece.2⟩, trivial⟩
  | loop _ ih =>
    refine ⟨⟨ih hpiece.1, fun d hd => ?_⟩, trivial⟩
    obtain ⟨c, hc, rfl⟩ := map_eq_some_iff.mp hd
    exact hs.condition c (hpiece.2 c hc)
  | expanded hm hnames _ ih =>
    obtain ⟨-, hnames, hbody⟩ := Routine.instantiate_cases hnames
    exact ⟨everyIn_append.mpr ⟨hs.aliases hnames, ih (hs.macros _ (mem_of_template? hm) _ hbody)⟩, trivial⟩
  | call hnone => exact ⟨hs.call hpiece (template?_eq_none.mp hnone), trivial⟩
  | actions hcall hactions => exact everyIn_actions _ (hs.action hpiece hcall hactions)

theorem routine (hr : ∀ body, r.body = some body → everyIn before tested body) (h : Program.plainRoutine s r = .ok r') :
    r'.kind = r.kind ∧ ∀ body, r'.body = some body → everyIn after resolved body := by
  obtain ⟨hnone, rfl⟩ | ⟨body, plain, hbody, hplain, rfl⟩ := Program.plainRoutine_cases h
  · exact ⟨rfl, fun body hbody => absurd (hnone.symm.trans hbody) (by simp)⟩
  · refine ⟨rfl, fun _ hbody' => ?_⟩
    cases hbody'
    exact hs.standsFor (standsFor_of_plainBlock hplain) (hr body hbody)

end Surroundings.Carries

mutual

theorem Statement.every_true : ∀ t : Statement, t.Every (fun _ => True) (fun _ => True)
  | .block _ body => everyIn_true body
  | .branch _ _ yes none => ⟨trivial, everyIn_true yes, trivial⟩
  | .branch _ _ yes (some no) => ⟨trivial, everyIn_true yes, everyIn_true no⟩
  | .whileLoop _ _ body => ⟨trivial, everyIn_true body⟩
  | .loop _ body _ => ⟨everyIn_true body, fun _ _ => trivial⟩
  | .action _ _ => trivial

theorem everyIn_true : ∀ body : List Statement, everyIn (fun _ => True) (fun _ => True) body
  | [] => trivial
  | t :: rest => ⟨t.every_true, everyIn_true rest⟩

end

theorem Surroundings.carries_isPlain (s : Surroundings) : s.Carries (fun _ => True) (fun _ => True)
    (Action.IsPlain s.macros s.state) (Comparison.IsResolved s.state) where
  condition c _ := c.isResolved_resolve
  action _ hcall h := Action.isPlain_of_plain hcall h
  call _ hname := ⟨hname, isResolved_map_resolve _⟩
  secondName _ _ _ := trivial
  macros _ _ body _ := everyIn_true body

mutual

theorem Statement.plain_of_isPlain : ∀ {t : Statement},
    t.Every (Action.IsPlain s.macros s.state) (Comparison.IsResolved s.state) → t.plain s expandCall = .ok [t]
  | .block tag body, h => by
    rw [plain, plainBlock_of_isPlain h]
    rfl
  | .branch tag c yes none, h => by
    rw [plain, plainBlock_of_isPlain h.2.1, resolve_of_isResolved h.1]
    rfl
  | .branch tag c yes (some no), h => by
    have hno : s.IsPlainBlock no := h.2.2
    simp only [plain, plainBlock_of_isPlain h.2.1, plainBlock_of_isPlain hno,
      resolve_of_isResolved h.1]
    rfl
  | .whileLoop tag c body, h => by
    rw [plain, plainBlock_of_isPlain h.2, resolve_of_isResolved h.1]
    rfl
  | .loop tag body none, h => by
    rw [plain, plainBlock_of_isPlain h.1]
    rfl
  | .loop tag body (some c), h => by
    rw [plain, plainBlock_of_isPlain h.1, map_some, resolve_of_isResolved (h.2 c rfl)]
    rfl
  | .action tag a, h => by
    by_cases hcall : ∃ name args, a = .call name args
    · obtain ⟨name, args, rfl⟩ := hcall
      simp only [plain, Surroundings.template?_eq_none.mpr h.1, map_resolve_of_isResolved h.2]
    · have hcall : ∀ name args, a ≠ .call name args := fun n args e => hcall ⟨n, args, e⟩
      rw [plain_action hcall, Action.plain_of_isPlain h]
      rfl

theorem plainBlock_of_isPlain : ∀ {body : List Statement}, s.IsPlainBlock body → plainBlock s expandCall body = .ok body
  | [], _ => rfl
  | t :: rest, h => by
    rw [plainBlock, Statement.plain_of_isPlain h.1, plainBlock_of_isPlain h.2]
    rfl

end
end

structure Routine.IsPlain (s : Surroundings) (r : Routine) : Prop where
  kind : r.kind ≠ .template
  body : ∀ body, r.body = some body → s.IsPlainBlock body

namespace Program

def IsPlain (s : Surroundings) (p : Program) : Prop := ∀ r ∈ p.routines, r.IsPlain s

theorem isPlain_plainRoutine (hr : r.kind ≠ .template) (h : plainRoutine s r = .ok r') : r'.IsPlain s := by
  obtain ⟨hkind, hbody⟩ := s.carries_isPlain.routine (fun body _ => everyIn_true body) h
  exact ⟨by rw [hkind]; exact hr, hbody⟩

theorem plainRoutine_of_isPlain (h : r.IsPlain s) : plainRoutine s r = .ok r := by
  obtain ⟨kind, name, params, body, markers, line⟩ := r
  cases body with
  | none => rfl
  | some body =>
    simp only [plainRoutine]
    rw [plainBlock_of_isPlain (h.body body rfl)]

theorem IsPlain.mono {t} (h : p.IsPlain s) (hstate : t.state = s.state)
    (hmacros : t.macros ⊆ s.macros) : p.IsPlain t := by
  intro r hr
  refine ⟨(h r hr).kind, fun body hbody => ?_⟩
  unfold Surroundings.IsPlainBlock
  rw [hstate]
  exact everyIn_mono (fun a ha => ha.mono hmacros) (fun _ h => h) ((h r hr).body body hbody)

theorem isPlain_of_plain (h : p.plain = .ok q) : q.IsPlain p.surroundings := by
  obtain ⟨routines, hroutines, h⟩ := bind_eq_ok.mp h
  cases h
  intro r hr
  obtain ⟨r', hr', hplain⟩ := exists_of_mapM hroutines r hr
  exact isPlain_plainRoutine (by simpa using (mem_filter.mp hr').2) hplain

theorem plain_of_isPlain (h : p.IsPlain p.surroundings) : p.plain = .ok p := by
  have hkept : p.routines.filter (·.kind != .template) = p.routines := by
    rw [filter_eq_self]
    intro r hr
    simpa using (h r hr).kind
  rw [Program.plain, hkept, mapM_eq_self fun r hr => plainRoutine_of_isPlain (h r hr)]
  rfl

theorem IsPlain.macros (h : p.IsPlain s) : p.surroundings.macros = [] := by
  rw [surroundings, filter_eq_nil_iff]
  intro r hr
  simpa using (h r hr).kind

theorem state_of_plain (h : p.plain = .ok q) : q.state = p.state := by
  obtain ⟨routines, -, h⟩ := bind_eq_ok.mp h
  cases h
  rfl

/-- The plain form of a program has no macros, one variable to a declaration and none with a value, one
operation to an assignment, no statement that calls a macro of the program, and no operand that names
one of its variables in memory; and it is its own plain form. -/
theorem plain_plain {p q : Program} (h : p.plain = .ok q) :
    q.IsPlain p.surroundings ∧ q.plain = .ok q := by
  have hplain := isPlain_of_plain h
  refine ⟨hplain, plain_of_isPlain (hplain.mono ?_ ?_)⟩
  · simp only [surroundings, state_of_plain h]
  · rw [hplain.macros]
    exact List.nil_subset _

def doubling : Program where
  state := [⟨"FACTOR", .u32, false, none, [], [], 1⟩]
  routines := [⟨.template, "double", [⟨"x", .u32, none⟩],
        some [.action ⟨2, []⟩ (.assign ⟨"x", none, some .add, .copy (.ofName "x"), false⟩)], [], 2⟩,
     ⟨.function, "main", [], some [.action ⟨4, []⟩ (.declareInit ⟨"a", .u32, none, false⟩ (.copy (.ofName "FACTOR"))),
          .action ⟨5, []⟩ (.call "double" [.operand (.ofName "a")])], [], 3⟩]

def doubled : Program where
  state := [⟨"FACTOR", .u32, false, none, [], [], 1⟩]
  routines := [⟨.function, "main", [], some [.action ⟨4, []⟩ (.declare ⟨"a", .u32, none, false⟩),
          .action ⟨4, []⟩ (.assign ⟨"a", none, none, .copy ⟨.address "FACTOR", none⟩, true⟩),
          .block ⟨5, []⟩ [.action ⟨5, []⟩ (.declareAlias "x" "a" (some .u32)), .action ⟨2, []⟩ (.assign
                ⟨"x", none, none, .binary .add (.ofName "x") (.ofName "x"), false⟩)]], [], 3⟩]

theorem doubled_isPlain :
    doubling.plain = .ok doubled ∧ doubled.IsPlain doubling.surroundings ∧ doubled.plain = .ok doubled :=
  ⟨rfl, plain_plain rfl⟩

end Program

def Action.callees : Action → List String
  | call name _ => [name]
  | assign ⟨_, _, _, .call name _ _, _⟩ => [name]
  | declareInit _ (.call name _ _) => [name]
  | _ => []

def macroAsValue : List Token := [.keyword .macroKw, .ident "m", .sign .lParen, .type .u32, .ident "x", .sign .rParen,
    .sign .lBrace, .sign .rBrace,
   .keyword .functionKw, .ident "f", .sign .lParen, .sign .rParen, .sign .lBrace,
    .type .u32, .sign .lt, .register "$t0", .sign .gt, .ident "a", .sign .semicolon,
    .ident "a", .sign .assign, .ident "m", .sign .lParen, .ident "a", .sign .rParen,
    .sign .semicolon, .sign .rBrace, .eof].map fun kind => ⟨kind, ⟨0, 1, 1⟩, 0⟩

/-- Only statements are expanded: a macro that is called for its value is still called by the plain
form, and left for instruction selection to turn down. -/
theorem plain_keeps_macroAsValue :
    ¬ ∀ tokens p q, Program.ofTokens tokens = .ok p → p.plain = .ok q →
      ∀ r ∈ q.routines, ∀ body, r.body = some body →
        everyIn (fun a => ∀ m ∈ p.surroundings.macros, m.name ∉ a.callees) (fun _ => True) body := by
  intro h
  have hcall := h macroAsValue _ _ rfl rfl _ List.mem_cons_self _ rfl
  -- The second statement of the function is the assignment.
  exact hcall.2.1 _ List.mem_cons_self List.mem_cons_self

end Microcode
