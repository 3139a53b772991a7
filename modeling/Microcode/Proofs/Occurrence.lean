import Microcode.Proofs.Translation

/-!
Actions and conditions where they stand.

Which registers the names in an action mean depends on the scopes around it, and they are known from the statements
alone: `Occurs` finds an action or a condition in a body together with its scopes.
-/

namespace Microcode

open List Builtin Variable

inductive Item where
  | action (a : Action)
  | condition (c : Comparison)

/-- In the scopes given first, the piece of a body holds an item, and that has the scopes given second. -/
inductive Occurs : ScopeStack → Piece → ScopeStack → Item → Prop
  | action {σ tag a} : Occurs σ (.one (.action tag a)) σ (.action a)
  | first {σ s rest τ x} (h : Occurs σ (.one s) τ x) : Occurs σ (.all (s :: rest)) τ x
  | rest {σ s rest τ x} (h : Occurs (s.after σ) (.all rest) τ x) : Occurs σ (.all (s :: rest)) τ x
  | block {σ tag body τ x} (h : Occurs (σ.enter body) (.all (withoutAliases body)) τ x) :
      Occurs σ (.one (.block tag body)) τ x
  | branch {σ tag c yes no} : Occurs σ (.one (.branch tag c yes no)) σ (.condition c)
  | yes {σ tag c yes no τ x} (h : Occurs (σ.enter yes) (.all (withoutAliases yes)) τ x) :
      Occurs σ (.one (.branch tag c yes no)) τ x
  | no {σ tag c yes no τ x} (h : Occurs (σ.enter no) (.all (withoutAliases no)) τ x) :
      Occurs σ (.one (.branch tag c yes (some no))) τ x
  | whileLoop {σ tag c body} : Occurs σ (.one (.whileLoop tag c body)) σ (.condition c)
  | round {σ tag c body τ x} (h : Occurs (σ.enter body) (.all (withoutAliases body)) τ x) :
      Occurs σ (.one (.whileLoop tag c body)) τ x
  | loop {σ tag body c τ x} (h : Occurs (σ.enter body) (.all (withoutAliases body)) τ x) :
      Occurs σ (.one (.loop tag body c)) τ x
  | loopUntil {σ tag body c} : Occurs σ (.one (.loop tag body (some c))) σ (.condition c)

variable {l : Limits} {lines : List Line} {W : Register → Prop} {σ : ScopeStack}

def Item.Has (P : Action → Prop) (C : Comparison → Prop) : Item → Prop
  | .action a => P a
  | .condition c => C c

variable {P : Action → Prop} {C : Comparison → Prop} {piece : Piece} {code : List Instruction}

theorem Occurs.has {τ} {x : Item} (h : Occurs σ piece τ x) (hpiece : piece.Every P C) : x.Has P C := by
  induction h with
  | action => exact hpiece
  | first _ ih => exact ih hpiece.1
  | rest _ ih => exact ih hpiece.2
  | block _ ih => exact ih (everyIn_withoutAliases hpiece)
  | @branch _ _ _ _ no => cases no <;> exact hpiece.1
  | @yes _ _ _ _ no _ _ _ ih => cases no <;> exact ih (everyIn_withoutAliases hpiece.2.1)
  | no _ ih => exact ih (everyIn_withoutAliases hpiece.2.2)
  | whileLoop => exact hpiece.1
  | round _ ih => exact ih (everyIn_withoutAliases hpiece.2)
  | loop _ ih => exact ih (everyIn_withoutAliases hpiece.1)
  | loopUntil => exact hpiece.2 _ rfl

/-! ### Limits of a body -/

/-- The numbers that a right-hand side brings into a scalar register unchecked are allowed. -/
def Expr.Reaches (l : Limits) (σ : ScopeStack) : Expr → Prop
  | .withConstant op _ c => op = .mul ∨ op = .div → ∀ v, c.toInt? = some v → ∀ k, log2? v = some k → l.Shift k.toInt
  | .call name args _ => name = load.name → load.Reaches l σ args 0
  | _ => True

/-- The numbers that an action brings into instructions unchecked are allowed. -/
def Action.Reaches (l : Limits) (σ : ScopeStack) : Action → Prop
  | .assign a => ∀ v, σ.variableNamed a.target = .ok v → v.type.isVector = false → a.value.Reaches l σ
  | .call name args => name = store.name → StoreReaches l σ args
  | _ => True

/-- In its scopes the item names nothing and holds no number beyond the limits. -/
def Item.KeepsTo (l : Limits) (σ : ScopeStack) : Item → Prop
  | .action a => a.All (Operand.KeepsTo l) ∧ a.Reaches l σ
  | .condition c => c.All (Operand.KeepsTo l)

theorem Action.reaches_of_numbers (h : ∀ o v, l.numbers o v) (σ : ScopeStack) (a : Action) : a.Reaches l σ := by
  have hoffset (v : Int) : l.Offset v := fun o _ => h o v
  have hshift (v : Int) : l.Shift v := ⟨h .sll v, h .srl v, h .sra v⟩
  cases a with
  | assign a =>
    intro v _ _
    cases a.value with
    | withConstant op o c => exact fun _ v _ k _ => hshift k.toInt
    | call name args swizzle => exact fun _ r offset _ _ => hoffset offset.toInt
    | _ => trivial
  | call name args => exact fun _ o v _ _ _ r offset _ _ => hoffset offset.toInt
  | _ => trivial

theorem Item.keepsTo_none (σ : ScopeStack) (x : Item) : x.KeepsTo .none σ := by
  cases x with
  | action a => exact ⟨a.all_of_forall Operand.keepsTo_none, a.reaches_of_numbers (fun _ _ => trivial) σ⟩
  | condition c => exact ⟨c.left.keepsTo_none, c.right.keepsTo_none⟩

structure Frame.KeepsTo (l : Limits) (f : Frame) : Prop where
  labels : ∀ name ∈ f.labels, l.names (f.localLabel name)
  routines : ∀ name, (f.signatures.lookup name).isSome → l.names name
  exits : ∀ e, f.innermost = some e → l.names e.next ∧ l.names e.done
  dispatchLoop : l.names dispatchLoop
  assertHandler : l.names assertHandler

def Limits.AdmitLines (l : Limits) (lines : List Line) : Prop := ∀ i, .op i ∈ lines → i.KeepsTo l

section
variable {more : List Line}

@[simp] theorem Limits.admitLines_nil : l.AdmitLines [] := fun _ h => absurd h not_mem_nil

@[simp] theorem Limits.admitLines_append : l.AdmitLines (lines ++ more) ↔ l.AdmitLines lines ∧ l.AdmitLines more := by
  simp only [AdmitLines, mem_append]
  exact ⟨fun h => ⟨fun i hi => h i (.inl hi), fun i hi => h i (.inr hi)⟩, fun h i hi => hi.elim (h.1 i) (h.2 i)⟩

@[simp] theorem Limits.admitLines_label {name : String} : l.AdmitLines (.label name :: lines) ↔ l.AdmitLines lines := by
  simp [AdmitLines]

@[simp] theorem Limits.admitLines_stamped {p} : l.AdmitLines (stamped p code) ↔ l.Admit code := by
  constructor
  · intro h i hi
    exact h { i with provenance := p } (mem_map.mpr ⟨i, hi, rfl⟩)
  · intro h i hi
    obtain ⟨j, hj, heq⟩ := mem_map.mp hi
    cases heq
    exact h j hj

/-- Every instruction among the lines keeps to the limits and writes only what it may, and every branch has an
empty slot. -/
structure Limits.Accepts (l : Limits) (W : Register → Prop) (lines : List Line) : Prop where
  admits : l.AdmitLines lines
  writes : ∀ i, .op i ∈ lines → ∀ r ∈ i.targets, MayWrite W r
  slots : SlotsAre Line.isNop lines

theorem Limits.Accepts.append (h : l.Accepts W lines) (h' : l.Accepts W more) : l.Accepts W (lines ++ more) where
  admits := admitLines_append.mpr ⟨h.admits, h'.admits⟩
  writes i hi := (mem_append.mp hi).elim (h.writes i) (h'.writes i)
  slots := h.slots.append h'.slots

theorem Limits.accepts_nil : l.Accepts W [] := ⟨admitLines_nil, nofun, trivial⟩

theorem Limits.Accepts.line {line : Line} (h : l.Accepts W lines) (hline : ∀ i, line ≠ .op i) :
    l.Accepts W (line :: lines) := by
  have hmem (i : Instruction) (hi : .op i ∈ line :: lines) : .op i ∈ lines :=
    (mem_cons.mp hi).resolve_left (hline i).symm
  have hbranch : line.isBranch = false := by
    cases line with
    | op i => exact (hline i rfl).elim
    | _ => rfl
  exact ⟨fun i hi => h.admits i (hmem i hi), fun i hi => h.writes i (hmem i hi), .cons hbranch h.slots⟩

theorem Limits.Accepts.label (h : l.Accepts W lines) (name : String) : l.Accepts W (.label name :: lines) :=
  h.line nofun

theorem WithSlots.accepts (h : WithSlots l W code) (p : Provenance) : l.Accepts W (stamped p code) := by
  refine ⟨Limits.admitLines_stamped.mpr h.admits, fun i hi => ?_, ?_⟩
  · obtain ⟨j, hj, heq⟩ := mem_map.mp hi
    cases heq
    exact h.writes j hj
  have hslots := h.slots
  clear h
  induction code with
  | nil => trivial
  | cons i code ih =>
    refine ⟨fun hi => ?_, ih hslots.2⟩
    have hslot := hslots.1 hi
    cases code with
    | nil => simp at hslot
    | cons slot code => exact hslot

theorem Limits.accepts_comment (f : Frame) (s : Statement) : l.Accepts W (f.comment s) := by
  unfold Frame.comment
  split
  · exact accepts_nil.line nofun
  · exact accepts_nil

end

section
variable {f : Frame}

theorem Frame.KeepsTo.marked (hf : f.KeepsTo l) (markers : List Marker) : (f.marked markers).KeepsTo l := by
  rw [f.marked_eq]
  exact ⟨hf.labels, hf.routines, hf.exits, hf.dispatchLoop, hf.assertHandler⟩

theorem Frame.KeepsTo.inside (hf : f.KeepsTo l) {e} (hnext : l.names e.next)
    (hdone : l.names e.done) : { f with innermost := some e }.KeepsTo l :=
  ⟨hf.labels, hf.routines, fun _ he => Option.some.inj he ▸ ⟨hnext, hdone⟩, hf.dispatchLoop, hf.assertHandler⟩

theorem Frame.KeepsTo.withSlots_returnCode (hf : f.KeepsTo l) (isCommand : Bool) :
    WithSlots l W (returnCode isCommand) := by
  cases isCommand with
  | true => exact withSlots_jump rfl hf.dispatchLoop
  | false => exact withSlots_branch rfl (Instruction.keepsTo_scalar _ _)

/-- The registers that a value may fill when it is assigned to a variable: those of the variable, and all eight
that a row is loaded into, where no argument is a vector. -/
inductive Expr.Fills (state : List String) (σ : ScopeStack) (value : Expr) (v : Variable) : Register → Prop
  | target {r} (hr : r ∈ v.registers) : Fills state σ value v r
  | row {args swizzle first n} (hvalue : value = .call loadTransposed.name args swizzle)
      (hargs : ∀ o name w, .operand o ∈ args → o.name? = some name → name ∉ state →
        σ.variableNamed name = .ok w → w.type.isVector = false)
      (hfirst : v.register = .vector first) (hle : first ≤ n) (hlt : n.val < first.val + 8) :
      Fills state σ value v (.vector n)

/-- The registers that an action may change, besides those for scratch: an assignment those of a variable that it
may be to, an exchange those of both, and a call of a function any.  Names of variables in memory stand for
their addresses. -/
inductive Action.Changes (state : List String) (σ : ScopeStack) : Action → Register → Prop
  | assign {a v r} (hv : σ.variableNamed a.target = .ok v) (hconst : v.isConst → a.isInit)
      (hr : a.value.Fills state σ v r) : Changes state σ (.assign a) r
  | init {d value v r} (hv : (Action.after σ (.declare d)).variableNamed d.name = .ok v)
      (hr : value.Fills state (Action.after σ (.declare d)) v r) : Changes state σ (.declareInit d value) r
  | exchange {args o name v r} (ho : .operand o ∈ args) (hname : o.name? = some name)
      (hv : σ.variableNamed name = .ok v) (hr : r ∈ v.registers) : Changes state σ (.call Builtin.swap.name args) r
  | call {name args r} (hname : ofName? name = none) : Changes state σ (.call name args) r

variable {state : List String}

theorem Variable.place_open {v} (hv : v.register.Suits v.type)
    (h : ∀ r ∈ v.registers, W r) (swizzle : Option Swizzle) : (Place.ofVariable v swizzle).Open W := by
  refine ⟨hv, .inr (.inr (h _ v.register_mem_registers)), fun hwide => .inr (.inr (h _ ?_))⟩
  exact v.fraction_mem_registers (beq_iff_eq.mp hwide)

variable {p : Place}

theorem Operand.exists_of_source {o : Operand} (h : o.source σ = .ok (.variable p)) :
    ∃ name v, o.name? = some name ∧ σ.variableNamed name = .ok v ∧ p = .ofVariable v o.swizzle := by
  obtain ⟨atom, swizzle⟩ := o
  cases atom with
  | «variable» name =>
    obtain ⟨v, hv, h⟩ := bind_eq_ok.mp h
    split at h
    · cases h
    · cases h
      exact ⟨name, v, rfl, hv, rfl⟩
  | constant c =>
    simp only [Operand.source] at h
    split at h <;> cases h
  | address name => cases h

theorem Builtin.exists_of_variableAt {b : Builtin} {args} {i : Nat}
    (h : b.variableAt σ args i = .ok p) : ∃ o, .operand o ∈ args ∧ o.source σ = .ok (.variable p) := by
  obtain ⟨o, source, ho, hsource, h⟩ := bind₂_eq_ok.mp h
  refine ⟨o, b.mem_operandAt args i o ho, ?_⟩
  cases source with
  | «variable» p' => exact Except.ok.inj h ▸ hsource
  | constant | address => cases h

theorem Assignment.computes_code (hσ : σ.IsProper) {a} (ha : a.value.All (Operand.KeepsTo l))
    (hreach : (Action.assign a).Reaches l σ)
    (hfills : ∀ v, σ.variableNamed a.target = .ok v → ∀ r, a.value.Fills state σ v r → W r) (signatures : Signatures)
    (holds : Comparison → Bool) : Yields (a.code σ signatures holds) (Computes l W false) := by
  refine .known fun v hv => ?_
  have hreach := hreach v hv
  have hd : (Target.mk a.target (.ofVariable v a.swizzle)).place.Open W :=
    place_open (hσ.variableNamed a.target v hv) (fun r hr => hfills v hv r (.target hr)) a.swizzle
  cases hvalue : a.value with
  | call name args swizzle =>
    rw [hvalue] at ha hreach
    intro code hcode
    refine computes_callValue hσ ha signatures hd name (fun hname hscalar => hreach hscalar hname)
      (fun hname first n hfirst hle hlt => hfills v hv _ ?_) swizzle code hcode
    subst hname
    have hrow : loadRow σ (.ofVariable v a.swizzle) args swizzle = .ok code := by
      unfold callValue at hcode
      dsimp only at hcode
      split at hcode
      · cases hcode
      · exact hcode
    exact .row hvalue (fun o name w ho hname _ => scalars_of_loadRow hrow o name w ho hname) hfirst hle hlt
  | choose c yes no =>
    rw [hvalue] at ha
    dsimp only
    split
    · exact (computes_vectorValue hσ hd _).mono fun _ h => h l false
    · split
      · exact computes_scalarCopy hσ hd ha.2.1
      · exact computes_scalarCopy hσ hd ha.2.2
  | withConstant op left c =>
    rw [hvalue] at ha hreach
    dsimp only
    split
    · exact (computes_vectorValue hσ hd _).mono fun _ h => h l false
    next hvector =>
      refine computes_scalarValue hσ hd ha fun op left c he => ?_
      cases he
      exact hreach (by simpa using hvector)
  | _ =>
    rw [hvalue] at ha
    dsimp only
    split
    · exact (computes_vectorValue hσ hd _).mono fun _ h => h l false
    · exact computes_scalarValue hσ hd ha fun op left c he => by cases he

theorem Action.Selects.withSlots {a : Action} (h : a.Selects f σ code) (hσ : σ.IsProper) (hf : f.KeepsTo l)
    (ha : (Item.action a).KeepsTo l σ) (hW : ∀ r, a.Changes state σ r → W r) : WithSlots l W code := by
  cases h with
  | @assign a v code hallowed hcode =>
    have hfills (w : Variable) (hw : σ.variableNamed a.target = .ok w) (r : Register)
        (hr : a.value.Fills state σ w r) : W r := by
      cases hallowed.target.symm.trans hw
      exact hW r (.assign hw hallowed.notConst hr)
    exact (Assignment.computes_code hσ ha.1 ha.2 hfills f.signatures (fun _ => true) _ (hcode _)).withSlots
  | @builtin name args b _ hname hcode =>
    have hfound := find?_some hname
    rw [beq_iff_eq] at hfound
    refine b.withSlots_run hσ ha.1 hf.assertHandler (fun hb => ha.2 ?_) (fun hb i p hp => ?_) _ hcode
    · rw [← hfound, hb]
    · obtain ⟨o, ho, hsource⟩ := exists_of_variableAt hp
      obtain ⟨x, v, hx, hv, rfl⟩ := Operand.exists_of_source hsource
      have hchanges (r : Register) (hr : r ∈ v.registers) : W r := hW r (by
        rw [← hfound, hb]
        exact .exchange ho hx hv hr)
      have hopen := place_open (hσ.variableNamed x v hv) hchanges o.swizzle
      exact ⟨hopen.register, hopen.fraction⟩
  | @function name args params _ hname hfunction hcode =>
    exact withSlots_callFunction hσ ha.1 (fun r => hW r (.call hname)) (hf.routines name (by simp [hfunction])) params _
      hcode
  | gotoLabel hname => exact withSlots_jump rfl (hf.labels _ (by simpa using hname))
  | gotoRoutine _ hname => exact withSlots_jump rfl (hf.routines _ hname)
  | breakLoop hexits => exact withSlots_jump rfl (hf.exits _ hexits).2
  | continueLoop hexits => exact withSlots_jump rfl (hf.exits _ hexits).1
  | exit => exact hf.withSlots_returnCode f.isCommand

theorem Translated.accepts {n m : Nat} (h : Translated f σ n piece lines m)
    (hσ : σ.IsProper) (hf : f.KeepsTo l) (hitems : ∀ τ x, Occurs σ piece τ x → x.KeepsTo l τ)
    (hmade : ∀ k, n ≤ k → k < m → l.names (labelName k))
    (hW : ∀ τ a, Occurs σ piece τ (.action a) → ∀ r, a.Changes state τ r → W r) : l.Accepts W lines := by
  have hjump {k : Nat} (h : l.names (labelName k)) (p : Provenance) :
      l.Accepts W (stamped p (Instruction.jump .j (labelName k))) :=
    (withSlots_jump rfl h).accepts p
  have hbranch {σ : ScopeStack} (hσ : σ.IsProper) {k : Nat} (h : l.names (labelName k)) {c : Comparison}
      {code : List Instruction} (hcode : branchIf σ c (labelName k) = .ok code) (hc : c.All (Operand.KeepsTo l)) :
      WithSlots l W code :=
    withSlots_branchIf h hσ hc _ hcode
  have hend {lines : List Line} (h : l.Accepts W lines) (name : String) : l.Accepts W (lines ++ [.label name]) :=
    h.append (Limits.accepts_nil.label name)
  induction h with
  | nil | declaration => exact Limits.accepts_nil
  | @cons f σ n first rest lines m more k _ hfirst hrest ih ih' =>
    have hle := hfirst.labelled.le
    have hle' := hrest.labelled.le
    have hlines := ih hσ (hf.marked _) (fun τ x hx => hitems τ x (.first hx))
      (fun j hj hj' => hmade j hj (by omega)) fun τ a ha => hW τ a (.first ha)
    have hmore := ih' hrest.proper hf (fun τ x hx => hitems τ x (.rest hx))
      (fun j hj hj' => hmade j (by omega) hj') fun τ a ha => hW τ a (.rest ha)
    exact ((Limits.accepts_comment f first).append hlines).append hmore
  | block hbody ih =>
    exact ih hbody.proper hf (fun τ x hx => hitems τ x (.block hx)) hmade fun τ a ha => hW τ a (.block ha)
  | @branch f σ n tag c yes test line lines m htest hyes ih =>
    have hle := hyes.labelled.le
    have htest := hbranch hσ (hmade n (by omega) (by omega)) htest (hitems σ (.condition c) .branch)
    have hlines := ih hyes.proper hf (fun τ x hx => hitems τ x (.yes hx)) (fun j hj hj' => hmade j (by omega) hj')
      fun τ a ha => hW τ a (.yes ha)
    exact hend ((htest.accepts _).append hlines) _
  | @branchElse f σ n tag c yes no test line yesLines m line' noLines k htest hyes hno ih ih' =>
    have hle := hyes.labelled.le
    have hle' := hno.labelled.le
    have htest := hbranch hσ (hmade n (by omega) (by omega)) htest (hitems σ (.condition c) .branch)
    have hyesLines := ih hyes.proper hf (fun τ x hx => hitems τ x (.yes hx))
      (fun j hj hj' => hmade j (by omega) (by omega)) fun τ a ha => hW τ a (.yes ha)
    have hnoLines := ih' hno.proper hf (fun τ x hx => hitems τ x (.no hx))
      (fun j hj hj' => hmade j (by omega) hj') fun τ a ha => hW τ a (.no ha)
    exact hend ((((htest.accepts _).append hyesLines).append (hjump (hmade (n + 1) (by omega) (by omega)) _)).append
      (hnoLines.label _)) _
  | @whileLoop f σ n tag c body test line lines line' m htest hbody ih =>
    have hle := hbody.labelled.le
    have hagain := hmade n (by omega) (by omega)
    have hdone := hmade (n + 1) (by omega) (by omega)
    have htest := hbranch hσ hdone htest (hitems σ (.condition c) .whileLoop)
    have hlines := ih hbody.proper (hf.inside hagain hdone) (fun τ x hx => hitems τ x (.round hx))
      (fun j hj hj' => hmade j (by omega) hj') fun τ a ha => hW τ a (.round ha)
    exact hend ((((htest.accepts _).label _).append hlines).append (hjump hagain _)) _
  | @loop f σ n tag body lines line m hbody ih =>
    have hle := hbody.labelled.le
    have hstart := hmade n (by omega) (by omega)
    have hdone := hmade (n + 1) (by omega) (by omega)
    have hlines := ih hbody.proper (hf.inside hstart hdone) (fun τ x hx => hitems τ x (.loop hx))
      (fun j hj hj' => hmade j (by omega) hj') fun τ a ha => hW τ a (.loop ha)
    exact hend ((hlines.label _).append (hjump hstart _)) _
  | @loopUntil f σ n tag c body lines test line m htest hbody ih =>
    have hle := hbody.labelled.le
    have htest := hbranch hσ (hmade n (by omega) (by omega)) htest (hitems σ (.condition c) .loopUntil)
    have hlines := ih hbody.proper (hf.inside (hmade (n + 1) (by omega) (by omega)) (hmade (n + 2) (by omega) (by omega)))
      (fun τ x hx => hitems τ x (.loop hx)) (fun j hj hj' => hmade j (by omega) hj') fun τ a ha => hW τ a (.loop ha)
    exact hend ((hlines.label _).append ((htest.accepts _).label _)) _
  | label => exact Limits.accepts_nil.label _
  | asm => exact Limits.accepts_nil.line nofun
  | selected hcode => exact (hcode.withSlots hσ hf (hitems _ _ .action) (hW _ _ .action)).accepts _
  | @choose f σ n tag a v c yes no test yesCode noCode line hallowed hscalar hvalue htest hyes hno =>
    have ha := (hitems σ _ .action).1
    rw [Action.All, hvalue] at ha
    have hd : (Target.mk a.target (.ofVariable v a.swizzle)).place.Open W :=
      place_open (hσ.variableNamed _ v hallowed.target)
        (fun r hr => hW σ _ .action r (.assign hallowed.target hallowed.notConst (.target hr))) a.swizzle
    have htest := hbranch hσ (hmade n (by omega) (by omega)) htest ha.1
    have hyes := (computes_scalarCopy hσ hd ha.2.1 _ hyes).withSlots
    have hno := (computes_scalarCopy hσ hd ha.2.2 _ hno).withSlots
    have hdone := hmade (n + 1) (by omega) (by omega)
    exact hend ((((htest.append hyes).append (withSlots_jump rfl hdone)).accepts _).append ((hno.accepts _).label _)) _

section
variable {o : Options} {signatures : Signatures} {r : Routine} {body : List Statement} {first last : Nat}
  {code : Code} (h : r.Translated o signatures body first code last)
include h

theorem Routine.Translated.accepts (hlabels : ∀ name ∈ labels code.lines, l.names name)
    (hroutines : ∀ name, (signatures.lookup name).isSome → l.names name)
    (hloop : l.names dispatchLoop) (hhandler : l.names assertHandler)
    (hitems : ∀ τ x, Occurs (r.scopes body) (.all (withoutAliases body)) τ x → x.KeepsTo l τ) :
    l.Accepts (fun _ => True) code.lines := by
  have hnames (name : String) (hname : name ∈ (labelsOf body).map (r.frame o signatures body).localLabel
      ++ labelsFrom first last) : l.names name := hlabels name (h.labelled.perm.mem_iff.mpr hname)
  obtain ⟨lines, leave, hlines, hleave, heq⟩ := h.lines
  have hframe : (r.frame o signatures body).KeepsTo l := by
    refine ⟨fun name hname => ?_, hroutines, fun e he => ?_, hloop, hhandler⟩
    · exact hnames _ (mem_append_left _ (mem_map_of_mem hname))
    · cases he
  have hbody := hlines.accepts (W := fun _ => True) hlines.proper hframe hitems
    (fun k hk hk' => hnames _ (mem_append_right _ (mem_labelsFrom.mpr ⟨k, hk, hk', rfl⟩)))
    fun τ a _ r (_ : a.Changes [] τ r) => trivial
  have hreturn : l.Accepts (fun _ => True) leave := by
    cases hleave with
    | closed => exact Limits.accepts_nil
    | returns => exact (hframe.withSlots_returnCode _).accepts _
  rw [heq]
  exact hbody.append hreturn

theorem Routine.Translated.slots : SlotsAre Line.isNop code.lines := by
  have haccepts := h.accepts (l := .none) (fun _ _ => trivial) (fun _ _ => trivial) trivial trivial
  exact (haccepts fun τ x _ => x.keepsTo_none τ).slots

end
end
end Microcode
