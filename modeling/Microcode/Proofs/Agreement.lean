import Microcode.Lowering.Statement
import Microcode.Proofs.Renaming

/-!
Selection under other names.

Which instructions an assignment, a call or a comparison becomes depends on the variables that its names stand for,
and on the names themselves only in the texts of errors.
-/

namespace Microcode

open Builtin Operand List

def Ensures {ε α : Type} (x y : Except ε α) : Prop := ∀ a, x = .ok a → y = .ok a

namespace Ensures

variable {ε α β : Type} {x y : Except ε α} {f g : α → Except ε β}

theorem refl : Ensures x x := fun _ h => h

theorem of_eq (h : y = x) : Ensures x y := fun _ ha => h.trans ha

variable {e : ε}

theorem error : Ensures (.error e) y := fun _ h => nomatch h

theorem thrown {z} : Ensures ((MonadExcept.throw e : Except ε α) >>= f) z := fun _ h => nomatch h

theorem bind (hx : Ensures x y) (hf : ∀ a, x = .ok a → Ensures (f a) (g a)) : Ensures (x >>= f) (y >>= g) := by
  intro b hb
  obtain ⟨a, ha, hb⟩ := bind_eq_ok.mp hb
  exact bind_eq_ok.mpr ⟨a, hx a ha, hf a ha b hb⟩

theorem seq (hx : Ensures x y) : Ensures (x >>= f) (y >>= f) := bind hx fun _ _ => refl

theorem ite {c : Prop} [Decidable c] {x' y'} (hx : Ensures x y) (hx' : Ensures x' y') :
    Ensures (if c then x else x') (if c then y else y') := by
  split
  · exact hx
  · exact hx'

end Ensures

/-- The names with the property stand in the first stack for what other names stand for in the second. -/
def ScopeStack.Agrees (σ τ : ScopeStack) (ρ : String → String) (K : String → Prop) : Prop :=
  ∀ name, K name → τ.top.get? (ρ name) = σ.top.get? name

section
variable {σ τ : ScopeStack} {ρ : String → String} {K : String → Prop} (h : σ.Agrees τ ρ K)
include h

theorem ScopeStack.Agrees.variableNamed {name : String} (hname : K name) :
    Ensures (σ.variableNamed name) (τ.variableNamed (ρ name)) := by
  unfold ScopeStack.variableNamed ScopeStack.lookup
  rw [h name hname]
  cases σ.top.get? name with
  | none => exact .error
  | some v => exact .refl

theorem ScopeStack.Agrees.aliasOf {name : String} (hname : K name) (type : Option DataType) :
    Ensures (σ.aliasOf name type) (τ.aliasOf (ρ name) type) := by
  exact .bind (h.variableNamed hname) fun v _ => .ite .thrown .refl

variable {o yes no : Operand} {c : Comparison} {e : Expr}

theorem ScopeStack.Agrees.source (ho : o.Names K) : Ensures (o.source σ) ((o.rename ρ).source τ) := by
  obtain ⟨atom, swizzle⟩ := o
  cases atom with
  | «variable» name => exact .bind (h.variableNamed (ho name rfl)) fun v _ => .ite .thrown .refl
  | address name | constant c => exact .refl

theorem ScopeStack.Agrees.branchIf (hc : c.All (Names K)) (target : String) :
    Ensures (branchIf σ c target) (branchIf τ (c.rename ρ) target) :=
  .bind (h.source hc.1) fun _ _ => .bind (h.source hc.2) fun _ _ => .refl

section

omit h in
theorem Source.ensures_checkType (s : Source) (name other : String) (place : Place) (op : BinaryOp) :
    Ensures (s.checkType ⟨name, place⟩ op) (s.checkType ⟨other, place⟩ op) := by
  unfold Source.checkType
  split
  · exact .ite .refl .error
  · exact .refl

variable (name other : String) (place : Place)

theorem ScopeStack.Agrees.scalarCopy (ho : o.Names K) :
    Ensures (scalarCopy σ ⟨name, place⟩ o) (scalarCopy τ ⟨other, place⟩ (o.rename ρ)) :=
  .bind (h.source ho) fun _ _ => .refl

variable {l : Operand}

theorem ScopeStack.Agrees.scalarBinary (op : BinaryOp) {r} (hl : l.Names K) (hr : r.Names K) :
    Ensures (scalarBinary σ ⟨name, place⟩ op l r) (scalarBinary τ ⟨other, place⟩ op (l.rename ρ) (r.rename ρ)) := by
  refine .bind (h.source hl) fun s _ => .bind (h.source hr) fun t _ => ?_
  exact .bind (s.ensures_checkType name other place op) fun _ _ =>
    .bind (t.ensures_checkType name other place op) fun _ _ => .refl

theorem ScopeStack.Agrees.scalarWithConstant (op : BinaryOp) (hl : l.Names K) (c : Constant) :
    Ensures (scalarWithConstant σ ⟨name, place⟩ op l c) (scalarWithConstant τ ⟨other, place⟩ op (l.rename ρ) c) := by
  refine .bind .refl fun v _ => .bind (h.source hl) fun s _ => ?_
  exact .bind (s.ensures_checkType name other place op) fun _ _ => .refl

theorem ScopeStack.Agrees.scalarTest (hc : c.All (Names K)) :
    Ensures (scalarTest σ ⟨name, place⟩ c) (scalarTest τ ⟨other, place⟩ (c.rename ρ)) :=
  .bind (h.source hc.1) fun _ _ => .bind (h.source hc.2) fun _ _ => .refl

theorem ScopeStack.Agrees.scalarValue (he : e.All (Names K)) :
    Ensures (scalarValue σ ⟨name, place⟩ e) (scalarValue τ ⟨other, place⟩ (e.rename ρ)) := by
  cases e with
  | constant c => exact .refl
  | copy o => exact h.scalarCopy name other place he
  | unary op o => exact .bind (h.source he) fun _ _ => .refl
  | binary op l r => exact h.scalarBinary name other place op he.1 he.2
  | withConstant op l c => exact h.scalarWithConstant name other place op he c
  | test c => exact h.scalarTest name other place he
  | choose c yes no | call callee args swizzle | flat parts => exact .error

theorem ScopeStack.Agrees.scalarChoice (hc : c.All (Names K)) (hyes : yes.Names K) (hno : no.Names K)
    (otherwise : String) : Ensures (scalarChoice σ ⟨name, place⟩ c yes no otherwise)
      (scalarChoice τ ⟨other, place⟩ (c.rename ρ) (yes.rename ρ) (no.rename ρ) otherwise) := by
  have hnegate : c.negate.All (Names K) := hc
  refine .bind (h.branchIf hnegate otherwise) fun _ _ => ?_
  exact .bind (h.scalarCopy name other place hyes) fun _ _ =>
    .bind (h.scalarCopy name other place hno) fun _ _ => .refl

end

section

theorem ScopeStack.Agrees.vectorOperand (ho : o.Names K) (type : DataType) :
    Ensures (vectorOperand σ o type) (vectorOperand τ (o.rename ρ) type) := by
  refine .bind (h.source ho) fun s _ => ?_
  cases s with
  | «variable» p => exact .ite .refl .error
  | constant c => exact .refl
  | address name => exact .error

theorem ScopeStack.Agrees.leftOperand (ho : o.Names K) (type : DataType) :
    Ensures (leftOperand σ o type) (leftOperand τ (o.rename ρ) type) :=
  .seq (h.vectorOperand ho type)

theorem ScopeStack.Agrees.comparedPlaces (d : Place) (hc : c.All (Names K)) :
    Ensures (comparedPlaces σ d c) (comparedPlaces τ d (c.rename ρ)) :=
  .bind (h.leftOperand hc.1 d.type) fun _ _ => .bind (h.vectorOperand hc.2 d.type) fun _ _ => .refl

theorem ScopeStack.Agrees.vectorChoice (d : Place) (hc : c.All (Names K)) (hyes : yes.Names K) (hno : no.Names K) :
    Ensures (vectorChoice σ d c yes no) (vectorChoice τ d (c.rename ρ) (yes.rename ρ) (no.rename ρ)) :=
  .bind (h.comparedPlaces d hc) fun _ _ => .bind (h.vectorOperand hyes d.type) fun _ _ =>
    .bind (h.vectorOperand hno d.type) fun _ _ => .refl

omit h in
theorem ensures_checkVectorTypes (name other : String) (place : Place) (op : BinaryOp) (l r : Place) :
    Ensures (checkVectorTypes ⟨name, place⟩ op l r) (checkVectorTypes ⟨other, place⟩ op l r) :=
  .ite .error .refl

theorem ScopeStack.Agrees.vectorValue (name other : String) (place : Place) (he : e.All (Names K)) :
    Ensures (vectorValue σ ⟨name, place⟩ e) (vectorValue τ ⟨other, place⟩ (e.rename ρ)) := by
  have hfits : (e.rename ρ).fitsLanes = e.fitsLanes := by cases e <;> rfl
  unfold Microcode.vectorValue
  dsimp only
  rw [hfits]
  split
  · exact .thrown
  · cases e with
    | constant c => exact .refl
    | copy o => exact .bind (h.source he) fun _ _ => .refl
    | unary op o => exact .bind (h.vectorOperand he place.type) fun s _ => .ite .thrown .refl
    | binary op l r =>
      refine .bind (h.leftOperand he.1 place.type) fun s _ => ?_
      refine .bind (h.vectorOperand he.2 place.type) fun t _ => ?_
      exact .bind (ensures_checkVectorTypes name other place op s.1 t.1) fun _ _ => .refl
    | withConstant op l c =>
      refine .bind (h.leftOperand he place.type) fun s _ => ?_
      exact .bind (ensures_checkVectorTypes name other place op s.1 s.1) fun _ _ => .refl
    | test c => exact .bind (h.comparedPlaces place he) fun _ _ => .refl
    | choose c yes no => exact h.vectorChoice place he.1 he.2.1 he.2.2
    | call callee args swizzle | flat parts => exact .error

end

/-! ### Builtin functions -/

section
variable (b : Builtin) {args : List CallArg}

omit h in
theorem Builtin.ensures_checkArity (least most : Nat) :
    Ensures (b.checkArity args least most) (b.checkArity (args.map (·.rename ρ)) least most) := by
  unfold checkArity
  rw [length_map]
  exact .refl

variable {i : Nat} {P : Operand → Prop}

omit h in
theorem Builtin.operandAt_rename (ho : b.operandAt args i = .ok o) :
    b.operandAt (args.map (·.rename ρ)) i = .ok (o.rename ρ) := by
  unfold operandAt at ho ⊢
  rw [getElem?_map]
  split at ho
  next o' heq =>
    cases ho
    rw [heq]
    rfl
  · cases ho
  · cases ho

omit h in
theorem Builtin.all_operandAt (hargs : ∀ a ∈ args, a.All P) (ho : b.operandAt args i = .ok o) : P o := by
  unfold operandAt at ho
  split at ho
  next o' heq =>
    cases ho
    exact hargs _ (mem_of_getElem? heq)
  · cases ho
  · cases ho

omit h in
theorem Builtin.ensures_wholeAt (i : Nat) (default : Int64) :
    Ensures (b.wholeAt args i default) (b.wholeAt (args.map (·.rename ρ)) i default) := by
  unfold wholeAt
  rw [length_map]
  refine .ite .refl ?_
  intro v hv
  obtain ⟨o, ho, hv⟩ := bind_eq_ok.mp hv
  refine bind_eq_ok.mpr ⟨_, b.operandAt_rename ho, ?_⟩
  rw [(keepsConstants_rename ρ).constant?]
  exact hv

omit h in
theorem Builtin.ensures_rowAt (i : Nat) : Ensures (b.rowAt args i) (b.rowAt (args.map (·.rename ρ)) i) := by
  unfold rowAt
  intro row hrow
  split at hrow
  next v hv =>
    rw [b.ensures_wholeAt i (-1) v hv]
    exact hrow
  · cases hrow

variable (hargs : ∀ a ∈ args, a.All (Names K))
include hargs

theorem ScopeStack.Agrees.argument {α : Type} (i : Nat) (f : Source → Except Fault α) :
    Ensures (b.operandAt args i >>= fun o => o.source σ >>= f)
      (b.operandAt (args.map (·.rename ρ)) i >>= fun o => o.source τ >>= f) := by
  intro a ha
  obtain ⟨o, s, ho, hs, ha⟩ := bind₂_eq_ok.mp ha
  have hs' := h.source (b.all_operandAt hargs ho) s hs
  exact bind₂_eq_ok.mpr ⟨_, s, b.operandAt_rename ho, hs', ha⟩

theorem ScopeStack.Agrees.variableAt (i : Nat) :
    Ensures (b.variableAt σ args i) (b.variableAt τ (args.map (·.rename ρ)) i) := h.argument b hargs i _

theorem ScopeStack.Agrees.vectorAt (i : Nat) : Ensures (b.vectorAt σ args i) (b.vectorAt τ (args.map (·.rename ρ)) i) :=
  .seq (h.variableAt b hargs i)

theorem ScopeStack.Agrees.baseAt (i : Nat) :
    Ensures (b.baseAt σ args i) (b.baseAt τ (args.map (·.rename ρ)) i) := h.argument b hargs i _

theorem ScopeStack.Agrees.loadValue (d : Place) (swizzle : Option Swizzle) :
    Ensures (loadValue σ d args swizzle) (loadValue τ d (args.map (·.rename ρ)) swizzle) := by
  refine .bind (ensures_checkArity _ _ _) fun _ _ => .bind .refl fun _ _ => ?_
  exact .bind (h.baseAt .load hargs 0) fun _ _ => .bind (load.ensures_wholeAt 1 0) fun _ _ => .refl

theorem ScopeStack.Agrees.storeValue : Ensures (storeValue σ args) (storeValue τ (args.map (·.rename ρ))) := by
  refine .bind (ensures_checkArity _ _ _) fun _ _ => ?_
  intro code hcode
  obtain ⟨o, s, ho, hs, hcode⟩ := bind₂_eq_ok.mp hcode
  have hs' := h.source (store.all_operandAt hargs ho) s hs
  refine bind₂_eq_ok.mpr ⟨_, s, store.operandAt_rename ho, hs', ?_⟩
  cases s with
  | «variable» p =>
    refine Ensures.bind (h.baseAt .store hargs 1) (fun _ _ => ?_) code hcode
    exact .bind (store.ensures_wholeAt 2 0) fun _ _ => .refl
  | constant c | address name => cases hcode

theorem ScopeStack.Agrees.loadBytes (opcode : Opcode) (d : Place) (swizzle : Option Swizzle) :
    Ensures (b.loadBytes opcode σ d args swizzle) (b.loadBytes opcode τ d (args.map (·.rename ρ)) swizzle) := by
  refine .bind (ensures_checkArity _ _ _) fun _ _ => .bind .refl fun _ _ => .ite .refl ?_
  exact .bind (h.baseAt b hargs 0) fun _ _ => .bind (b.ensures_wholeAt 1 0) fun _ _ => .refl

theorem ScopeStack.Agrees.storeBytes (opcode : Opcode) :
    Ensures (b.storeBytes opcode σ args) (b.storeBytes opcode τ (args.map (·.rename ρ))) := by
  refine .bind (ensures_checkArity _ _ _) fun _ _ => .bind (h.vectorAt b hargs 0) fun p _ => .ite .refl ?_
  exact .bind (h.baseAt b hargs 1) fun _ _ => .bind (b.ensures_wholeAt 2 0) fun _ _ => .refl

theorem ScopeStack.Agrees.loadRow (d : Place) (swizzle : Option Swizzle) :
    Ensures (loadRow σ d args swizzle) (loadRow τ d (args.map (·.rename ρ)) swizzle) := by
  refine .bind (ensures_checkArity _ _ _) fun _ _ => .bind .refl fun _ _ => .bind .refl fun _ _ => ?_
  exact .bind (ensures_rowAt _ 0) fun _ _ => .bind (h.baseAt _ hargs 1) fun _ _ =>
    .bind (ensures_wholeAt _ 2 0) fun _ _ => .refl

theorem ScopeStack.Agrees.storeRow : Ensures (storeRow σ args) (storeRow τ (args.map (·.rename ρ))) := by
  refine .bind (ensures_checkArity _ _ _) fun _ _ => .bind (h.vectorAt _ hargs 0) fun _ _ => .bind .refl fun _ _ => ?_
  exact .bind (ensures_rowAt _ 1) fun _ _ => .bind (h.baseAt _ hargs 2) fun _ _ =>
    .bind (ensures_wholeAt _ 3 0) fun _ _ => .refl

theorem ScopeStack.Agrees.selectLanes (name other : String) (place : Place) (swizzle : Option Swizzle) :
    Ensures (selectLanes σ ⟨name, place⟩ args swizzle)
      (selectLanes τ ⟨other, place⟩ (args.map (·.rename ρ)) swizzle) := by
  refine .bind (ensures_checkArity _ _ _) fun _ _ => .bind .refl fun _ _ => .ite .thrown ?_
  exact .bind (h.vectorAt _ hargs 0) fun _ _ => h.argument _ hargs 1 _

theorem ScopeStack.Agrees.reciprocal (name other : String) (place : Place) (swizzle : Option Swizzle) :
    Ensures (b.reciprocal σ ⟨name, place⟩ args swizzle)
      (b.reciprocal τ ⟨other, place⟩ (args.map (·.rename ρ)) swizzle) := by
  refine .bind (ensures_checkArity _ _ _) fun _ _ => .ite .thrown ?_
  exact .seq (h.vectorAt b hargs 0)

theorem ScopeStack.Agrees.swapVariables : Ensures (swapVariables σ args) (swapVariables τ (args.map (·.rename ρ))) := by
  refine .bind (ensures_checkArity _ _ _) fun _ _ => ?_
  exact .bind (h.variableAt _ hargs 0) fun _ _ => .seq (h.variableAt _ hargs 1)

omit h hargs in
theorem Builtin.ensures_stop : Ensures (stop args) (stop (args.map (·.rename ρ))) := by
  exact .bind (ensures_checkArity _ _ _) fun _ _ => .seq (ensures_wholeAt _ 0 0)

theorem ScopeStack.Agrees.run : Ensures (b.run σ args) (b.run τ (args.map (·.rename ρ))) := by
  cases b with
  | store => exact h.storeValue hargs
  | storeUnsigned | storeSigned => exact h.storeBytes _ hargs _
  | storeTransposed => exact h.storeRow hargs
  | swap => exact h.swapVariables hargs
  | assertion => exact ensures_stop
  | _ => exact .error

theorem ScopeStack.Agrees.value (name other : String) (place : Place) (swizzle : Option Swizzle) :
    Ensures (b.value σ ⟨name, place⟩ args swizzle) (b.value τ ⟨other, place⟩ (args.map (·.rename ρ)) swizzle) := by
  cases b with
  | load => exact h.loadValue hargs place swizzle
  | loadUnsigned | loadSigned => exact h.loadBytes _ hargs _ place swizzle
  | loadTransposed => exact h.loadRow hargs place swizzle
  | select => exact h.selectLanes hargs name other place swizzle
  | invert | invertHalf | invertHalfSqrt => exact h.reciprocal _ hargs name other place swizzle
  | _ => exact .error

end

section
variable (routine : String)

theorem ScopeStack.Agrees.passArgument (p : Parameter) (position : Nat) {a} (ha : a.All (Names K)) :
    Ensures (passArgument σ routine p position a) (passArgument τ routine p position (a.rename ρ)) := by
  unfold Microcode.passArgument
  dsimp only
  split
  · refine .bind .refl fun r _ => ?_
    cases a with
    | operand o => exact .seq (h.source ha)
    | string text => exact .error
  · exact .thrown

variable {args : List CallArg}

theorem ScopeStack.Agrees.passArguments (position : Nat) (params : List Parameter)
    (hargs : ∀ a ∈ args, a.All (Names K)) :
    Ensures (passArguments σ routine position params args)
      (passArguments τ routine position params (args.map (·.rename ρ))) := by
  induction params generalizing position args with
  | nil => exact .refl
  | cons p params ih =>
    cases args with
    | nil => exact .refl
    | cons a args =>
      obtain ⟨ha, hargs⟩ := forall_mem_cons.mp hargs
      exact .bind (h.passArgument routine p position ha) fun _ _ =>
        .bind (ih (position + 1) hargs) fun _ _ => .refl

theorem ScopeStack.Agrees.callFunction (params : List Parameter) (hargs : ∀ a ∈ args, a.All (Names K)) :
    Ensures (callFunction σ routine params args) (callFunction τ routine params (args.map (·.rename ρ))) := by
  unfold Microcode.callFunction
  rw [length_map]
  exact .ite .refl (.seq (h.passArguments routine 0 params hargs))

theorem ScopeStack.Agrees.callValue (signatures : Signatures) (name other : String) (place : Place)
    (callee : String) (hargs : ∀ a ∈ args, a.All (Names K)) (swizzle : Option Swizzle) :
    Ensures (callValue σ signatures ⟨name, place⟩ callee args swizzle)
      (callValue τ signatures ⟨other, place⟩ callee (args.map (·.rename ρ)) swizzle) := by
  refine .ite .error ?_
  cases ofName? callee with
  | some b => exact h.value b hargs name other place swizzle
  | none => exact .refl

end
end
end Microcode
