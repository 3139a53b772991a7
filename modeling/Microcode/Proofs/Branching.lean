import Microcode.Proofs.Reaching
import Microcode.Proofs.ScalarUnit

/-!
Where the code of a comparison takes control.

Two scalars are compared as numbers, with the sign of the variable that stands on the left, or of the only
variable if the left side is a constant.
-/

namespace Microcode

open CompareOp Instruction ScopeStack Option BitVec

/-! ### Branches -/

def Opcode.less? : Opcode → Option (BitVec 32 → BitVec 32 → Bool)
  | .slt | .slti => some BitVec.slt
  | .sltu | .sltiu => some BitVec.ult
  | _ => none

def Instruction.compare? (f : RegisterFile) (i : Instruction) : Option RegisterFile := match i.opcode.less?, i.args with
  | some less, [.reg d, .reg s, last] => (f.operand? last).map fun w => f.set d (if less (f.get s) w then 1 else 0)
  | _, _ => if i.isNop then some f else i.exec? f

def Instruction.taken? (f : RegisterFile) (i : Instruction) : Option (Bool × String) := match i.opcode, i.args with
  | .beq, [.reg a, .reg b, .label target] => some (f.get a == f.get b, target)
  | .bne, [.reg a, .reg b, .label target] => some (f.get a != f.get b, target)
  | _, _ => none

/-- Where a run gets and with which registers: to the label of the first branch that is taken, behind the
instruction in its slot, or past the end. -/
def RegisterFile.follow? (f : RegisterFile) : List Instruction → Option (Option String × RegisterFile)
  | [] => some (none, f)
  | [i] => (i.compare? f).map fun g => (none, g)
  | i :: slot :: rest =>
    match i.taken? f with
    | none => (i.compare? f).bind fun g => g.follow? (slot :: rest)
    | some (taken, target) => (slot.compare? f).bind fun g => if taken then some (some target, g) else g.follow? rest

variable {i : Instruction} {f : RegisterFile} {signed : Bool} {a : Register} {v : Int64}

theorem Instruction.plain_of_exec? {g} (h : i.exec? f = some g) : i.taken? f = none ∧ i.compare? f = some g := by
  have hopcode : i.opcode.compute?.isSome ∨ i.opcode = .lui := by
    unfold exec? at h
    split at h
    · obtain ⟨compute, hcompute, -⟩ := bind_eq_some_iff.mp h
      exact .inl (by simp [hcompute])
    · split at h
      · exact .inr ‹_›
      · cases h
    · cases h
  have hless : i.opcode.less? = none ∧ i.opcode ≠ .nop ∧ i.opcode ≠ .beq ∧ i.opcode ≠ .bne := by
    revert hopcode
    unfold Opcode.compute?
    split <;> simp_all [Opcode.less?]
  refine ⟨?_, by simp [compare?, hless.1, isNop, hless.2.1, h]⟩
  unfold taken?
  split <;> simp_all

theorem Opcode.less?_eq {o : Opcode} (ho : o = lessThan signed ∨ o = lessThanConstant signed) :
    o.less? = some fun a b => decide (wordNumber signed a < wordNumber signed b) := by
  rcases ho with rfl | rfl <;> cases signed <;> simp [lessThan, lessThanConstant, less?, wordNumber] <;> rfl

theorem holdsWord_scratch : Register.scratch.HoldsWord := ⟨rfl, by decide⟩

namespace RegisterFile

variable {f g : RegisterFile} {rest : List Instruction}

theorem follow?_step (h : i.taken? f = none) : f.follow? (i :: rest) = (i.compare? f).bind fun g => g.follow? rest := by
  cases rest with
  | nil => cases hi : i.compare? f <;> simp [follow?, hi]
  | cons slot rest => simp only [follow?, h]

variable {code : List Instruction} {target : String}

theorem follow?_append (h : f.run code = some g) : f.follow? (code ++ rest) = g.follow? rest := by
  induction code generalizing f with
  | nil =>
    cases h
    rfl
  | cons i code ih =>
    simp only [run, List.foldlM_cons, bind_eq_bind, bind_eq_some_iff] at h
    obtain ⟨u, hu, h⟩ := h
    obtain ⟨htaken, hcompare⟩ := plain_of_exec? hu
    rw [List.cons_append, follow?_step htaken, hcompare]
    exact ih h

theorem follow?_branch {slot} {taken : Bool} (h : i.taken? f = some (taken, target))
    (hslot : slot.isNop) : f.follow? [i, slot] = some (if taken then some target else none, f) := by
  have hnop : slot.compare? f = some f := by
    have hless : slot.opcode.less? = none := by rw [beq_iff_eq.mp hslot]; rfl
    simp [compare?, hless, hslot]
  simp only [follow?, h, hnop, bind_some]
  cases taken <;> rfl

theorem follow?_branchOn (equal : Bool) (a b : Register) (target : String) :
    f.follow? (branchOn (if equal then .beq else .bne) a b target) =
      some (if decide (f.get a = f.get b) = equal then some target else none, f) := by
  have htaken : (scalarWith (if equal then .beq else .bne) [a, b] (.label target)).taken? f =
      some (decide (f.get a = f.get b) == equal, target) := by
    cases equal <;> cases h : f.get a == f.get b <;> simp_all [taken?, scalarWith]
  rw [branchOn, withSlot, follow?_branch htaken rfl]
  simp

def withOrder (f : RegisterFile) (signed : Bool) (a b : BitVec 32) : RegisterFile :=
  f.set .scratch (if wordNumber signed a < wordNumber signed b then 1 else 0)

theorem follow?_compare {o : Opcode} (ho : o = lessThan signed ∨ o = lessThanConstant signed) (a : Register)
    {last : Arg} {w} (hlast : f.operand? last = some w) :
    f.follow? (⟨o, [.reg .scratch, .reg a, last], {}⟩ :: rest) = (f.withOrder signed (f.get a) w).follow? rest := by
  have htaken : taken? f ⟨o, [.reg .scratch, .reg a, last], {}⟩ = none := by
    rcases ho with rfl | rfl <;> cases signed <;> rfl
  rw [follow?_step htaken]
  simp [compare?, Opcode.less?_eq ho, hlast, withOrder]

theorem follow?_testBelow (signed : Bool) (ha : a ≠ .scratch) (bound : Int64) :
    f.follow? (testBelow signed a bound ++ rest) = (f.withOrder signed (f.get a) (word bound)).follow? rest := by
  unfold testBelow
  dsimp only
  split
  · exact follow?_compare (.inr rfl) a (congrArg some (word_signedWord _))
  · rw [List.append_assoc, follow?_append (f.run_loadWord holdsWord_scratch _)]
    have hlast : (f.set .scratch (word bound)).operand? (.reg .scratch) = some (word bound) :=
      congrArg some (f.get_set_self holdsWord_scratch)
    refine (follow?_compare (.inl rfl) a hlast).trans ?_
    rw [f.get_set_of_ne ha.symm, withOrder, set_set]
    rfl

theorem follow?_order (signed less : Bool) (a b : BitVec 32) (target : String) :
    (f.withOrder signed a b).follow? (branchOn (if less then .bne else .beq) .scratch .zero target) =
      some (if decide (wordNumber signed a < wordNumber signed b) = less then some target else none,
        f.withOrder signed a b) := by
  have hbranch := (f.withOrder signed a b).follow?_branchOn (!less) .scratch .zero target
  have hscratch : (f.withOrder signed a b).get .scratch = if wordNumber signed a < wordNumber signed b then 1 else 0 :=
    f.get_set_self holdsWord_scratch
  cases less <;> split at hbranch <;> simp_all

/-- Control gets to the label exactly if a condition holds, and no register but the scratch register changes. -/
def Branches (f : RegisterFile) (code : List Instruction) (target : String) (holds : Bool) : Prop :=
  ∃ g, f.follow? code = some (if holds then some target else none, g) ∧ ∀ r, r ≠ .scratch → g.get r = f.get r

theorem branches_branchOn (equal : Bool) (signed : Bool) (a b : Register) (target : String) :
    f.Branches (branchOn (if equal then .beq else .bne) a b target) target
      ((if equal then eq else .ne).onNumbers (wordNumber signed (f.get a)) (wordNumber signed (f.get b))) := by
  refine ⟨f, (follow?_branchOn equal a b target).trans ?_, fun _ _ => rfl⟩
  cases equal <;> simp [onNumbers, wordNumber_inj]

theorem branches_order {a b} (less : Bool)
    (h : f.follow? code = (f.withOrder signed a b).follow? (branchOn (if less then .bne else .beq) .scratch .zero target))
    {holds : Bool} (hholds : holds = (decide (wordNumber signed a < wordNumber signed b) == less)) :
    f.Branches code target holds := by
  refine ⟨f.withOrder signed a b, ?_, fun r hr => f.get_set_of_ne hr.symm⟩
  rw [h, follow?_order, hholds]
  simp

theorem branches_branchRegisters (signed : Bool) (a : Register) (op : CompareOp) (b : Register) (target : String) :
    f.Branches (branchRegisters signed a op b target) target
      (op.onNumbers (wordNumber signed (f.get a)) (wordNumber signed (f.get b))) := by
  cases op with
  | eq => exact branches_branchOn true signed a b target
  | ne => exact branches_branchOn false signed a b target
  | lt => exact branches_order true (follow?_compare (.inl rfl) a rfl) (by simp [onNumbers])
  | ge => exact branches_order false (follow?_compare (.inl rfl) a rfl) (by simp [onNumbers, ← decide_not])
  | gt => exact branches_order true (follow?_compare (.inl rfl) b rfl) (by simp [onNumbers])
  | le => exact branches_order false (follow?_compare (.inl rfl) b rfl) (by simp [onNumbers, ← decide_not])

end RegisterFile

def lastNumber (signed : Bool) : Int := if signed then 2147483647 else 4294967295

def IsWordNumber (signed : Bool) (v : Int) : Prop := lastNumber signed - 4294967295 ≤ v ∧ v ≤ lastNumber signed

instance (signed : Bool) (v : Int) : Decidable (IsWordNumber signed v) := inferInstanceAs (Decidable (_ ∧ _))

theorem wordNumber_word (h : IsWordNumber signed v.toInt) : wordNumber signed (word v) = v.toInt := by
  have hnat := toNat_word v
  cases signed <;> simp [IsWordNumber, lastNumber] at h <;> simp [wordNumber, toInt_eq_toNat_cond] <;> omega

theorem wordNumber_word_succ (h : IsWordNumber signed v.toInt) : wordNumber signed (word (v + 1)) =
      if v.toInt = lastNumber signed then lastNumber signed - 4294967295 else v.toInt + 1 := by
  have hnat := toNat_word v
  have hsucc : (word (v + 1)).toNat = ((word v).toNat + 1) % 4294967296 := by rw [word_add, toNat_add]; rfl
  cases signed <;> simp [IsWordNumber, lastNumber] at h ⊢ <;>
    simp [wordNumber, toInt_eq_toNat_cond, hsucc] <;> split <;> omega

theorem isWordNumber_wordNumber (signed : Bool) (w : BitVec 32) : IsWordNumber signed (wordNumber signed w) := by
  cases signed <;> simp [IsWordNumber, lastNumber, wordNumber, toInt_eq_toNat_cond] <;> omega

/-- Whether the code of a comparison with a constant adds one to the last number of the type. -/
def CompareOp.passesLast (signed : Bool) (op : CompareOp) (v : Int64) : Bool := match op with
  | .le | .gt => v.toInt = lastNumber signed
  | _ => false

theorem lt_word_succ (h : IsWordNumber signed v.toInt) (w : BitVec 32) :
    decide (wordNumber signed w < wordNumber signed (word (v + 1))) =
      (decide (wordNumber signed w ≤ v.toInt) != decide (v.toInt = lastNumber signed)) := by
  obtain ⟨hfirst, hlast⟩ := isWordNumber_wordNumber signed w
  rw [wordNumber_word_succ h]
  by_cases heq : v.toInt = lastNumber signed
  · simp [heq, hfirst, hlast]
  · simp [heq, Int.lt_add_one_iff]

theorem RegisterFile.branches_branchConstant (ha : a ≠ .scratch) (op : CompareOp)
    (hv : IsWordNumber signed v.toInt) (target : String) :
    f.Branches (branchConstant signed a op v target) target
      (op.onNumbers (wordNumber signed (f.get a)) v.toInt != op.passesLast signed v) := by
  have hequality (equal : Bool) : f.Branches (if v = 0 then branchOn (if equal then .beq else .bne) a .zero target
        else loadConstant .scratch v ++ branchOn (if equal then .beq else .bne) a .scratch target) target
      ((if equal then CompareOp.eq else .ne).onNumbers (wordNumber signed (f.get a)) v.toInt) := by
    rw [← wordNumber_word hv]
    split
    next hzero =>
      subst hzero
      exact branches_branchOn equal signed a .zero target
    · obtain ⟨g, hg, hframe⟩ := (f.set .scratch (word v)).branches_branchOn equal signed a .scratch target
      rw [f.get_set_of_ne ha.symm] at hg
      refine ⟨g, (follow?_append (f.run_loadConstant holdsWord_scratch v)).trans hg, fun r hr => ?_⟩
      rw [hframe r hr, f.get_set_of_ne hr.symm]
  cases op with
  | eq => exact (Bool.bne_false _).symm ▸ hequality true
  | ne => exact (Bool.bne_false _).symm ▸ hequality false
  | lt =>
    refine branches_order true (follow?_testBelow signed ha v) ?_
    simp [passesLast, onNumbers, wordNumber_word hv]
  | ge =>
    refine branches_order false (follow?_testBelow signed ha v) ?_
    simp [passesLast, onNumbers, wordNumber_word hv, ← decide_not]
  | le =>
    refine branches_order true (follow?_testBelow signed ha (v + 1)) ?_
    simp [passesLast, onNumbers, lt_word_succ hv]
  | gt =>
    refine branches_order false (follow?_testBelow signed ha (v + 1)) ?_
    rw [lt_word_succ hv, passesLast, onNumbers]
    cases h : decide (v.toInt = lastNumber signed) <;> simp [← decide_not]

theorem CompareOp.onNumbers_swap (op : CompareOp) (a b : Int) : op.swap.onNumbers b a = op.onNumbers a b := by
  cases op <;> simp [swap, onNumbers, eq_comm]

def Operand.IsScalar (σ : ScopeStack) (v : Variable) (o : Operand) : Prop :=
  ∃ name, o = .ofName name ∧ σ.top.get? name = some v ∧ v.type.isVector = false

theorem Operand.IsScalar.source {σ} {v : Variable} {o : Operand} (h : o.IsScalar σ v) :
    o.source σ = .ok (.variable (.ofVariable v none)) := by
  obtain ⟨name, rfl, hv, -⟩ := h
  simp only [Operand.source, Operand.ofName, variableNamed_eq_ok.mpr hv]
  rfl

theorem Operand.IsScalar.ne_scratch {σ} {v : Variable} {o : Operand} (h : o.IsScalar σ v) (hσ : σ.IsProper) :
    v.register ≠ .scratch := by
  obtain ⟨name, -, hv, -⟩ := h
  exact (hσ hv).ne_scratch

/-- The numbers that a comparison is about, and whether one more than a constant is past the last number of the
type.  The sign is that of the left variable, or of the only one. -/
inductive Comparison.Compares (σ : ScopeStack) (f : RegisterFile) : Comparison → Int → Int → Bool → Prop
  | scalars {l op r v w} (hl : l.IsScalar σ v) (hr : r.IsScalar σ w) : Compares σ f ⟨l, op, r⟩
      (wordNumber v.type.isSigned (f.get v.register)) (wordNumber v.type.isSigned (f.get w.register)) false
  | right {l op v n} (hl : l.IsScalar σ v) (hn : IsWordNumber v.type.isSigned n.toInt) :
      Compares σ f ⟨l, op, .ofConstant (.int n)⟩
        (wordNumber v.type.isSigned (f.get v.register)) n.toInt (op.passesLast v.type.isSigned n)
  | left {op r v n} (hr : r.IsScalar σ v) (hn : IsWordNumber v.type.isSigned n.toInt) :
      Compares σ f ⟨.ofConstant (.int n), op, r⟩
        n.toInt (wordNumber v.type.isSigned (f.get v.register)) (op.swap.passesLast v.type.isSigned n)

/-- **Branches.**  The code of a comparison of scalars takes control to the target exactly if the comparison holds, and
changes no register but the scratch register.  It is the other way round for `<=` and `>` with the last number of the
type on the right, and for `>=` and `<` with it on the left. -/
theorem branchIf_follows {σ : ScopeStack} (hσ : σ.IsProper) {f : RegisterFile} {c : Comparison} {a b : Int}
    {passes : Bool} (hc : c.Compares σ f a b passes) (target : String) :
    ∃ code, branchIf σ c target = .ok code ∧ f.Branches code target (c.op.onNumbers a b != passes) := by
  have hscalar {o : Operand} {v : Variable} (h : o.IsScalar σ v) : v.type.isVector = false := by
    obtain ⟨name, -, -, hv⟩ := h
    exact hv
  cases hc with
  | @scalars l op r v w hl hr =>
    refine ⟨branchRegisters v.type.isSigned v.register op w.register target, ?_, ?_⟩
    · rw [branchIf, hl.source, hr.source]
      show (if v.type.isVector then _ else if w.type.isVector then _ else _) = _
      rw [hscalar hl, hscalar hr]
      rfl
    · rw [Bool.bne_false]
      exact RegisterFile.branches_branchRegisters _ _ op _ target
  | @right l op v n hl hn =>
    refine ⟨branchConstant v.type.isSigned v.register op n target, ?_, ?_⟩
    · rw [branchIf, hl.source]
      show (if v.type.isVector then _ else _) = _
      rw [hscalar hl]
      rfl
    · exact RegisterFile.branches_branchConstant (hl.ne_scratch hσ) op hn target
  | @left op r v n hr hn =>
    refine ⟨branchConstant v.type.isSigned v.register op.swap n target, ?_, ?_⟩
    · rw [branchIf, hr.source]
      show (if v.type.isVector then _ else _) = _
      rw [hscalar hr]
      rfl
    · rw [← CompareOp.onNumbers_swap]
      exact RegisterFile.branches_branchConstant (hr.ne_scratch hσ) op.swap hn target

def ScopeStack.single : ScopeStack := (({} : ScopeStack).declare "a" ⟨.scalar 4, .u32, false⟩ false).2

theorem ScopeStack.isProper_single : single.IsProper :=
  isProper_empty.declare ⟨by decide, by decide, rfl⟩ "a" false

theorem isScalar_single : (Operand.ofName "a").IsScalar .single ⟨.scalar 4, .u32, false⟩ := ⟨"a", rfl, rfl, rfl⟩

theorem belowThree_follows : ScopeStack.single.IsProper ∧ ∀ f : RegisterFile,
    Comparison.Compares .single f ⟨.ofConstant (.int 3), .gt, .ofName "a"⟩ 3 (f 4).toNat false ∧
      ∃ code, branchIf .single ⟨.ofConstant (.int 3), .gt, .ofName "a"⟩ "l" = .ok code ∧
        f.Branches code "l" (decide (3 > ((f 4).toNat : Int)) != false) := by
  refine ⟨ScopeStack.isProper_single, fun f => ?_⟩
  have hcompares : Comparison.Compares .single f ⟨.ofConstant (.int 3), .gt, .ofName "a"⟩ 3 (f 4).toNat false :=
    .left isScalar_single (by decide)
  exact ⟨hcompares, branchIf_follows ScopeStack.isProper_single hcompares "l"⟩

/-- No word is greater than the last one, and still the branch is taken. -/
theorem aboveLast_branches : ∃ code, branchIf .single ⟨.ofName "a", .gt, .ofConstant (.int 4294967295)⟩ "l" = .ok code ∧
    ∀ f : RegisterFile, ¬ 4294967295 < (f 4).toNat ∧ f.Branches code "l" true := by
  refine ⟨_, rfl, fun f => ?_⟩
  have hlast : ¬ 4294967295 < (f 4).toNat := by have := (f 4).isLt; omega
  have hbranches : f.Branches (branchConstant false (.scalar 4) .gt 4294967295 "l") "l"
      (decide (((f 4).toNat : Int) > 4294967295) != true) :=
    RegisterFile.branches_branchConstant (by decide) .gt (by decide) "l"
  have hholds : decide (((f 4).toNat : Int) > 4294967295) = false := by simp; omega
  exact ⟨hlast, by rwa [hholds] at hbranches⟩

end Microcode
