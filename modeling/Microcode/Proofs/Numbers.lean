import Microcode.Proofs.Chain

/-!
Expressions on numbers.

The variables of an expression may be given numbers, and then the expression is one of constants.
-/

namespace Microcode

open List Option Constant Quantity

theorem Quantity.isShort_number (w : Int32) : (number w.toInt64).IsShort := isShort_ofWord true w.toBitVec

namespace Level

end Level


/-! ### Steps as assignments -/

abbrev Store := String → Int64

namespace Store

variable (s : Store)

/-- The number that an operand stands for: a whole number for itself, and a variable for its own.  A fraction, an
address or a lane has none. -/
def number? : Operand → Option Int64
  | ⟨.constant (.int v), none⟩ => some v
  | ⟨.variable name, none⟩ => some (s name)
  | _ => none

def compute? : Expr → Option Int64
  | .constant (.int v) => some v
  | .copy o => s.number? o
  | .binary op l r => do combined? op (← s.number? l) (← s.number? r)
  | .withConstant op l (.int b) => do combined? op (← s.number? l) b
  | _ => none
where
  /-- Two numbers combined as constants are. -/
  combined? (op : BinaryOp) (a b : Int64) : Option Int64 := match combine op (.int a) (.int b) with
    | .ok (.int v) => some v
    | _ => none

def assign? (a : Assignment) : Option Store := match a.op, a.swizzle with
  | none, none => (s.compute? a.value).map fun v name => if name = a.target then v else s name
  | _, _ => none

def read (o : Operand) : Option Quantity := (s.number? o).map .number

variable {s}

theorem compute?_ofOperand (o : Operand) : s.compute? (.ofOperand o) = s.number? o := by
  unfold Expr.ofOperand
  split
  next c hc =>
    rw [Operand.eq_ofConstant hc]
    cases c <;> rfl
  · rfl

theorem compute?_ofStep (op : BinaryOp) (l r : Operand) : s.compute? (.ofStep op l r) =
    (s.number? l).bind fun a => (s.number? r).bind fun b => compute?.combined? op a b := by
  unfold Expr.ofStep
  split
  next c hc =>
    rw [Operand.eq_ofConstant hc]
    cases c with
    | int v => rfl
    | float _ => cases s.number? l <;> rfl
  · rfl

end Store

theorem BinaryOp.eval?_numbers (signed : Bool) (op : BinaryOp) (a b : Int64) :
    op.eval? signed (.number a) (.number b) = (Store.compute?.combined? op a b).map .number := by
  simp only [eval?, Store.compute?.combined?, combine]
  cases combineInt op a b <;> rfl

def Store.ofWords (given : String → Int32) : Store := fun name => (given name).toInt64

theorem Store.readsConstants (given : String → Int32) : ReadsConstants (Store.ofWords given).read where
  int _ := rfl
  float _ := rfl
  short o x hconst hx := by
    obtain ⟨v, hv, rfl⟩ := map_eq_some_iff.mp hx
    unfold number? at hv
    split at hv
    · cases hconst
    · cases hv
      exact isShort_number _
    · cases hv

section
variable {target : String} {s s₀ : Store} {signed : Bool}

/-- The store has a number in the target, and all else as it was before. -/
def Store.Puts (before : Store) (target : String) (v : Int64) (after : Store) : Prop :=
  after target = v ∧ ∀ name, name ≠ target → after name = before name

variable {v : Int64} {steps : List (BinaryOp × Operand)} {values : List Expr}

theorem Store.number?_congr (h : s₀.Puts target v s) {o} (ho : o.name? ≠ some target) : s.number? o = s₀.number? o := by
  unfold number?
  split
  · rfl
  · exact congrArg some (h.2 _ fun hname => ho (congrArg some hname))
  · rfl

def chainAssignments (target : String) (values : List Expr) : List Assignment :=
  values.map fun value => ⟨target, none, none, value, false⟩

theorem Store.puts_assign? {w : Int64} (h : s₀.Puts target v s) {value : Expr} (hvalue : s.compute? value = some w) :
    ∃ s', s.assign? ⟨target, none, none, value, false⟩ = some s' ∧ s₀.Puts target w s' := by
  refine ⟨fun name => if name = target then w else s name, by simp [assign?, hvalue], by simp, fun name hname => ?_⟩
  simp only [if_neg hname, h.2 name hname]

open Level in
theorem Store.exists_laterSteps (hvalues : laterSteps target steps = .ok values) {z : Int64}
    (hs : s₀.Puts target v s) (hz : runValue? s₀.read signed (.number v) (ofSteps steps) = some (.number z)) :
    ∃ s', (chainAssignments target values).foldlM assign? s = some s' ∧ s₀.Puts target z s' := by
  obtain ⟨hnames, rfl⟩ := laterSteps_eq_ok.mp hvalues
  clear hvalues
  induction steps generalizing s v with
  | nil =>
    cases hz
    exact ⟨s, rfl, hs⟩
  | cons step steps ih =>
    obtain ⟨op, right⟩ := step
    obtain ⟨hright, hnames⟩ := forall_mem_cons.mp hnames
    simp only [ofSteps, map_cons, runValue?, Term.value?, bind_eq_some_iff] at hz
    obtain ⟨y, hy, u, hu, hz⟩ := hz
    obtain ⟨b, hb, rfl⟩ := map_eq_some_iff.mp hy
    rw [BinaryOp.eval?_numbers] at hu
    obtain ⟨w, hw, rfl⟩ := map_eq_some_iff.mp hu
    have hstep : s.compute? (.ofStep op (.ofName target) right) = some w := by
      rw [compute?_ofStep, number?_congr hs hright, hb]
      exact (congrArg (compute?.combined? op · b) hs.1).trans hw
    obtain ⟨s', hassign, hs'⟩ := puts_assign? hs hstep
    obtain ⟨s'', hrun, hs''⟩ := ih hs' hz hnames
    exact ⟨s'', by rw [chainAssignments, map_cons, map_cons, foldlM_cons, hassign]; exact hrun, hs''⟩

open Level in
theorem Store.exists_chainSteps {head} (hvalues : chainSteps target head steps = .ok values)
    {y} (hhead : s.read head = some y)
    (hz : runValue? s.read signed y (ofSteps steps) = some (.number v)) :
    ∃ s', (chainAssignments target values).foldlM assign? s = some s' ∧ s.Puts target v s' := by
  obtain ⟨a, ha, rfl⟩ := map_eq_some_iff.mp hhead
  obtain ⟨value, rest, later, hopens, hlater, rfl⟩ := chainSteps_eq_ok.mp hvalues
  -- The first step, and then the others.
  have hrun {w : Int64} (hvalue : s.compute? value = some w)
      (hz : runValue? s.read signed (.number w) (ofSteps rest) = some (.number v)) :
      ∃ s', (chainAssignments target (value :: later)).foldlM assign? s = some s' ∧ s.Puts target v s' := by
    obtain ⟨s', hassign, hs'⟩ := puts_assign? ⟨rfl, fun _ _ => rfl⟩ hvalue
    obtain ⟨s'', hrun, hs''⟩ := exists_laterSteps hlater hs' hz
    exact ⟨s'', by rw [chainAssignments, map_cons, foldlM_cons, hassign]; exact hrun, hs''⟩
  cases hopens with
  | load => exact hrun ((compute?_ofOperand head).trans ha) hz
  | combine =>
    simp only [ofSteps, map_cons, runValue?, Term.value?, bind_eq_some_iff] at hz
    obtain ⟨y, hy, u, hu, hz⟩ := hz
    obtain ⟨b, hb, rfl⟩ := map_eq_some_iff.mp hy
    rw [BinaryOp.eval?_numbers] at hu
    obtain ⟨w, hw, rfl⟩ := map_eq_some_iff.mp hu
    exact hrun (by rw [compute?_ofStep, ha, hb]; exact hw) hz

/-- **Chains.**  The steps of an expression leave its value in the target and every other variable as it was, for all
numbers of 32 bits that its variables may have, if no group is turned to the front of a run of `~|` from behind its
second term. -/
theorem chainOfParts_computes {parts : List Part} {steps : List Assignment}
    (h : chainOfParts target none parts = .ok steps) (hturns : TurnsSafely parts) (given : String → Int32) {v : Int64}
    (hv : HasValue (Store.ofWords given).read signed parts (.number v)) :
    ∃ s, steps.foldlM Store.assign? (Store.ofWords given) = some s ∧ (Store.ofWords given).Puts target v s := by
  obtain ⟨head, _, values, y, hvalues, rfl, hhead, hrun, -⟩ :=
    exists_chainSteps (Store.readsConstants given) hv hturns h
  exact Store.exists_chainSteps hvalues hhead hrun

def Store.ones : Store := .ofWords fun _ => 1

def maskedSum : List Part :=
  [.operand (.ofConstant (.int 6)), .op .and, .group [.operand (.ofName "y"), .op .add, .operand (.ofName "x")]]

theorem maskedSum_computes : TurnsSafely maskedSum ∧ HasValue Store.ones.read false maskedSum (.number 2) ∧
    ∃ steps, chainOfParts "x" none maskedSum = .ok steps ∧
      ∃ s, steps.foldlM Store.assign? Store.ones = some s ∧ Store.ones.Puts "x" 2 s := by
  have hturns : TurnsSafely maskedSum := by
    intro l l' hl hfold i op t ht _ _
    cases hl
    cases hfold
    match i with
    | 0 => rfl
    | _ + 1 => cases ht
  have hsum : HasValue Store.ones.read false [.operand (.ofName "y"), .op .add, .operand (.ofName "x")] (.number 2) :=
    .pair rfl rfl rfl
  have hvalue : HasValue Store.ones.read false
      ([.operand (.ofConstant (.int 6))] ++ .op .and :: [.group _]) (.number 2) :=
    .apply (by simp [operatorsOf]) (by simp [operatorsOf]) (.operand rfl) (.group hsum) rfl
  exact ⟨hturns, hvalue, _, rfl, chainOfParts_computes rfl hturns (fun _ => 1) hvalue⟩

def norBehind : List Part := [.operand (.ofName "z"), .op .nor, .operand (.ofName "w"), .op .nor,
    .group [.operand (.ofName "z"), .op .add, .operand (.ofName "z")]]

/-- A group behind the second term of a run of `~|` is turned to the front all the same. -/
theorem norBehind_differs : HasValue Store.ones.read false norBehind (.number 1) ∧
    ∃ steps s, chainOfParts "v" none norBehind = .ok steps ∧
      steps.foldlM Store.assign? Store.ones = some s ∧ s "v" = 2 := by
  have hrun : HasValue Store.ones.read false [.operand (.ofName "z"), .op .nor, .operand (.ofName "w")] (.number (-2)) :=
    .pair rfl rfl rfl
  have hsum : HasValue Store.ones.read false [.operand (.ofName "z"), .op .add, .operand (.ofName "z")] (.number 2) :=
    .pair rfl rfl rfl
  have hvalue : HasValue Store.ones.read false (_ ++ .op .nor :: [.group _]) (.number 1) :=
    .apply (by simp [operatorsOf]) (by simp [operatorsOf]) hrun (.group hsum) rfl
  exact ⟨hvalue, _, _, rfl, rfl, rfl⟩

end
end Microcode
