import Microcode.Proofs.Replacement

/-!
Where the operands of a chain come from.

On the way from an expression to its steps terms are moved about and constants are made up, but never an operand that
names anything: with other operands in it the expression has the steps of other operands.
-/

namespace Microcode

open Microcode.Expr List

mutual

def Part.All (P : Operand → Prop) : Part → Prop
  | .operand o => P o
  | .op _ => True
  | .group parts => allParts P parts

def allParts (P : Operand → Prop) : List Part → Prop
  | [] => True
  | p :: rest => p.All P ∧ allParts P rest

end

mutual

def Term.All (P : Operand → Prop) : Term → Prop
  | .leaf o => P o
  | .group first rest => first.All P ∧ allTerms P rest

def allTerms (P : Operand → Prop) : List (BinaryOp × Term) → Prop
  | [] => True
  | (_, t) :: more => t.All P ∧ allTerms P more

end

def Level.All (P : Operand → Prop) (l : Level) : Prop := l.first.All P ∧ allTerms P l.rest

def Comparison.All (P : Operand → Prop) (c : Comparison) : Prop := P c.left ∧ P c.right

def CallArg.All (P : Operand → Prop) : CallArg → Prop
  | .operand o => P o
  | .string _ => True

def Expr.All (P : Operand → Prop) : Expr → Prop
  | .constant _ => True
  | .copy o | .unary _ o => P o
  | .binary _ l r => P l ∧ P r
  | .withConstant _ l _ => P l
  | .call _ args _ => ∀ a ∈ args, a.All P
  | .test c => c.All P
  | .choose c yes no => c.All P ∧ P yes ∧ P no
  | .flat parts => allParts P parts

variable {P Q : Operand → Prop}
variable {d head : Operand} {parts : List Part} {steps : List (BinaryOp × Operand)}

theorem exists_replacement (hd : P d) : ∃ g : Operand → Operand,
    (∀ o, P (g o)) ∧ (∀ o, P o → g o = o) ∧ ∀ o, g o = o ∨ g o = d := by
  classical
  refine ⟨fun o => if P o then o else d, fun o => ?_, fun o ho => if_pos ho, fun o => ?_⟩
  all_goals dsimp only; split
  · assumption
  · exact hd
  · exact .inl rfl
  · exact .inr rfl

section
variable {g : Operand → Operand}

mutual

theorem Part.map_of_all (hg : ∀ o, P o → g o = o) : ∀ {p : Part}, p.All P → p.map g = p
  | .operand o, h => congrArg Part.operand (hg o h)
  | .op _, _ => rfl
  | .group _, h => congrArg Part.group (mapParts_of_all hg h)

theorem mapParts_of_all (hg : ∀ o, P o → g o = o) : ∀ {parts : List Part}, allParts P parts → mapParts g parts = parts
  | [], _ => rfl
  | _ :: _, h => by rw [mapParts, Part.map_of_all hg h.1, mapParts_of_all hg h.2]

end

mutual

theorem Term.map_of_all (hg : ∀ o, P o → g o = o) : ∀ {t : Term}, t.All P → t.map g = t
  | .leaf o, h => congrArg Term.leaf (hg o h)
  | .group _ _, h => by rw [Term.map, Term.map_of_all hg h.1, mapTerms_of_all hg h.2]

theorem mapTerms_of_all (hg : ∀ o, P o → g o = o) :
    ∀ {rest : List (BinaryOp × Term)}, allTerms P rest → mapTerms g rest = rest
  | [], _ => rfl
  | (_, _) :: _, h => by rw [mapTerms, Term.map_of_all hg h.1, mapTerms_of_all hg h.2]

end

mutual

theorem Term.all_map (hg : ∀ o, P (g o)) : ∀ t : Term, (t.map g).All P
  | .leaf o => hg o
  | .group first rest => ⟨first.all_map hg, allTerms_mapTerms hg rest⟩

theorem allTerms_mapTerms (hg : ∀ o, P (g o)) : ∀ rest : List (BinaryOp × Term), allTerms P (mapTerms g rest)
  | [] => trivial
  | (_, t) :: more => ⟨t.all_map hg, allTerms_mapTerms hg more⟩

end
end

theorem StepsOf.all (hd : P d) (hname : d.constant? = none) (hconst : ∀ c, P (.ofConstant c))
    (hparts : allParts P parts) (h : StepsOf parts head steps) : P head ∧ ∀ s ∈ steps, P s.2 := by
  obtain ⟨g, hg, hfix, hor⟩ := exists_replacement hd
  have hkeeps : KeepsConstants g := by
    refine ⟨fun o => ?_, fun c => hfix _ (hconst c)⟩
    cases hc : o.constant? with
    | some c => rw [hfix o (Operand.eq_ofConstant hc ▸ hconst c), hc]
    | none =>
      rcases hor o with heq | heq
      · rw [heq, hc]
      · rw [heq, hname]
  have hmap := h.map hkeeps
  rw [mapParts_of_all hfix hparts] at hmap
  obtain ⟨hhead, hsteps⟩ := h.unique hmap
  rw [hhead, hsteps]
  exact ⟨hg _, forall_mem_map.mpr fun s _ => hg s.2⟩

mutual

theorem Part.all_of_forall (h : ∀ o, P o) : ∀ part : Part, part.All P
  | .operand o => h o
  | .op _ => trivial
  | .group parts => allParts_of_forall h parts

theorem allParts_of_forall (h : ∀ o, P o) : ∀ parts : List Part, allParts P parts
  | [] => trivial
  | part :: rest => ⟨part.all_of_forall h, allParts_of_forall h rest⟩

end

mutual

theorem Part.All.mono (hPQ : ∀ o, P o → Q o) : ∀ {p : Part}, p.All P → p.All Q
  | .operand o, h => hPQ o h
  | .op _, _ => trivial
  | .group _, h => allParts_mono hPQ h

theorem allParts_mono (hPQ : ∀ o, P o → Q o) : ∀ {parts : List Part}, allParts P parts → allParts Q parts
  | [], _ => trivial
  | _ :: _, h => ⟨h.1.mono hPQ, allParts_mono hPQ h.2⟩

end

theorem CallArg.All.mono (hPQ : ∀ o, P o → Q o) {a : CallArg} (h : a.All P) : a.All Q := by
  cases a with
  | operand o => exact hPQ o h
  | string text => trivial

theorem Expr.All.mono (hPQ : ∀ o, P o → Q o) {e : Expr} (h : e.All P) : e.All Q := by
  cases e with
  | constant c => trivial
  | copy o | unary op o => exact hPQ o h
  | binary op l r => exact ⟨hPQ l h.1, hPQ r h.2⟩
  | withConstant op l c => exact hPQ l h
  | call name args swizzle => exact fun a ha => (h a ha).mono hPQ
  | test c => exact ⟨hPQ _ h.1, hPQ _ h.2⟩
  | choose c yes no => exact ⟨⟨hPQ _ h.1.1, hPQ _ h.1.2⟩, hPQ yes h.2.1, hPQ no h.2.2⟩
  | flat parts => exact allParts_mono hPQ h

section
variable (h : ∀ o, P o)
include h

theorem CallArg.all_of_forall (a : CallArg) : a.All P := by
  cases a with
  | operand o => exact h o
  | string text => trivial

theorem Expr.all_of_forall (e : Expr) : e.All P := by
  cases e with
  | call name args swizzle => exact fun a _ => a.all_of_forall h
  | flat parts => exact allParts_of_forall h parts
  | _ => simp [Expr.All, Comparison.All, h]

end

/-- A right-hand side of a chain: at most one operation, on operands that have a property. -/
inductive Expr.IsStep (P : Operand → Prop) : Expr → Prop
  | constant (c : Constant) : IsStep P (.constant c)
  | copy {o} (h : P o) : IsStep P (.copy o)
  | binary (op : BinaryOp) {l r} (hl : P l) (hr : P r) : IsStep P (.binary op l r)
  | withConstant (op : BinaryOp) {l} (hl : P l) (c : Constant) : IsStep P (.withConstant op l c)

theorem Expr.IsStep.all {e : Expr} (h : e.IsStep P) : e.All P := by
  cases h with
  | constant c => trivial
  | copy h => exact h
  | binary op hl hr => exact ⟨hl, hr⟩
  | withConstant op hl c => exact hl

theorem Expr.IsStep.ne_flat {e : Expr} (h : e.IsStep P) (parts : List Part) : e ≠ .flat parts := by
  rintro rfl
  cases h

theorem Expr.isStep_ofOperand {o} (h : P o) : (ofOperand o).IsStep P := by
  unfold ofOperand
  split
  · exact .constant _
  · exact .copy h

theorem Expr.isStep_ofStep (op : BinaryOp) {l r} (hl : P l) (hr : P r) : (ofStep op l r).IsStep P := by
  unfold ofStep
  split
  · exact .withConstant op hl _
  · exact .binary op hl hr

section
variable {target : String} (htarget : P (.ofName target))
include htarget

theorem isStep_chainSteps {values} (hhead : P head) (hsteps : ∀ x ∈ steps, P x.2)
    (h : chainSteps target head steps = .ok values) : ∀ v ∈ values, v.IsStep P := by
  obtain ⟨value, rest, later, hopens, hlater, rfl⟩ := chainSteps_eq_ok.mp h
  obtain ⟨-, rfl⟩ := laterSteps_eq_ok.mp hlater
  have hlater (hrest : ∀ x ∈ rest, P x.2) := forall_mem_map.mpr fun x hx =>
    isStep_ofStep x.1 htarget (hrest x hx)
  cases hopens with
  | load => exact forall_mem_cons.mpr ⟨isStep_ofOperand hhead, hlater hsteps⟩
  | combine =>
    obtain ⟨hright, hrest⟩ := forall_mem_cons.mp hsteps
    exact forall_mem_cons.mpr ⟨isStep_ofStep _ hhead hright, hlater hrest⟩

variable {steps : List Assignment}

/-- **A chain assigns to its target only, one operation at a time, on operands of the expression, on
constants and on the target.** -/
theorem isStep_chainOfParts (hconst : ∀ c, P (.ofConstant c)) {swizzle}
    (hparts : allParts P parts) (h : chainOfParts target swizzle parts = .ok steps) :
    ∀ a ∈ steps, a.target = target ∧ a.op = none ∧ a.value.IsStep P := by
  obtain ⟨head, rest, values, hsteps, hvalues, rfl⟩ := chainOfParts_eq_ok.mp h
  obtain ⟨hhead, hrest⟩ := hsteps.all htarget rfl hconst hparts
  intro a ha
  obtain ⟨v, hv, rfl⟩ := mem_map.mp ha
  exact ⟨rfl, rfl, isStep_chainSteps htarget hhead hrest hvalues v hv⟩

end
end Microcode
