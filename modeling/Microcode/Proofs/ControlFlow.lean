import Microcode.Proofs.Occurrence

/-!
What structured statements select.

A test of two scalar variables becomes a branch on their registers (`IsTest`), and what an assignment becomes runs
from its top to its end whatever the scratch register holds (`IsComputation`).
-/

namespace Microcode

open Operand

/-- The code runs from its top to its end, whatever the scratch register holds. -/
structure IsComputation (code : List Instruction) : Prop where
  straight : Straight code
  ignoresScratch : IgnoresScratch code

/-- Lines that go to a label if two scalar variables compare as asked, and on if they do not. -/
inductive IsTest (σ : ScopeStack) (c : Comparison) (target : String) : List Line → Prop
  | intro {l r a b} (p : Provenance) (hleft : c.left.variable? σ = some l)
      (hright : c.right.variable? σ = some r) (ha : l.register = .scalar a) (hb : r.register = .scalar b)
      (ha' : a ≠ 1) (hb' : b ≠ 1) :
      IsTest σ c target (stamped p (branchRegisters l.type.isSigned (.scalar a) c.op (.scalar b) target))

section
variable {σ : ScopeStack}

theorem Operand.source_of_name {o : Operand} (h : o.name?.isSome) : Yields (o.source σ) fun s =>
      ∃ v, o.variable? σ = some v ∧ s = .variable (.ofVariable v o.swizzle) := by
  obtain ⟨atom, swizzle⟩ := o
  cases atom with
  | «variable» name =>
    refine .known fun v hv => ?_
    split
    · exact .throw
    · exact .ok ⟨v, ScopeStack.variableNamed_eq_ok.mp hv, rfl⟩
  | address name | constant c => cases h

theorem Operand.suits_of_variable? (hσ : σ.IsProper) {o : Operand} {v}
    (h : o.variable? σ = some v) : v.register.Suits v.type := by
  obtain ⟨name, -, hget⟩ := Option.bind_eq_some_iff.mp h
  exact hσ hget

theorem Register.Suits.exists_scalar {r : Register} {type} (h : r.Suits type)
    (hscalar : type.isVector = false) : ∃ a : Fin 32, r = .scalar a ∧ a ≠ 1 := by
  cases r with
  | scalar a =>
    refine ⟨a, rfl, ?_⟩
    rintro rfl
    exact h.ne_scratch rfl
  | vector a => exact absurd (h.isVector.trans hscalar) (by simp [Register.isVector])

theorem Comparison.OfVariables.negate {c : Comparison} (h : c.OfVariables) : c.negate.OfVariables := h

theorem isTest_of_branchIf (hσ : σ.IsProper) {c : Comparison} (hc : c.OfVariables) {target : String}
    {code} (h : branchIf σ c target = .ok code) (p : Provenance) :
    IsTest σ c target (stamped p code) := by
  obtain ⟨left, right, hl, hr, h⟩ := bind₂_eq_ok.mp h
  obtain ⟨v, hv, rfl⟩ := source_of_name hc.1 left hl
  obtain ⟨w, hw, rfl⟩ := source_of_name hc.2 right hr
  change (if v.type.isVector then _ else _) = _ at h
  split at h
  · cases h
  next hvector =>
    change (if w.type.isVector then _ else _) = _ at h
    split at h
    · cases h
    next hvector' =>
      obtain ⟨a, ha, ha'⟩ := ( suits_of_variable? hσ hv).exists_scalar (by simpa using hvector)
      obtain ⟨b, hb, hb'⟩ := ( suits_of_variable? hσ hw).exists_scalar (by simpa using hvector')
      cases h
      show IsTest σ c target (stamped p (branchRegisters v.type.isSigned v.register c.op w.register target))
      rw [ha, hb]
      exact .intro p hv hw ha hb ha' hb'

theorem Assignment.isComputation_code (hσ : σ.IsProper) (signatures : Signatures)
    (holds : Comparison → Bool) (a : Assignment) :
    Yields (a.code σ signatures holds) IsComputation := by
  have ha := (Item.action (.assign a)).keepsTo_none σ
  have hcode := a.computes_code (W := fun _ => True) hσ ha.1 ha.2 (fun v _ r (_ : a.value.Fills [] σ v r) => trivial)
    signatures holds
  exact hcode.mono fun code h => ⟨h.straight, h.ignoresScratch⟩

end

def Piece.IsStructured : Piece → Prop
  | .one s => s.Every Action.IsStructured Comparison.OfVariables
  | .all body => Microcode.IsStructured body

mutual

theorem Statement.labels_of_isStructured : ∀ {s : Statement},
    s.Every Action.IsStructured Comparison.OfVariables → s.labels = []
  | .block tag body, h => labelsOf_of_isStructured h
  | .branch tag c yes none, h => labelsOf_of_isStructured h.2.1
  | .branch tag c yes (some no), h => by
    rw [Statement.labels, labelsOf_of_isStructured h.2.1, labelsOf_of_isStructured h.2.2, List.append_nil]
  | .whileLoop tag c body, h => labelsOf_of_isStructured h.2
  | .loop tag body c, h => labelsOf_of_isStructured h.1
  | .action tag a, h => by
    cases a with
    | label name => exact h.elim
    | _ => rfl

theorem labelsOf_of_isStructured : ∀ {body : List Statement},
    everyIn Action.IsStructured Comparison.OfVariables body → labelsOf body = []
  | [], _ => rfl
  | s :: rest, h => by
    rw [labelsOf, s.labels_of_isStructured h.1, labelsOf_of_isStructured h.2, List.append_nil]

end
end Microcode
