import Microcode.Proofs.Precedence

/-!
Which lists of parts are gathered, and what is lost of them.

Terms and operators have to stand in turn, in every group.  An operator at the end of a list is refused only where all
operators of the list have one precedence; among several precedences it is dropped.
-/

namespace Microcode

open List

mutual

/-- The operands and operators of a part in their order, with the operators that end a list or without. -/
def Part.symbols (all : Bool) : Part → List Part
  | .group parts => symbolsOf all parts
  | p => [p]

def symbolsOf (all : Bool) : List Part → List Part
  | [] => []
  | [.op op] => if all then [.op op] else []
  | p :: rest => p.symbols all ++ symbolsOf all rest

end

mutual

def Term.symbols : Term → List Part
  | .leaf o => [.operand o]
  | .group first rest => first.symbols ++ symbolsBehind rest

def symbolsBehind : List (BinaryOp × Term) → List Part
  | [] => []
  | (op, t) :: rest => .op op :: t.symbols ++ symbolsBehind rest

end

def Level.symbols (l : Level) : List Part := l.first.symbols ++ symbolsBehind l.rest

def Part.op? : Part → Option BinaryOp
  | .op o => some o
  | _ => none

/-- An operator at the end has another precedence than some operator of the list. -/
def EndsMixed (parts : List Part) : Prop :=
  ∀ op, parts.getLast?.bind Part.op? = some op → ∃ o ∈ operatorsOf parts, o.precedence ≠ op.precedence

mutual

def Part.IsAccepted : Part → Prop
  | .operand _ => True
  | .op _ => False
  | .group parts => Alternates parts ∧ EndsMixed parts

/-- Terms and operators stand in turn, beginning with a term. -/
def Alternates : List Part → Prop
  | [] => False
  | [p] => p.IsAccepted
  | p :: .op _ :: rest => p.IsAccepted ∧ (rest = [] ∨ Alternates rest)
  | _ => False

end

namespace Level

theorem symbols_toTerm (l : Level) : l.toTerm.symbols = l.symbols := by
  unfold toTerm Level.symbols
  split
  · next hrest => simp [hrest, symbolsBehind]
  · rfl

theorem symbols_splitAt {tighter} (hgather : ∀ first rest,
      (gather tighter first rest).symbols = first.symbols ++ symbolsBehind rest)
    (tier : Nat) (first : Term) (rest : List (BinaryOp × Term)) :
    (splitAt tier tighter first rest).symbols = first.symbols ++ symbolsBehind rest := by
  rw [splitAt, Level.symbols, symbols_toTerm, hgather, append_assoc]
  refine congrArg (first.symbols ++ ·) ?_
  induction rest with
  | nil => rfl
  | cons step rest ih =>
    rw [splitAtTier, symbolsBehind, ← ih]
    dsimp only
    split <;> simp [symbolsBehind, symbols_toTerm, hgather]

theorem symbols_gather (tiers : List Nat) (first : Term) (rest : List (BinaryOp × Term)) :
    (gather tiers first rest).symbols = first.symbols ++ symbolsBehind rest := by
  induction tiers generalizing first rest with
  | nil => rfl
  | cons tier tighter ih =>
    rw [gather]
    split
    · rfl
    split
    · exact ih first rest
    · exact symbols_splitAt ih tier first rest

theorem gatherOpen?_cases (first : Term) {rest last tiers}
    (hrest : ∀ x ∈ rest, x.1.precedence ∈ tiers) (hlast : last.precedence ∈ tiers) :
    (∃ x ∈ rest, x.1.precedence ≠ last.precedence) ∧ (∃ l, gatherOpen? tiers first rest last = some l
      ∧ l.symbols = first.symbols ++ symbolsBehind rest)
    ∨ (∀ x ∈ rest, x.1.precedence = last.precedence) ∧ gatherOpen? tiers first rest last = none := by
  induction tiers with
  | nil => cases hlast
  | cons tier tighter ih =>
    rw [gatherOpen?]
    simp only [all_cons, all_map, Bool.and_eq_true, decide_eq_true_eq, all_eq_true, Function.comp_apply]
    split
    · next hall => exact .inr ⟨fun x hx => (hall.2 x hx).trans hall.1.symm, rfl⟩
    split
    · next hnone =>
      exact ih (fun x hx => (mem_cons.mp (hrest x hx)).resolve_left (hnone.2 x hx))
        ((mem_cons.mp hlast).resolve_left hnone.1)
    · next hsome hmixed =>
      refine .inl ⟨?_, _, rfl, symbols_splitAt (symbols_gather tighter) tier first rest⟩
      simp only [not_and, Classical.not_forall] at hsome hmixed
      by_cases htier : last.precedence = tier
      · obtain ⟨x, hx, hne⟩ := hsome htier
        exact ⟨x, hx, htier ▸ hne⟩
      · obtain ⟨x, hx, heq⟩ := hmixed htier
        exact ⟨x, hx, fun h => htier (h ▸ Decidable.not_not.mp heq)⟩

/-- A run holds what the list says, and the operator that is left over. -/
structure Run.Reads (r : Run) (parts : List Part) : Prop where
  symbols : r.first.symbols ++ symbolsBehind r.rest = symbolsOf false parts
  extra : parts.getLast?.bind Part.op? = r.extra
  ops : operatorsOf parts = r.rest.map Prod.fst ++ r.extra.toList

theorem Run.Reads.cases {r : Run} {parts} (h : r.Reads parts) :
    EndsMixed parts ∧ (∃ l, ofRun? r = some l ∧ l.symbols = symbolsOf false parts)
    ∨ ¬EndsMixed parts ∧ ofRun? r = none := by
  unfold EndsMixed ofRun?
  rw [h.extra, h.ops, ← h.symbols]
  cases r.extra with
  | none => exact .inl ⟨(by simp), _, rfl, symbols_gather ..⟩
  | some last =>
    rcases gatherOpen?_cases r.first (fun x _ => precedence_mem_tiers x.1) (precedence_mem_tiers last) with
      ⟨⟨x, hx, hne⟩, hsome⟩ | ⟨hall, hnone⟩
    · refine .inl ⟨fun op hop => ⟨x.1, mem_append_left _ (mem_map_of_mem hx), ?_⟩, hsome⟩
      exact Option.some.inj hop ▸ hne
    · refine .inr ⟨fun h => ?_, hnone⟩
      obtain ⟨o, ho, hne⟩ := h last rfl
      rcases mem_append.mp ho with ho | ho
      · obtain ⟨x, hx, rfl⟩ := mem_map.mp ho
        exact hne (hall x hx)
      · exact hne (mem_singleton.mp ho ▸ rfl)

mutual

theorem termOf?_cases : ∀ p : Part, p.IsAccepted ∧ (∃ t, termOf? p = some t ∧ t.symbols = p.symbols false)
    ∨ ¬p.IsAccepted ∧ termOf? p = none
  | .operand o => .inl ⟨trivial, _, rfl, rfl⟩
  | .op op => .inr ⟨id, rfl⟩
  | .group parts => by
    rcases runOf?_cases parts with ⟨hparts, r, hr, hreads⟩ | ⟨hparts, hnone⟩
    · rcases hreads.cases with ⟨hends, l, hl, hsymbols⟩ | ⟨hends, hnone⟩
      · exact .inl ⟨⟨hparts, hends⟩, l.toTerm, by simp [termOf?, hr, hl], l.symbols_toTerm.trans hsymbols⟩
      · exact .inr ⟨fun h => hends h.2, by simp [termOf?, hr, hnone]⟩
    · exact .inr ⟨fun h => hparts h.1, by simp [termOf?, hnone]⟩

theorem runOf?_cases : ∀ parts : List Part, Alternates parts ∧ (∃ r, runOf? parts = some r ∧ r.Reads parts)
    ∨ ¬Alternates parts ∧ runOf? parts = none
  | [] => .inr ⟨id, rfl⟩
  | [p] => by
    rcases termOf?_cases p with ⟨hp, t, ht, hsymbols⟩ | ⟨hp, hnone⟩
    · refine .inl ⟨hp, ⟨t, [], none⟩, by simp [runOf?, ht], ?_⟩
      constructor <;> cases p <;> simp_all [symbolsOf, symbolsBehind, operatorsOf, Part.IsAccepted, Part.op?]
    · exact .inr ⟨hp, by simp [runOf?, hnone]⟩
  | [p, .op op] => by
    rcases termOf?_cases p with ⟨hp, t, ht, hsymbols⟩ | ⟨hp, hnone⟩
    · refine .inl ⟨⟨hp, .inl rfl⟩, ⟨t, [], some op⟩, by simp [runOf?, ht], ?_⟩
      constructor <;> cases p <;> simp_all [symbolsOf, symbolsBehind, operatorsOf, Part.IsAccepted, Part.op?]
    · exact .inr ⟨fun h => hp h.1, by simp [runOf?, hnone]⟩
  | p :: .op op :: q :: rest => by
    rcases termOf?_cases p with ⟨hp, t, ht, hsymbols⟩ | ⟨hp, hnone⟩
    · rcases runOf?_cases (q :: rest) with ⟨hrest, r, hr, hreads⟩ | ⟨hrest, hnone⟩
      · refine .inl ⟨⟨hp, .inr hrest⟩, _, runOf?_cons ht hr, ?_⟩
        obtain ⟨hsymbols', hextra, hops⟩ := hreads
        constructor <;> cases p <;> simp_all [symbolsOf, Part.symbols, symbolsBehind, operatorsOf, Part.IsAccepted]
      · exact .inr ⟨fun h => hrest (h.2.resolve_left (by simp)), by simp [runOf?, hnone]⟩
    · exact .inr ⟨fun h => hp h.1, by simp [runOf?, hnone]⟩
  | _ :: .operand _ :: _ | _ :: .group _ :: _ => .inr ⟨id, rfl⟩

end
end Level

theorem IsExpression.symbolsOf_eq {parts} (h : IsExpression parts) : symbolsOf false parts = symbolsOf true parts := by
  induction h with
  | operand o => rfl
  | group _ ih => simpa [symbolsOf, Part.symbols] using ih
  | @step p op rest hp hrest ih ih' =>
    have hp : p.symbols false = p.symbols true := by cases hp <;> simpa [symbolsOf] using ih
    cases hrest <;> simp_all [symbolsOf, Part.symbols]

/-- **Which expressions are gathered.**  A list of parts becomes a level exactly if terms and operators stand in turn
in it and in its groups and no operator is left over where all operators of its list have one precedence.  From left to
right the level holds the operands and operators of the list but for those left over; where none is, it holds all. -/
theorem ofParts?_accepts (parts : List Part) :
    (Alternates parts ∧ EndsMixed parts) ∧ (∃ l, Level.ofParts? parts = some l ∧ l.symbols = symbolsOf false parts
      ∧ (IsExpression parts → l.symbols = symbolsOf true parts))
    ∨ ¬(Alternates parts ∧ EndsMixed parts) ∧ Level.ofParts? parts = none ∧ ¬IsExpression parts := by
  have hexpression : Level.ofParts? parts = none → ¬IsExpression parts := fun hnone h => by
    obtain ⟨r, hr, hopen, -⟩ := Level.exists_run h.unravels
    simp [Level.ofParts?, hr, Level.ofRun?, hopen] at hnone
  rcases Level.runOf?_cases parts with ⟨hparts, r, hr, hreads⟩ | ⟨hparts, hnone⟩
  · have hrun : Level.ofParts? parts = Level.ofRun? r := by rw [Level.ofParts?, hr]; rfl
    rcases hreads.cases with ⟨hends, l, hl, hsymbols⟩ | ⟨hends, hnone⟩
    · exact .inl ⟨⟨hparts, hends⟩, l, hrun.trans hl, hsymbols, fun h => hsymbols.trans h.symbolsOf_eq⟩
    · exact .inr ⟨fun h => hends h.2, hrun.trans hnone, hexpression (hrun.trans hnone)⟩
  · have hnone : Level.ofParts? parts = none := by rw [Level.ofParts?, hnone]; rfl
    exact .inr ⟨fun h => hparts h.1, hnone, hexpression hnone⟩

/-- The product of `b + c *` has one factor, and is dropped. -/
theorem openProduct_drops_operator :
    ¬IsExpression [.operand (.ofName "b"), .op .add, .operand (.ofName "c"), .op .mul]
    ∧ Level.ofParts? [.operand (.ofName "b"), .op .add, .operand (.ofName "c"), .op .mul]
      = some ⟨.leaf (.ofName "b"), [(.add, .leaf (.ofName "c"))]⟩ := by
  constructor
  · rintro (- | - | ⟨-, - | - | ⟨-, ⟨⟩⟩⟩)
  · simp [Level.ofParts?, Level.runOf?, Level.termOf?, Level.ofRun?, Level.gatherOpen?, Level.tiers,
      BinaryOp.precedence, Level.splitAtTier, Level.gather_nil, Level.toTerm]

end Microcode
