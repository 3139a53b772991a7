import Microcode.Proofs.Quantity

/-!
Every expression is read by precedence.

Where operands and operators alternate, gathering succeeds, and each level that it makes has operators of one
precedence (`Level.IsTiered`).
-/

namespace Microcode

open List

inductive IsExpression : List Part → Prop
  | operand (o : Operand) : IsExpression [.operand o]
  | group {parts} (h : IsExpression parts) : IsExpression [.group parts]
  | step {p op rest} (hp : IsExpression [p]) (hrest : IsExpression rest) : IsExpression (p :: .op op :: rest)

/-- An expression that is taken apart at its last weakest operators. -/
inductive Unravels : List Part → Prop
  | operand (o : Operand) : Unravels [.operand o]
  | group {parts} (h : Unravels parts) : Unravels [.group parts]
  | apply {front op back} (hfront : ∀ o ∈ operatorsOf front, op.precedence ≤ o.precedence)
      (hback : ∀ o ∈ operatorsOf back, op.precedence < o.precedence) (h : Unravels front) (h' : Unravels back) :
      Unravels (front ++ .op op :: back)

theorem operatorsOf_append (front back : List Part) :
    operatorsOf (front ++ back) = operatorsOf front ++ operatorsOf back := filterMap_append

theorem operatorsOf_term {p : Part} (hp : IsExpression [p]) (op : BinaryOp) (rest : List Part) :
    operatorsOf (p :: .op op :: rest) = op :: operatorsOf rest := by
  cases hp <;> rfl

theorem Unravels.step {p : Part} (hp : IsExpression [p]) (hterm : Unravels [p]) (op : BinaryOp) {rest}
    (h : Unravels rest) : Unravels (p :: .op op :: rest) := by
  have hnone : operatorsOf [p] = [] := by cases hp <;> rfl
  have hfirst {rest : List Part} (htight : ∀ o ∈ operatorsOf rest, op.precedence < o.precedence)
      (h : Unravels rest) : Unravels ([p] ++ .op op :: rest) := .apply (by simp [hnone]) htight hterm h
  induction h with
  | operand o => exact hfirst (by simp [operatorsOf]) (.operand o)
  | group h => exact hfirst (by simp [operatorsOf]) h.group
  | @apply front inner back hfront hback h h' ih =>
    by_cases hlt : op.precedence < inner.precedence
    · refine hfirst (fun o ho => ?_) (.apply hfront hback h h')
      rcases mem_append.mp (operatorsOf_append front _ ▸ ho) with ho | ho
      · exact Nat.lt_of_lt_of_le hlt (hfront o ho)
      · rcases mem_cons.mp ho with rfl | ho
        · exact hlt
        · exact Nat.lt_trans hlt (hback o ho)
    · refine @apply (p :: .op op :: front) _ _ (fun o ho => ?_) hback ih h'
      rcases mem_cons.mp (operatorsOf_term hp op front ▸ ho) with rfl | ho
      · exact Nat.le_of_not_lt hlt
      · exact hfront o ho

theorem IsExpression.unravels {parts} (h : IsExpression parts) : Unravels parts := by
  induction h with
  | operand o => exact .operand o
  | group _ ih => exact ih.group
  | step hp _ ih ih' => exact .step hp ih _ ih'

inductive Term.IsTiered : Term → Prop
  | leaf (o : Operand) : IsTiered (.leaf o)
  | group {first rest tier} (hfirst : IsTiered first) (hops : ∀ x ∈ rest, x.1.precedence = tier)
      (hrest : ∀ x ∈ rest, IsTiered x.2) : IsTiered (.group first rest)

namespace Level

def IsTiered (l : Level) : Prop := (Term.group l.first l.rest).IsTiered

theorem IsTiered.toTerm {l : Level} (h : l.IsTiered) : l.toTerm.IsTiered := by
  unfold Level.toTerm
  split
  · cases h with
    | group hfirst => exact hfirst
  · exact h

theorem splitAtTier_spec (tier : Nat) (rest : List (BinaryOp × Term)) :
    (∀ x ∈ (splitAtTier tier rest).1, x ∈ rest ∧ x.1.precedence ≠ tier) ∧
      ∀ piece ∈ (splitAtTier tier rest).2, piece.1.precedence = tier ∧ (piece.1, piece.2.1) ∈ rest ∧
        ∀ x ∈ piece.2.2, x ∈ rest ∧ x.1.precedence ≠ tier := by
  induction rest with
  | nil => simp [splitAtTier]
  | cons step rest ih =>
    obtain ⟨op, t⟩ := step
    obtain ⟨hrun, hpieces⟩ := ih
    have hrun' : ∀ x ∈ (splitAtTier tier rest).1, x ∈ (op, t) :: rest ∧ x.1.precedence ≠ tier := fun x hx =>
      ⟨.tail _ (hrun x hx).1, (hrun x hx).2⟩
    have hpieces' : ∀ piece ∈ (splitAtTier tier rest).2, piece.1.precedence = tier ∧
        (piece.1, piece.2.1) ∈ (op, t) :: rest ∧ ∀ x ∈ piece.2.2, x ∈ (op, t) :: rest ∧ x.1.precedence ≠ tier :=
      fun piece hpiece => by
        obtain ⟨hop, hmem, hinner⟩ := hpieces piece hpiece
        exact ⟨hop, .tail _ hmem, fun x hx => ⟨.tail _ (hinner x hx).1, (hinner x hx).2⟩⟩
    rw [splitAtTier]
    dsimp only
    split
    · exact ⟨by simp, forall_mem_cons.mpr ⟨⟨‹_›, .head _, hrun'⟩, hpieces'⟩⟩
    · exact ⟨forall_mem_cons.mpr ⟨⟨.head _, ‹_›⟩, hrun'⟩, hpieces'⟩

theorem isTiered_gather {tiers} {first : Term} {rest} (hfirst : first.IsTiered)
    (hrest : ∀ x ∈ rest, x.2.IsTiered) (hops : ∀ x ∈ rest, x.1.precedence ∈ tiers) :
    (gather tiers first rest).IsTiered := by
  induction tiers generalizing first rest with
  | nil =>
    obtain rfl := eq_nil_iff_forall_not_mem.mpr fun x hx => not_mem_nil (hops x hx)
    exact @Term.IsTiered.group _ _ 0 hfirst (by simp [gather]) (by simp [gather])
  | cons tier tighter ih =>
    have htighter {x : BinaryOp × Term} (hx : x ∈ rest) (hne : x.1.precedence ≠ tier) : x.1.precedence ∈ tighter :=
      (mem_cons.mp (hops x hx)).resolve_left hne
    rw [gather]
    split
    next hall => exact .group hfirst (by simpa using hall) hrest
    split
    next hnone => exact ih hfirst hrest fun x hx => htighter hx (of_decide_eq_true (all_eq_true.mp hnone x hx))
    · obtain ⟨hrun, hpieces⟩ := splitAtTier_spec tier rest
      have hpiece {t : Term} (ht : t.IsTiered) {run : List (BinaryOp × Term)}
          (h : ∀ x ∈ run, x ∈ rest ∧ x.1.precedence ≠ tier) : (gather tighter t run).toTerm.IsTiered :=
        (ih ht (fun x hx => hrest x (h x hx).1) fun x hx => htighter (h x hx).1 (h x hx).2).toTerm
      refine @Term.IsTiered.group _ _ tier (hpiece hfirst hrun) (fun x hx => ?_) fun x hx => ?_
      all_goals
        obtain ⟨piece, hmem, rfl⟩ := mem_map.mp hx
        obtain ⟨hop, hterm, hinner⟩ := hpieces piece hmem
      · exact hop
      · exact hpiece (hrest _ hterm) hinner

theorem exists_run {parts} (h : Unravels parts) : ∃ r, runOf? parts = some r ∧ r.extra = none ∧
    r.rest.map Prod.fst = operatorsOf parts ∧ (r.first.IsTiered ∧ ∀ x ∈ r.rest, x.2.IsTiered) ∧
      ∀ {ρ signed x}, (gather tiers r.first r.rest).value? ρ signed = some x → HasValue ρ signed parts x := by
  induction h with
  | operand o =>
    refine ⟨⟨.leaf o, [], none⟩, rfl, rfl, rfl, ⟨.leaf o, by simp⟩, fun hx => .operand ?_⟩
    simpa [gather_nil, Level.value?, Term.value?] using hx
  | group _ ih =>
    obtain ⟨r, hr, hopen, -, ⟨hfirst, hrest⟩, hvalue⟩ := ih
    have hlevel : (gather tiers r.first r.rest).IsTiered :=
      isTiered_gather hfirst hrest fun x _ => precedence_mem_tiers x.1
    refine ⟨⟨(gather tiers r.first r.rest).toTerm, [], none⟩, ?_, rfl, rfl, ⟨hlevel.toTerm, by simp⟩, fun hx => ?_⟩
    · simp [runOf?, termOf?, hr, ofRun?, hopen]
    · rw [gather_nil] at hx
      exact .group (hvalue (by simpa [Level.value?] using hx))
  | @apply front op back hfront hback _ _ ih ih' =>
    obtain ⟨r, hr, hopen, hops, ⟨hfirst, hrest⟩, hvalue⟩ := ih
    obtain ⟨r', hr', hopen', hops', ⟨hfirst', hrest'⟩, hvalue'⟩ := ih'
    have hweak : ∀ x ∈ r.rest, op.precedence ≤ x.1.precedence := fun x hx =>
      hfront _ (hops ▸ mem_map_of_mem hx)
    have htight : ∀ x ∈ r'.rest, op.precedence < x.1.precedence := fun x hx =>
      hback _ (hops' ▸ mem_map_of_mem hx)
    refine ⟨_, runOf?_append op hr' hr hopen, hopen', ?_, ⟨hfirst, ?_⟩, fun hx => ?_⟩
    · simp [hops, hops', operatorsOf]
    · simpa [or_imp, forall_and, hfirst'] using ⟨fun a b => hrest (a, b), fun a b => hrest' (a, b)⟩
    · rw [value?_gather_apply _ _ (precedence_mem_tiers op) (by decide) hweak htight] at hx
      obtain ⟨y, hy, hx⟩ := Option.bind_eq_some_iff.mp hx
      obtain ⟨z, hz, hx⟩ := Option.bind_eq_some_iff.mp hx
      exact .apply hfront hback (hvalue hy) (hvalue' hz) hx

/-- **Gathering reads expressions by precedence.**  Terms with operators between them are always gathered, each
level has operators of one precedence, and from left to right it has exactly the value of the expression that is
split at its last operator of the lowest precedence. -/
theorem exists_tiered_value_iff {parts : List Part} (h : IsExpression parts) :
    ∃ l, ofParts? parts = some l ∧ l.IsTiered ∧
      ∀ ρ signed x, l.value? ρ signed = some x ↔ HasValue ρ signed parts x := by
  obtain ⟨r, hr, hopen, -, ⟨hfirst, hrest⟩, hvalue⟩ := exists_run h.unravels
  have hparts : ofParts? parts = some (gather tiers r.first r.rest) := by simp [ofParts?, hr, ofRun?, hopen]
  refine ⟨_, hparts, isTiered_gather hfirst hrest fun x _ => precedence_mem_tiers x.1, fun ρ signed x => ⟨hvalue, ?_⟩⟩
  intro hx
  obtain ⟨l, hl, hx⟩ := hx.value?_ofParts
  obtain rfl := Option.some.inj (hparts.symm.trans hl)
  exact hx

theorem exists_tiered_value_iff_mixed : ∃ l, ofParts? [.operand (.ofName "a"), .op .add,
      .group [.operand (.ofName "b"), .op .or, .operand (.ofName "c")], .op .mul, .operand (.ofName "d"), .op .sub,
      .operand (.ofName "e")] = some l ∧ l.IsTiered ∧
    ∀ ρ signed x, l.value? ρ signed = some x ↔ HasValue ρ signed [.operand (.ofName "a"), .op .add,
      .group [.operand (.ofName "b"), .op .or, .operand (.ofName "c")], .op .mul, .operand (.ofName "d"), .op .sub,
      .operand (.ofName "e")] x :=
  exists_tiered_value_iff (.step (.operand _) (.step (.group (.step (.operand _) (.operand _)))
    (.step (.operand _) (.operand _))))

end Level
end Microcode
