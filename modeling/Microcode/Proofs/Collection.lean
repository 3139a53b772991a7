import Microcode.Proofs.Operand
import Microcode.Proofs.Rearrangement

/-!
Folding the constants of an expression keeps its value.

In a sum or a product the constants are collected while the other terms stay in their order; that nothing is lost is a
matter of the total of the run.
-/

namespace Microcode

variable {l l' : Level} {run rest : List (BinaryOp × Term)} {c : Constant} {t first : Term} {x z : Quantity}
  {o head : Operand} {v p : Int64} {op : BinaryOp} {before after : Option Int64}

open List Level Term Constant Quantity

variable {ρ : Operand → Option Quantity} {signed : Bool}

/-! ### Constants -/

/-- What operands are read as: a whole number as itself, a fraction as nothing, and all else as a quantity of 32
bits. -/
structure ReadsConstants (ρ : Operand → Option Quantity) : Prop where
  int (v : Int64) : ρ (.ofConstant (.int v)) = some (.number v)
  float (x : Float) : ρ (.ofConstant (.float x)) = none
  short (o : Operand) (x : Quantity) (hconst : o.constant? = none) (hx : ρ o = some x) : x.IsShort

theorem Term.eq_ofConstant (h : t.constant? = some c) : t = .ofConstant c := by
  cases t with
  | leaf o => exact congrArg leaf (Operand.eq_ofConstant h)
  | group _ _ => cases h

theorem Term.int_of_constant? (hρ : ReadsConstants ρ) (hc : t.constant? = some c)
    (hx : t.value? ρ signed = some x) : ∃ v, c = .int v ∧ x = .number v := by
  rw [eq_ofConstant hc] at hx
  cases c with
  | int v => exact ⟨v, rfl, Option.some.inj (hx.symm.trans (hρ.int v))⟩
  | float y => cases hx.symm.trans (hρ.float y)

theorem Term.value?_ofInt (hρ : ReadsConstants ρ) (v : Int64) :
    (ofConstant (.int v)).value? ρ signed = some (.number v) := hρ.int v

def Constant.IsInt (c : Constant) : Prop := ∃ v, c = .int v

def Term.IsWhole (t : Term) : Prop := ∀ c, t.constant? = some c → c.IsInt

theorem Term.isWhole_ofConstant (h : c.IsInt) : (ofConstant c).IsWhole := fun _ hc => Option.some.inj hc ▸ h

namespace Level

def terms (l : Level) : List Term := l.first :: l.rest.map Prod.snd

def StartsOnce (l : Level) : Prop :=
  l.first.constant?.isSome → ∀ op t more, l.rest = (op, t) :: more → t.constant? = none

theorem startsOnce_of_first (h : l.first.constant? = none) : l.StartsOnce := by simp [StartsOnce, h]

theorem startsOnce_of_rest (h : l.rest = []) : l.StartsOnce := by simp [StartsOnce, h]

end Level

theorem isShort_runValue? (hrest : rest ≠ []) (h : runValue? ρ signed x rest = some z) : z.IsShort := by
  induction rest generalizing x with
  | nil => exact absurd rfl hrest
  | cons s rest ih =>
    obtain ⟨op, t⟩ := s
    simp only [runValue?, Option.bind_eq_some_iff] at h
    obtain ⟨y, -, u, hu, h⟩ := h
    cases rest with
    | nil =>
      cases h
      rw [BinaryOp.eq_ofWord_of_eval? hu]
      exact isShort_ofWord _ _
    | cons s rest => exact ih (cons_ne_nil _ _) h

/-- A folded term: it is no fraction, it is a constant unless its value is no longer than a word, and a group
has several terms and does not start with two constants. -/
structure Term.Settled (ρ : Operand → Option Quantity) (signed : Bool) (t : Term) : Prop where
  whole : t.IsWhole
  short (hconst : t.constant? = none) (x : Quantity) (hx : t.value? ρ signed = some x) : x.IsShort
  reduced (first : Term) (rest : List (BinaryOp × Term)) (ht : t = .group first rest) :
    rest ≠ [] ∧ Level.StartsOnce ⟨first, rest⟩

theorem Term.settled_leaf (hρ : ReadsConstants ρ) (ho : (leaf o).IsWhole) : (leaf o).Settled ρ signed where
  whole := ho
  short hconst x hx := hρ.short o x hconst hx
  reduced _ _ ht := nomatch ht

theorem Term.settled_ofConstant (hρ : ReadsConstants ρ) (hc : c.IsInt) : (ofConstant c).Settled ρ signed :=
  settled_leaf hρ (isWhole_ofConstant hc)

structure Level.Settled (ρ : Operand → Option Quantity) (signed : Bool) (l : Level) : Prop where
  startsOnce : l.StartsOnce
  terms : ∀ t ∈ l.terms, t.Settled ρ signed

theorem Level.Settled.toTerm (h : l.Settled ρ signed) : l.toTerm.Settled ρ signed := by
  obtain ⟨first, rest⟩ := l
  cases rest with
  | nil => exact h.terms first (.head _)
  | cons s rest =>
    refine ⟨fun c hc => (nomatch hc), fun _ x hx => ?_, fun first rest ht => ?_⟩
    · obtain ⟨y, -, hx⟩ := Option.bind_eq_some_iff.mp hx
      exact isShort_runValue? (cons_ne_nil _ _) hx
    · cases ht
      exact ⟨cons_ne_nil _ _, h.startsOnce⟩

namespace Gathering

variable (G : Gathering signed)

theorem combine_int (hop : G.kind op) (a b : Int64) : ∃ v, combine op (.int a) (.int b) = .ok (.int v) ∧
    (number v).IsShort ∧ word v = G.join (word a) (G.turn op (word b)) := by
  have happly := G.eval? op hop (.number a) (.number b)
  simp only [BinaryOp.eval?] at happly
  split at happly
  next v hv =>
    have hshort := Option.some.inj happly
    refine ⟨wrap32 v, by simp [combine, hv, Except.map], ?_, ?_⟩
    · rw [hshort]
      exact isShort_ofWord _ _
    · exact (congrArg toWord hshort).trans (toWord_ofWord _ _)
  · cases happly

def constants (c : Option Int64) : Option (Bool × BitVec 32) := some (true, (c.map word).getD G.neutral)

theorem tally_ofInt (hρ : ReadsConstants ρ) (v : Int64) :
    G.tally ρ (op, .ofConstant (.int v)) = some (true, G.turn op (word v)) := by
  rw [tally, value?_ofInt hρ]
  rfl

variable {terms : List (BinaryOp × Term)}

def Collects (ρ : Operand → Option Quantity) (before : Option Int64) (run : List (BinaryOp × Term))
    (after : Option Int64) (terms : List (BinaryOp × Term)) : Prop :=
  G.both (G.constants before) (G.total ρ run) = G.both (G.constants after) (G.total ρ terms)

variable {G}

theorem Collects.keep (h : G.Collects ρ before run after terms) (s : BinaryOp × Term) :
    G.Collects ρ before (s :: run) after (s :: terms) := by
  rw [Collects, total_cons, both_left_comm, h, both_left_comm, ← total_cons]

theorem Collects.combine (hρ : ReadsConstants ρ) (h : G.Collects ρ (some p) run after terms)
    (ht : t.constant? = some (.int v))
    (hp : word p = G.join ((before.map word).getD G.neutral) (G.turn op (word v))) :
    G.Collects ρ before ((op, t) :: run) after terms := by
  rw [Collects, ← h, total_cons, ← both_assoc, eq_ofConstant ht, tally_ofInt G hρ]
  simp [constants, both, hp]

theorem Collects.total_eq (h : G.Collects ρ none run after terms) :
    G.total ρ run = G.both (G.constants after) (G.total ρ terms) :=
  (G.neutral_both _).symm.trans h

theorem Collects.quantity_of_nil (h : G.Collects ρ none run (some v) []) (hv : (number v).IsShort) :
    quantity (G.total ρ run) = some (.number v) := by
  rw [h.total_eq, total_nil, both_neutral]
  exact congrArg some hv.symm

end Gathering

namespace Level

open Gathering

section
variable (hρ : ReadsConstants ρ)
include hρ
variable {f : BitVec 32 → BitVec 32 → BitVec 32}

theorem exists_sumConstants (signed : Bool) (hadd : ∀ s ∈ run, s.1.isAdditive)
    (hwhole : ∀ s ∈ run, s.2.IsWhole) (before : Option Int64) : ∃ (after : Option Int64) (terms : _),
      sumConstants.go (before.map .int) run = .ok (after.map .int, terms) ∧
      (Gathering.sum signed).Collects ρ before run after terms ∧ (∀ s ∈ terms, s ∈ run ∧ s.2.constant? = none) ∧
      ((number (before.getD 0)).IsShort → (number (after.getD 0)).IsShort) := by
  induction run generalizing before with
  | nil => exact ⟨before, [], rfl, rfl, by simp, id⟩
  | cons s run ih =>
    obtain ⟨op, t⟩ := s
    obtain ⟨hop, hadd⟩ := forall_mem_cons.mp hadd
    obtain ⟨ht, hwhole⟩ := forall_mem_cons.mp hwhole
    cases hc : t.constant? with
    | some c =>
      obtain ⟨v, rfl⟩ := ht c hc
      obtain ⟨p, hp, hshort, hword⟩ := (Gathering.sum signed).combine_int hop (before.getD 0) v
      obtain ⟨after, terms, hgo, htotal, hkept, hafter⟩ := ih hadd hwhole (some p)
      have hbefore : (before.map int).getD (.int 0) = .int (before.getD 0) := by cases before <;> rfl
      refine ⟨after, terms, ?_, htotal.combine hρ hc ?_, fun s hs => (hkept s hs).imp_left (.tail _),
        fun _ => hafter hshort⟩
      · simp only [sumConstants.go, hc, hbefore, hp]
        exact hgo
      · rw [hword]
        cases before <;> rfl
    | none =>
      obtain ⟨after, terms, hgo, htotal, hkept, hafter⟩ := ih hadd hwhole before
      refine ⟨after, (op, t) :: terms, ?_, htotal.keep _, ?_, hafter⟩
      · simp only [sumConstants.go, hc, hgo]
        rfl
      · exact forall_mem_cons.mpr ⟨⟨.head _, hc⟩, fun s hs => (hkept s hs).imp_left (.tail _)⟩

theorem total_signedTerm (c : Option Int64) : (Gathering.sum signed).total ρ
    (((c.map int).filter (! ·.isZero)).map signedTerm).toList = (Gathering.sum signed).constants c := by
  cases c with
  | none => rfl
  | some v =>
    by_cases hv : v = 0
    · subst hv
      rfl
    · have hfilter : ((some v).map int).filter (! ·.isZero) = some (.int v) := by
        simp [isZero, hv]
      rw [hfilter]
      simp only [Option.map_some, Option.toList_some, total_cons, total_nil, both_neutral, signedTerm]
      split
      · simp [tally_ofInt _ hρ, Gathering.sum, constants, word_wrap32, word_neg]
      · exact tally_ofInt _ hρ v

theorem settled_signedTerm (v : Int64) : (signedTerm (.int v)).2.Settled ρ signed := by
  unfold signedTerm
  dsimp only
  split <;> exact settled_ofConstant hρ ⟨_, rfl⟩

omit hρ in
theorem isAdditive_signedTerm (c : Constant) : (signedTerm c).1.isAdditive := by
  unfold signedTerm
  split <;> split <;> rfl

theorem value?_foldSum (hl : ∀ t ∈ l.terms, t.Settled ρ signed) (hadd : ∀ s ∈ l.rest, s.1.isAdditive)
    (hrest : l.rest ≠ []) :
    ∃ l', l.foldSum = .ok l' ∧ l'.value? ρ signed = l.value? ρ signed ∧ l'.Settled ρ signed := by
  have hrun : ∀ s ∈ (.add, l.first) :: l.rest, s.2 ∈ l.terms := fun s hs => mem_map_of_mem (f := Prod.snd) hs
  have hadd' : ∀ s ∈ (.add, l.first) :: l.rest, s.1.isAdditive := forall_mem_cons.mpr ⟨rfl, hadd⟩
  obtain ⟨after, terms, hgo, hcollects, hkept, hshort⟩ :=
    exists_sumConstants hρ signed hadd' (fun s hs => (hl s.2 (hrun s hs)).whole) none
  have hshort := hshort rfl
  have hterm : ∀ s ∈ terms, s.2.Settled ρ signed := fun s hs => hl s.2 (hrun s (hkept s hs).1)
  have hconst (v : Int64) : (ofConstant (.int v)).Settled ρ signed := settled_ofConstant hρ ⟨v, rfl⟩
  have hkind : ∀ s ∈ terms, s.1.isAdditive := fun s hs => hadd' s (hkept s hs).1
  have hstart : ((after.map int).filter (! ·.isZero)).getD (.int 0) = .int (after.getD 0) := by
    cases after with
    | none => rfl
    | some v => by_cases hv : v = 0 <;> simp [Option.filter, isZero, hv]
  have hvalue := (Gathering.sum signed).value?_eq ρ .add (fun _ => rfl) hadd fun h => absurd h hrest
  rw [hvalue, hcollects.total_eq]
  have hgo' : sumConstants ((.add, l.first) :: l.rest) = .ok (after.map .int, terms) := hgo
  simp only [foldSum, hgo', hstart, bind, Except.bind]
  split
  · -- No term is left: the sum is its constants.
    refine ⟨_, rfl, ?_, startsOnce_of_rest rfl, forall_mem_singleton.mpr (hconst _)⟩
    rw [value?_mk_nil, value?_ofInt hρ, total_nil, both_neutral, hshort]
    cases after <;> rfl
  · -- All terms are subtracted from the constants.
    refine ⟨_, rfl, ?_, fun _ op t more hrest => ?_, forall_mem_cons.mpr ⟨hconst _, forall_mem_map.mpr hterm⟩⟩
    · rw [(Gathering.sum signed).value?_eq ρ .add (fun _ => rfl) hkind (by simp), total_cons, tally_ofInt _ hρ]
      cases after <;> rfl
    · cases hrest
      exact (hkept _ (.head _)).2
  · -- A term that is added comes first, and the constants come last.
    rename_i op t more hop
    have hsub : op = .add := by cases op <;> simp_all [BinaryOp.isAdditive]
    subst hsub
    refine ⟨_, rfl, ?_, startsOnce_of_first (hkept _ (.head _)).2, forall_mem_cons.mpr ⟨hterm _ (.head _), ?_⟩⟩
    · rw [(Gathering.sum signed).value?_eq ρ .add (fun _ => rfl), total_cons, total_append, total_signedTerm hρ,
        ← both_assoc, ← total_cons, both_comm]
      · refine forall_mem_append.mpr ⟨fun s hs => hkind s (.tail _ hs), fun s hs => ?_⟩
        obtain ⟨c, -, rfl⟩ := Option.map_eq_some_iff.mp (Option.mem_toList.mp hs)
        exact isAdditive_signedTerm c
      · exact fun _ => (hterm _ (.head _)).short (hkept _ (.head _)).2
    · refine forall_mem_map.mpr (forall_mem_append.mpr ⟨fun s hs => hterm s (.tail _ hs), fun s hs => ?_⟩)
      obtain ⟨c, hc, rfl⟩ := Option.map_eq_some_iff.mp (Option.mem_toList.mp hs)
      obtain ⟨v, -, rfl⟩ := Option.map_eq_some_iff.mp (Option.filter_eq_some_iff.mp hc).1
      exact settled_signedTerm hρ v

omit hρ in
theorem productConstants_cons (hc : t.constant? = some c) (ts : List Term)
    (product : Option Constant) : productConstants op (t :: ts) product =
      (product.elim (.ok c) (combine op · c) >>= fun p => productConstants op ts (some p)) := by
  rw [productConstants, hc]
  cases product <;> rfl

theorem exists_productConstants (signed : Bool) (hop : op.isAssociative) (hf : op.ring? = some f)
    {ts} (hwhole : ∀ t ∈ ts, t.IsWhole) (before : Option Int64) :
    ∃ (after : Option Int64) (terms : _), productConstants op ts (before.map .int) = .ok (after.map .int, terms) ∧
      (Gathering.product signed hop hf).Collects ρ before (ts.map (op, ·)) after (terms.map (op, ·)) ∧
      (∀ t ∈ terms, t ∈ ts ∧ t.constant? = none) ∧
      ((∃ v, before = some v ∧ (number v).IsShort) ∨ terms = [] ∧ 2 ≤ before.toList.length + ts.length →
        ∃ v, after = some v ∧ (number v).IsShort) := by
  induction ts generalizing before with
  | nil =>
    refine ⟨before, [], rfl, rfl, by simp, fun h => h.elim id fun h => ?_⟩
    cases before <;> simp at h
  | cons t ts ih =>
    obtain ⟨ht, hwhole⟩ := forall_mem_cons.mp hwhole
    cases hc : t.constant? with
    | some c =>
      obtain ⟨v, rfl⟩ := ht c hc
      obtain ⟨p, hp, hword, hshort⟩ : ∃ p, (before.map int).elim (.ok (.int v)) (combine op · (.int v)) =
          .ok (.int p) ∧ word p = f ((before.map word).getD (neutralOf op)) (word v) ∧
            (before.isSome → (number p).IsShort) := by
        cases before with
        | none => exact ⟨v, rfl, ((Gathering.product signed hop hf).neutral_join _).symm, by simp⟩
        | some b =>
          obtain ⟨p, hp, hshort, hword⟩ := (Gathering.product signed hop hf).combine_int rfl b v
          exact ⟨p, hp, hword, fun _ => hshort⟩
      obtain ⟨after, terms, hgo, htotal, hkept, hafter⟩ := ih hwhole (some p)
      refine ⟨after, terms, ?_, htotal.combine hρ hc hword, fun t ht => (hkept t ht).imp_left (.tail _),
        fun h => hafter ?_⟩
      · rw [productConstants_cons hc, hp]
        exact hgo
      · cases before with
        | none => exact .inr (by simpa [Nat.add_comm] using h)
        | some b => exact .inl ⟨p, rfl, hshort rfl⟩
    | none =>
      obtain ⟨after, terms, hgo, htotal, hkept, hafter⟩ := ih hwhole before
      refine ⟨after, t :: terms, ?_, htotal.keep _, ?_, fun h => hafter (.inl (by simpa using h))⟩
      · simp only [productConstants, hc, hgo]
        rfl
      · exact forall_mem_cons.mpr ⟨⟨.head _, hc⟩, fun t ht => (hkept t ht).imp_left (.tail _)⟩

omit hρ in
theorem word_of_isIdentity (h : isIdentity op (.int v)) : word v = neutralOf op := by
  cases op <;> simp [isIdentity] at h <;> subst h <;> rfl

theorem total_kept (hop : op.isAssociative) (hf : op.ring? = some f) (c : Option Int64) :
    (Gathering.product signed hop hf).total ρ
      (((((c.map int).filter (! isIdentity op ·)).map ofConstant).toList).map (op, ·)) =
        (Gathering.product signed hop hf).constants c := by
  cases c with
  | none => rfl
  | some v =>
    by_cases hv : isIdentity op (.int v)
    · have hword : (product signed hop hf).neutral = word v := (word_of_isIdentity hv).symm
      simp [Option.filter_some, hv, constants, hword]
    · simp only [Option.map_some, Option.filter_some, hv]
      exact (both_neutral _ _).trans (tally_ofInt _ hρ v)

theorem value?_foldProduct (hl : ∀ t ∈ l.terms, t.Settled ρ signed) (hop : op.isAssociative)
    (hops : ∀ s ∈ l.rest, s.1 = op) (hrest : l.rest ≠ []) :
    ∃ l', l.foldProduct op = .ok l' ∧ l'.value? ρ signed = l.value? ρ signed ∧ l'.Settled ρ signed := by
  obtain ⟨f, hf⟩ := exists_ring? (.inr hop)
  obtain ⟨after, terms, hgo, hcollects, hkept, hshort⟩ :=
    exists_productConstants hρ signed hop hf (fun t ht => (hl t ht).whole) none
  have hrun : l.terms.map (op, ·) = (op, l.first) :: l.rest := by
    have hsame : l.rest.map (fun s => (op, s.2)) = l.rest :=
      (map_congr_left fun s hs => congrArg (·, s.2) (hops s hs).symm).trans (List.map_id l.rest)
    rw [Level.terms, map_cons, map_map]
    exact congrArg _ hsame
  rw [hrun] at hcollects
  have hvalue := (Gathering.product signed hop hf).value?_eq ρ op (fun _ => rfl) hops fun h => absurd h hrest
  rw [hvalue]
  have hgo' : productConstants op (l.first :: l.rest.map Prod.snd) none = .ok (after.map .int, terms) := hgo
  simp only [foldProduct, hgo', bind, Except.bind]
  cases terms with
  | nil =>
    -- No term is left: the run is its constants.
    have htwo : 2 ≤ l.terms.length := by
      have := length_pos_iff.mpr hrest
      simp only [Level.terms, length_cons, length_map]
      omega
    obtain ⟨v, rfl, hv⟩ := hshort (.inr ⟨rfl, by simpa using htwo⟩)
    refine ⟨⟨.ofConstant (.int v), []⟩, by simp [Option.filter_some], ?_, startsOnce_of_rest rfl,
      forall_mem_singleton.mpr (settled_ofConstant hρ ⟨v, rfl⟩)⟩
    rw [value?_mk_nil, value?_ofInt hρ, hcollects.quantity_of_nil hv]
  | cons t more =>
    -- The terms that are left come first, and the constants come last.
    obtain ⟨hmem, hconst⟩ := hkept t (.head _)
    simp only [isEmpty_cons, Bool.or_false]
    refine ⟨_, rfl, ?_, startsOnce_of_first hconst, forall_mem_cons.mpr ⟨hl t hmem, fun t' ht => ?_⟩⟩
    · rw [(Gathering.product signed hop hf).value?_eq ρ op (fun _ => rfl), hcollects.total_eq, both_comm]
      · show quantity (total _ ρ (List.map (op, ·) (t :: more ++ _))) = _
        rw [map_append, total_append, total_kept hρ hop hf]
      · exact forall_mem_map.mpr fun _ _ => rfl
      · exact fun _ => (hl t hmem).short hconst
    · simp only [map_map, Function.comp_def, map_id'] at ht
      rcases mem_append.mp ht with ht | ht
      · exact hl t' (hkept t' (.tail _ ht)).1
      · obtain ⟨c, hc, rfl⟩ := Option.map_eq_some_iff.mp (Option.mem_toList.mp ht)
        obtain ⟨v, -, rfl⟩ := Option.map_eq_some_iff.mp (Option.filter_eq_some_iff.mp hc).1
        exact settled_ofConstant hρ ⟨v, rfl⟩

theorem value?_foldStart (signed : Bool) (hfirst : first.Settled ρ signed) (hterms : ∀ s ∈ rest, s.2.Settled ρ signed) :
    (∃ l', foldStart first rest = .ok l' ∧ l'.value? ρ signed = (mk first rest).value? ρ signed ∧
      l'.Settled ρ signed) ∨
      foldStart first rest = .error .divisionByZero ∧ (mk first rest).value? ρ signed = none := by
  induction rest generalizing first with
  | nil => exact .inl ⟨_, rfl, rfl, startsOnce_of_rest rfl, forall_mem_singleton.mpr hfirst⟩
  | cons s rest ih =>
    obtain ⟨op, t⟩ := s
    obtain ⟨ht, hrest⟩ := forall_mem_cons.mp hterms
    rw [foldStart]
    split
    next a b ha hb =>
      obtain ⟨a, rfl⟩ := hfirst.whole a ha
      obtain ⟨b, rfl⟩ := ht.whole b hb
      have hvalue : (mk first ((op, t) :: rest)).value? ρ signed =
          (op.eval? signed (.number a) (.number b)).bind (runValue? ρ signed · rest) := by
        rw [eq_ofConstant ha, eq_ofConstant hb]
        simp [value?, runValue?, value?_ofInt hρ]
      rw [hvalue]
      cases hc : combineInt op a b with
      | ok v =>
        have hstep := ih (settled_ofConstant hρ ⟨wrap32 v, rfl⟩) hrest
        simpa [combine, hc, Except.map, BinaryOp.eval?, bind, Except.bind, value?, value?_ofInt hρ]
          using hstep
      | error e =>
        refine .inr ⟨?_, by simp [BinaryOp.eval?, hc]⟩
        have he : e = .divisionByZero := by
          cases op <;> simp only [combineInt, reduceCtorEq] at hc
          all_goals split at hc <;> cases hc <;> rfl
        simp [combine, hc, Except.map, bind, Except.bind, he]
    next hconst =>
      refine .inl ⟨_, rfl, rfl, fun hsome op' t' more hcons => ?_,
        forall_mem_cons.mpr ⟨hfirst, forall_mem_map.mpr hterms⟩⟩
      cases hcons
      obtain ⟨a, ha⟩ := Option.isSome_iff_exists.mp hsome
      exact Option.eq_none_iff_forall_not_mem.mpr fun b => hconst a b ha

omit hρ in
theorem foldOwn_cases (l : Level) : (l.rest ≠ [] ∧ (∀ s ∈ l.rest, s.1.isAdditive) ∧ l.foldOwn = l.foldSum) ∨
    (∃ op, l.rest ≠ [] ∧ op.isAssociative ∧ (∀ s ∈ l.rest, s.1 = op) ∧ l.foldOwn = l.foldProduct op) ∨
      l.foldOwn = foldStart l.first l.rest := by
  obtain ⟨first, rest⟩ := l
  cases rest with
  | nil => exact .inr (.inr rfl)
  | cons s rest =>
    simp only [foldOwn, ops, map_cons]
    split
    next hadd =>
      rw [← map_cons, List.all_map, all_eq_true] at hadd
      exact .inl ⟨cons_ne_nil _ _, hadd, rfl⟩
    split
    next hassoc =>
      simp only [Bool.and_eq_true, all_cons, beq_self_eq_true, true_and, List.all_map, all_eq_true] at hassoc
      refine .inr (.inl ⟨s.1, cons_ne_nil _ _, hassoc.1, forall_mem_cons.mpr ⟨rfl, fun r hr => ?_⟩, rfl⟩)
      exact beq_iff_eq.mp (hassoc.2 r hr)
    · exact .inr (.inr rfl)

theorem value?_foldOwn (hl : ∀ t ∈ l.terms, t.Settled ρ signed) :
    (∃ l', l.foldOwn = .ok l' ∧ l'.value? ρ signed = l.value? ρ signed ∧ l'.Settled ρ signed) ∨
      l.foldOwn = .error .divisionByZero ∧ l.value? ρ signed = none := by
  obtain ⟨hrest, hadd, hown⟩ | ⟨op, hrest, hop, hops, hown⟩ | hown := foldOwn_cases l
  · exact .inl (hown ▸ value?_foldSum hρ hl hadd hrest)
  · exact .inl (hown ▸ value?_foldProduct hρ hl hop hops hrest)
  · exact hown ▸ value?_foldStart hρ signed (hl _ (.head _)) fun s hs => hl s.2 (.tail _ (mem_map_of_mem hs))

end

def Whole (o : Operand) : Prop := (leaf o).IsWhole

/-- Folding a level gives a settled one of the same value, or fails on a division by zero that leaves no
value. -/
def Folds (ρ : Operand → Option Quantity) (signed : Bool) (l : Level) : Prop :=
  (∃ l', l.fold = .ok l' ∧ l'.value? ρ signed = l.value? ρ signed ∧ l'.Settled ρ signed) ∨
    l.fold = .error .divisionByZero ∧ l.value? ρ signed = none

def TermFolds (ρ : Operand → Option Quantity) (signed : Bool) (t : Term) : Prop :=
  (∃ t', foldTerm t = .ok t' ∧ t'.value? ρ signed = t.value? ρ signed ∧ t'.Settled ρ signed) ∨
    foldTerm t = .error .divisionByZero ∧ t.value? ρ signed = none

def RunFolds (ρ : Operand → Option Quantity) (signed : Bool) (rest : List (BinaryOp × Term)) : Prop :=
  (∃ rest', foldTerms rest = .ok rest' ∧ (∀ x, runValue? ρ signed x rest' = runValue? ρ signed x rest) ∧
    ∀ s ∈ rest', s.2.Settled ρ signed) ∨
    foldTerms rest = .error .divisionByZero ∧ ∀ x, runValue? ρ signed x rest = none

theorem folds_of_terms (hρ : ReadsConstants ρ) (hfirst : TermFolds ρ signed l.first)
    (hrest : RunFolds ρ signed l.rest) : l.Folds ρ signed := by
  unfold Folds fold
  obtain ⟨first, hfirst, hvalue, hsettled⟩ | ⟨hfirst, hvalue⟩ := hfirst
  · obtain ⟨rest, hrest, hvalues, hall⟩ | ⟨hrest, hvalues⟩ := hrest
    · have hterms : (mk first rest).value? ρ signed = l.value? ρ signed := by
        simp only [value?, hvalue, hvalues]
      rw [hfirst, hrest, ← hterms]
      exact value?_foldOwn hρ (forall_mem_cons.mpr ⟨hsettled, forall_mem_map.mpr hall⟩)
    · exact .inr ⟨by rw [hfirst, hrest]; rfl, by simp [value?, hvalues]⟩
  · exact .inr ⟨by rw [hfirst]; rfl, by simp [value?, hvalue]⟩

mutual

theorem termFolds (hρ : ReadsConstants ρ) (signed : Bool) : ∀ {t : Term}, t.All Whole → TermFolds ρ signed t
  | .leaf o, ho => .inl ⟨.leaf o, rfl, rfl, settled_leaf hρ ho⟩
  | .group first rest, ht => by
    have hlevel : Folds ρ signed ⟨first, rest⟩ := folds_of_terms hρ (termFolds hρ signed ht.1) (runFolds hρ signed ht.2)
    unfold TermFolds
    rw [foldTerm_group]
    obtain ⟨l, hl, hvalue, hsettled⟩ | ⟨hl, hvalue⟩ := hlevel
    · exact .inl ⟨l.toTerm, by rw [hl]; rfl, l.value?_toTerm.trans hvalue, hsettled.toTerm⟩
    · exact .inr ⟨by rw [hl]; rfl, hvalue⟩

theorem runFolds (hρ : ReadsConstants ρ) (signed : Bool) :
    ∀ {rest : List (BinaryOp × Term)}, allTerms Whole rest → RunFolds ρ signed rest
  | [], _ => .inl ⟨[], rfl, fun _ => rfl, by simp⟩
  | (op, t) :: more, h => by
    unfold RunFolds
    rw [foldTerms]
    obtain ⟨t', ht, hvalue, hsettled⟩ | ⟨ht, hvalue⟩ := termFolds hρ signed h.1
    · obtain ⟨more', hmore, hvalues, hall⟩ | ⟨hmore, hvalues⟩ := runFolds hρ signed h.2
      · refine .inl ⟨(op, t') :: more', by rw [ht, hmore]; rfl, fun x => ?_, forall_mem_cons.mpr ⟨hsettled, hall⟩⟩
        simp only [runValue?, hvalue, hvalues]
      · exact .inr ⟨by rw [ht, hmore]; rfl, fun x => by simp [runValue?, hvalues]⟩
    · exact .inr ⟨by rw [ht]; rfl, fun x => by simp [runValue?, hvalue]⟩

end

theorem folds (hρ : ReadsConstants ρ) (signed : Bool) (hl : l.All Whole) : l.Folds ρ signed :=
  folds_of_terms hρ (termFolds hρ signed hl.1) (runFolds hρ signed hl.2)

mutual

theorem all_whole_of_value? (hρ : ReadsConstants ρ) : ∀ {t : Term} {x : Quantity}, t.value? ρ signed = some x → t.All Whole
  | .leaf o, x, h => fun c hc => by
    obtain ⟨v, rfl, -⟩ := int_of_constant? hρ hc h
    exact ⟨v, rfl⟩
  | .group first rest, x, h => by
    obtain ⟨y, hy, h⟩ := Option.bind_eq_some_iff.mp h
    exact ⟨all_whole_of_value? hρ hy, all_whole_of_runValue? hρ h⟩

theorem all_whole_of_runValue? (hρ : ReadsConstants ρ) : ∀ {rest : List (BinaryOp × Term)} {x z : Quantity},
    runValue? ρ signed x rest = some z → allTerms Whole rest
  | [], _, _, _ => trivial
  | (op, t) :: more, x, z, h => by
    simp only [runValue?, Option.bind_eq_some_iff] at h
    obtain ⟨y, hy, u, -, h⟩ := h
    exact ⟨all_whole_of_value? hρ hy, all_whole_of_runValue? hρ h⟩

end

theorem value?_fold (hρ : ReadsConstants ρ) (hx : l.value? ρ signed = some x) (h : l.fold = .ok l') :
    l'.value? ρ signed = some x ∧ l'.Settled ρ signed := by
  obtain ⟨y, hy, hrun⟩ := Option.bind_eq_some_iff.mp hx
  have hwhole : l.All Whole := ⟨all_whole_of_value? hρ hy, all_whole_of_runValue? hρ hrun⟩
  obtain ⟨_, hl, hvalue, hsettled⟩ | ⟨hl, -⟩ := folds hρ signed hwhole
  · cases h.symm.trans hl
    exact ⟨hvalue.trans hx, hsettled⟩
  · cases h.symm.trans hl

theorem Settled.groupFirst (hl : l.Settled ρ signed) (h : l.groupFirst = .ok l') :
    l'.StartsOnce ∧ l'.first.Settled ρ signed := by
  obtain rfl | ⟨i, op, t, hget, hleaf, -, rfl⟩ := groupFirst_cases h
  · exact ⟨hl.startsOnce, hl.terms _ (.head _)⟩
  · have hmem : t ∈ l.rest.map Prod.snd := mem_map_of_mem (f := Prod.snd) (mem_of_getElem? hget)
    simp only [rotate, hget]
    refine ⟨startsOnce_of_first ?_, hl.terms t (.tail _ hmem)⟩
    cases t with
    | leaf o => cases hleaf
    | group _ _ => rfl

theorem startsOnce_variableFirst (hstarts : l.StartsOnce) (hfirst : l.first.Settled ρ signed) :
    l.variableFirst.StartsOnce ∧ ∀ first rest, l.variableFirst.first = .group first rest →
      rest ≠ [] ∧ StartsOnce ⟨first, rest⟩ := by
  obtain hsame | ⟨op, o, hget, hconst, -, hsame⟩ := variableFirst_cases l
  · rw [hsame]
    exact ⟨hstarts, hfirst.reduced⟩
  · simp only [hsame, rotate, hget]
    refine ⟨startsOnce_of_first hconst, fun first rest h => ?_⟩
    cases h

variable {more : List (BinaryOp × Operand)}

theorem constant?_of_steps? (hstarts : l.StartsOnce)
    (hfirst : ∀ first rest, l.first = .group first rest → rest ≠ [] ∧ StartsOnce ⟨first, rest⟩)
    (h : l.steps? = some (head, (op, o) :: more))
    (hhead : head.constant?.isSome) : o.constant? = none := by
  obtain rfl | ⟨lead, tail, hsteps, rfl⟩ := steps?_cases h
  · exact hstarts hhead op (.leaf o) (ofSteps more) rfl
  · obtain ⟨hne, hlead⟩ := hfirst _ _ rfl
    cases lead with
    | nil => exact absurd rfl hne
    | cons s lead =>
      cases hsteps
      exact hlead hhead op (.leaf o) (ofSteps lead) rfl

end Level
end Microcode
