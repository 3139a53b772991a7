import Microcode.Proofs.Quantity
import Microcode.Proofs.Replacement

/-!
Moving the terms of an expression keeps its value.

Before a level becomes a chain, brackets that change nothing are dropped, and the one group that may be left
is turned to the front.
-/

namespace Microcode

open BinaryOp Level Bool Quantity

variable {op inner outer : BinaryOp} {x y z : Quantity} {f g h : BitVec 32 → BitVec 32 → BitVec 32}
  {rest run : List (BinaryOp × Term)} {i : Nat} {l l' : Level}

open List

variable {ρ : Operand → Option Quantity} {signed : Bool}

/-- The quantity is a word, or a number that is no longer than one. -/
def Quantity.IsShort (x : Quantity) : Prop := x = .ofWord x.isNumber x.toWord

@[simp] theorem Quantity.isShort_ofWord (b : Bool) (w : BitVec 32) : (ofWord b w).IsShort := by simp [IsShort]

theorem BinaryOp.eq_ofWord_of_eval? (h : op.eval? signed x y = some z) :
    z = .ofWord (x.isNumber && y.isNumber) z.toWord := by
  cases y with
  | number b =>
    cases x with
    | number a =>
      simp only [eval?] at h
      split at h
      · cases h
        simp [isNumber, ofWord, toWord, wrap32_eq_signedWord, word_signedWord]
      · cases h
    | word a =>
      simp only [eval?] at h
      split at h
      · cases h
      · cases h
        rfl
  | word b => cases x <;> obtain ⟨w, -, rfl⟩ := Option.map_eq_some_iff.mp h <;> rfl

theorem BinaryOp.isNumber_eval? (h : op.eval? signed x y = some z) : z.isNumber = (x.isNumber && y.isNumber) := by
  rw [eq_ofWord_of_eval? h, isNumber_ofWord]

/-- An operator in front of a group may be taken into the group, where `inner` becomes `outer`. -/
def Absorbs (signed : Bool) (op inner outer : BinaryOp) : Prop :=
  ∀ x g y, (inner.eval? signed g y).bind (op.eval? signed x) = (op.eval? signed x g).bind (outer.eval? signed · y)

theorem absorbs_of_ring? (hf : op.ring? = some f)
    (hg : inner.ring? = some g) (hh : outer.ring? = some h) (hlaw : ∀ a b c, f a (g b c) = h (f a b) c) :
    Absorbs signed op inner outer := by
  intro x u y
  simp [eval?_of_ring? hf, eval?_of_ring? hg, eval?_of_ring? hh, hlaw, Bool.and_assoc]

theorem absorbs_additive (hop : op.isAdditive) (hinner : inner.isAdditive) :
    Absorbs signed op inner (if op = .sub then inner.flipSign else inner) := by
  cases op <;> cases hop <;> cases inner <;> cases hinner
  all_goals exact absorbs_of_ring? rfl rfl rfl fun a b c => by bv_omega

theorem absorbs_associative (hop : op.isAssociative) : Absorbs signed op op op := by
  cases op <;> cases hop
  · exact absorbs_of_ring? rfl rfl rfl fun a b c => (BitVec.mul_assoc a b c).symm
  · exact absorbs_of_ring? rfl rfl rfl fun a b c => (BitVec.and_assoc a b c).symm
  · exact absorbs_of_ring? rfl rfl rfl fun a b c => (BitVec.or_assoc a b c).symm
  · exact absorbs_of_ring? rfl rfl rfl fun a b c => (BitVec.xor_assoc a b c).symm

theorem exists_ring? (h : op.isAdditive ∨ op.isAssociative) : ∃ f, op.ring? = some f := by
  cases op <;> simp_all [ring?, isAdditive, isAssociative]

theorem runValue?_absorbed (hf : op.ring? = some f) (outer : BinaryOp → BinaryOp)
    (hlaw : ∀ s ∈ rest, Absorbs signed op s.1 (outer s.1)) (x g : Quantity) :
    (runValue? ρ signed g rest).bind (op.eval? signed x) = (op.eval? signed x g).bind
      fun z => runValue? ρ signed z (rest.map fun s => (outer s.1, s.2)) := by
  induction rest generalizing g with
  | nil => simp
  | cons s rest ih =>
    obtain ⟨inner, t⟩ := s
    simp only [map_cons, runValue?, eval?_of_ring? hf, Option.bind_some, Option.bind_assoc]
    congr 1
    funext y
    have hlaw' := hlaw (inner, t) (by simp) x g y
    have ih' := ih fun s hs => hlaw s (by simp [hs])
    rw [eval?_of_ring? hf, Option.bind_some] at hlaw'
    rw [← hlaw', Option.bind_assoc]
    congr 1
    funext u
    exact (Option.bind_congr fun a _ => by simp only [eval?_of_ring? hf]).trans (ih' u)

namespace Level

theorem runValue?_absorb (op : BinaryOp) (group : Level) (x : Quantity) :
    runValue? ρ signed x (absorb op group) = (group.value? ρ signed).bind (op.eval? signed x) := by
  unfold absorb
  split
  next hadd =>
    simp only [and_eq_true, ops, List.all_map, all_eq_true] at hadd
    obtain ⟨f, hf⟩ := exists_ring? (.inl hadd.1)
    simp only [value?, runValue?, Option.bind_assoc, runValue?_absorbed hf
      (fun inner => if op = .sub then inner.flipSign else inner) fun s hs => absorbs_additive hadd.1 (hadd.2 s hs)]
  split
  next hassoc =>
    simp only [and_eq_true, ops, List.all_map, all_eq_true, Function.comp_apply, beq_iff_eq] at hassoc
    obtain ⟨f, hf⟩ := exists_ring? (.inr hassoc.1)
    have hlaw : ∀ s ∈ group.rest, Absorbs signed op s.1 (id s.1) := fun s hs => by
      rw [hassoc.2 s hs]
      exact absorbs_associative hassoc.1
    simp [value?, runValue?, Option.bind_assoc, runValue?_absorbed hf id hlaw]
  · simp [runValue?, Term.value?, value?]

theorem value?_mk_nil (t : Term) : (mk t []).value? ρ signed = t.value? ρ signed := by simp [value?]

theorem value?_assemble (start : Term × List (BinaryOp × Term)) (rest : List (BinaryOp × Term)) :
    (assemble start rest).value? ρ signed =
      ((mk start.1 start.2).value? ρ signed).bind (runValue? ρ signed · rest) := by
  simp [assemble, value?, runValue?_append, Option.bind_assoc]

mutual

theorem value?_spliceFirst (ops : List BinaryOp) : ∀ t : Term,
    (mk (spliceFirst ops t).1 (spliceFirst ops t).2).value? ρ signed = t.value? ρ signed
  | .leaf o => by simp [spliceFirst, value?]
  | .group first rest => by
    have hgroup : (assemble (spliceFirst (rest.map Prod.fst) first) (spliceRest rest)).value? ρ signed =
        (Term.group first rest).value? ρ signed := by
      simp only [value?_assemble, value?_spliceFirst _ first, runValue?_spliceRest rest, Term.value?]
    rw [spliceFirst]
    split
    · exact hgroup
    · rw [← hgroup, value?_mk_nil]
      rfl

theorem runValue?_spliceRest : ∀ (rest : List (BinaryOp × Term)) (x : Quantity),
    runValue? ρ signed x (spliceRest rest) = runValue? ρ signed x rest
  | [], x => rfl
  | (op, .leaf o) :: more, x => by simp [spliceRest, runValue?, runValue?_spliceRest more]
  | (op, .group first rest) :: more, x => by
    simp [spliceRest, runValue?_append, runValue?_absorb, value?_assemble, value?_spliceFirst _ first,
      runValue?_spliceRest rest, runValue?_spliceRest more, runValue?, Term.value?, Option.bind_assoc]

end

theorem value?_splice (l : Level) : l.splice.value? ρ signed = l.value? ρ signed := by
  simp only [splice, value?_assemble, value?_spliceFirst, runValue?_spliceRest]
  rfl

end Level

/-! ### Sums and products -/

/-- Operators of one kind put their right operands, each turned as the operator says, together with the left
one by an operation whose arguments may come in any order. -/
structure Gathering (signed : Bool) where
  kind : BinaryOp → Prop
  join : BitVec 32 → BitVec 32 → BitVec 32
  neutral : BitVec 32
  turn : BinaryOp → BitVec 32 → BitVec 32
  assoc (a b c : BitVec 32) : join (join a b) c = join a (join b c)
  comm (a b : BitVec 32) : join a b = join b a
  neutral_join (a : BitVec 32) : join neutral a = a
  eval? (op : BinaryOp) (hop : kind op) (x y : Quantity) : op.eval? signed x y =
    some (.ofWord (x.isNumber && y.isNumber) (join x.toWord (turn op y.toWord)))

namespace Gathering

def sum (signed : Bool) : Gathering signed where
  kind op := op.isAdditive
  join := (· + ·)
  neutral := 0
  turn op w := if op = .sub then -w else w
  assoc := BitVec.add_assoc
  comm := BitVec.add_comm
  neutral_join := BitVec.zero_add
  eval? op hop x y := by
    cases op <;> cases hop
    · exact eval?_of_ring? rfl signed x y
    · rw [eval?_of_ring? rfl signed x y, if_pos rfl, BitVec.sub_eq_add_neg]

def neutralOf (op : BinaryOp) : BitVec 32 := if op = .mul then 1 else if op = .and then -1 else 0

def product (signed : Bool) {op : BinaryOp} {f : BitVec 32 → BitVec 32 → BitVec 32} (hop : op.isAssociative)
    (hf : op.ring? = some f) : Gathering signed where
  kind := (· = op)
  join := f
  neutral := neutralOf op
  turn _ w := w
  assoc a b c := by
    cases op <;> cases hop <;> cases hf
    · exact BitVec.mul_assoc a b c
    · exact BitVec.and_assoc a b c
    · exact BitVec.or_assoc a b c
    · exact BitVec.xor_assoc a b c
  comm a b := by
    cases op <;> cases hop <;> cases hf
    · exact BitVec.mul_comm a b
    · exact BitVec.and_comm a b
    · exact BitVec.or_comm a b
    · exact BitVec.xor_comm a b
  neutral_join a := by
    cases op <;> cases hop <;> cases hf
    · exact BitVec.one_mul a
    · exact BitVec.allOnes_and
    · exact BitVec.zero_or
    · exact BitVec.zero_xor
  eval? _ hkind x y := by
    subst hkind
    exact eval?_of_ring? hf signed x y

variable (G : Gathering signed)

/-- Two parts of a run, each as whether it is of numbers only and its word. -/
def both (a b : Option (Bool × BitVec 32)) : Option (Bool × BitVec 32) :=
  a.bind fun x => b.map fun y => (x.1 && y.1, G.join x.2 y.2)

variable (a b : Option (Bool × BitVec 32))

theorem both_comm : G.both a b = G.both b a := by cases a <;> cases b <;> simp [both, G.comm, Bool.and_comm]

variable (c : Option (Bool × BitVec 32))

theorem both_assoc : G.both (G.both a b) c = G.both a (G.both b c) := by
  cases a <;> cases b <;> cases c <;> simp [both, G.assoc, Bool.and_assoc]

theorem both_left_comm : G.both a (G.both b c) = G.both b (G.both a c) := by
  rw [← both_assoc, G.both_comm a b, both_assoc]

@[simp] theorem neutral_both : G.both (some (true, G.neutral)) a = a := by cases a <;> simp [both, G.neutral_join]

@[simp] theorem both_neutral : G.both a (some (true, G.neutral)) = a := by rw [both_comm, neutral_both]

def tally (ρ : Operand → Option Quantity) (s : BinaryOp × Term) : Option (Bool × BitVec 32) :=
  (s.2.value? ρ signed).map fun x => (x.isNumber, G.turn s.1 x.toWord)

def total (ρ : Operand → Option Quantity) (run : List (BinaryOp × Term)) : Option (Bool × BitVec 32) :=
  run.foldr (fun s a => G.both (G.tally ρ s) a) (some (true, G.neutral))

@[simp] theorem total_nil : G.total ρ [] = some (true, G.neutral) := rfl

@[simp] theorem total_cons (s : BinaryOp × Term) (run : List (BinaryOp × Term)) :
    G.total ρ (s :: run) = G.both (G.tally ρ s) (G.total ρ run) := rfl

@[simp] theorem total_append (run more : List (BinaryOp × Term)) :
    G.total ρ (run ++ more) = G.both (G.total ρ run) (G.total ρ more) := by
  induction run with
  | nil => simp
  | cons s run ih => simp [ih, both_assoc]

variable {s : BinaryOp × Term}

theorem total_eraseIdx (h : run[i]? = some s) : G.total ρ (s :: run.eraseIdx i) = G.total ρ run := by
  induction run generalizing i with
  | nil => simp at h
  | cons r run ih =>
    cases i with
    | zero =>
      cases h
      rfl
    | succ i => rw [eraseIdx_cons_succ, total_cons, total_cons, total_cons, both_left_comm, ← total_cons, ih h]

def quantity (a : Option (Bool × BitVec 32)) : Option Quantity := a.map fun x => .ofWord x.1 x.2

theorem runValue?_eq (hkind : ∀ s ∈ run, G.kind s.1) (hx : run = [] → x.IsShort) :
    runValue? ρ signed x run = quantity (G.both (some (x.isNumber, x.toWord)) (G.total ρ run)) := by
  induction run generalizing x with
  | nil => simpa [quantity, Quantity.IsShort] using hx rfl
  | cons s run ih =>
    obtain ⟨op, t⟩ := s
    rw [runValue?, total_cons, tally, ← both_assoc]
    cases t.value? ρ signed with
    | none => rfl
    | some y =>
      rw [Option.bind_some, G.eval? op (hkind (op, t) (by simp)), Option.bind_some,
        ih (fun s hs => hkind s (by simp [hs])) fun _ => isShort_ofWord _ _]
      simp [both]

/-- A level of one kind, with an operator that turns nothing put in front of it, is the total of its terms.  A
term on its own is kept as it is; that makes a difference for numbers of more than 32 bits. -/
theorem value?_eq (ρ : Operand → Option Quantity) (op : BinaryOp) (hturn : ∀ w, G.turn op w = w)
    (hkind : ∀ s ∈ l.rest, G.kind s.1) (hshort : l.rest = [] → ∀ x, l.first.value? ρ signed = some x → x.IsShort) :
    l.value? ρ signed = quantity (G.total ρ ((op, l.first) :: l.rest)) := by
  rw [value?, total_cons, tally]
  cases hx : l.first.value? ρ signed with
  | none => rfl
  | some x =>
    rw [Option.bind_some, G.runValue?_eq hkind fun h => hshort h x hx]
    simp [hturn]

end Gathering

namespace Level

variable {t : Term} {steps : List (BinaryOp × Operand)} {head : Operand}

theorem value?_rotate_total (G : Gathering signed) (hturn : ∀ w, G.turn op w = w)
    (hkind : ∀ s ∈ l.rest, G.kind s.1) (ht : l.rest[i]? = some (op, t)) :
    (l.rotate i).value? ρ signed = l.value? ρ signed := by
  have hmem : (op, t) ∈ l.rest := mem_of_getElem? ht
  have hrotate : l.rotate i = ⟨t, (op, l.first) :: l.rest.eraseIdx i⟩ := by simp [rotate, ht]
  have hturned : ∀ s ∈ (op, l.first) :: l.rest.eraseIdx i, G.kind s.1 :=
    forall_mem_cons.mpr ⟨hkind (op, t) hmem, fun s hs => hkind s (mem_of_mem_eraseIdx hs)⟩
  rw [hrotate, G.value?_eq ρ op hturn hturned (by simp), G.value?_eq ρ op hturn hkind fun h => absurd hmem (by simp [h]),
    G.total_cons _ l.rest, ← G.total_eraseIdx ht, G.total_cons, G.total_cons, G.total_cons, G.both_left_comm]

theorem eval?_comm (h : op.isCommutative) (x y : Quantity) : op.eval? signed x y = op.eval? signed y x := by
  have hring : ∃ f, op.ring? = some f ∧ ∀ a b, f a b = f b a := by
    cases op <;> cases h
    · exact ⟨_, rfl, BitVec.add_comm⟩
    · exact ⟨_, rfl, BitVec.mul_comm⟩
    · exact ⟨_, rfl, BitVec.and_comm⟩
    · exact ⟨_, rfl, BitVec.or_comm⟩
    · exact ⟨_, rfl, BitVec.xor_comm⟩
    · exact ⟨_, rfl, fun a b => by rw [BitVec.or_comm]⟩
  obtain ⟨f, hf, hcomm⟩ := hring
  rw [eval?_of_ring? hf, eval?_of_ring? hf, hcomm, Bool.and_comm]

theorem value?_rotate_zero (ht : l.rest[0]? = some (op, t)) (hop : op.isCommutative) :
    (l.rotate 0).value? ρ signed = l.value? ρ signed := by
  obtain ⟨first, rest⟩ := l
  cases rest with
  | nil => cases ht
  | cons s more =>
    cases ht
    simp only [rotate, getElem?_cons_zero, eraseIdx_cons_zero, value?, runValue?]
    cases first.value? ρ signed <;> cases t.value? ρ signed <;> simp [eval?_comm hop]

/-- The group that is turned to the front comes from a place where that keeps the value: a run of `~|` has no
order but between its first two terms. -/
def TurnsSafely (l : Level) : Prop := ∀ i op t, l.rest[i]? = some (op, t) → t.isLeaf = false → op = .nor → i = 0

theorem value?_rotate (ht : l.rest[i]? = some (op, t)) (hrot : l.canRotate op)
    (hnor : op = .nor → i = 0) : (l.rotate i).value? ρ signed = l.value? ρ signed := by
  simp only [canRotate, and_eq_true, or_eq_true, all_eq_true, ops, forall_mem_map, beq_iff_eq] at hrot
  obtain ⟨hcomm, hsame | ⟨rfl, hadd⟩⟩ := hrot
  · by_cases hassoc : op.isAssociative
    · obtain ⟨f, hf⟩ := exists_ring? (.inr hassoc)
      exact value?_rotate_total (.product signed hassoc hf) (fun _ => rfl) hsame ht
    by_cases hop : op = .add
    · subst hop
      refine value?_rotate_total (.sum signed) (fun _ => rfl) (fun s hs => ?_) ht
      rw [hsame s hs]
      rfl
    · obtain rfl : i = 0 := hnor (by cases op <;> simp_all [isCommutative, isAssociative])
      exact value?_rotate_zero ht hcomm
  · exact value?_rotate_total (.sum signed) (fun _ => rfl) hadd ht

theorem groupFirst_cases (h : l.groupFirst = .ok l') : l' = l ∨
    ∃ i op t, l.rest[i]? = some (op, t) ∧ t.isLeaf = false ∧ l.canRotate op ∧ l' = l.rotate i := by
  unfold groupFirst at h
  split at h
  · exact .inl (Except.ok.inj h).symm
  next op t hfilter =>
    split at h
    next hrot =>
      have hmem : (op, t) ∈ l.rest ∧ (!t.isLeaf) := mem_filter.mp (hfilter ▸ mem_singleton_self _)
      have hlt : l.rest.findIdx (! ·.2.isLeaf) < l.rest.length := findIdx_lt_length_of_exists ⟨_, hmem.1, hmem.2⟩
      have hfound : l.rest[l.rest.findIdx (! ·.2.isLeaf)] ∈ l.rest.filter (! ·.2.isLeaf) :=
        mem_filter.mpr ⟨getElem_mem hlt, findIdx_getElem (w := hlt)⟩
      rw [hfilter, mem_singleton] at hfound
      refine .inr ⟨_, op, t, ?_, by simpa using hmem.2, (and_eq_true _ _ ▸ hrot).2, (Except.ok.inj h).symm⟩
      rw [getElem?_eq_getElem hlt, hfound]
    · cases h
  · cases h

theorem variableFirst_cases (l : Level) : l.variableFirst = l ∨ ∃ op o, l.rest[0]? = some (op, .leaf o) ∧
    o.constant? = none ∧ l.canRotate op ∧ l.variableFirst = l.rotate 0 := by
  unfold variableFirst
  split
  next op o more _ hrest =>
    split
    next hrot =>
      rw [and_eq_true, Option.isNone_iff_eq_none] at hrot
      exact .inr ⟨op, o, by rw [hrest]; rfl, hrot.1, hrot.2, rfl⟩
    · exact .inl rfl
  · exact .inl rfl

theorem value?_groupFirst (hsafe : l.TurnsSafely) (h : l.groupFirst = .ok l') :
    l'.value? ρ signed = l.value? ρ signed := by
  obtain rfl | ⟨i, op, t, hget, hleaf, hrot, rfl⟩ := groupFirst_cases h
  · rfl
  · exact value?_rotate hget hrot (hsafe i op t hget hleaf)

theorem value?_variableFirst (l : Level) : l.variableFirst.value? ρ signed = l.value? ρ signed := by
  obtain h | ⟨op, o, hget, -, hrot, h⟩ := variableFirst_cases l
  · rw [h]
  · rw [h, value?_rotate hget hrot fun _ => rfl]

def ofSteps (steps : List (BinaryOp × Operand)) : List (BinaryOp × Term) := steps.map fun s => (s.1, .leaf s.2)

theorem ofSteps_leaves? (h : leaves? rest = some steps) : rest = ofSteps steps := by
  induction rest generalizing steps with
  | nil =>
    cases h
    rfl
  | cons s rest ih =>
    obtain ⟨op, t⟩ := s
    cases t with
    | leaf o =>
      obtain ⟨more, hmore, hsteps⟩ := Option.bind_eq_some_iff.mp h
      cases hsteps
      rw [ih hmore]
      rfl
    | group _ _ => cases h

theorem steps?_cases (h : l.steps? = some (head, steps)) :
    l = ⟨.leaf head, ofSteps steps⟩ ∨ ∃ lead tail, steps = lead ++ tail ∧
      l = ⟨.group (.leaf head) (ofSteps lead), ofSteps tail⟩ := by
  obtain ⟨first, rest⟩ := l
  obtain ⟨tail, htail, h⟩ := Option.bind_eq_some_iff.mp h
  obtain rfl : rest = ofSteps tail := ofSteps_leaves? htail
  cases first with
  | leaf o =>
    cases h
    exact .inl rfl
  | group first lead =>
    cases first with
    | leaf o =>
      obtain ⟨o', ho, h⟩ := Option.bind_eq_some_iff.mp h
      obtain ⟨lead', hlead, h⟩ := Option.bind_eq_some_iff.mp h
      cases ho
      cases h
      exact .inr ⟨lead', tail, rfl, by rw [ofSteps_leaves? hlead]⟩
    | group _ _ => cases h

theorem value?_of_steps? (h : l.steps? = some (head, steps)) :
    l.value? ρ signed = (ρ head).bind (runValue? ρ signed · (ofSteps steps)) := by
  obtain rfl | ⟨lead, tail, rfl, rfl⟩ := steps?_cases h
  · rfl
  · simp [value?, Term.value?, ofSteps, runValue?_append, Option.bind_assoc]

end Level
end Microcode
