import Microcode.Proofs.ScalarUnit

/-!
The value of an expression.

`HasValue` says what an expression as it is written stands for: an operand has the value that it is given, a
group that of its inside, and any other expression is split at the last of its weakest operators.
-/

namespace Microcode

open Option Level List

/-- What an operand stands for: a number of the source, or a word that is known when the code runs. -/
inductive Quantity where
  | number (v : Int64)
  | word (w : BitVec 32)

variable {x : Quantity} {op : BinaryOp}

namespace Quantity

def toWord : Quantity → BitVec 32
  | number v => Microcode.word v
  | word w => w

def isNumber : Quantity → Bool
  | number _ => true
  | word _ => false

/-- The quantity with a word of 32 bits: a number that is read with its sign, or the word itself. -/
def ofWord (isNumber : Bool) (w : BitVec 32) : Quantity :=
  if isNumber then number (signedWord (.ofBitVec w)) else word w

@[simp] theorem toWord_ofWord (b : Bool) (w : BitVec 32) : (ofWord b w).toWord = w := by
  cases b with
  | false => rfl
  | true => exact word_signedWord _

@[simp] theorem isNumber_ofWord (b : Bool) (w : BitVec 32) : (ofWord b w).isNumber = b := by cases b <;> rfl

theorem eq_word_of_isNumber (h : x.isNumber = false) : x = word x.toWord := by
  cases x with
  | number => cases h
  | word => rfl

end Quantity

theorem wrap32_eq_signedWord (v : Int64) : wrap32 v = signedWord (.ofBitVec (word v)) := by
  have h : v.toInt32.toBitVec = word v := BitVec.signExtend_eq_setWidth_of_le _ (by decide)
  have h' : v.toInt32 = (UInt32.ofBitVec (word v)).toInt32 := by
    rw [← h]
    rfl
  rw [wrap32, signedWord, h']

namespace BinaryOp

/-- The value of an operator on two words.  There is no division by a word that is not known, and the
operator for vectors has no value. -/
def onWords? (signed : Bool) (a b : BitVec 32) : BinaryOp → Option (BitVec 32)
  | add => some (a + b)
  | sub => some (a - b)
  | mul => some (a * b)
  | and => some (a &&& b)
  | or => some (a ||| b)
  | xor => some (a ^^^ b)
  | nor => some (~~~(a ||| b))
  | shl => some (a <<< (b.toNat % 32))
  | shr => some (if signed then a.sshiftRight (b.toNat % 32) else a >>> (b.toNat % 32))
  | div | mod | mulAdd => none

/-- The value of an operator on two quantities: numbers are combined as constants of the language are. -/
def eval? (signed : Bool) (op : BinaryOp) : Quantity → Quantity → Option Quantity
  | .number a, .number b =>
    match Constant.combineInt op a b with
    | .ok v => some (.number (wrap32 v))
    | .error _ => none
  | x, .number b => if op = .mulAdd then none else some (.word (op.onWord signed x.toWord b))
  | x, .word b => (op.onWords? signed x.toWord b).map .word

/-- What the operators that compute bit by bit or modulo 2^32 do with words; the others have no such form. -/
def ring? : BinaryOp → Option (BitVec 32 → BitVec 32 → BitVec 32)
  | add => some (· + ·)
  | sub => some (· - ·)
  | mul => some (· * ·)
  | and => some (· &&& ·)
  | or => some (· ||| ·)
  | xor => some (· ^^^ ·)
  | nor => some fun a b => ~~~(a ||| b)
  | _ => none

variable {f : BitVec 32 → BitVec 32 → BitVec 32}

theorem eval?_of_ring? (h : op.ring? = some f) (signed : Bool) (x y : Quantity) :
    op.eval? signed x y = some (.ofWord (x.isNumber && y.isNumber) (f x.toWord y.toWord)) := by
  cases x with
  | number a =>
    cases y with
    | number b =>
      cases op <;> cases h
      all_goals simp only [eval?, Constant.combineInt, wrap32_eq_signedWord, word_add, word_sub, word_mul,
        word_and, word_or, word_xor, word_not]
      all_goals rfl
    | word b => cases op <;> cases h <;> rfl
  | word a =>
    cases y with
    | number b | word b => cases op <;> cases h <;> rfl

end BinaryOp

section
variable (ρ : Operand → Option Quantity) (signed : Bool)

mutual

def Term.value? : Term → Option Quantity
  | .leaf o => ρ o
  | .group first rest => first.value?.bind fun x => runValue? x rest

/-- The value of a quantity and of the operators and terms that follow it, from left to right. -/
def runValue? (x : Quantity) : List (BinaryOp × Term) → Option Quantity
  | [] => some x
  | (op, t) :: more => t.value?.bind fun y => (op.eval? signed x y).bind fun z => runValue? z more

end

def Level.value? (l : Level) : Option Quantity := (l.first.value? ρ signed).bind fun x => runValue? ρ signed x l.rest

end

section
variable {ρ : Operand → Option Quantity} {signed : Bool}

@[simp] theorem runValue?_nil (x : Quantity) : runValue? ρ signed x [] = some x := rfl

theorem runValue?_append (x : Quantity) (front rest : List (BinaryOp × Term)) : runValue? ρ signed x (front ++ rest)
      = (runValue? ρ signed x front).bind fun y => runValue? ρ signed y rest := by
  induction front generalizing x with
  | nil => rfl
  | cons step front ih =>
    obtain ⟨op, t⟩ := step
    simp only [cons_append, runValue?, bind_assoc]
    congr 1
    funext y
    congr 1
    funext z
    exact ih z

@[simp] theorem Level.value?_toTerm (l : Level) : l.toTerm.value? ρ signed = l.value? ρ signed := by
  unfold toTerm value?
  split
  next hrest => simp [hrest]
  · rfl

def operatorsOf (parts : List Part) : List BinaryOp := parts.filterMap fun
    | .op op => some op
    | _ => none

/-- The value of an expression as it is written.  It is split at its last operator of the lowest
precedence. -/
inductive HasValue (ρ : Operand → Option Quantity) (signed : Bool) : List Part → Quantity → Prop
  | operand {o x} (ho : ρ o = some x) : HasValue ρ signed [.operand o] x
  | group {parts x} (hparts : HasValue ρ signed parts x) : HasValue ρ signed [.group parts] x
  | apply {front back op x y z} (hfront : ∀ o ∈ operatorsOf front, op.precedence ≤ o.precedence)
      (hback : ∀ o ∈ operatorsOf back, op.precedence < o.precedence) (hx : HasValue ρ signed front x)
      (hy : HasValue ρ signed back y) (hz : op.eval? signed x y = some z) :
      HasValue ρ signed (front ++ .op op :: back) z

theorem HasValue.pair {l r y z} (hl : ρ l = some x) (hr : ρ r = some y)
    (hz : op.eval? signed x y = some z) : HasValue ρ signed [.operand l, .op op, .operand r] z :=
  show HasValue ρ signed ([.operand l] ++ .op op :: [.operand r]) z from
    .apply (by simp [operatorsOf]) (by simp [operatorsOf]) (.operand hl) (.operand hr) hz

variable {parts : List Part}

namespace Level

/-- A level that is split at one tier, with the pieces gathered by the tighter tiers. -/
def splitAt (tier : Nat) (tighter : List Nat) (first : Term) (rest : List (BinaryOp × Term)) : Level :=
  ⟨(gather tighter first (splitAtTier tier rest).1).toTerm,
    (splitAtTier tier rest).2.map fun (op, t, run) => (op, (gather tighter t run).toTerm)⟩

theorem gather_nil (tiers : List Nat) (first : Term) : gather tiers first [] = ⟨first, []⟩ := by
  cases tiers <;> simp [gather]

variable {tier : Nat}
variable {rest front : List (BinaryOp × Term)} {t : Term}

theorem splitAtTier_of_all (h : ∀ x ∈ rest, x.1.precedence = tier) :
    splitAtTier tier rest = ([], rest.map fun (op, t) => (op, t, [])) := by
  induction rest with
  | nil => rfl
  | cons x rest ih =>
    obtain ⟨op, t⟩ := x
    have hop : op.precedence = tier := h (op, t) (by simp)
    simp [splitAtTier, ih fun y hy => h y (by simp [hy]), hop]

theorem splitAtTier_of_none (h : ∀ x ∈ rest, x.1.precedence ≠ tier) : splitAtTier tier rest = (rest, []) := by
  induction rest with
  | nil => rfl
  | cons x rest ih =>
    obtain ⟨op, t⟩ := x
    have hop : op.precedence ≠ tier := h (op, t) (by simp)
    simp [splitAtTier, ih fun y hy => h y (by simp [hy]), hop]

variable {back : List (BinaryOp × Term)}

theorem splitAtTier_append (hop : op.precedence = tier) (hback : ∀ x ∈ back, x.1.precedence ≠ tier) :
    splitAtTier tier (front ++ (op, t) :: back)
      = ((splitAtTier tier front).1, (splitAtTier tier front).2 ++ [(op, t, back)]) := by
  induction front with
  | nil => simp [splitAtTier, splitAtTier_of_none hback, hop]
  | cons x front ih =>
    obtain ⟨inner, u⟩ := x
    by_cases hinner : inner.precedence = tier
    · simp [splitAtTier, ih, hinner]
    · simp [splitAtTier, ih, hinner]

theorem value?_gather (tier : Nat) (tighter : List Nat) (first : Term) (rest : List (BinaryOp × Term)) :
    (gather (tier :: tighter) first rest).value? ρ signed = (splitAt tier tighter first rest).value? ρ signed := by
  rw [gather]
  split
  next hall =>
    have hsplit : splitAtTier tier rest = _ := splitAtTier_of_all (by simpa using hall)
    simp [splitAt, hsplit, gather_nil, toTerm, Function.comp_def]
  split
  next hnone =>
    have hsplit : splitAtTier tier rest = _ := splitAtTier_of_none (by simpa using hnone)
    simp [splitAt, hsplit, value?]
  · rfl

theorem value?_gather_apply {tiers} (first t : Term) (hop : op.precedence ∈ tiers)
    (hsorted : tiers.Pairwise (· < ·)) (hfront : ∀ x ∈ front, op.precedence ≤ x.1.precedence)
    (hback : ∀ x ∈ back, op.precedence < x.1.precedence) :
    (gather tiers first (front ++ (op, t) :: back)).value? ρ signed
      = ((gather tiers first front).value? ρ signed).bind fun x =>
          ((gather tiers t back).value? ρ signed).bind fun y => op.eval? signed x y := by
  induction tiers with
  | nil => simp at hop
  | cons tier tighter ih =>
    obtain ⟨hlt, hsorted⟩ := pairwise_cons.mp hsorted
    rw [value?_gather, value?_gather, value?_gather]
    by_cases htier : op.precedence = tier
    · -- the run is split at the operator, and what follows it is gathered by the tighter tiers
      have hnone : ∀ x ∈ back, x.1.precedence ≠ tier := fun x hx => by
        have := hback x hx
        omega
      simp [splitAt, splitAtTier_append htier hnone, splitAtTier_of_none hnone, value?,
        runValue?_append, runValue?, bind_assoc]
    · -- the tier is weaker than all operators of the run
      have hmem : op.precedence ∈ tighter := by
        rcases mem_cons.mp hop with h | h
        · exact absurd h htier
        · exact h
      have htighter := hlt _ hmem
      have hfront' : ∀ x ∈ front, x.1.precedence ≠ tier := fun x hx => by
        have := hfront x hx
        omega
      have hback' : ∀ x ∈ back, x.1.precedence ≠ tier := fun x hx => by
        have := hback x hx
        omega
      have hall : ∀ x ∈ front ++ (op, t) :: back, x.1.precedence ≠ tier := by
        intro x hx
        rcases mem_append.mp hx with hx | hx
        · exact hfront' x hx
        · rcases mem_cons.mp hx with rfl | hx
          · exact htier
          · exact hback' x hx
      simp only [splitAt, splitAtTier_of_none hfront', splitAtTier_of_none hback',
        splitAtTier_of_none hall]
      simpa [value?] using ih hmem hsorted

theorem precedence_mem_tiers (op : BinaryOp) : op.precedence ∈ tiers := by cases op <;> decide

variable {back : List Part}

theorem runOf?_cons {p : Part} {r : Run} (ht : termOf? p = some t) (hback : runOf? back = some r) :
    runOf? (p :: .op op :: back) = some ⟨t, (op, r.first) :: r.rest, r.extra⟩ := by
  cases back with
  | nil => simp [runOf?] at hback
  | cons q rest => simp [runOf?, ht, hback]

theorem runOf?_append {r' : Run} (op : BinaryOp) (hback : runOf? back = some r') :
    ∀ {front : List Part} {r : Run}, runOf? front = some r → r.extra = none →
      runOf? (front ++ .op op :: back) = some ⟨r.first, r.rest ++ (op, r'.first) :: r'.rest, r'.extra⟩
  | [], r, h, _ => by simp [runOf?] at h
  | [p], r, h, _ => by
    simp only [runOf?, map_eq_some_iff] at h
    obtain ⟨t, ht, rfl⟩ := h
    exact runOf?_cons ht hback
  | [p, .op _], r, h, hopen => by
    simp only [runOf?, map_eq_some_iff] at h
    obtain ⟨t, -, rfl⟩ := h
    simp at hopen
  | p :: .op inner :: q :: rest, r, h, hopen => by
    simp only [runOf?, bind_eq_bind, bind_eq_some_iff, Option.pure_def, some.injEq] at h
    obtain ⟨t, ht, s, hs, rfl⟩ := h
    exact runOf?_cons ht (runOf?_append op hback hs hopen)
  | _ :: .operand _ :: _, r, h, _ | _ :: .group _ :: _, r, h, _ => by simp [runOf?] at h

theorem exists_run_of_hasValue (h : HasValue ρ signed parts x) :
    ∃ r, runOf? parts = some r ∧ r.extra = none ∧ r.rest.map Prod.fst = operatorsOf parts ∧
      (gather tiers r.first r.rest).value? ρ signed = some x := by
  induction h with
  | operand ho => exact ⟨⟨.leaf _, [], none⟩, rfl, rfl, rfl, by simp [gather_nil, value?, Term.value?, ho]⟩
  | group _ ih =>
    obtain ⟨r, hr, hopen, -, hvalue⟩ := ih
    refine ⟨⟨(gather tiers r.first r.rest).toTerm, [], none⟩, ?_, rfl, rfl, ?_⟩
    · simp [runOf?, termOf?, hr, ofRun?, hopen]
    · rw [gather_nil]
      simpa [value?] using hvalue
  | @apply front back op x y z hfront hback _ _ hz ih ih' =>
    obtain ⟨r, hr, hopen, hops, hvalue⟩ := ih
    obtain ⟨r', hr', hopen', hops', hvalue'⟩ := ih'
    refine ⟨_, runOf?_append op hr' hr hopen, hopen', ?_, ?_⟩
    · simp [hops, hops', operatorsOf]
    · have hweak : ∀ x ∈ r.rest, op.precedence ≤ x.1.precedence := fun x hx =>
        hfront _ (hops ▸ mem_map_of_mem hx)
      have htight : ∀ x ∈ r'.rest, op.precedence < x.1.precedence := fun x hx =>
        hback _ (hops' ▸ mem_map_of_mem hx)
      rw [value?_gather_apply _ _ (precedence_mem_tiers op) (by decide) hweak htight, hvalue, hvalue']
      exact hz

end Level

/-- **Precedence.**  The level that an expression is gathered into has the value of the expression. -/
theorem HasValue.value?_ofParts (h : HasValue ρ signed parts x) :
    ∃ l, ofParts? parts = some l ∧ l.value? ρ signed = some x := by
  obtain ⟨r, hr, hopen, -, hvalue⟩ := exists_run_of_hasValue h
  exact ⟨_, by simp [ofParts?, hr, ofRun?, hopen], hvalue⟩

end
end Microcode
