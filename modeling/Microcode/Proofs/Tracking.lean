import Microcode.Proofs.Reference

/-!
Where the lines of a body come to stand.

`Tracks` follows each line of a body through a pass, by its position.  It says three things that hold of every pass: a
line stays what it is (`Line.StemsFrom`), nothing comes in but what fills the slot of a merged branch, and no line
changes sides with a pinned instruction.
-/

namespace Microcode

open List Option Line

variable {way : Nat → Option Nat} {old mid new : List Line}

/-! ### Lines and what comes of them -/

def Line.isPinned : Line → Bool
  | .op i => i.isPinned
  | _ => false

/-- Whether a barrier pins the instruction on the line, and it has an effect. -/
def Line.isBarred : Line → Bool
  | .op i => i.isPinned && !i.isNop
  | _ => false

/-- What a line may become.  An instruction keeps all but the names in it, and a branch that no barrier pins
may become another; all other lines stay as they are. -/
def Line.StemsFrom : Line → Line → Prop
  | .op i, .op j => i.SameShape { j with opcode := i.opcode } ∧
      (i.opcode = j.opcode ∨ (j.isPinned = false ∧ i.isBranch ∧ j.isBranch))
  | l, m => l = m

variable {f : String → String} {i j : Instruction} {l : Line} {k : Nat}

theorem Instruction.SameUpTo.isPinned (h : SameUpTo f i j) : i.isPinned = j.isPinned := by
  have heq := congrArg Instruction.isPinned (show i.mapSymbols f = j.mapSymbols f from h)
  exact heq

theorem Instruction.SameUpTo.withOpcode (h : SameUpTo f i j) (o : Opcode) :
    SameUpTo f { i with opcode := o } { j with opcode := o } := by
  show { i.mapSymbols f with opcode := o } = { j.mapSymbols f with opcode := o }
  rw [show i.mapSymbols f = j.mapSymbols f from h]

namespace Line

theorem isBarred_of_free (h : i.isPinned = false) : (op i).isBarred = false := by simp [isBarred, h]

theorem isBarred_of_isNop (h : i.isNop) : (op i).isBarred = false := by simp [isBarred, h]

theorem isInstruction_of_isBarred (h : l.isBarred) : l.isInstruction := by
  cases l with
  | op i => rfl
  | _ => cases h

theorem isPinned_of_isLoose (h : l.isLoose) : l.isPinned = false := by
  cases l with
  | op i =>
    have hi : i.isBranch = false ∧ i.isPinned = false := by simpa [isLoose] using h
    exact hi.2
  | _ => cases h

namespace StemsFrom

variable {i j : Instruction} {l m : Line}

theorem refl (l : Line) : l.StemsFrom l := by
  cases l with
  | op i => exact ⟨.refl _ i, .inl rfl⟩
  | _ => rfl

theorem of_shape (h : i.SameShape j) : (op i).StemsFrom (.op j) := by
  refine ⟨?_, .inl h.opcode⟩
  rw [h.opcode]
  exact h

theorem of_branch (h : i.SameShape { j with opcode := i.opcode }) (hj : j.isPinned = false)
    (hbranch : i.isBranch) (hbranch' : j.isBranch) : (op i).StemsFrom (.op j) :=
  ⟨h, .inr ⟨hj, hbranch, hbranch'⟩⟩

theorem eq_op (h : l.StemsFrom (.op j)) : ∃ i, l = .op i := by
  cases l with
  | op i => exact ⟨i, rfl⟩
  | _ => cases h

theorem isPinned (h : l.StemsFrom m) : l.isPinned = m.isPinned := by
  cases m with
  | op j =>
    obtain ⟨i, rfl⟩ := h.eq_op
    show i.isPinned = ({ j with opcode := i.opcode } : Instruction).isPinned
    exact Instruction.SameUpTo.isPinned h.1
  | _ => cases l <;> cases h <;> rfl

theorem shape (h : (op i).StemsFrom (.op j)) (hj : j.isPinned) : i.SameShape j := by
  rcases h.2 with hopcode | ⟨hfree, -, -⟩
  · have hshape := h.1
    rw [hopcode] at hshape
    exact hshape
  · exact absurd (hfree.symm.trans hj) (by simp)

theorem isBarred (h : l.StemsFrom m) (hm : m.isBarred) : l.isBarred := by
  cases m with
  | op j =>
    obtain ⟨i, rfl⟩ := h.eq_op
    have hj : j.isPinned ∧ j.isNop = false := by simpa [isBarred] using hm
    have hshape := h.shape hj.1
    simp [isBarred, Instruction.SameUpTo.isPinned hshape, Instruction.SameUpTo.isNop hshape, hj]
  | _ => cases hm

theorem isBranch (h : (op i).StemsFrom (.op j)) : i.isBranch = j.isBranch := by
  rcases h.2 with hopcode | ⟨-, hi, hj⟩
  · exact congrArg Opcode.isBranch hopcode
  · exact hi.trans hj.symm

theorem trans {n : Line} (h : l.StemsFrom m) (h' : m.StemsFrom n) : l.StemsFrom n := by
  cases n with
  | op k =>
    obtain ⟨j, rfl⟩ := h'.eq_op
    obtain ⟨i, rfl⟩ := h.eq_op
    refine ⟨h.1.trans (h'.1.withOpcode i.opcode), ?_⟩
    have hbranch := h.isBranch
    have hbranch' := h'.isBranch
    rcases h.2 with hopcode | ⟨hfree, hi, hj⟩
    · rcases h'.2 with hopcode' | ⟨hfree, hj, hk⟩
      · exact .inl (hopcode.trans hopcode')
      · exact .inr ⟨hfree, hbranch.trans hj, hk⟩
    · exact .inr ⟨h'.isPinned.symm.trans hfree, hi, hbranch'.symm.trans hj⟩
  | _ => cases m <;> cases h' <;> exact h

end StemsFrom

/-- Whether the line fills the slot of a branch that has been merged with a jump. -/
def IsFiller (l : Line) : Prop := ∃ jump after, jump.isPinned = false ∧ l.StemsFrom (.op (mergedSlot jump after))

theorem IsFiller.of_stemsFrom {m : Line} (h : l.StemsFrom m) (hm : m.IsFiller) : l.IsFiller := by
  obtain ⟨jump, after, hfree, hstems⟩ := hm
  exact ⟨jump, after, hfree, h.trans hstems⟩

end Line

/-- Lines and what a pass makes of them: `way` gives for the position of a line the one where it has come
to, if it is still there. -/
structure Tracks (way : Nat → Option Nat) (old new : List Line) : Prop where
  stems : ∀ {i k : Nat}, way i = some k → ∃ l l', old[i]? = some l ∧ new[k]? = some l' ∧ l'.StemsFrom l
  injective : ∀ {i j k : Nat}, way i = some k → way j = some k → i = j
  /-- What was not there before fills a slot. -/
  fresh : ∀ {k : Nat} {l' : Line}, new[k]? = some l' → (∃ i, way i = some k) ∨ l'.IsFiller
  /-- No line changes sides with a pinned instruction. -/
  sides : ∀ {i j k m : Nat} {l : Line}, old[i]? = some l → l.isPinned → way i = some k →
    way j = some m → (i < j ↔ k < m)

def keepFirst (way : Nat → Option Nat) : Nat → Option Nat
  | 0 => some 0
  | i + 1 => (way i).map (· + 1)

def dropFirst (way : Nat → Option Nat) : Nat → Option Nat
  | 0 => none
  | i + 1 => way i

variable {i : Nat}

theorem keepFirst_eq_some (h : keepFirst way i = some k) :
    i = 0 ∧ k = 0 ∨ ∃ j m, i = j + 1 ∧ k = m + 1 ∧ way j = some m := by
  cases i with
  | zero => exact .inl ⟨rfl, (Option.some.inj h).symm⟩
  | succ j =>
    obtain ⟨m, hm, rfl⟩ := map_eq_some_iff.mp h
    exact .inr ⟨j, m, rfl, rfl, hm⟩

theorem dropFirst_eq_some (h : dropFirst way i = some k) : ∃ j, i = j + 1 ∧ way j = some k := by
  cases i with
  | zero => cases h
  | succ j => exact ⟨j, rfl, h⟩

def addFirst (way : Nat → Option Nat) (i : Nat) : Option Nat := (way i).map (· + 1)

/-- Where a line comes to if the one at a position moves to another. -/
def shifted (start stop i : Nat) : Nat := if i = start then stop
  else if start < i ∧ i ≤ stop then i - 1
  else if stop ≤ i ∧ i < start then i + 1
  else i

theorem shifted_shifted (start stop i : Nat) : shifted stop start (shifted start stop i) = i := by grind [shifted]

variable {start stop : Nat}

theorem shifted_lt_shifted (j : Nat) (h : i < start ∧ i < stop ∨ start < i ∧ stop < i) :
    i < j ↔ shifted start stop i < shifted start stop j := by
  grind [shifted]

namespace Tracks

variable {way' : Nat → Option Nat} {l l' : Line}

theorem refl (lines : List Line) : Tracks (fun i => lines[i]?.map fun _ => i) lines lines where
  stems h := by
    obtain ⟨l, hl, rfl⟩ := map_eq_some_iff.mp h
    exact ⟨l, l, hl, hl, .refl l⟩
  injective h h' := by
    obtain ⟨_, -, rfl⟩ := map_eq_some_iff.mp h
    obtain ⟨_, -, rfl⟩ := map_eq_some_iff.mp h'
    rfl
  fresh {k l'} h := .inl ⟨k, by simp [h]⟩
  sides _ _ h h' := by
    obtain ⟨_, -, rfl⟩ := map_eq_some_iff.mp h
    obtain ⟨_, -, rfl⟩ := map_eq_some_iff.mp h'
    rfl

theorem trans (h : Tracks way old mid) (h' : Tracks way' mid new) : Tracks (fun i => (way i).bind way') old new where
  stems hik := by
    obtain ⟨m, hm, hk⟩ := bind_eq_some_iff.mp hik
    obtain ⟨l, l', hl, hl', hstems⟩ := h.stems hm
    obtain ⟨_, l'', heq, hl'', hstems'⟩ := h'.stems hk
    cases hl'.symm.trans heq
    exact ⟨l, l'', hl, hl'', hstems'.trans hstems⟩
  injective hi hj := by
    obtain ⟨m, hm, hk⟩ := bind_eq_some_iff.mp hi
    obtain ⟨n, hn, hk'⟩ := bind_eq_some_iff.mp hj
    obtain rfl := h'.injective hk hk'
    exact h.injective hm hn
  fresh {k l''} hl'' := by
    rcases h'.fresh hl'' with ⟨m, hm⟩ | hfiller
    · obtain ⟨l', _, hl', heq, hstems⟩ := h'.stems hm
      cases hl''.symm.trans heq
      rcases h.fresh hl' with ⟨i, hi⟩ | hfiller
      · exact .inl ⟨i, by simp [hi, hm]⟩
      · exact .inr (.of_stemsFrom hstems hfiller)
    · exact .inr hfiller
  sides hl hpinned hi hj := by
    obtain ⟨m, hm, hk⟩ := bind_eq_some_iff.mp hi
    obtain ⟨n, hn, hk'⟩ := bind_eq_some_iff.mp hj
    obtain ⟨_, l', heq, hl', hstems⟩ := h.stems hm
    cases hl.symm.trans heq
    exact (h.sides hl hpinned hm hn).trans (h'.sides hl' (hstems.isPinned.trans hpinned) hk hk')

theorem nil : Tracks (fun _ => none) [] [] where
  stems h := absurd h (by simp)
  injective h := absurd h (by simp)
  fresh h := absurd h (by simp)
  sides h := absurd h (by simp)

theorem keep (hstems : l'.StemsFrom l) (h : Tracks way old new) : Tracks (keepFirst way) (l :: old) (l' :: new) where
  stems hik := by
    rcases keepFirst_eq_some hik with ⟨rfl, rfl⟩ | ⟨i, k, rfl, rfl, hk⟩
    · exact ⟨l, l', rfl, rfl, hstems⟩
    · exact h.stems hk
  injective hi hj := by
    rcases keepFirst_eq_some hi with ⟨rfl, rfl⟩ | ⟨i, k, rfl, rfl, hk⟩
    · rcases keepFirst_eq_some hj with ⟨rfl, -⟩ | ⟨_, _, -, heq, -⟩
      · rfl
      · cases heq
    · rcases keepFirst_eq_some hj with ⟨-, heq⟩ | ⟨j, _, rfl, heq, hk'⟩
      · cases heq
      · obtain rfl := Nat.succ.inj heq
        rw [h.injective hk hk']
  fresh {k m} hm := by
    cases k with
    | zero => exact .inl ⟨0, rfl⟩
    | succ k =>
      rcases h.fresh hm with ⟨i, hi⟩ | hfiller
      · exact .inl ⟨i + 1, by simp [keepFirst, hi]⟩
      · exact .inr hfiller
  sides hn hpinned hi hj := by
    rcases keepFirst_eq_some hi with ⟨rfl, rfl⟩ | ⟨i, k, rfl, rfl, hk⟩
    all_goals rcases keepFirst_eq_some hj with ⟨rfl, rfl⟩ | ⟨j, m, rfl, rfl, hm⟩
    · rfl
    · simp
    · simp
    · have hsides := h.sides hn hpinned hk hm
      omega

theorem drop (h : Tracks way old new) : Tracks (dropFirst way) (l :: old) new where
  stems hik := by
    obtain ⟨i, rfl, hk⟩ := dropFirst_eq_some hik
    exact h.stems hk
  injective hi hj := by
    obtain ⟨i, rfl, hk⟩ := dropFirst_eq_some hi
    obtain ⟨j, rfl, hk'⟩ := dropFirst_eq_some hj
    rw [h.injective hk hk']
  fresh {k m} hm := by
    rcases h.fresh hm with ⟨i, hi⟩ | hfiller
    · exact .inl ⟨i + 1, hi⟩
    · exact .inr hfiller
  sides hn hpinned hi hj := by
    obtain ⟨i, rfl, hk⟩ := dropFirst_eq_some hi
    obtain ⟨j, rfl, hm⟩ := dropFirst_eq_some hj
    simpa using h.sides hn hpinned hk hm

theorem add (hfiller : l'.IsFiller) (h : Tracks way old new) : Tracks (addFirst way) old (l' :: new) where
  stems {i k} hik := by
    obtain ⟨k, hk, rfl⟩ := map_eq_some_iff.mp hik
    exact h.stems hk
  injective {i j k} hi hj := by
    obtain ⟨k, hk, rfl⟩ := map_eq_some_iff.mp hi
    obtain ⟨_, hk', heq⟩ := map_eq_some_iff.mp hj
    obtain rfl := Nat.succ.inj heq
    exact h.injective hk hk'
  fresh {k m} hm := by
    cases k with
    | zero =>
      obtain rfl : l' = m := by simpa using hm
      exact .inr hfiller
    | succ k =>
      rcases h.fresh hm with ⟨i, hi⟩ | hfiller
      · exact .inl ⟨i, by simp [addFirst, hi]⟩
      · exact .inr hfiller
  sides {i j k m n} hn hpinned hi hj := by
    obtain ⟨k, hk, rfl⟩ := map_eq_some_iff.mp hi
    obtain ⟨m, hm, rfl⟩ := map_eq_some_iff.mp hj
    have hsides := h.sides hn hpinned hk hm
    omega

end Tracks

/-- Lines are arranged in another way, and all that a barrier pins are still there. -/
def Arranges (old new : List Line) : Prop :=
  ∃ way, Tracks way old new ∧ ∀ {i : Nat} {l : Line}, old[i]? = some l → l.isBarred → ∃ k, way i = some k

namespace Arranges

theorem refl (lines : List Line) : Arranges lines lines := ⟨_, .refl lines, fun {i} _ hl _ => ⟨i, by simp [hl]⟩⟩

theorem trans (h : Arranges old mid) (h' : Arranges mid new) : Arranges old new := by
  obtain ⟨way, htracks, hkept⟩ := h
  obtain ⟨way', htracks', hkept'⟩ := h'
  refine ⟨_, htracks.trans htracks', fun hl hbarred => ?_⟩
  obtain ⟨m, hm⟩ := hkept hl hbarred
  obtain ⟨_, l', heq, hl', hstems⟩ := htracks.stems hm
  cases hl.symm.trans heq
  obtain ⟨k, hk⟩ := hkept' hl' (hstems.isBarred hbarred)
  exact ⟨k, by simp [hm, hk]⟩

end Arranges
variable {lines : List Line}

theorem getElem?_moveLine (hstart : start < lines.length) (hstop : stop < lines.length) (i : Nat) :
    (moveLine lines start stop)[shifted start stop i]? = lines[i]? := by
  have hlength : (lines.eraseIdx start).length = lines.length - 1 := length_eraseIdx_of_lt hstart
  have hbefore : 0 < i → lines[i - 1 + 1]? = lines[i]? := fun hi => by rw [Nat.sub_add_cancel hi]
  unfold moveLine
  rw [getElem?_eq_getElem hstart]
  simp only [getElem?_insertIdx, getElem?_eraseIdx, hlength]
  unfold shifted
  by_cases hi : i = start
  · subst hi
    simp only [if_true, Nat.lt_irrefl, if_false]
    rw [if_pos (by omega), getElem?_eq_getElem hstart]
  · repeat' split
    all_goals first | omega | rfl | exact hbefore (by omega)

theorem moveLine_arranges (hstart : start < lines.length) (hstop : stop < lines.length)
    (hfree : ∀ {k : Nat} {l : Line}, min start stop ≤ k → k ≤ max start stop → lines[k]? = some l →
      l.isPinned = false) : Arranges lines (moveLine lines start stop) := by
  have hget := getElem?_moveLine hstart hstop
  refine ⟨fun i => lines[i]?.map fun _ => shifted start stop i, ⟨?_, ?_, ?_, ?_⟩, ?_⟩
  · intro i k hik
    obtain ⟨l, hl, rfl⟩ := map_eq_some_iff.mp hik
    exact ⟨l, l, hl, (hget i).trans hl, .refl l⟩
  · intro i j k hi hj
    obtain ⟨_, -, rfl⟩ := map_eq_some_iff.mp hi
    obtain ⟨_, -, heq⟩ := map_eq_some_iff.mp hj
    rw [← shifted_shifted start stop i, ← heq, shifted_shifted]
  · intro k l' hl'
    refine .inl ⟨shifted stop start k, ?_⟩
    rw [← hget, shifted_shifted, hl']
    rfl
  · intro i j k m l hl hpinned hi hj
    obtain ⟨_, -, rfl⟩ := map_eq_some_iff.mp hi
    obtain ⟨_, -, rfl⟩ := map_eq_some_iff.mp hj
    refine shifted_lt_shifted j ?_
    have hout : ¬(min start stop ≤ i ∧ i ≤ max start stop) := fun hin =>
      absurd ((hfree hin.1 hin.2 hl).symm.trans hpinned) (by simp)
    omega
  · intro i l hl _
    exact ⟨shifted start stop i, by simp [hl]⟩

theorem moveRange_free (hlo : (moveRange lines i).1 ≤ k) (hhi : k ≤ (moveRange lines i).2)
    (hl : lines[k]? = some l) : moveRange lines i = (i, i) ∨ l.isPinned = false := by
  rcases moveRange_cases lines i with hr | ⟨front, x, rest, rfl, rfl, hx, hfront⟩
  · exact .inl hr
  · right
    rw [moveRange_movable hx hfront] at hlo hhi
    have hpasses {m : Line} (hm : x.effect.passes m) : m.isPinned = false := by
      obtain ⟨j, rfl, hloose, -⟩ := Effect.passes_op hm
      exact isPinned_of_isLoose hloose
    rcases Nat.lt_trichotomy k front.length with hlt | rfl | hgt
    · -- Above the instruction.
      have hhead : front.reverse.head?.any isBranch = false := by
        rw [head?_reverse]
        exact hfront
      obtain ⟨hpass, -⟩ := x.effect.passes_of_reachBefore _ _ (Nat.le_refl _) hhead
      refine hpasses (hpass l ?_)
      rw [take_reverse, mem_reverse]
      rw [getElem?_append_left hlt] at hl
      refine mem_of_getElem? (i := k - (front.length - x.effect.reachBefore front.reverse)) ?_
      rw [getElem?_drop, Nat.add_sub_cancel' hlo, hl]
    · obtain rfl : op x = l := by simpa using hl
      exact isPinned_of_isLoose (Instruction.isLoose_of_isMovable hx)
    · obtain ⟨hpass, -⟩ := x.effect.passes_of_reachAfter rest _ (Nat.le_refl _)
      refine hpasses (hpass l ?_)
      rw [getElem?_append_right (Nat.le_of_lt hgt)] at hl
      obtain ⟨n, hn⟩ := Nat.exists_eq_add_of_lt hgt
      rw [show k - front.length = n + 1 by omega, getElem?_cons_succ] at hl
      refine mem_of_getElem? (i := n) ?_
      rw [getElem?_take_of_lt (by omega), hl]

theorem moveLine_range_arranges {j : Nat} (hlo : (moveRange lines i).1 ≤ j) (hhi : j ≤ (moveRange lines i).2) :
    Arranges lines (moveLine lines i j) := by
  by_cases hr : moveRange lines i = (i, i)
  · rw [hr] at hlo hhi
    rw [Nat.le_antisymm hhi hlo, moveLine_self]
    exact .refl lines
  · have hfree {k : Nat} {l : Line} (hlo' : (moveRange lines i).1 ≤ k) (hhi' : k ≤ (moveRange lines i).2)
        (hl : lines[k]? = some l) : l.isPinned = false := (moveRange_free hlo' hhi' hl).resolve_left hr
    rcases moveRange_cases lines i with hr' | ⟨front, x, rest, rfl, rfl, hx, hfront⟩
    · exact absurd hr' hr
    · rw [moveRange_movable hx hfront] at hlo hhi hfree
      have hreach : x.effect.reachAfter rest ≤ rest.length := (takeWhile_sublist _).length_le
      refine moveLine_arranges (by simp) ?_ fun hlo' hhi' => hfree ?_ ?_
      · rw [length_append, length_cons]
        omega
      · omega
      · omega

theorem reorder_arranges (rounds : Nat) (lines : List Line) : Arranges lines (reorder rounds lines).lines :=
  reorder_induction .refl .trans
    (fun h => moveLine_range_arranges (bestMove_mem_range h).1 (bestMove_mem_range h).2) rounds lines

namespace Arranges

variable {l : Line}

theorem cons (l : Line) (h : Arranges old new) : Arranges (l :: old) (l :: new) := by
  obtain ⟨way, htracks, hkept⟩ := h
  refine ⟨keepFirst way, htracks.keep (.refl l), fun {i} m hm hbarred => ?_⟩
  cases i with
  | zero => exact ⟨0, rfl⟩
  | succ i =>
    obtain ⟨k, hk⟩ := hkept hm hbarred
    exact ⟨k + 1, by simp [keepFirst, hk]⟩

theorem append (front : List Line) (h : Arranges old new) : Arranges (front ++ old) (front ++ new) := by
  induction front with
  | nil => exact h
  | cons l front ih => exact ih.cons l

theorem drop (hl : l.isBarred = false) (h : Arranges old new) : Arranges (l :: old) new := by
  obtain ⟨way, htracks, hkept⟩ := h
  refine ⟨dropFirst way, htracks.drop, fun {i} m hm hbarred => ?_⟩
  cases i with
  | zero =>
    obtain rfl : l = m := by simpa using hm
    exact absurd (hl.symm.trans hbarred) (by simp)
  | succ i => exact hkept hm hbarred

end Arranges

theorem Fill.arranges {before after} (F : Fill before after) : Arranges before after := by
  obtain ⟨front, passed, rest, moved, branch, slot, rfl, rfl, -, hloose, hpasses, -, hbranch, hnop, -⟩ := F
  have hempty : Arranges (front ++ .op moved :: (passed ++ .op branch :: .op slot :: rest))
      (front ++ .op moved :: ((passed ++ [.op branch]) ++ rest)) := by
    refine .append front (.cons _ ?_)
    rw [append_assoc]
    exact .append passed (.cons _ (.drop (isBarred_of_isNop hnop) (.refl rest)))
  refine hempty.trans ?_
  have hfree : ∀ l ∈ op moved :: (passed ++ [.op branch]), l.isPinned = false := by
    intro l hl
    simp only [mem_cons, mem_append, not_mem_nil, or_false] at hl
    rcases hl with rfl | hl | rfl
    · exact isPinned_of_isLoose hloose
    · obtain ⟨j, rfl, hj, -⟩ := Effect.passes_op (hpasses l hl)
      exact isPinned_of_isLoose hj
    · exact hbranch
  have hmove := moveLine_down front (passed ++ [.op branch]) rest (.op moved)
  rw [append_assoc passed [.op branch] (.op moved :: rest)] at hmove
  rw [singleton_append] at hmove
  rw [← hmove]
  refine moveLine_arranges (by simp) (by simp) fun {k l} hlo hhi hl => hfree l ?_
  rw [← cons_append, getElem?_append_right (by omega), getElem?_append_left] at hl
  · exact mem_of_getElem? hl
  · simp only [length_cons, length_append, length_nil] at hhi ⊢
    omega

theorem fillDelaySlots_arranges (lines : List Line) : Arranges lines (fillDelaySlots lines).lines :=
  fillDelaySlots_induction .refl .trans Fill.arranges lines

end Microcode
