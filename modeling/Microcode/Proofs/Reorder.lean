import Microcode.Proofs.Interpretation
import Microcode.Schedule.Reorder

/-!
Reordering keeps what the code does.

The scheduler decides by cost, and nothing about the cost model matters here: it only ever takes one
instruction to a position in its range.  Such a move is a series of exchanges of neighbours, so everything
comes down to one exchange.
-/

namespace Microcode

open List Instruction Bool Effect

variable {Value Memory : Type} {a b front rest : List Line} {start stop : Nat}

/-- Whether the line may be passed at all: an instruction that is no branch and that no barrier pins. -/
def Line.isLoose : Line → Bool
  | .op i => !i.isBranch && !i.isPinned
  | _ => false

/-- Whether the line at a position has to stay there.  Labels, comments, texts, branches and pinned
instructions do, and so does what is in a delay slot. -/
def isFixed (lines : List Line) (k : Nat) : Bool := match lines[k]? with
  | some l => !l.isLoose || inDelaySlot lines k
  | none => false

def slice (lines : List Line) (start stop : Nat) : List Line := (lines.drop start).take (stop - start)

/-- No fixed line is between the two positions, and each of them is at a fixed line or at an end. -/
structure IsStretch (lines : List Line) (start stop : Nat) : Prop where
  le : start ≤ stop
  bounded : stop ≤ lines.length
  left : start = 0 ∨ isFixed lines (start - 1)
  right : stop = lines.length ∨ isFixed lines stop
  loose : ∀ k, start ≤ k → k < stop → isFixed lines k = false

theorem IsStretch.congr (h : IsStretch a start stop)
    (hlength : b.length = a.length) (hfixed : ∀ k, isFixed b k = isFixed a k) :
    IsStretch b start stop where
  le := h.le
  bounded := by rw [hlength]; exact h.bounded
  left := by rw [hfixed]; exact h.left
  right := by rw [hfixed, hlength]; exact h.right
  loose := by
    intro k hk hk'
    rw [hfixed]
    exact h.loose k hk hk'

namespace Interpretation

variable (I : Interpretation Value Memory)

def execLine (s : MachineState Value Memory) : Line → MachineState Value Memory
  | .op i => I.exec i s
  | _ => s

def execLines (lines : List Line) (s : MachineState Value Memory) : MachineState Value Memory :=
  lines.foldl I.execLine s

end Interpretation

/-- The second list is the first with loose lines in another order that makes no difference. -/
structure Rearranges {Value Memory : Type} (I : Interpretation Value Memory) (before after : List Line) : Prop where
  perm : after.Perm before
  /-- A fixed line keeps its position. -/
  stays : ∀ k, isFixed before k → after[k]? = before[k]?
  /-- No line becomes fixed or ceases to be. -/
  fixed : ∀ k, isFixed after k = isFixed before k
  /-- A stretch between fixed lines ends in the same state. -/
  state : ∀ start stop, IsStretch before start stop →
    ∀ s, I.execLines (slice after start stop) s = I.execLines (slice before start stop) s

namespace Rearranges

variable {I : Interpretation Value Memory} {c : List Line}

theorem refl (I : Interpretation Value Memory) (a : List Line) : Rearranges I a a where
  perm := Perm.refl a
  stays := fun _ _ => rfl
  fixed := fun _ => rfl
  state := fun _ _ _ _ => rfl

theorem symm (h : Rearranges I a b) : Rearranges I b a where
  perm := h.perm.symm
  stays := by
    intro k hk
    rw [h.fixed] at hk
    exact (h.stays k hk).symm
  fixed := fun k => (h.fixed k).symm
  state := by
    intro start stop hs s
    have hs' : IsStretch a start stop := hs.congr h.perm.length_eq.symm fun k => (h.fixed k).symm
    exact (h.state start stop hs' s).symm

theorem trans (h : Rearranges I a b) (h' : Rearranges I b c) : Rearranges I a c where
  perm := h'.perm.trans h.perm
  stays := by
    intro k hk
    rw [h'.stays k (by rw [h.fixed]; exact hk), h.stays k hk]
  fixed := fun k => (h'.fixed k).trans (h.fixed k)
  state := by
    intro start stop hs s
    have hs' : IsStretch b start stop := hs.congr h.perm.length_eq h.fixed
    rw [h'.state start stop hs' s, h.state start stop hs s]

end Rearranges

theorem Line.isBranch_of_isLoose {i} (h : (Line.op i).isLoose) : i.isBranch = false := by
  simp only [Line.isLoose, and_eq_true, not_eq_true'] at h
  exact h.1

def endsInBranch (lines : List Line) : Bool := lines.getLast?.any Line.isBranch

theorem inDelaySlot_succ (lines : List Line) (k : Nat) :
    inDelaySlot lines (k + 1) = (lines[k]?).any Line.isBranch := rfl

theorem inDelaySlot_append (front rest : List Line) :
    inDelaySlot (front ++ rest) front.length = endsInBranch front := by
  rcases eq_nil_or_concat front with rfl | ⟨init, l, rfl⟩
  · rfl
  · simp [inDelaySlot, endsInBranch]

variable {α : Type} {n : Nat} {x : Instruction}

section
variable {i j : Instruction}

theorem getElem?_exchange (front rest : List α) (x y : α) {k : Nat} (hk : k ≠ front.length)
    (hk' : k ≠ front.length + 1) : (front ++ y :: x :: rest)[k]? = (front ++ x :: y :: rest)[k]? := by
  rcases Nat.lt_or_ge k front.length with hlt | hge
  · rw [getElem?_append_left hlt, getElem?_append_left hlt]
  · obtain ⟨n, rfl⟩ := Nat.exists_eq_add_of_le hge
    rw [getElem?_append_right hge, getElem?_append_right hge, Nat.add_sub_cancel_left]
    match n with
    | 0 => exact absurd rfl hk
    | 1 => exact absurd rfl hk'
    | n + 2 => rfl

theorem inDelaySlot_exchange (hi : i.isBranch = false) (hj : j.isBranch = false) (k : Nat) :
    inDelaySlot (front ++ .op j :: .op i :: rest) k = inDelaySlot (front ++ .op i :: .op j :: rest) k := by
  match k with
  | 0 => rfl
  | k + 1 =>
    rw [inDelaySlot_succ, inDelaySlot_succ]
    by_cases hk : k = front.length
    · subst hk
      simp [Line.isBranch, hi, hj]
    by_cases hk' : k = front.length + 1
    · subst hk'
      simp [Line.isBranch, hi, hj]
    · rw [getElem?_exchange front rest _ _ hk hk']

theorem isFixed_exchanged (rest : List Line) (hi : (Line.op i).isLoose)
    (hj : (Line.op j).isLoose) (hfront : endsInBranch front = false) :
    isFixed (front ++ .op i :: .op j :: rest) front.length = false ∧
      isFixed (front ++ .op i :: .op j :: rest) (front.length + 1) = false := by
  have hbranch := Line.isBranch_of_isLoose hi
  constructor
  · simp [isFixed, hi, inDelaySlot_append, hfront]
  · simp [isFixed, hj, inDelaySlot, Line.isBranch, hbranch]

theorem isFixed_exchange (hi : (Line.op i).isLoose) (hj : (Line.op j).isLoose)
    (hfront : endsInBranch front = false) (k : Nat) :
    isFixed (front ++ .op j :: .op i :: rest) k = isFixed (front ++ .op i :: .op j :: rest) k := by
  by_cases hk : k = front.length
  · rw [hk, (isFixed_exchanged rest hi hj hfront).1, (isFixed_exchanged rest hj hi hfront).1]
  by_cases hk' : k = front.length + 1
  · rw [hk', (isFixed_exchanged rest hi hj hfront).2, (isFixed_exchanged rest hj hi hfront).2]
  · have hbi := Line.isBranch_of_isLoose hi
    have hbj := Line.isBranch_of_isLoose hj
    unfold isFixed
    rw [getElem?_exchange front rest _ _ hk hk', inDelaySlot_exchange hbi hbj]

theorem IsStretch.exchanged (hi : (Line.op i).isLoose) (hj : (Line.op j).isLoose)
    (hfront : endsInBranch front = false) (h : IsStretch (front ++ .op i :: .op j :: rest) start stop) :
    (start ≤ front.length ∧ front.length + 2 ≤ stop) ∨ stop ≤ front.length ∨ front.length + 2 ≤ start := by
  obtain ⟨hf, hf'⟩ := isFixed_exchanged rest hi hj hfront
  have hstart : start ≠ front.length + 1 := by
    intro hc
    rcases h.left with h0 | hl
    · omega
    · rw [hc, Nat.add_sub_cancel, hf] at hl
      cases hl
  have hstop : stop ≠ front.length + 1 := by
    intro hc
    rcases h.right with hl | hr
    · rw [hc] at hl
      simp at hl
    · rw [hc, hf'] at hr
      cases hr
  omega

theorem slice_congr (h : ∀ k, start ≤ k → k < stop → a[k]? = b[k]?) : slice a start stop = slice b start stop := by
  unfold slice
  refine ext_getElem? fun n => ?_
  rw [getElem?_take, getElem?_take, getElem?_drop, getElem?_drop]
  split
  · exact h _ (by omega) (by omega)
  · rfl

theorem slice_append_pair (front rest : List Line) (x y : Line)
    (hstart : start ≤ front.length) (hstop : front.length + 2 ≤ stop) :
    slice (front ++ x :: y :: rest) start stop = front.drop start ++ x :: y :: rest.take (stop - front.length - 2) := by
  have hn : stop - start - (front.length - start) = stop - front.length - 2 + 2 := by omega
  have hall : (front.drop start).take (stop - start) = front.drop start :=
    take_of_length_le (by rw [length_drop]; omega)
  unfold slice
  rw [drop_append_of_le_length hstart, take_append, length_drop, hn, hall]
  rfl

variable (I : Interpretation Value Memory)

/-- **Loose neighbours without a conflict can change places.** -/
theorem exchange_rearranges (hi : (Line.op i).isLoose) (hj : (Line.op j).isLoose)
    (hfront : endsInBranch front = false) (hfree : i.effect.conflicts j.effect = false) :
    Rearranges I (front ++ .op i :: .op j :: rest) (front ++ .op j :: .op i :: rest) where
  perm := (Perm.swap _ _ rest).append_left front
  stays := by
    intro k hk
    obtain ⟨hf, hf'⟩ := isFixed_exchanged rest hi hj hfront
    refine getElem?_exchange front rest _ _ ?_ ?_
    · rintro rfl
      rw [hf] at hk
      cases hk
    · rintro rfl
      rw [hf'] at hk
      cases hk
  fixed := isFixed_exchange hi hj hfront
  state := by
    intro start stop hs s
    rcases hs.exchanged hi hj hfront with ⟨hstart, hstop⟩ | hout
    · rw [slice_append_pair front rest _ _ hstart hstop, slice_append_pair front rest _ _ hstart hstop]
      simp only [Interpretation.execLines, foldl_append, foldl_cons]
      congr 1
      exact I.exec_comm (Line.isBranch_of_isLoose hi) (Line.isBranch_of_isLoose hj)
        (independent_of_not_conflicts hfree) _
    · rw [slice_congr fun k hk hk' => getElem?_exchange front rest _ _ (by omega) (by omega)]

end

/-! ### A move is a series of exchanges -/

theorem Effect.passes_op {e : Effect} {l : Line} (h : e.passes l) :
    ∃ j, l = .op j ∧ (Line.op j).isLoose ∧ e.conflicts j.effect = false := by
  cases l with
  | op j =>
    simp only [passes, Line.effect?, Line.instruction?, Option.map_some, and_eq_true,
      not_eq_true', effect] at h
    refine ⟨j, rfl, ?_, h.2⟩
    simp [Line.isLoose, h.1.1, h.1.2]
  | _ => cases h

theorem Effect.passes_of_reachAfter (e : Effect) : ∀ (after : List Line) (n : Nat), n ≤ e.reachAfter after →
      (∀ l ∈ after.take n, e.passes l) ∧ (after.take n).length = n := by
  intro after
  induction after with
  | nil =>
    intro n hn
    obtain rfl : n = 0 := Nat.le_zero.mp hn
    simp
  | cons l after ih =>
    intro n hn
    match n with
    | 0 => simp
    | n + 1 =>
      unfold reachAfter at hn
      rw [takeWhile_cons] at hn
      split at hn
      next hl =>
        obtain ⟨hpass, hlength⟩ := ih n (by simpa [reachAfter] using hn)
        refine ⟨?_, by rw [take_succ_cons, length_cons, hlength]⟩
        intro m hm
        rcases mem_cons.mp hm with rfl | hm
        · exact hl
        · exact hpass m hm
      · simp at hn

theorem Effect.passes_of_reachBefore (e : Effect) : ∀ (earlier : List Line) (n : Nat), n ≤ e.reachBefore earlier →
      earlier.head?.any Line.isBranch = false →
      (∀ l ∈ earlier.take n, e.passes l) ∧ (earlier.drop n).head?.any Line.isBranch = false := by
  intro earlier
  induction earlier with
  | nil => intro n _ _; simp
  | cons l earlier ih =>
    intro n hn hhead
    match n with
    | 0 => exact ⟨by simp, hhead⟩
    | n + 1 =>
      unfold reachBefore at hn
      split at hn
      next hcond =>
        simp only [and_eq_true, not_eq_true'] at hcond
        obtain ⟨hpass, hslot⟩ := ih n (by omega) hcond.2
        refine ⟨?_, hslot⟩
        intro m hm
        rcases mem_cons.mp hm with rfl | hm
        · exact hcond.1
        · exact hpass m hm
      · omega

theorem insertIdx_length_append (x : α) (rest : List α) :
    ∀ front : List α, (front ++ rest).insertIdx front.length x = front ++ x :: rest := by
  intro front
  induction front with
  | nil => rfl
  | cons a front ih => rw [cons_append, length_cons, insertIdx_succ_cons, ih, cons_append]

theorem moveLine_eq (front rest : List Line) (x : Line) (place : Nat) :
    moveLine (front ++ x :: rest) front.length place = (front ++ rest).insertIdx place x := by
  have hx : (front ++ x :: rest)[front.length]? = some x := by simp
  unfold moveLine
  rw [hx, eraseIdx_append_of_length_le (Nat.le_refl _), Nat.sub_self, eraseIdx_cons_zero]

theorem moveLine_down (front passed rest : List Line) (x : Line) :
    moveLine (front ++ x :: (passed ++ rest)) front.length (front.length + passed.length)
      = front ++ (passed ++ x :: rest) := by
  rw [moveLine_eq, ← append_assoc, ← length_append, insertIdx_length_append, append_assoc]

theorem moveLine_up (front passed rest : List Line) (x : Line) :
    moveLine (front ++ (passed ++ x :: rest)) (front.length + passed.length) front.length
      = front ++ x :: (passed ++ rest) := by
  rw [← append_assoc, ← length_append, moveLine_eq, append_assoc, insertIdx_length_append]

theorem moveLine_self (lines : List Line) (i : Nat) : moveLine lines i i = lines := by
  rcases Nat.lt_or_ge i lines.length with hi | hi
  · have hsplit : lines.take i ++ lines[i] :: lines.drop (i + 1) = lines := by simp
    have hmove := moveLine_down (lines.take i) [] (lines.drop (i + 1)) lines[i]
    rw [length_take, Nat.min_eq_left (Nat.le_of_lt hi)] at hmove
    simpa [hsplit] using hmove
  · unfold moveLine
    rw [getElem?_eq_none hi]

theorem exists_split_of_getElem? {xs : List α} {x : α} (h : xs[n]? = some x) :
    ∃ front rest, xs = front ++ x :: rest ∧ front.length = n := by
  obtain ⟨hn, rfl⟩ := List.getElem?_eq_some_iff.mp h
  refine ⟨xs.take n, xs.drop (n + 1), by simp, ?_⟩
  rw [length_take]
  omega

theorem Instruction.isLoose_of_isMovable (h : x.isMovable) : (Line.op x).isLoose := by
  simp only [isMovable, and_eq_true] at h
  simpa [Line.isLoose] using h.1

section
variable (I : Interpretation Value Memory)
variable {i : Instruction}

theorem shift_rearranges (hi : (Line.op i).isLoose) (rest : List Line) :
    ∀ (passed front : List Line), (∀ l ∈ passed, i.effect.passes l) → endsInBranch front = false →
      Rearranges I (front ++ .op i :: (passed ++ rest)) (front ++ (passed ++ .op i :: rest)) := by
  intro passed
  induction passed with
  | nil => intro front _ _; exact Rearranges.refl I _
  | cons l passed ih =>
    intro front hpass hfront
    obtain ⟨j, rfl, hj, hfree⟩ := passes_op (hpass l (by simp))
    have hstep : Rearranges I (front ++ .op i :: .op j :: (passed ++ rest))
        (front ++ .op j :: .op i :: (passed ++ rest)) :=
      exchange_rearranges I hi hj hfront hfree
    have hfront' : endsInBranch (front ++ [.op j]) = false := by
      simp [endsInBranch, Line.isBranch, Line.isBranch_of_isLoose hj]
    have hmore := ih (front ++ [.op j]) (fun m hm => hpass m (by simp [hm])) hfront'
    simp only [append_assoc, singleton_append] at hmore
    exact hstep.trans hmore

theorem moveLine_down_rearranges (hi : (Line.op i).isLoose) (hfront : endsInBranch front = false)
    (hn : n ≤ i.effect.reachAfter rest) : Rearranges I (front ++ .op i :: rest)
      (moveLine (front ++ .op i :: rest) front.length (front.length + n)) := by
  obtain ⟨hpass, hlength⟩ := i.effect.passes_of_reachAfter rest n hn
  have hmove := moveLine_down front (rest.take n) (rest.drop n) (.op i)
  rw [take_append_drop, hlength] at hmove
  rw [hmove]
  have hshift := shift_rearranges I hi (rest.drop n) (rest.take n) front hpass hfront
  rwa [take_append_drop] at hshift

variable {j : Nat}

theorem moveLine_up_rearranges (hi : (Line.op i).isLoose) (hfront : endsInBranch front = false)
    (hj : j ≤ front.length) (hreach : front.length - j ≤ i.effect.reachBefore front.reverse) :
    Rearranges I (front ++ .op i :: rest) (moveLine (front ++ .op i :: rest) front.length j) := by
  have hhead : front.reverse.head?.any Line.isBranch = false := by
    rw [head?_reverse]
    exact hfront
  obtain ⟨hpass, hstop⟩ := i.effect.passes_of_reachBefore _ _ hreach hhead
  have hback : front.length - (front.length - j) = j := by omega
  rw [take_reverse, hback] at hpass
  rw [drop_reverse, hback, head?_reverse] at hstop
  have hparts : front.take j ++ front.drop j = front := take_append_drop j front
  have hfirst : (front.take j).length = j := by rw [length_take]; omega
  have hlength : j + (front.drop j).length = front.length := by rw [length_drop]; omega
  have hmove := moveLine_up (front.take j) (front.drop j) rest (.op i)
  rw [← append_assoc, hparts, hfirst, hlength] at hmove
  rw [hmove]
  have hshift := shift_rearranges I hi rest (front.drop j) (front.take j)
    (fun l hl => hpass l (mem_reverse.mpr hl)) hstop
  rw [← append_assoc (front.take j) (front.drop j), hparts] at hshift
  exact hshift.symm

theorem moveRange_movable (hx : x.isMovable) (hfront : endsInBranch front = false) :
    moveRange (front ++ .op x :: rest) front.length = (front.length - x.effect.reachBefore front.reverse,
          front.length + x.effect.reachAfter rest) := by
  have hline : (front ++ .op x :: rest)[front.length]? = some (.op x) := by simp
  have htake : (front ++ .op x :: rest).take front.length = front := by simp
  have hdrop : (front ++ .op x :: rest).drop (front.length + 1) = rest := by simp
  unfold moveRange
  rw [hline]
  simp only [hx, inDelaySlot_append, hfront, Bool.not_false, Bool.and_self, if_true, htake, hdrop]

theorem moveRange_cases (lines : List Line) (i : Nat) :
    moveRange lines i = (i, i) ∨ ∃ front x rest, lines = front ++ .op x :: rest ∧
      front.length = i ∧ x.isMovable ∧ endsInBranch front = false := by
  cases hline : lines[i]? with
  | none => exact Or.inl (by simp [moveRange, hline])
  | some l =>
    cases l with
    | op x =>
      by_cases hcond : (x.isMovable && !inDelaySlot lines i)
      · obtain ⟨front, rest, rfl, rfl⟩ := exists_split_of_getElem? hline
        rw [inDelaySlot_append, and_eq_true, not_eq_true'] at hcond
        exact Or.inr ⟨front, x, rest, rfl, rfl, hcond.1, hcond.2⟩
      · exact Or.inl (by simp [moveRange, hline, hcond])
    | _ => exact Or.inl (by simp [moveRange, hline])

/-- **A line may move to any position in its range.** -/
theorem moveLine_rearranges (lines : List Line) {i : Nat} (hlo : (moveRange lines i).1 ≤ j)
    (hhi : j ≤ (moveRange lines i).2) : Rearranges I lines (moveLine lines i j) := by
  rcases moveRange_cases lines i with hr | ⟨front, x, rest, rfl, rfl, hx, hfront⟩
  · rw [hr] at hlo hhi
    rw [Nat.le_antisymm hhi hlo, moveLine_self]
    exact Rearranges.refl I lines
  · rw [moveRange_movable hx hfront] at hlo hhi
    rcases Nat.le_total front.length j with hdown | hup
    · obtain ⟨n, rfl⟩ := Nat.exists_eq_add_of_le hdown
      exact moveLine_down_rearranges I (isLoose_of_isMovable hx) hfront (by omega)
    · exact moveLine_up_rearranges I (isLoose_of_isMovable hx) hfront hup (by omega)

theorem cheapest_mem {cost} :
    ∀ (positions : List Nat) (bound : Nat), cheapest cost bound positions = some j → j ∈ positions := by
  intro positions
  induction positions with
  | nil => intro bound h; simp [cheapest] at h
  | cons k rest ih =>
    intro bound h
    simp only [cheapest] at h
    split at h
    · cases hrest : cheapest cost (cost k) rest with
      | none =>
        rw [hrest] at h
        have hjk : k = j := by simpa using h
        exact hjk ▸ mem_cons_self
      | some m =>
        rw [hrest] at h
        have hjm : m = j := by simpa using h
        exact .tail k (ih _ (hjm ▸ hrest))
    · exact .tail k (ih bound h)

theorem bestMove_mem_range {lines} {i : Nat} (h : bestMove lines i = some j) :
    (moveRange lines i).1 ≤ j ∧ j ≤ (moveRange lines i).2 := by
  simp only [bestMove] at h
  split at h
  · simp at h
  · have hmem := (mem_filter.mp (cheapest_mem _ _ h)).1
    obtain ⟨n, hn, rfl⟩ := mem_map.mp hmem
    rw [mem_range] at hn
    omega

variable {R : List Line → List Line → Prop}

theorem reorder_induction (hrefl : ∀ lines, R lines lines) (htrans : ∀ {old mid new}, R old mid → R mid new → R old new)
    (hmove : ∀ {lines i j}, bestMove lines i = some j → R lines (moveLine lines i j))
    (rounds : Nat) (lines : List Line) : R lines (reorder rounds lines).lines := by
  have himprove (e : Edited) (i : Nat) : R e.lines (improve e i).lines := by
    unfold improve
    cases h : bestMove e.lines i with
    | none => exact hrefl e.lines
    | some j => exact hmove h
  have honce (positions : List Nat) (e : Edited) : R e.lines (positions.foldl improve e).lines := by
    induction positions generalizing e with
    | nil => exact hrefl e.lines
    | cons i positions ih => exact htrans (himprove e i) (ih (improve e i))
  induction rounds generalizing lines with
  | zero => exact hrefl lines
  | succ rounds ih =>
    have hround : R lines (reorderOnce lines).lines := honce (range lines.length) ⟨lines, 0⟩
    simp only [reorder]
    split
    · exact hround
    · exact htrans hround (ih _)

theorem reorder_rearranges (rounds : Nat) (lines : List Line) : Rearranges I lines (reorder rounds lines).lines :=
  reorder_induction (.refl I) .trans
    (fun h => moveLine_rearranges I _ (bestMove_mem_range h).1 (bestMove_mem_range h).2) rounds lines

/-- **Scheduling keeps what the code does.**  Whatever the instructions mean within their effects, any
number of rounds leaves a permutation with all fixed lines in place and with the same state at the end
of every stretch between fixed lines; so does a single move within the range of a line. -/
theorem reorder_preserves_stretches (lines : List Line) :
    (∀ rounds, Rearranges I lines (reorder rounds lines).lines) ∧
      ∀ i j, (moveRange lines i).1 ≤ j → j ≤ (moveRange lines i).2 →
        Rearranges I lines (moveLine lines i j) :=
  ⟨fun rounds => reorder_rearranges I rounds lines,
    fun _ _ hlo hhi => moveLine_rearranges I lines hlo hhi⟩

def waitingCode : List Line := [.op (.vector .vor (.vector 1) (.vector 2) (.vector 3) none),
   .op (.vector .vor (.vector 4) (.vector 1) (.vector 3) none),
   .op (.scalarWith .addiu [.scalar 8, .scalar 8] (.imm 1)),
   .op (.scalarWith .addiu [.scalar 9, .scalar 9] (.imm 1))]

theorem waitingCode_move_rearranges :
    moveRange waitingCode 2 = (0, 3) ∧
      Rearranges Symbol.interpretation waitingCode (moveLine waitingCode 2 1) := by
  refine ⟨by decide, ?_⟩
  exact (reorder_preserves_stretches Symbol.interpretation waitingCode).2 2 1 (by decide) (by decide)

end
end Microcode
