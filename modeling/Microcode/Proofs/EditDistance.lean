import Microcode.Text.EditDistance

/-!
The distance between texts is the length of a shortest way from one to the other.

The rows are over the beginnings of the texts, so what they hold is said of the texts read backwards: `distance`
takes the last characters first.  Edits read backwards are edits.
-/

namespace Microcode.Text

open List

/-- One character is inserted, deleted or exchanged. -/
inductive Edit : List Char → List Char → Prop
  | insert (front rest : List Char) (c : Char) : Edit (front ++ rest) (front ++ c :: rest)
  | delete (front rest : List Char) (c : Char) : Edit (front ++ c :: rest) (front ++ rest)
  | replace (front rest : List Char) (c d : Char) : Edit (front ++ c :: rest) (front ++ d :: rest)

/-- A text becomes another in a number of edits. -/
inductive Edits : Nat → List Char → List Char → Prop
  | refl (a : List Char) : Edits 0 a a
  | step {n a b c} (h : Edits n a b) (hstep : Edit b c) : Edits (n + 1) a c

def distance : List Char → List Char → Nat
  | [], b => b.length
  | a, [] => a.length
  | c :: a, d :: b =>
    min (min (distance a (d :: b) + 1) (distance (c :: a) b + 1)) (distance a b + if c = d then 0 else 1)

variable {a b b' : List Char} {c d : Char} {n : Nat}

@[simp] theorem distance_nil_left (b : List Char) : distance [] b = b.length := by rw [distance]

@[simp] theorem distance_nil_right (a : List Char) : distance a [] = a.length := by cases a <;> simp [distance]

/-! ### The rows -/

/-- The distances between a text and the beginnings of another, from `before` on. -/
def distances (a before : List Char) : List Char → List Nat
  | [] => [distance a before]
  | d :: rest => distance a before :: distances a (d :: before) rest

theorem rowFrom_distances (c : Char) (a before rest : List Char) :
    distance (c :: a) before :: rowFrom c (distance (c :: a) before) rest (distances a before rest)
      = distances (c :: a) before rest := by
  induction rest generalizing before with
  | nil => rfl
  | cons d rest ih =>
    rw [distances, distances, ← ih]
    cases rest <;> simp [distances, rowFrom, distance]

theorem nextRow_distances (c : Char) (a b : List Char) : nextRow b (distances a [] b) c = distances (c :: a) [] b := by
  have hfirst : (distances a [] b).headD 0 + 1 = distance (c :: a) [] := by cases b <;> simp [distances]
  rw [nextRow, hfirst]
  exact rowFrom_distances c a [] b

theorem foldl_nextRow (a done b : List Char) :
    a.foldl (nextRow b) (distances done [] b) = distances (a.reverse ++ done) [] b := by
  induction a generalizing done with
  | nil => rfl
  | cons c a ih =>
    rw [foldl_cons, nextRow_distances, ih]
    simp

theorem distances_nil (before rest : List Char) :
    distances [] before rest = range' before.length (rest.length + 1) := by
  induction rest generalizing before with
  | nil => simp [distances]
  | cons d rest ih => simp [distances, ih, range'_succ]

theorem getLastD_distances (a before rest : List Char) (n : Nat) :
    (distances a before rest).getLastD n = distance a (rest.reverse ++ before) := by
  induction rest generalizing before n with
  | nil => rfl
  | cons d rest ih =>
    rw [distances, getLastD_cons, ih]
    simp

theorem editDistance_eq (a b : List Char) : editDistance a b = distance a.reverse b.reverse := by
  have hrow : range (b.length + 1) = distances [] [] b := by rw [distances_nil, range_eq_range']; rfl
  rw [editDistance, hrow, foldl_nextRow, getLastD_distances]
  simp

/-! ### One edit changes the distance by one at most -/

theorem distance_cons_left (c : Char) (a b : List Char) : distance (c :: a) b ≤ distance a b + 1 := by
  cases b with
  | nil => simp
  | cons d b =>
    rw [distance]
    omega

theorem distance_cons_right (d : Char) (a b : List Char) : distance a (d :: b) ≤ distance a b + 1 := by
  cases a with
  | nil => simp
  | cons c a =>
    rw [distance]
    omega

theorem distance_self (a : List Char) : distance a a = 0 := by
  induction a with
  | nil => simp
  | cons c a ih => simp [distance, ih]

theorem distance_tail (d : Char) (a b : List Char) : distance a b ≤ distance a (d :: b) + 1 := by
  induction a with
  | nil =>
    simp only [distance_nil_left, length_cons]
    omega
  | cons c a ih =>
    have hleft := distance_cons_left c a b
    rw [distance]
    omega

theorem distance_head (c d : Char) (a b : List Char) : distance a (d :: b) ≤ distance a (c :: b) + 1 := by
  induction a with
  | nil => simp
  | cons x a ih =>
    rw [distance, distance]
    split <;> split <;> omega

theorem distance_behind (front : List Char) (h : ∀ a, distance a b' ≤ distance a b + 1) (a : List Char) :
    distance a (front ++ b') ≤ distance a (front ++ b) + 1 := by
  induction front generalizing a with
  | nil => exact h a
  | cons c front ih =>
    induction a with
    | nil => simpa using ih []
    | cons x a iha =>
      have hleft := ih (x :: a)
      have hdiagonal := ih a
      simp only [cons_append, distance] at iha ⊢
      omega

theorem Edit.distance_le (h : Edit b b') (a : List Char) : distance a b' ≤ distance a b + 1 := by
  cases h with
  | insert front rest c => exact distance_behind front (fun a => distance_cons_right c a rest) a
  | delete front rest c => exact distance_behind front (fun a => distance_tail c a rest) a
  | replace front rest c d => exact distance_behind front (fun a => distance_head c d a rest) a

theorem Edits.distance_le (h : Edits n a b) : distance a b ≤ n := by
  induction h with
  | refl a => exact Nat.le_of_eq (distance_self a)
  | step _ hstep ih => exact Nat.le_trans (hstep.distance_le _) (Nat.succ_le_succ ih)

/-! ### The distance is reached -/

namespace Edits

theorem behind (c : Char) (h : Edits n a b) : Edits n (c :: a) (c :: b) := by
  induction h with
  | refl a => exact .refl _
  | step _ hstep ih =>
    refine .step ih ?_
    cases hstep with
    | insert front rest d => exact .insert (c :: front) rest d
    | delete front rest d => exact .delete (c :: front) rest d
    | replace front rest d e => exact .replace (c :: front) rest d e

theorem delete_first (c : Char) (h : Edits n a b) : Edits (n + 1) (c :: a) b := by
  induction h with
  | refl a => exact .step (.refl _) (.delete [] a c)
  | step _ hstep ih => exact .step ih hstep

theorem reverse (h : Edits n a b) : Edits n a.reverse b.reverse := by
  induction h with
  | refl a => exact .refl _
  | step _ hstep ih =>
    refine .step ih ?_
    cases hstep with
    | insert front rest c => simpa using Edit.insert rest.reverse front.reverse c
    | delete front rest c => simpa using Edit.delete rest.reverse front.reverse c
    | replace front rest c d => simpa using Edit.replace rest.reverse front.reverse c d

theorem of_distance (a b : List Char) : Edits (distance a b) a b := by
  fun_induction distance a b with
  | case1 b =>
    induction b with
    | nil => exact .refl []
    | cons d b ih => exact .step ih (.insert [] b d)
  | case2 a ha =>
    clear ha
    induction a with
    | nil => exact .refl []
    | cons c a ih => exact ih.delete_first c
  | case3 c a d b hdelete hinsert hboth =>
    have hreplace : Edits (distance a b + if c = d then 0 else 1) (c :: a) (d :: b) := by
      split
      · next heq => exact heq ▸ hboth.behind c
      · exact .step (hboth.behind c) (.replace [] b c d)
    have hleast (x y z : Nat) : min (min x y) z = x ∨ min (min x y) z = y ∨ min (min x y) z = z := by omega
    rcases hleast (distance a (d :: b) + 1) (distance (c :: a) b + 1) (distance a b + if c = d then 0 else 1)
      with h | h | h
    all_goals rw [h]
    · exact hdelete.delete_first c
    · exact .step hinsert (.insert [] b d)
    · exact hreplace

end Edits

/-- **The distance between two texts** is the length of a shortest sequence of edits that turns one into the
other. -/
theorem editDistance_shortest (a b : List Char) :
    Edits (editDistance a b) a b ∧ ∀ n, Edits n a b → editDistance a b ≤ n := by
  rw [editDistance_eq]
  refine ⟨?_, fun n h => h.reverse.distance_le⟩
  simpa using (Edits.of_distance a.reverse b.reverse).reverse

end Microcode.Text
