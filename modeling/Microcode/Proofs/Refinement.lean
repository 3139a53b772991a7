import Microcode.Proofs.Reaching

/-!
Lowered code does what the statements say.

Each run of a piece of a body is followed by the run of its lines, which lands where the outcome sends control
(`landing`).
-/

namespace Microcode

open List Instruction

variable {f : Frame} {σ : ScopeStack} {Value Memory : Type} {M : Machine Value Memory} {next done : String}
  {lines : List Line} {m : Nat}

open Machine MachineState

variable {piece : Piece}

section
variable {body : List Line} {isCommand : Bool}
  {exits : Option LoopExits} {k : List Line} {o : Outcome} {s t : MachineState Value Memory}

/-- Where control is after a piece of code with an outcome, given the lines behind the piece.  Without a
loop around it nothing is said about the outcomes that are meant for one. -/
def landing (body : List Line) (isCommand : Bool) (exits : Option LoopExits) (k : List Line)
    (o : Outcome) (t : MachineState Value Memory) : Control Value Memory :=
  match o with
  | .done => .running k t
  | .broke => exits.elim (.left .undefined t) fun exits => goto body exits.done t
  | .continued => exits.elim (.left .undefined t) fun exits => goto body exits.next t
  | .exited => returnTo body isCommand t

theorem landing_of_ne_done (ho : o ≠ .done) (k k' : List Line) :
    landing body isCommand exits k o t = landing body isCommand exits k' o t := by
  cases o with
  | done => exact absurd rfl ho
  | _ => rfl

variable {k' : List Line}

theorem reaches_landing (h : M.Reaches body (.running k t) (.running k' t)) :
    M.Reaches body (landing body isCommand exits k o t) (landing body isCommand exits k' o t) := by
  by_cases ho : o = .done
  · subst ho
    exact h
  · rw [landing_of_ne_done ho k k']
    exact .refl _

variable {outer : Option LoopExits} {rest : List Line}

theorem reaches_next (hd : (labels body).Nodup) (ho : o.ofLoop? = none) (hnext : .label next :: k' <:+ body)
    (h : M.Reaches body (.running k t) (goto body next t)) :
    M.Reaches body (landing body isCommand (some ⟨next, done⟩) k o t) (.running (.label next :: k') t) := by
  rw [← goto_of_suffix hd hnext]
  cases o with
  | done => exact h
  | continued => exact .refl _
  | broke | exited => cases ho

theorem reaches_out {o'} (hd : (labels body).Nodup) (ho : o.ofLoop? = some o')
    (h : .label done :: k' <:+ body) : M.Reaches body (landing body isCommand (some ⟨next, done⟩) k o t)
      (landing body isCommand outer k' o' t) := by
  cases o with
  | broke =>
    cases ho
    exact reaches_label hd h
  | exited =>
    cases ho
    exact .refl _
  | done | continued => cases ho

theorem suffix_behind {front} (h : front ++ rest <:+ body) : rest <:+ body :=
  (suffix_append front rest).trans h

theorem suffix_tail {l : Line} (h : l :: rest <:+ body) : rest <:+ body := (suffix_cons l rest).trans h

/-! ### Code and statements -/

/-- The lines of a piece, wherever they stand in a body, do what the piece does: they follow each of its runs, and
where they are left, it has one. -/
structure Realizes (M : Machine Value Memory) (body : List Line) (f : Frame) (σ : ScopeStack) (piece : Piece)
    (lines : List Line) : Prop where
  follows : ∀ {k s s' o t}, lines ++ k <:+ body → M.Alike s s' → Runs M f.signatures σ piece s o t →
    ∃ t', M.Alike t t' ∧ M.Reaches body (.running (lines ++ k) s') (landing body f.isCommand f.innermost k o t')
  exists_runs : ∀ {k s s' n}, lines ++ k <:+ body → M.Alike s s' → M.LeavesIn body n (.running (lines ++ k) s') →
    ∃ o t, Runs M f.signatures σ piece s o t

namespace Realizes

variable {tag : Tag} {c : Comparison} {test more : List Line} {again otherwise : String} {p : Provenance}

theorem cons {first rest comment barrier} (hcomment : ∀ l ∈ comment, l.isComment)
    (hfirst : Realizes M body { f with barrier } σ (.one first) lines)
    (hrest : Realizes M body f (first.after σ) (.all rest) more) :
    Realizes M body f σ (.all (first :: rest)) (comment ++ lines ++ more) where
  follows {k s s' o t} hplace h hrun := by
    simp only [append_assoc] at hplace ⊢
    have hbehind := suffix_behind hplace
    cases hrun with
    | cons hrun hrun' =>
      obtain ⟨t₁, h₁, hreaches₁⟩ := hfirst.follows hbehind h hrun
      obtain ⟨t₂, h₂, hreaches₂⟩ := hrest.follows (suffix_behind hbehind) h₁ hrun'
      exact ⟨t₂, h₂, (reaches_comments hcomment).trans (hreaches₁.trans hreaches₂)⟩
    | stop hrun ho =>
      obtain ⟨t₁, h₁, hreaches₁⟩ := hfirst.follows hbehind h hrun
      rw [landing_of_ne_done ho _ k] at hreaches₁
      exact ⟨t₁, h₁, (reaches_comments hcomment).trans hreaches₁⟩
  exists_runs {k s s' n} hplace h hleaves := by
    simp only [append_assoc] at hplace hleaves
    have hbehind := suffix_behind hplace
    replace hleaves := hleaves.of_reaches (reaches_comments hcomment)
    obtain ⟨o, t, hrun⟩ := hfirst.exists_runs hbehind h hleaves
    by_cases ho : o = .done
    · subst ho
      obtain ⟨t', ht, hreaches⟩ := hfirst.follows hbehind h hrun
      obtain ⟨o, u, hrun'⟩ := hrest.exists_runs (suffix_behind hbehind) ht (hleaves.of_reaches hreaches)
      exact ⟨o, u, .cons hrun hrun'⟩
    · exact ⟨o, t, .stop hrun ho⟩

variable {yes no inner : List Statement}

theorem block (hbody : Realizes M body f (σ.enter inner) (.all (withoutAliases inner)) lines) :
    Realizes M body f σ (.one (.block tag inner)) lines where
  follows hplace h hrun := by
    cases hrun with
    | block hrun => exact hbody.follows hplace h hrun
  exists_runs hplace h hleaves := by
    obtain ⟨o, t, hrun⟩ := hbody.exists_runs hplace h hleaves
    exact ⟨o, t, .block hrun⟩

variable (hM : M.Lawful) (hd : (labels body).Nodup)
include hM hd

theorem branch (htest : IsTest σ c.negate done test)
    (hyes : Realizes M body f (σ.enter yes) (.all (withoutAliases yes)) lines) :
    Realizes M body f σ (.one (.branch tag c yes none)) (test ++ lines ++ [.label done]) where
  follows {k s s' o t} hplace h hrun := by
    simp only [append_assoc] at hplace ⊢
    have hbehind := suffix_behind hplace
    obtain ⟨t₁, h₁, hreaches₁⟩ := htest.reaches_skip hM hd h _ (suffix_behind hbehind)
    cases hrun with
    | yes hc hrun =>
      rw [if_pos hc] at hreaches₁
      obtain ⟨t₂, h₂, hreaches₂⟩ := hyes.follows hbehind h₁ hrun
      exact ⟨t₂, h₂, hreaches₁.trans (hreaches₂.trans (reaches_landing (reaches_step _)))⟩
    | skip hc =>
      rw [if_neg (by simp [hc])] at hreaches₁
      exact ⟨t₁, h₁, hreaches₁⟩
  exists_runs {k s s' n} hplace h hleaves := by
    simp only [append_assoc] at hplace hleaves
    have hbehind := suffix_behind hplace
    obtain ⟨t, ht, hreaches⟩ := htest.reaches_skip hM hd h _ (suffix_behind hbehind)
    replace hleaves := hleaves.of_reaches hreaches
    cases hc : c.holds M σ s with
    | true =>
      rw [if_pos hc] at hleaves
      obtain ⟨o, u, hrun⟩ := hyes.exists_runs hbehind ht hleaves
      exact ⟨o, u, .yes hc hrun⟩
    | false => exact ⟨.done, s, .skip hc⟩

theorem branchElse (htest : IsTest σ c.negate otherwise test)
    (hyes : Realizes M body f (σ.enter yes) (.all (withoutAliases yes)) lines)
    (hno : Realizes M body f (σ.enter no) (.all (withoutAliases no)) more) :
    Realizes M body f σ (.one (.branch tag c yes (some no)))
      (test ++ lines ++ stamped p (jump .j done) ++ .label otherwise :: more ++ [.label done]) where
  follows {k s s' o t} hplace h hrun := by
    simp only [append_assoc] at hplace ⊢
    have hbehind := suffix_behind hplace
    have hotherwise := suffix_behind (suffix_behind hbehind)
    obtain ⟨t₁, h₁, hreaches₁⟩ := htest.reaches_skip hM hd h _ hotherwise
    cases hrun with
    | yes hc hrun =>
      rw [if_pos hc] at hreaches₁
      obtain ⟨t₂, h₂, hreaches₂⟩ := hyes.follows hbehind h₁ hrun
      refine ⟨t₂, h₂, hreaches₁.trans (hreaches₂.trans (reaches_landing ?_))⟩
      exact (reaches_jump _ _).trans (reaches_label hd (suffix_behind hotherwise))
    | no hc hrun =>
      rw [if_neg (by simp [hc])] at hreaches₁
      obtain ⟨t₂, h₂, hreaches₂⟩ := hno.follows (suffix_tail hotherwise) h₁ hrun
      exact ⟨t₂, h₂, hreaches₁.trans (hreaches₂.trans (reaches_landing (reaches_step _)))⟩
  exists_runs {k s s' n} hplace h hleaves := by
    simp only [append_assoc] at hplace hleaves
    have hbehind := suffix_behind hplace
    have hotherwise := suffix_behind (suffix_behind hbehind)
    obtain ⟨t, ht, hreaches⟩ := htest.reaches_skip hM hd h _ hotherwise
    replace hleaves := hleaves.of_reaches hreaches
    cases hc : c.holds M σ s with
    | true =>
      rw [if_pos hc] at hleaves
      obtain ⟨o, u, hrun⟩ := hyes.exists_runs hbehind ht hleaves
      exact ⟨o, u, .yes hc hrun⟩
    | false =>
      rw [if_neg (by simp [hc])] at hleaves
      obtain ⟨o, u, hrun⟩ := hno.exists_runs (suffix_tail hotherwise) ht hleaves
      exact ⟨o, u, .no hc hrun⟩

/-! A loop follows its runs round by round.  Where it is left after some number of steps, it has a run by induction on
the number: each round passes the label in front, so the next one has fewer steps left. -/

theorem whileLoop (htest : IsTest σ c.negate done test) (hbody : Realizes M body
      { f with innermost := some ⟨again, done⟩ } (σ.enter inner) (.all (withoutAliases inner)) lines) :
    Realizes M body f σ (.one (.whileLoop tag c inner))
      (.label again :: test ++ lines ++ stamped p (jump .j again) ++ [.label done]) where
  follows {k s s' o t} hplace h hrun := by
    simp only [append_assoc, cons_append] at hplace ⊢
    have hround := suffix_behind (suffix_tail hplace)
    have hdone := suffix_behind (suffix_behind hround)
    generalize hpiece : Piece.one (.whileLoop tag c inner) = piece at hrun
    induction hrun generalizing s' with
    | whileEnd hc =>
      cases hpiece
      obtain ⟨t₁, h₁, hreaches₁⟩ := htest.reaches_skip hM hd h _ hdone
      rw [if_neg (by simp [hc])] at hreaches₁
      exact ⟨t₁, h₁, (reaches_step _).trans hreaches₁⟩
    | whileRound hc hrun ho _ _ ih =>
      cases hpiece
      obtain ⟨t₁, h₁, hreaches₁⟩ := htest.reaches_skip hM hd h _ hdone
      rw [if_pos hc] at hreaches₁
      obtain ⟨t₂, h₂, hreaches₂⟩ := hbody.follows hround h₁ hrun
      obtain ⟨t₃, h₃, hreaches₃⟩ := ih htest hbody h₂ rfl
      have hnext := hreaches₂.trans (reaches_next hd ho hplace (reaches_jump _ _))
      exact ⟨t₃, h₃, (reaches_step _).trans (hreaches₁.trans (hnext.trans hreaches₃))⟩
    | whileLeft hc hrun ho =>
      cases hpiece
      obtain ⟨t₁, h₁, hreaches₁⟩ := htest.reaches_skip hM hd h _ hdone
      rw [if_pos hc] at hreaches₁
      obtain ⟨t₂, h₂, hreaches₂⟩ := hbody.follows hround h₁ hrun
      exact ⟨t₂, h₂, (reaches_step _).trans (hreaches₁.trans (hreaches₂.trans (reaches_out hd ho hdone)))⟩
    | _ => cases hpiece
  exists_runs {k s s' n} hplace h hleaves := by
    simp only [append_assoc, cons_append] at hplace hleaves
    have hround := suffix_behind (suffix_tail hplace)
    have hdone := suffix_behind (suffix_behind hround)
    induction n generalizing s s' with
    | zero => exact absurd hleaves (not_leavesIn_zero _ _)
    | succ n ih =>
      obtain ⟨t, ht, hreaches⟩ := htest.reaches_skip hM hd h _ hdone
      replace hleaves := hleaves.step.of_reaches hreaches
      cases hc : c.holds M σ s with
      | false => exact ⟨.done, s, .whileEnd hc⟩
      | true =>
        rw [if_pos hc] at hleaves
        obtain ⟨o, u, hrun⟩ := hbody.exists_runs hround ht hleaves
        cases ho : o.ofLoop? with
        | some o' => exact ⟨o', u, .whileLeft hc hrun ho⟩
        | none =>
          obtain ⟨u', hu, hreaches⟩ := hbody.follows hround ht hrun
          have hnext := hreaches.trans (reaches_next hd ho hplace (reaches_jump _ _))
          obtain ⟨o', v, hrun'⟩ := ih hu (hleaves.of_reaches hnext)
          exact ⟨o', v, .whileRound hc hrun ho hrun'⟩

omit hM in
theorem loop (hbody : Realizes M body { f with innermost := some ⟨again, done⟩ } (σ.enter inner)
      (.all (withoutAliases inner)) lines) : Realizes M body f σ (.one (.loop tag inner none))
      (.label again :: lines ++ stamped p (jump .j again) ++ [.label done]) where
  follows {k s s' o t} hplace h hrun := by
    simp only [append_assoc, cons_append] at hplace ⊢
    have hround := suffix_tail hplace
    generalize hpiece : Piece.one (.loop tag inner none) = piece at hrun
    induction hrun generalizing s' with
    | loopRound hrun ho _ _ ih =>
      cases hpiece
      obtain ⟨t₁, h₁, hreaches₁⟩ := hbody.follows hround h hrun
      obtain ⟨t₂, h₂, hreaches₂⟩ := ih hbody h₁ rfl
      have hnext := hreaches₁.trans (reaches_next hd ho hplace (reaches_jump _ _))
      exact ⟨t₂, h₂, (reaches_step _).trans (hnext.trans hreaches₂)⟩
    | loopLeft hrun ho =>
      cases hpiece
      obtain ⟨t₁, h₁, hreaches₁⟩ := hbody.follows hround h hrun
      exact ⟨t₁, h₁, (reaches_step _).trans
        (hreaches₁.trans (reaches_out hd ho (suffix_behind (suffix_behind hround))))⟩
    | _ => cases hpiece
  exists_runs {k s s' n} hplace h hleaves := by
    simp only [append_assoc, cons_append] at hplace hleaves
    have hround := suffix_tail hplace
    induction n generalizing s s' with
    | zero => exact absurd hleaves (not_leavesIn_zero _ _)
    | succ n ih =>
      replace hleaves := hleaves.step
      obtain ⟨o, t, hrun⟩ := hbody.exists_runs hround h hleaves
      cases ho : o.ofLoop? with
      | some o' => exact ⟨o', t, .loopLeft hrun ho⟩
      | none =>
        obtain ⟨t', ht, hreaches⟩ := hbody.follows hround h hrun
        have hnext := hreaches.trans (reaches_next hd ho hplace (reaches_jump _ _))
        obtain ⟨o', u, hrun'⟩ := ih ht (hleaves.of_reaches hnext)
        exact ⟨o', u, .loopRound hrun ho hrun'⟩

theorem loopUntil (htest : IsTest σ c again test) (hbody : Realizes M body
      { f with innermost := some ⟨next, done⟩ } (σ.enter inner) (.all (withoutAliases inner)) lines) :
    Realizes M body f σ (.one (.loop tag inner (some c)))
      (.label again :: lines ++ .label next :: test ++ [.label done]) where
  follows {k s s' o t} hplace h hrun := by
    simp only [append_assoc, cons_append] at hplace ⊢
    have hround := suffix_tail hplace
    have hnext := suffix_behind hround
    generalize hpiece : Piece.one (.loop tag inner (some c)) = piece at hrun
    induction hrun generalizing s' with
    | loopLeft hrun ho =>
      cases hpiece
      obtain ⟨t₁, h₁, hreaches₁⟩ := hbody.follows hround h hrun
      exact ⟨t₁, h₁, (reaches_step _).trans (hreaches₁.trans (reaches_out hd ho (suffix_behind (suffix_tail hnext))))⟩
    | untilEnd hrun ho hc =>
      cases hpiece
      obtain ⟨t₁, h₁, hreaches₁⟩ := hbody.follows hround h hrun
      obtain ⟨t₂, h₂, hreaches₂⟩ := htest.reaches hM h₁ body _
      rw [if_neg (by simp [hc])] at hreaches₂
      have hlabel := hreaches₁.trans (reaches_next hd ho hnext (reaches_goto hd hnext))
      exact ⟨t₂, h₂, (reaches_step _).trans (hlabel.trans ((reaches_step _).trans (hreaches₂.trans (reaches_step _))))⟩
    | untilRound hrun ho hc _ _ ih =>
      cases hpiece
      obtain ⟨t₁, h₁, hreaches₁⟩ := hbody.follows hround h hrun
      obtain ⟨t₂, h₂, hreaches₂⟩ := htest.reaches hM h₁ body _
      rw [if_pos hc, goto_of_suffix hd hplace] at hreaches₂
      obtain ⟨t₃, h₃, hreaches₃⟩ := ih htest hbody h₂ rfl
      have hlabel := hreaches₁.trans (reaches_next hd ho hnext (reaches_goto hd hnext))
      exact ⟨t₃, h₃, (reaches_step _).trans (hlabel.trans ((reaches_step _).trans (hreaches₂.trans hreaches₃)))⟩
    | _ => cases hpiece
  exists_runs {k s s' n} hplace h hleaves := by
    simp only [append_assoc, cons_append] at hplace hleaves
    have hround := suffix_tail hplace
    have hnext := suffix_behind hround
    induction n generalizing s s' with
    | zero => exact absurd hleaves (not_leavesIn_zero _ _)
    | succ n ih =>
      replace hleaves := hleaves.step
      obtain ⟨o, t, hrun⟩ := hbody.exists_runs hround h hleaves
      cases ho : o.ofLoop? with
      | some o' => exact ⟨o', t, .loopLeft hrun ho⟩
      | none =>
        obtain ⟨t', ht, hreaches⟩ := hbody.follows hround h hrun
        have hlabel := hreaches.trans (reaches_next hd ho hnext (reaches_goto hd hnext))
        replace hleaves := hleaves.of_reaches (hlabel.trans (reaches_step _))
        cases hc : c.holds M σ t with
        | false => exact ⟨.done, t, .untilEnd hrun ho hc⟩
        | true =>
          obtain ⟨t₁, ht₁, hback⟩ := htest.reaches hM ht body _
          rw [if_pos hc, goto_of_suffix hd hplace] at hback
          obtain ⟨o', u, hrun'⟩ := ih ht₁ (hleaves.of_reaches hback)
          exact ⟨o', u, .untilRound hrun ho hc hrun'⟩

variable {a : Assignment}

omit hd in
theorem assign {code} (hcode : ∀ holds, a.code σ f.signatures holds = .ok code) (hcomputes : IsComputation code) :
    Realizes M body f σ (.one (.action tag (.assign a))) (stamped p code) where
  follows hplace h hrun := by
    cases hrun with
    | assign hselect =>
      obtain rfl := Except.ok.inj ((hcode _).symm.trans hselect)
      exact ⟨_, h.execAll hM hcomputes, reaches_straight hM hcomputes.straight _⟩
  exists_runs _ _ _ := ⟨.done, _, .assign (hcode _)⟩

theorem choose {yes no} (htest : IsTest σ c.negate otherwise test)
    (hcode : ∀ holds, a.code σ f.signatures holds = .ok (if holds c then yes else no))
    (hyes : IsComputation yes) (hno : IsComputation no) : Realizes M body f σ (.one (.action tag (.assign a)))
      (test ++ stamped p yes ++ stamped p (jump .j done) ++ .label otherwise :: stamped p no ++ [.label done]) where
  follows hplace h hrun := by
    cases hrun with
    | assign hselect =>
      obtain rfl := Except.ok.inj ((hcode _).symm.trans hselect)
      simp only [append_assoc, cons_append] at hplace ⊢
      have hotherwise := suffix_behind (suffix_behind (suffix_behind hplace))
      have hdone := suffix_behind (suffix_tail hotherwise)
      obtain ⟨t₁, h₁, hreaches₁⟩ := htest.reaches_skip hM hd h _ hotherwise
      revert hreaches₁
      split <;> intro hreaches₁
      · refine ⟨_, h₁.execAll hM hyes, hreaches₁.trans ?_⟩
        exact (reaches_straight hM hyes.straight _).trans ((reaches_jump _ _).trans (reaches_label hd hdone))
      · refine ⟨_, h₁.execAll hM hno, hreaches₁.trans ?_⟩
        exact (reaches_straight hM hno.straight _).trans (reaches_step _)
  exists_runs _ _ _ := ⟨.done, _, .assign (hcode _)⟩

end Realizes

/-- **The lines of structured statements do what the statements say.** -/
theorem Translated.realizes (hM : M.Lawful) (hd : (labels body).Nodup) {n : Nat}
    (h : Translated f σ n piece lines m) (hpiece : piece.IsStructured) (hσ : σ.IsProper) :
    Realizes M body f σ piece lines := by
  induction h with
  | nil =>
    refine ⟨fun {k s s' o t} _ h hrun => ?_, fun _ _ _ => ⟨_, _, .nil⟩⟩
    cases hrun
    exact ⟨s', h, .refl _⟩
  | @cons f σ n first rest lines m more k _ _ hrest ih ih' =>
    have hfirst := ih hpiece.1 hσ
    rw [f.marked_eq] at hfirst
    exact .cons (f.isComment_of_mem_comment first) hfirst (ih' hpiece.2 hrest.proper)
  | block hbody ih => exact .block (ih (everyIn_withoutAliases hpiece) hbody.proper)
  | branch htest hyes ih =>
    exact .branch hM hd (isTest_of_branchIf hσ hpiece.1.negate htest _)
      (ih (everyIn_withoutAliases hpiece.2.1) hyes.proper)
  | branchElse htest hyes hno ih ih' =>
    exact .branchElse hM hd (isTest_of_branchIf hσ hpiece.1.negate htest _)
      (ih (everyIn_withoutAliases hpiece.2.1) hyes.proper) (ih' (everyIn_withoutAliases hpiece.2.2) hno.proper)
  | whileLoop htest hbody ih =>
    exact .whileLoop hM hd (isTest_of_branchIf hσ hpiece.1.negate htest _)
      (ih (everyIn_withoutAliases hpiece.2) hbody.proper)
  | loop hbody ih => exact .loop hd (ih (everyIn_withoutAliases hpiece.1) hbody.proper)
  | loopUntil htest hbody ih =>
    exact .loopUntil hM hd (isTest_of_branchIf hσ (hpiece.2 _ rfl) htest _)
      (ih (everyIn_withoutAliases hpiece.1) hbody.proper)
  | @declaration f σ n tag a ha =>
    refine ⟨fun {k s s' o t} _ h hrun => ?_, fun {k s s' n} _ _ _ => ⟨.done, s, ?_⟩⟩
    · cases hrun <;> first | exact ⟨s', h, .refl _⟩ | cases ha
    · cases a with
      | declare d => exact .declare
      | declareAlias name target type => exact .declareAlias
      | undefine name => exact .undefine
      | _ => cases ha
  | label | asm => exact hpiece.elim
  | @selected f σ n tag a code line hcode =>
    cases hcode with
    | @assign a v _ hallowed hcode =>
      exact .assign hM hcode (a.isComputation_code hσ f.signatures (fun _ => true) code (hcode _))
    | builtin | function | gotoLabel | gotoRoutine => exact hpiece.elim
    | breakLoop hexits =>
      refine ⟨fun {k s s' o t} _ h hrun => ?_, fun {k s s' n} _ _ _ => ⟨.broke, s, .breakLoop⟩⟩
      cases hrun
      rw [hexits]
      exact ⟨s', h, reaches_jump _ _⟩
    | continueLoop hexits =>
      refine ⟨fun {k s s' o t} _ h hrun => ?_, fun {k s s' n} _ _ _ => ⟨.continued, s, .continueLoop⟩⟩
      cases hrun
      rw [hexits]
      exact ⟨s', h, reaches_jump _ _⟩
    | exit =>
      refine ⟨fun {k s s' o t} _ h hrun => ?_, fun {k s s' n} _ _ _ => ⟨.exited, s, .exit⟩⟩
      cases hrun
      exact ⟨s', h, reaches_return _ _⟩
  | @choose f σ n tag a v c yes no test yesCode noCode line hallowed hscalar hvalue htest hyes hno =>
    have hcode (holds : Comparison → Bool) : a.code σ f.signatures holds
        = .ok (if holds c then yesCode else noCode) := by
      rw [a.code_choose hallowed.target f.signatures holds hscalar hvalue]
      cases holds c with
      | true => exact hyes
      | false => exact hno
    rw [stamped_append, stamped_append]
    refine .choose hM hd (isTest_of_branchIf hσ (hpiece c yes no hvalue).negate htest _) hcode ?_ ?_
    · exact a.isComputation_code hσ f.signatures (fun _ => true) _ (hcode _)
    · exact a.isComputation_code hσ f.signatures (fun _ => false) _ (hcode _)

end

section
variable {signatures : Signatures} {r : Routine}
  {body : List Statement} {code : Code} {o : Outcome} {s t u : MachineState Value Memory}

theorem Runs.eq_done_or_exited (hrun : Runs M signatures σ piece s o t) {n : Nat}
    (h : Microcode.Translated f σ n piece lines m) (hf : f.innermost = none) : o = .done ∨ o = .exited := by
  have hloop {o o' : Outcome} (ho : o.ofLoop? = some o') : o' = .done ∨ o' = .exited := by
    cases o <;> cases ho <;> decide
  induction hrun generalizing f n lines m with
  | cons _ _ _ ih =>
    cases h with
    | cons _ _ hrest => exact ih hrest hf
  | stop _ _ ih =>
    cases h with
    | cons _ hfirst _ =>
      rw [f.marked_eq] at hfirst
      exact ih hfirst hf
  | block _ ih =>
    cases h with
    | block hbody => exact ih hbody hf
  | yes _ _ ih =>
    cases h with
    | branch _ hyes | branchElse _ hyes _ => exact ih hyes hf
  | no _ _ ih =>
    cases h with
    | branchElse _ _ hno => exact ih hno hf
  | whileRound _ _ _ _ _ ih | loopRound _ _ _ _ ih | untilRound _ _ _ _ _ ih => exact ih h hf
  | whileLeft _ _ ho _ | loopLeft _ ho _ => exact hloop ho
  | breakLoop | continueLoop =>
    cases h with
    | declaration ha => cases ha
    | selected hcode =>
      cases hcode
      rename_i hexits
      cases hf.symm.trans hexits
  | exit => exact .inr rfl
  | _ => exact .inl rfl

/-- How control leaves a routine whose body has an outcome: a command goes back to the dispatch loop and a
function to its return address.  Where the end is said to be never reached, nothing stands there. -/
def Routine.exitAfter (r : Routine) (o : Outcome) (t : MachineState Value Memory) : Exit Value :=
  if o = .done ∧ r.neverEnds then .bottom
  else if r.command?.isSome then .symbol dispatchLoop
  else .address (some (t.registers .returnAddress))

theorem Routine.returnTo_eq_left {code} (hdispatch : dispatchLoop ∉ labels code) (ho : ¬ (o = .done ∧ r.neverEnds)) :
    returnTo code r.command?.isSome t = .left (r.exitAfter o t) t := by
  rw [returnTo_eq hdispatch, exitAfter, if_neg ho]

namespace Routine.Translated

variable {options : Options} {first last : Nat} (h : r.Translated options signatures body first code last)
  (hbody : IsStructured body)
include h hbody

theorem labelled_of_isStructured : Labelled [] first last code.lines := by
  have hlabelled := h.labelled
  rwa [labelsOf_of_isStructured hbody] at hlabelled

theorem realizes (hM : M.Lawful) : ∃ lines leave, code.lines = lines ++ leave ∧ r.Leaves body leave ∧
    Realizes M code.lines (r.frame options signatures body) (r.scopes body) (.all (withoutAliases body)) lines := by
  obtain ⟨lines, leave, htranslated, hleave, hlines⟩ := h.lines
  exact ⟨lines, leave, hlines, hleave, htranslated.realizes hM (h.labelled_of_isStructured hbody).nodup
    (everyIn_withoutAliases hbody) htranslated.proper⟩

theorem leaves (hM : M.Lawful) (halike : M.Alike s s) (hrun : r.Runs M signatures body s o u) :
    ∃ t, M.Alike u t ∧ M.Reaches code.lines (.running code.lines s) (.left (r.exitAfter o t) t) := by
  have hdispatch := (h.labelled_of_isStructured hbody).dispatchLoop_notMem
  obtain ⟨lines, leave, hlines, hleave, hrealizes⟩ := h.realizes hbody hM
  obtain ⟨_, _, htranslated, -⟩ := h.lines
  have hplace : lines ++ leave <:+ code.lines := hlines ▸ suffix_refl _
  obtain ⟨t, ht, hreaches⟩ := hrealizes.follows hplace halike hrun
  rw [← hlines] at hreaches
  refine ⟨t, ht, hreaches.trans ?_⟩
  rcases Microcode.Runs.eq_done_or_exited hrun htranslated rfl with rfl | rfl
  · cases hleave with
    | closed hclosed =>
      have hopen : endsWithExit body = false := by
        rw [← endsWithExit_withoutAliases]
        exact Microcode.Runs.endsWithExit hrun
      rw [hopen] at hclosed
      rw [exitAfter, if_pos ⟨rfl, hclosed⟩]
      exact reaches_step _
    | returns line hopen =>
      rw [← returnTo_eq_left hdispatch (by simp [(Bool.or_eq_false_iff.mp hopen).2]), ← append_nil (stamped _ _)]
      exact reaches_return _ r.command?.isSome
  · rw [← returnTo_eq_left hdispatch (by simp)]
    exact .refl _

theorem exists_runs (hM : M.Lawful) (halike : M.Alike s s) {n : Nat}
    (hleaves : M.LeavesIn code.lines n (.running code.lines s)) : ∃ o u, r.Runs M signatures body s o u := by
  obtain ⟨lines, leave, hlines, -, hrealizes⟩ := h.realizes hbody hM
  rw [hlines] at hleaves hrealizes
  exact hrealizes.exists_runs (suffix_refl _) halike hleaves

end Routine.Translated

/-- **Lowering preserves the meaning of structured statements.**  From any state the code of a routine is
left if and only if the statements come to an end, and then it is left by the return that the outcome asks
for, with the registers and the memory that the statements leave, the scratch register aside. -/
theorem lowerRoutine_refines (options : Options) (signatures : Signatures) (r : Routine)
    (body : List Statement) (hbody : IsStructured body) (p p' : Progress) (code : Code)
    (hlower : (lowerRoutine options signatures r body).run p = .ok (code, p'))
    {Value Memory : Type} (M : Machine Value Memory) (hM : M.Lawful) (s : MachineState Value Memory)
    (hzero : M.word (s.registers (.scalar 0)) = 0) :
    (∀ o u, r.Runs M signatures body s o u → ∃ t, AgreeBut .scratch u t ∧
      M.Reaches code.lines (.running code.lines s) (.left (r.exitAfter o t) t)) ∧
    (∀ e t, M.Reaches code.lines (.running code.lines s) (.left e t) → ∃ o u,
      r.Runs M signatures body s o u ∧ e = r.exitAfter o t ∧ AgreeBut .scratch u t) := by
  have hcode := givesFrom_routine options signatures r body p hlower
  have halike : M.Alike s s := ⟨.refl _ s, hzero⟩
  have hleaves {o : Outcome} {u : MachineState Value Memory} (hrun : r.Runs M signatures body s o u) :=
    hcode.leaves hbody hM halike hrun
  refine ⟨fun o u hrun => ?_, fun e t hleft => ?_⟩
  · obtain ⟨t, ht, hreaches⟩ := hleaves hrun
    exact ⟨t, ht.agree, hreaches⟩
  · obtain ⟨n, hn⟩ := hleft
    obtain ⟨o, u, hrun⟩ := hcode.exists_runs hbody hM halike ⟨e, t, hn⟩
    obtain ⟨t', ht, hreaches⟩ := hleaves hrun
    obtain ⟨rfl, rfl⟩ := Reaches.left_inj ⟨n, hn⟩ hreaches
    exact ⟨o, u, hrun, rfl, ht.agree⟩

end

namespace Words

def compute? : Opcode → Option (BitVec 32 → BitVec 32 → BitVec 32)
  | .addu => some (· + ·)
  | .subu => some (· - ·)
  | .slt => some fun a b => if a.toInt < b.toInt then 1 else 0
  | .sltu => some fun a b => if a.toNat < b.toNat then 1 else 0
  | _ => none

def result (i : Instruction) (s : MachineState (BitVec 32) Unit) : BitVec 32 := match compute? i.opcode with
  | some f => f ((operand? i 1 s).getD 0) ((operand? i 2 s).getD 0)
  | none => 0

variable {f : BitVec 32 → BitVec 32 → BitVec 32} {i : Instruction}

theorem reads_of_compute? (h : compute? i.opcode = some f) :
    i.reads = (i.args.drop 1).flatMap (Arg.locations true) := by
  unfold compute? at h
  split at h <;> rename_i ho
  case h_5 => cases h
  all_goals
    unfold reads
    rw [ho]
    rfl

theorem result_congr {s t} (hreads : ∀ l ∈ i.reads, s.registers l = t.registers l)
    (hconst : ∀ l, l.isConstant → s.registers l = t.registers l) : result i s = result i t := by
  unfold result
  split
  next f hf =>
    have hoperand (n : Nat) : operand? i (n + 1) s = operand? i (n + 1) t := by
      refine operand?_congr (fun l hl => hreads l ?_) hconst
      rw [reads_of_compute? hf]
      unfold wholeAt at hl
      split at hl
      next a ha =>
        refine mem_flatMap.mpr ⟨a, mem_of_getElem? (i := n) ?_, hl⟩
        rw [getElem?_drop, Nat.add_comm]
        exact ha
      · cases hl
    rw [hoperand 0, hoperand 1]
  · rfl

def machine : Machine (BitVec 32) Unit where
  exec i s := { s with registers := fun l =>
    if i.effect.writes.contains l then result i s else s.registers l }
  frame i s l _ hl := if_neg (by rw [hl]; decide)
  frameMemory _ _ _ _ := rfl
  agree := by
    intro i s t _ h _
    refine ⟨fun l hl => ?_, fun _ => rfl⟩
    simp only [hl, if_true]
    refine result_congr (fun m hm => h m ?_) fun m hm => h m ?_
    · simp [Effect.dependsOn, effect_reads_contains.mpr hm]
    · simp [Effect.dependsOn, hm]
  word w := w
  link _ := 0
  callee := fun _ s => some s
  text := fun _ s => (s, none)

theorem machine_lawful : machine.Lawful where
  exec_provenance _ _ := rfl
  overwrites := by
    intro i s t _ hread hwrite h
    have hresult : result i s = result i t := by
      refine result_congr (fun l hl => h.registers l ?_) fun l hl => h.registers l ?_
      · rintro rfl
        exact hread hl
      · rintro rfl
        cases hl
    refine MachineState.ext ?_ rfl
    funext l
    show (if i.effect.writes.contains l then result i s else s.registers l)
      = if i.effect.writes.contains l then result i t else t.registers l
    split
    · exact hresult
    next hl =>
      refine h.registers l ?_
      rintro rfl
      exact hl (effect_writes_contains.mpr hwrite)
  lessThan := by
    intro signed a b s
    let i : Instruction := .scalar (lessThan signed) [.scratch, .scalar a, .scalar b]
    have hwrites : i.writes = [.scratch] := by cases signed <;> rfl
    have hscratch : i.effect.writes.contains .scratch := by
      rw [effect_writes_contains, hwrites]
      exact mem_singleton_self _
    refine (if_pos hscratch).trans ?_
    cases signed with
    | true => rfl
    | false =>
      show (if (s.registers (.scalar a)).toNat < (s.registers (.scalar b)).toNat then 1 else 0)
        = if ((s.registers (.scalar a)).toNat : Int) < (s.registers (.scalar b)).toNat then 1 else 0
      simp only [Int.ofNat_lt]

end Words

def divisorBody : List Statement := [.whileLoop ⟨2, []⟩ ⟨.ofName "a", .ne, .ofName "b"⟩
    [.branch ⟨3, []⟩ ⟨.ofName "a", .lt, .ofName "b"⟩
      [.action ⟨4, []⟩ (.assign ⟨"b", none, none, .binary .sub (.ofName "b") (.ofName "a"), false⟩)]
      (some [.action ⟨5, []⟩ (.assign ⟨"a", none, none, .binary .sub (.ofName "a") (.ofName "b"), false⟩)])]]

def divisor : Routine := ⟨.function, "divisor", [⟨"a", .u32, none⟩, ⟨"b", .u32, none⟩], some divisorBody, [], 1⟩

def sixAndFour : MachineState (BitVec 32) Unit where
  registers l := if l = .scalar 4 then 6 else if l = .scalar 5 then 4 else 0
  memory := ()

theorem divisor_isStructured : IsStructured divisorBody := by
  refine ⟨⟨⟨rfl, rfl⟩, ⟨⟨rfl, rfl⟩, ⟨?_, trivial⟩, ?_, trivial⟩, trivial⟩, trivial⟩
  · intro c yes no h
    cases h
  · intro c yes no h
    cases h

theorem divisor_runs : ∃ u, divisor.Runs Words.machine [] divisorBody sixAndFour .done u ∧
    u.registers (.scalar 4) = 2 ∧ u.registers .returnAddress = 0 := by
  refine ⟨_, .cons (.whileRound rfl (.cons (.no rfl (.cons (.assign rfl) .nil)) .nil) rfl
    (.whileRound rfl (.cons (.yes rfl (.cons (.assign rfl) .nil)) .nil) rfl (.whileEnd rfl))) .nil, ?_, ?_⟩
  · rfl
  · rfl

theorem divisor_refines :
    IsStructured divisorBody ∧ Words.machine.Lawful ∧ ∃ code p',
      (lowerRoutine {} [] divisor divisorBody).run {} = .ok (code, p') ∧
      (∃ t, Words.machine.Reaches code.lines (.running code.lines sixAndFour) (.left (.address (some 0)) t) ∧
        t.registers (.scalar 4) = 2) ∧
      ∀ e t, Words.machine.Reaches code.lines (.running code.lines sixAndFour) (.left e t) → ∃ o u,
        divisor.Runs Words.machine [] divisorBody sixAndFour o u ∧ e = divisor.exitAfter o t ∧
          AgreeBut .scratch u t := by
  obtain ⟨code, p', hlower⟩ : ∃ code p', (lowerRoutine {} [] divisor divisorBody).run {} = .ok (code, p') :=
    ⟨_, _, rfl⟩
  obtain ⟨hforward, hbackward⟩ := lowerRoutine_refines {} [] divisor divisorBody divisor_isStructured {} p'
    code hlower Words.machine Words.machine_lawful sixAndFour rfl
  refine ⟨divisor_isStructured, Words.machine_lawful, code, p', hlower, ?_, hbackward⟩
  obtain ⟨u, hrun, hresult, hreturn⟩ := divisor_runs
  obtain ⟨t, ht, hreaches⟩ := hforward .done u hrun
  have hexit : divisor.exitAfter .done t = .address (some (t.registers .returnAddress)) := rfl
  rw [hexit, ← ht.registers _ (by decide), hreturn] at hreaches
  refine ⟨t, hreaches, ?_⟩
  rw [← ht.registers _ (by decide)]
  exact hresult

end Microcode
