import Microcode.Proofs.Plain

/-!
How deep macro calls nest.

A chain of nested calls starts with a macro that a body calls, and goes on with a macro that the body of the last one
calls.  A body is expanded with a depth to spend, one for each call on a chain: when it comes out no chain is longer,
and when the depth does not suffice one is.  So a macro that is reached and comes back to itself is never expanded.
-/

namespace Microcode

open List

def Action.macros (s : Surroundings) : Action → List Routine
  | .call name _ => (s.template? name).toList
  | _ => []

mutual

def Statement.macros (s : Surroundings) : Statement → List Routine
  | .branch _ _ yes none => macrosIn s yes
  | .branch _ _ yes (some no) => macrosIn s yes ++ macrosIn s no
  | .block _ body | .whileLoop _ _ body | .loop _ body _ => macrosIn s body
  | .action _ a => a.macros s

def macrosIn (s : Surroundings) : List Statement → List Routine
  | [] => []
  | first :: rest => first.macros s ++ macrosIn s rest

end

/-- The macros are nested in a body: it calls the first of them, and the body of each calls the next one. -/
def Nests (s : Surroundings) (body : List Statement) : List Routine → Prop
  | [] => True
  | m :: rest => m ∈ macrosIn s body ∧ Nests s (m.body.getD []) rest

variable {s : Surroundings} {body : List Statement} {m : Routine}

theorem nests_append {front rest} :
    Nests s body (front ++ m :: rest) ↔ Nests s body (front ++ [m]) ∧ Nests s (m.body.getD []) rest := by
  induction front generalizing body with
  | nil => simp [Nests]
  | cons n front ih => simp only [cons_append, Nests, ih, and_assoc]

/-- Going round a cycle makes a chain as long as one likes. -/
theorem Nests.exists_longer {front round} (hfront : Nests s body (front ++ [m]))
    (hround : Nests s (m.body.getD []) (round ++ [m])) (n : Nat) : ∃ chain, Nests s body chain ∧ n < chain.length := by
  induction n generalizing body front with
  | zero => exact ⟨_, hfront, by simp⟩
  | succ n ih =>
    obtain ⟨chain, hchain, hn⟩ := ih hround
    refine ⟨front ++ m :: chain, nests_append.mpr ⟨hfront, hchain⟩, ?_⟩
    rw [length_append, length_cons]
    omega

def Fault.IsTooDeep (fault : Fault) : Prop := ∃ name, fault = .plain (.expansionTooDeep name)

/-- What a result tells of the calls that are expanded for it: all of them are if there is one, and one of them goes
too deep if that is why there is none. -/
structure Tells {α : Type} (expandCall : Expander) (calls : List Routine) (x : Except Misstep α) : Prop where
  expanded : ∀ {a}, x = .ok a → ∀ m ∈ calls, ∃ args tag statement, expandCall m args tag = .ok statement
  failed : ∀ {e}, x = .error e → e.fault.IsTooDeep → ∃ m ∈ calls, ∃ args tag, expandCall m args tag = .error e

namespace Tells

variable {α β : Type} {expandCall : Expander} {calls more : List Routine} {x : Except Misstep α}

theorem ok {a : α} : Tells expandCall [] (.ok a) := ⟨fun _ => forall_mem_nil _, fun h => by cases h⟩

theorem bind {f : α → Except Misstep β} (hx : Tells expandCall calls x) (hf : ∀ a, Tells expandCall more (f a)) :
    Tells expandCall (calls ++ more) (x >>= f) where
  expanded h := by
    obtain ⟨a, ha, h⟩ := bind_eq_ok.mp h
    exact forall_mem_append.mpr ⟨hx.expanded ha, (hf a).expanded h⟩
  failed h he := by
    rcases bind_eq_error.mp h with h | ⟨a, -, h⟩
    · obtain ⟨m, hm, hcall⟩ := hx.failed h he
      exact ⟨m, mem_append_left more hm, hcall⟩
    · obtain ⟨m, hm, hcall⟩ := (hf a).failed h he
      exact ⟨m, mem_append_right calls hm, hcall⟩

theorem map {f : α → β} (hx : Tells expandCall calls x) : Tells expandCall calls (x >>= fun a => pure (f a)) :=
  append_nil calls ▸ hx.bind fun _ => ok

end Tells

theorem Assignment.not_isTooDeep {state} {a : Assignment} {fault : Fault}
    (h : a.plain state = .error fault) : ¬fault.IsTooDeep := by
  rintro ⟨name, rfl⟩
  simp only [Assignment.plain, pure_bind] at h
  repeat' split at h
  all_goals cases h

theorem Action.not_isTooDeep {state} {a : Action} {fault : Fault} (h : a.plain state = .error fault) :
    ¬fault.IsTooDeep := by
  rintro ⟨name, rfl⟩
  cases a with
  | declareInit | assign =>
    rcases bind_eq_error.mp h with h | ⟨steps, -, h⟩
    · exact Assignment.not_isTooDeep h ⟨name, rfl⟩
    · cases h
  | declareMany names type register isConst =>
    simp only [Action.plain, Binding.base] at h
    repeat' split at h
    all_goals cases h
  | _ => cases h

mutual

theorem Statement.plain_tells (expandCall : Expander) :
    ∀ st : Statement, Tells expandCall (st.macros s) (st.plain s expandCall)
  | .block _ body | .branch _ _ body none | .whileLoop _ _ body | .loop _ body _ =>
    (plainBlock_tells expandCall body).map
  | .branch tag c yes (some no) => (plainBlock_tells expandCall yes).bind fun _ => (plainBlock_tells expandCall no).map
  | .action tag a => by
    cases a with
    | call name args =>
      simp only [Statement.plain, Statement.macros, Action.macros]
      cases s.template? name with
      | none => exact .ok
      | some m =>
        refine .map ⟨fun h => ?_, fun h _ => ⟨m, mem_singleton_self m, args, tag, h⟩⟩
        exact forall_mem_singleton.mpr ⟨args, tag, _, h⟩
    | _ =>
      simp only [Statement.plain]
      split
      · exact .ok
      next fault hfault =>
        refine ⟨(by simp), fun h hdeep => ?_⟩
        cases h
        exact absurd hdeep (Action.not_isTooDeep hfault)

theorem plainBlock_tells (expandCall : Expander) :
    ∀ body : List Statement, Tells expandCall (macrosIn s body) (plainBlock s expandCall body)
  | [] => .ok
  | first :: rest => (first.plain_tells expandCall).bind fun _ => (plainBlock_tells expandCall rest).map

end

/-- Expanding a call fails for another reason than the depth, or comes down to expanding the macro's body with one
less. -/
theorem expander_succ (depth : Nat) (args : List CallArg) (tag : Tag) :
    (∃ e, expander s (depth + 1) m args tag = .error e ∧ ¬e.fault.IsTooDeep)
    ∨ ∃ f : List Statement → Statement, expander s (depth + 1) m args tag
      = plainBlock s (expander s depth) (m.body.getD []) >>= fun body => pure (f body) := by
  simp only [expander]
  split
  next fault hfault =>
    refine .inl ⟨_, rfl, ?_⟩
    rintro ⟨name, ⟨⟩⟩
    simp only [Routine.instantiate] at hfault
    repeat' split at hfault
    all_goals cases hfault
  next names inner hinner =>
    obtain ⟨-, -, hbody⟩ := Routine.instantiate_cases hinner
    rw [hbody]
    exact .inr ⟨_, rfl⟩

/-- A body that comes out has no chain longer than the depth. -/
theorem length_le_of_plainBlock {depth : Nat} {out chain}
    (h : plainBlock s (expander s depth) body = .ok out) (hchain : Nests s body chain) : chain.length ≤ depth := by
  induction chain generalizing body out depth with
  | nil => exact Nat.zero_le depth
  | cons m rest ih =>
    obtain ⟨args, tag, statement, hcall⟩ := (plainBlock_tells _ body).expanded h m hchain.1
    cases depth with
    | zero => cases hcall
    | succ depth =>
      rcases expander_succ depth args tag with ⟨e, he, -⟩ | ⟨f, hf⟩
      · cases he.symm.trans hcall
      · obtain ⟨inner, hinner, -⟩ := bind_eq_ok.mp (hf.symm.trans hcall)
        exact Nat.succ_le_succ (ih hinner hchain.2)

/-- A body that needs more depth has a chain that does. -/
theorem exists_nests_of_plainBlock {depth : Nat} {e}
    (h : plainBlock s (expander s depth) body = .error e) (he : e.fault.IsTooDeep) :
    ∃ chain, Nests s body chain ∧ chain.length = depth + 1 := by
  induction depth generalizing body with
  | zero =>
    obtain ⟨m, hm, -⟩ := (plainBlock_tells _ body).failed h he
    exact ⟨[m], ⟨hm, trivial⟩, rfl⟩
  | succ depth ih =>
    obtain ⟨m, hm, args, tag, hcall⟩ := (plainBlock_tells _ body).failed h he
    rcases expander_succ depth args tag with ⟨e', he', hshallow⟩ | ⟨f, hf⟩
    · cases he'.symm.trans hcall
      exact absurd he hshallow
    · rcases bind_eq_error.mp (hf.symm.trans hcall) with hinner | ⟨inner, -, hinner⟩
      · obtain ⟨chain, hchain, hlength⟩ := ih hinner
        exact ⟨m :: chain, ⟨hm, hchain⟩, congrArg (· + 1) hlength⟩
      · cases hinner

namespace Program

theorem exists_of_plainRoutine_error {r e} (h : plainRoutine s r = .error e) :
    ∃ misstep site, plainBlock s (expander s macroDepth) (r.body.getD []) = .error misstep
      ∧ e = .semantic misstep.fault site := by
  unfold plainRoutine at h
  split at h
  · cases h
  next body hbody =>
    rw [hbody]
    split at h
    · cases h
    next fault statement hblock =>
      cases h
      exact ⟨_, _, hblock, rfl⟩

/-- **Macros that come back to themselves are not expanded, and only deep nesting is refused.**  When a program has a
plain form, no macro that is reached from the body of a function or command is nested in itself; and when no chain of
nested calls from such a body is longer than the depth, expansion never goes too deep. -/
theorem plain_refuses_deep_nesting (p : Program) :
    (∀ q, p.plain = .ok q → ∀ r ∈ p.routines, r.kind ≠ .template → ∀ front m,
      Nests p.surroundings (r.body.getD []) (front ++ [m]) →
      ∀ round, ¬Nests p.surroundings (m.body.getD []) (round ++ [m]))
    ∧ ((∀ r ∈ p.routines, r.kind ≠ .template → ∀ chain, Nests p.surroundings (r.body.getD []) chain →
        chain.length ≤ 64) →
      ∀ name site, p.plain ≠ .error (.semantic (.plain (.expansionTooDeep name)) site)) := by
  constructor
  · intro q hplain r hr hkind front m hfront round hround
    obtain ⟨routines, hroutines, -⟩ := bind_eq_ok.mp hplain
    have hall := mapM_induction (R := fun list _ => ∀ r ∈ list, ∃ r', plainRoutine p.surroundings r = .ok r') hroutines
      (forall_mem_nil _) fun _ b _ _ hb ih => forall_mem_cons.mpr ⟨⟨b, hb⟩, ih⟩
    obtain ⟨r', hr'⟩ := hall r (mem_filter.mpr ⟨hr, by simpa using hkind⟩)
    obtain ⟨chain, hchain, hlong⟩ := hfront.exists_longer hround 64
    have hshort : chain.length ≤ 64 := by
      rcases plainRoutine_cases hr' with ⟨hnone, -⟩ | ⟨body, out, hbody, hout, -⟩
      · rw [hnone] at hchain
        exact length_le_of_plainBlock (show plainBlock _ (expander _ 64) [] = .ok [] from rfl) hchain
      · rw [hbody] at hchain
        exact length_le_of_plainBlock hout hchain
    exact absurd hshort (Nat.not_le_of_gt hlong)
  · intro hchains name site hplain
    rcases bind_eq_error.mp hplain with hroutines | ⟨routines, -, h⟩
    · obtain ⟨r, hr, h⟩ := error_of_mapM hroutines
      obtain ⟨hr, hkind⟩ := mem_filter.mp hr
      obtain ⟨e, site', he, herror⟩ := exists_of_plainRoutine_error h
      obtain ⟨chain, hchain, hlong⟩ := exists_nests_of_plainBlock he ⟨name, (CompileError.semantic.inj herror).1.symm⟩
      have hshort := hchains r hr (by simpa using hkind) chain hchain
      rw [hlong] at hshort
      exact absurd hshort (by decide)
    · cases h

theorem doubling_nests_double :
    ∃ main double : Routine, doubling.routines = [double, main]
      ∧ Nests doubling.surroundings (main.body.getD []) [double]
      ∧ (∀ round, ¬Nests doubling.surroundings (double.body.getD []) (round ++ [double]))
      ∧ ∀ name site, doubling.plain ≠ .error (.semantic (.plain (.expansionTooDeep name)) site) := by
  have hdeep := plain_refuses_deep_nesting doubling
  refine ⟨_, _, rfl, ⟨mem_singleton_self _, trivial⟩, ?_, hdeep.2 ?_⟩
  · exact hdeep.1 doubled rfl _ (mem_cons_of_mem _ mem_cons_self) (by decide) [] _ ⟨mem_singleton_self _, trivial⟩
  · intro r hr hkind chain hchain
    simp only [doubling, mem_cons, not_mem_nil, or_false] at hr
    rcases hr with rfl | rfl
    · exact absurd rfl hkind
    · rcases chain with _ | ⟨m, _ | ⟨n, rest⟩⟩
      · exact Nat.zero_le 64
      · exact Nat.le_add_left 1 63
      · obtain rfl := mem_singleton.mp hchain.1
        cases hchain.2.1

end Program
end Microcode
