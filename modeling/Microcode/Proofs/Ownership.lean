import Microcode.Proofs.Scope

/-!
Which registers an allocation can take.

`ScopeStack.allocate` asks one question, whether a register has an owner in the innermost scope.  The
question one would like it to ask is whether a variable of any scope on the stack still takes the register:
the enclosing scopes come back with their variables when the inner ones are left.
-/

namespace Microcode

open List Scope

inductive ScopeOp where
  | push
  | pop
  | declare (name : String) (v : Variable) (shares : Bool)
  | undefine (name : String)
deriving DecidableEq, Repr

def ScopeStack.step (s : ScopeStack) : ScopeOp → ScopeStack
  | .push => s.push
  | .pop => s.pop
  | .declare name v shares => (s.declare name v shares).2
  | .undefine name => (s.undefine name).2

def ScopeStack.run (s : ScopeStack) (ops : List ScopeOp) : ScopeStack := ops.foldl step s

namespace ScopeStack

def Holds (s : ScopeStack) (q : Register) : Prop := ∃ scope ∈ s.top :: s.outer, scope.Holds q

/-- A variable on the stack takes the register, other than the innermost scope's `name`. -/
def HoldsBeside (s : ScopeStack) (name : String) (q : Register) : Prop :=
  s.top.HoldsBeside name q ∨ ∃ scope ∈ s.outer, scope.Holds q

/-- The name that an operation ends in the innermost scope, and the registers to which it binds the
name anew. -/
def ending? (s : ScopeStack) : ScopeOp → Option (String × List Register)
  | .push | .pop => none
  | .undefine name => some (name, [])
  | .declare name v shares =>
    if s.top.locals.contains name then none
    else
      match (s.declare name v shares).1 with
      | .ok _ => some (name, v.registers)
      | .error _ => some (name, [])

def Takes (s : ScopeStack) (op : ScopeOp) (q : Register) : Prop :=
  ∃ name taken, s.ending? op = some (name, taken) ∧ q ∈ taken

/-- The operation ends a name that owns the register while another variable on the stack still takes
it, and does not give it back to the name. -/
def Exposes (s : ScopeStack) (op : ScopeOp) (q : Register) : Prop :=
  ∃ name taken, s.ending? op = some (name, taken) ∧ s.top.Owns name q ∧ q ∉ taken ∧ s.HoldsBeside name q

variable {s : ScopeStack} {op : ScopeOp} {name : String} {taken : List Register} {q : Register}

theorem takes_iff (hending : s.ending? op = some (name, taken)) : s.Takes op q ↔ q ∈ taken := by
  constructor
  · rintro ⟨_, _, hother, hq⟩
    rw [hending] at hother
    cases hother
    exact hq
  · exact fun hq => ⟨name, taken, hending, hq⟩

theorem exposes_iff (hending : s.ending? op = some (name, taken)) :
    s.Exposes op q ↔ s.top.Owns name q ∧ q ∉ taken ∧ s.HoldsBeside name q := by
  constructor
  · rintro ⟨_, _, hother, hq⟩
    rw [hending] at hother
    cases hother
    exact hq
  · exact fun hq => ⟨name, taken, hending, hq⟩

theorem HoldsBeside.holds (h : s.HoldsBeside name q) : s.Holds q := by
  rcases h with htop | ⟨scope, hscope, hq⟩
  · exact ⟨s.top, .head _, htop.holds⟩
  · exact ⟨scope, .tail _ hscope, hq⟩

theorem step_of_ending (h : s.ending? op = some (name, taken)) :
    (s.step op).outer = s.outer ∧ s.top.Replaces name taken (s.step op).top := by
  cases op with
  | push | pop => cases h
  | undefine other =>
    cases h
    exact ⟨rfl, s.top.replaces_undefine name⟩
  | declare other v shares =>
    rcases s.top.declare_cases other v shares with
      ⟨hlocal, -⟩ | ⟨hlocal, hok⟩ | ⟨hlocal, e, herror⟩
    · simp [ending?, hlocal] at h
    · simp only [ending?, declare, hok, contains_iff_mem, hlocal, if_false] at h
      cases h
      have hstep : s.step (.declare name v shares)
          = ⟨(s.top.unbind name).bind name v, s.outer⟩ := by simp only [step, declare, hok]
      rw [hstep]
      exact ⟨rfl, s.top.replaces_bind name v⟩
    · simp only [ending?, declare, herror, contains_iff_mem, hlocal, if_false] at h
      cases h
      have hstep : s.step (.declare name v shares) = ⟨s.top.unbind name, s.outer⟩ := by
        simp only [step, declare, herror]
      rw [hstep]
      exact ⟨rfl, s.top.replaces_unbind name⟩

theorem step_of_no_ending (h : s.ending? op = none) : op = .push ∨ op = .pop ∨ s.step op = s := by
  cases op with
  | push => exact .inl rfl
  | pop => exact .inr (.inl rfl)
  | undefine other => cases h
  | declare other v shares =>
    rcases s.top.declare_cases other v shares with
      ⟨-, hlocal⟩ | ⟨hlocal, hok⟩ | ⟨hlocal, e, herror⟩
    · exact .inr (.inr (by simp only [step, declare, hlocal]))
    · simp [ending?, declare, hok, hlocal] at h
    · simp [ending?, declare, herror, hlocal] at h

theorem holds_replaced (hending : s.ending? op = some (name, taken)) (h : (s.step op).Holds q) :
    q ∈ taken ∨ s.HoldsBeside name q := by
  obtain ⟨houter, htop⟩ := step_of_ending hending
  obtain ⟨scope, hscope, hq⟩ := h
  rcases mem_cons.mp hscope with rfl | hscope
  · obtain ⟨other, v, hget, hv⟩ := hq
    by_cases hother : other = name
    · subst hother
      exact .inl ((htop.self v hget).2 ▸ hv)
    · rw [htop.others other hother] at hget
      exact .inr (.inl ⟨other, v, hother, hget, hv⟩)
  · exact .inr (.inr ⟨scope, houter ▸ hscope, hq⟩)

theorem holds_push (h : s.push.Holds q) : s.Holds q := by
  obtain ⟨scope, hscope, hq⟩ := h
  rcases mem_cons.mp hscope with rfl | hscope
  · exact ⟨s.top, .head _, hq⟩
  · exact ⟨scope, hscope, hq⟩

theorem holds_of_step (hpop : op ≠ .pop) (h : (s.step op).Holds q) : s.Takes op q ∨ s.Holds q := by
  cases hending : s.ending? op with
  | none =>
    rcases step_of_no_ending hending with rfl | rfl | hstep
    · exact .inr (holds_push h)
    · exact absurd rfl hpop
    · exact .inr (hstep ▸ h)
  | some ending =>
    rcases holds_replaced hending h with htaken | hbeside
    · exact .inl ⟨_, _, hending, htaken⟩
    · exact .inr hbeside.holds

/-- **A register in use has no owner after an operation** exactly if the operation exposes it, or if
it had none before and the operation does not take it. -/
theorem isFree_step_iff (hs : s.top.SingleOwners) (hpop : op ≠ .pop) (hq : (s.step op).Holds q) :
    (s.step op).top.isFree q ↔ s.Exposes op q ∨ (s.top.isFree q ∧ ¬ s.Takes op q) := by
  cases hending : s.ending? op with
  | none =>
    have hexposes : ¬ s.Exposes op q := by simp [Exposes, hending]
    have htakes : ¬ s.Takes op q := by simp [Takes, hending]
    have hfree : (s.step op).top.isFree q = s.top.isFree q := by
      rcases step_of_no_ending hending with rfl | rfl | hstep
      · rfl
      · exact absurd rfl hpop
      · rw [hstep]
    simp only [hfree, hexposes, htakes, false_or, not_false_eq_true, and_true]
  | some ending =>
    obtain ⟨name, taken⟩ := ending
    rw [(step_of_ending hending).2.free q, isFree_unbind_iff hs, exposes_iff hending, takes_iff hending]
    have hbeside := holds_replaced hending hq
    grind

/-! ### The history of a stack -/

def leave : List ScopeOp → Option (List ScopeOp)
  | [] => none
  | .push :: earlier => some earlier
  | _ :: earlier => leave earlier

def extend (earlier : List ScopeOp) : ScopeOp → List ScopeOp
  | .pop => (leave earlier).getD earlier
  | op => op :: earlier

/-- The operations of a run that the stack still shows, the latest first. -/
def history (ops : List ScopeOp) : List ScopeOp := ops.foldl extend []

def ofHistory : List ScopeOp → ScopeStack
  | [] => {}
  | op :: earlier => (ofHistory earlier).step op

variable {h : List ScopeOp}

theorem leave_sublist {earlier} (hleave : leave h = some earlier) : earlier.Sublist h := by
  fun_induction leave h with
  | case1 => cases hleave
  | case2 rest =>
    cases hleave
    exact sublist_cons_self _ _
  | case3 op rest _ ih => exact (ih hleave).cons op

theorem step_outer (hpush : op ≠ .push) (hpop : op ≠ .pop) : (s.step op).outer = s.outer := by
  cases op with
  | push => exact absurd rfl hpush
  | pop => exact absurd rfl hpop
  | declare name v shares => rfl
  | undefine name => rfl

theorem outer_ofHistory (hpop : .pop ∉ h) : (ofHistory h).outer = match leave h with
      | none => []
      | some earlier => (ofHistory earlier).top :: (ofHistory earlier).outer := by
  fun_induction leave h with
  | case1 => rfl
  | case2 rest => rfl
  | case3 op rest hpush ih =>
    rw [mem_cons, not_or] at hpop
    rw [ofHistory, step_outer hpush (Ne.symm hpop.1)]
    exact ih hpop.2

theorem pop_notMem_extend (hpop : .pop ∉ h) (op : ScopeOp) : .pop ∉ extend h op := by
  cases op with
  | pop =>
    rw [extend]
    cases hleave : leave h with
    | none => exact hpop
    | some earlier => exact fun hmem => hpop ((leave_sublist hleave).mem hmem)
  | _ => simpa [extend] using hpop

theorem ofHistory_extend (hpop : .pop ∉ h) (op : ScopeOp) : ofHistory (extend h op) = (ofHistory h).step op := by
  cases op with
  | pop =>
    have houter := outer_ofHistory hpop
    rw [extend, step, pop]
    cases hleave : leave h with
    | none =>
      rw [hleave] at houter
      rw [houter, Option.getD_none]
    | some earlier =>
      rw [hleave] at houter
      rw [houter, Option.getD_some]
  | _ => rfl

theorem ofHistory_history (ops : List ScopeOp) : ofHistory (history ops) = run {} ops ∧ .pop ∉ history ops := by
  suffices ∀ h, .pop ∉ h → ofHistory (ops.foldl extend h) = (ofHistory h).run ops ∧ .pop ∉ ops.foldl extend h from
    this [] not_mem_nil
  induction ops with
  | nil => exact fun h hpop => ⟨rfl, hpop⟩
  | cons op rest ih =>
    intro h hpop
    obtain ⟨hrun, hkept⟩ := ih (extend h op) (pop_notMem_extend hpop op)
    refine ⟨?_, hkept⟩
    rw [foldl_cons, hrun, ofHistory_extend hpop op]
    rfl

theorem single_ofHistory (hpop : .pop ∉ h) : (ofHistory h).top.SingleOwners := by
  induction h with
  | nil => exact nodup_nil
  | cons op earlier ih =>
    rw [mem_cons, not_or] at hpop
    have hs := ih hpop.2
    rw [ofHistory]
    cases hending : (ofHistory earlier).ending? op with
    | none =>
      rcases step_of_no_ending hending with rfl | rfl | hstep
      · exact hs
      · exact absurd rfl hpop.1
      · rw [hstep]
        exact hs
    | some ending => exact (step_of_ending hending).2.single hs

/-- **A register that an operation of the history exposed, and none has taken since.** -/
def Exposed : List ScopeOp → Register → Prop
  | [], _ => False
  | op :: earlier, q => (ofHistory earlier).Exposes op q ∨ (Exposed earlier q ∧ ¬ (ofHistory earlier).Takes op q)

theorem isFree_iff_exposed (hpop : .pop ∉ h) (hq : (ofHistory h).Holds q) :
    (ofHistory h).top.isFree q ↔ Exposed h q := by
  induction h with
  | nil =>
    obtain ⟨scope, hscope, name, v, hget, -⟩ := hq
    rw [mem_singleton.mp hscope] at hget
    cases hget
  | cons op earlier ih =>
    rw [mem_cons, not_or] at hpop
    have hop : op ≠ .pop := Ne.symm hpop.1
    rw [ofHistory] at hq ⊢
    rw [isFree_step_iff (single_ofHistory hpop.2) hop hq]
    refine or_congr_right (and_congr_left fun htakes => ?_)
    exact ih hpop.2 ((holds_of_step hop hq).resolve_left htakes)

theorem exists_outer_of_get? (hpop : .pop ∉ h) {v}
    (hget : (ofHistory h).top.get? name = some v) (hlocal : name ∉ (ofHistory h).top.locals) :
    ∃ scope ∈ (ofHistory h).outer, scope.get? name = some v := by
  induction h with
  | nil => cases hget
  | cons op earlier ih =>
    rw [mem_cons, not_or] at hpop
    rw [ofHistory] at hget hlocal ⊢
    cases hending : (ofHistory earlier).ending? op with
    | none =>
      rcases step_of_no_ending hending with rfl | rfl | hstep
      · exact ⟨_, .head _, hget⟩
      · exact absurd rfl hpop.1
      · rw [hstep] at hget hlocal ⊢
        exact ih hpop.2 hget hlocal
    | some ending =>
      obtain ⟨houter, htop⟩ := step_of_ending hending
      have hother : name ≠ ending.1 := by
        rintro rfl
        exact hlocal (htop.self v hget).1
      rw [htop.others name hother] at hget
      rw [houter]
      exact ih hpop.2 hget fun hmem => hlocal (htop.locals name hother hmem)

theorem exposes_of_hides (hpop : .pop ∉ h) (hending : (ofHistory h).ending? op = some (name, taken))
    (hlocal : name ∉ (ofHistory h).top.locals) (howns : (ofHistory h).top.Owns name q)
    (hq : q ∉ taken) : (ofHistory h).Exposes op q := by
  obtain ⟨v, hget, hv⟩ := howns.2
  obtain ⟨scope, hscope, houter⟩ := exists_outer_of_get? hpop hget hlocal
  exact ⟨name, taken, hending, howns, hq, .inr ⟨scope, hscope, name, v, houter, hv⟩⟩

variable {type : DataType}

theorem isFree_of_allocate {r} (h : s.allocate name type = .ok r) : ∀ q ∈ r.span type, s.top.isFree q := by
  unfold allocate at h
  split at h
  · next first hfind =>
      cases h
      have hfits := find?_some hfind
      simp only [fits, Bool.and_eq_true, Bool.or_eq_true, beq_iff_eq] at hfits
      intro q hq
      unfold Register.span at hq
      split at hq
      · next htwo =>
          have hsecond := hfits.2.resolve_left (by omega)
          rcases mem_cons.mp hq with rfl | hq
          · exact hfits.1
          · rw [Option.mem_toList] at hq
            rw [hq] at hsecond
            exact (Bool.and_eq_true_iff.mp hsecond).2
      · rw [mem_singleton.mp hq]
        exact hfits.1
  · cases h

theorem allocate_first {before after r} (htype : type.registerCount = 1) (hpool : pool type = before ++ r :: after)
    (hbefore : ∀ q ∈ before, s.top.isFree q = false) (hr : s.top.isFree r) (name : String) :
    s.allocate name type = .ok r := by
  have hfind : (pool type).find? (s.fits type) = some r := by
    refine find?_eq_some_iff_append.mpr ⟨by simp [fits, hr, htype], before, after, hpool, ?_⟩
    intro q hq
    simp [fits, hbefore q hq]
  rw [allocate, hfind]

/-- The operations declare variables with new names, each at the register that allocation gives. -/
inductive NewLocals : ScopeStack → List ScopeOp → Prop where
  | nil (s : ScopeStack) : NewLocals s []
  | cons {s name v ops}
      (hlocal : name ∉ s.top.locals) (hnew : s.top.get? name = none)
      (hv : s.allocate name v.type = .ok v.register)
      (hops : NewLocals (s.step (.declare name v false)) ops) :
      NewLocals s (.declare name v false :: ops)

theorem step_new {v} (hlocal : name ∉ s.top.locals)
    (hnew : s.top.get? name = none) (hv : s.allocate name v.type = .ok v.register) :
    s.step (.declare name v false) = ⟨s.top.bind name v, s.outer⟩ := by
  have hdeclare := declare_new hlocal hnew (isFree_of_allocate hv)
  simp only [step, declare, hdeclare]

theorem Holds.step_new (hnew : s.top.get? name = none) (v : Variable) (h : s.Holds q) :
    Holds ⟨s.top.bind name v, s.outer⟩ q := by
  obtain ⟨scope, hscope, hq⟩ := h
  rcases mem_cons.mp hscope with rfl | hscope
  · obtain ⟨other, w, hget, hw⟩ := hq
    have hother : other ≠ name := by
      rintro rfl
      rw [hnew] at hget
      cases hget
    exact ⟨_, .head _, other, w, by rw [get?_bind, if_neg hother, hget], hw⟩
  · exact ⟨scope, .tail _ hscope, hq⟩

theorem exists_newLocals (htype : type.registerCount = 1)
    (after : List Register) : ∀ (s : ScopeStack) (before : List Register),
      pool type = before ++ after → (∀ r ∈ before, s.top.isFree r = false) → q ∈ after →
      s.top.isFree q → s.Holds q →
      ∃ ops, NewLocals s ops ∧ (s.run ops).Holds q ∧ ∀ name, (s.run ops).allocate name type = .ok q := by
  induction after with
  | nil =>
    intro s before _ _ hq
    cases hq
  | cons r rest ih =>
    intro s before hpool hbefore hq hfree hholds
    by_cases hrq : r = q
    · subst hrq
      exact ⟨[], .nil s, hholds, allocate_first htype hpool hbefore hfree⟩
    have hq : q ∈ rest := (mem_cons.mp hq).resolve_left (Ne.symm hrq)
    have hpool' : pool type = (before ++ [r]) ++ rest := by rw [hpool]; simp
    by_cases hr : s.top.isFree r
    · -- the register comes before `q` in the pool: give it to a new variable
      obtain ⟨name, hlocal, hnew⟩ := s.top.exists_new_name
      let v : Variable := ⟨r, type, false⟩
      have hregisters : v.registers = [r] := by simp [v, Variable.registers, Register.span, htype]
      have hv : s.allocate name v.type = .ok v.register := allocate_first htype hpool hbefore hr name
      have hstep := step_new hlocal hnew hv
      have hfree' : ∀ x, (s.top.bind name v).isFree x ↔ s.top.isFree x ∧ x ≠ r := by
        intro x
        rw [isFree_bind, hregisters, mem_singleton]
      have hbefore' : ∀ x ∈ before ++ [r], (s.top.bind name v).isFree x = false := by
        intro x hx
        rw [Bool.eq_false_iff, Ne, hfree']
        rintro ⟨hx', hne⟩
        rcases mem_append.mp hx with hx | hx
        · rw [hbefore x hx] at hx'
          cases hx'
        · exact hne (mem_singleton.mp hx)
      obtain ⟨ops, hops, hrun⟩ := ih ⟨s.top.bind name v, s.outer⟩ (before ++ [r]) hpool' hbefore'
        hq ((hfree' q).mpr ⟨hfree, Ne.symm hrq⟩) (hholds.step_new hnew v)
      rw [← hstep] at hops hrun
      exact ⟨.declare name v false :: ops, .cons hlocal hnew hv hops, hrun⟩
    · refine ih s (before ++ [r]) hpool' (fun x hx => ?_) hq hfree hholds
      rcases mem_append.mp hx with hx | hx
      · exact hbefore x hx
      · rw [mem_singleton.mp hx]
        exact Bool.eq_false_iff.mpr hr

end ScopeStack

/--
**Allocation takes a register in use only if it was exposed, and an exposed one sooner or later.**

After any run from the empty stack, a register that an allocation gives out while a variable of some
scope on the stack takes it is an exposed one.  Conversely a register of a pool that is exposed and in
use is what allocation gives once enough new variables have been declared.  And hiding a variable of
an enclosing scope, or undefining it in an inner one, always exposes the registers that it owns, save
those to which the operation binds the name anew.
-/
theorem allocate_takes_exposed_registers (ops : List ScopeOp) :
    (∀ name type r, (ScopeStack.run {} ops).allocate name type = .ok r →
      ∀ q ∈ r.span type, (ScopeStack.run {} ops).Holds q →
        ScopeStack.Exposed (ScopeStack.history ops) q)
    ∧ (∀ type q, type.registerCount = 1 → q ∈ pool type → (ScopeStack.run {} ops).Holds q →
        ScopeStack.Exposed (ScopeStack.history ops) q →
        ∃ more, ScopeStack.NewLocals (ScopeStack.run {} ops) more
          ∧ (ScopeStack.run {} (ops ++ more)).Holds q
          ∧ ∀ name, (ScopeStack.run {} (ops ++ more)).allocate name type = .ok q)
    ∧ ∀ op name taken q, (ScopeStack.run {} ops).ending? op = some (name, taken) →
        name ∉ (ScopeStack.run {} ops).top.locals → (ScopeStack.run {} ops).top.Owns name q →
        q ∉ taken → (ScopeStack.run {} ops).Exposes op q := by
  obtain ⟨hrun, hpop⟩ := ScopeStack.ofHistory_history ops
  have hexposed : ∀ q, (ScopeStack.run {} ops).Holds q →
      ((ScopeStack.run {} ops).top.isFree q = true
        ↔ ScopeStack.Exposed (ScopeStack.history ops) q) := by
    rw [← hrun]
    exact fun q hq => ScopeStack.isFree_iff_exposed hpop hq
  refine ⟨fun name type r hallocate q hspan hq => ?_, fun type q htype hpool hq hexp => ?_, ?_⟩
  · exact (hexposed q hq).mp (ScopeStack.isFree_of_allocate hallocate q hspan)
  · obtain ⟨more, hmore, hholds, hallocate⟩ :=
      ScopeStack.exists_newLocals htype (pool type) _ [] rfl (by simp) hpool
        ((hexposed q hq).mpr hexp) hq
    refine ⟨more, hmore, ?_⟩
    rw [ScopeStack.run, List.foldl_append]
    exact ⟨hholds, hallocate⟩
  · rw [← hrun]
    exact fun op name taken q hending hlocal => ScopeStack.exposes_of_hides hpop hending hlocal

def undefinedInBlock : List ScopeOp := [.declare "x" ⟨.scalar 8, .u32, false⟩ false, .push, .undefine "x"]

theorem undefinedInBlock_allocates_exposed_register :
    (ScopeStack.run {} undefinedInBlock).allocate "y" .u32 = .ok (.scalar 8)
    ∧ (ScopeStack.run {} undefinedInBlock).Holds (.scalar 8)
    ∧ ScopeStack.Exposed (ScopeStack.history undefinedInBlock) (.scalar 8) := by
  have hallocate : (ScopeStack.run {} undefinedInBlock).allocate "y" .u32 = .ok (.scalar 8) := rfl
  have hholds : (ScopeStack.run {} undefinedInBlock).Holds (.scalar 8) :=
    ⟨_, List.mem_cons_of_mem _ List.mem_cons_self, "x", ⟨.scalar 8, .u32, false⟩, rfl, by decide⟩
  refine ⟨hallocate, hholds, ?_⟩
  exact (allocate_takes_exposed_registers undefinedInBlock).1 "y" .u32 _ hallocate _ (by decide) hholds

end Microcode
