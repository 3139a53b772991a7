import Microcode.Proofs.Ownership

/-!
The books of a scope agree.

A scope keeps the variables that can be seen, the owners of registers and the names that it has declared
itself.  `Scope.Consistent` says what always holds between the three: an owner can be seen and takes the
register, and what has been declared can be seen.
-/

namespace Microcode

open List

namespace Scope

variable {s : Scope} {name other : String} {v : Variable} {q : Register}

/-- Every owner of a register is a variable that takes it, and every name that the scope has declared
stands for a variable. -/
structure Consistent (s : Scope) : Prop where
  owned : ∀ q name, (q, name) ∈ s.owners → s.Sees name q
  declared : ∀ name ∈ s.locals, ∃ v, s.get? name = some v

/-- Different variables take different registers, and the owner of a register is the variable that takes
it. -/
structure Exclusive (s : Scope) : Prop where
  disjoint : ∀ name other v w, name ≠ other → s.get? name = some v → s.get? other = some w →
    ∀ q ∈ v.registers, q ∉ w.registers
  owner_iff : ∀ q name, s.owner q = some name ↔ s.Sees name q

/-! ### The end of a name and a new binding -/

theorem Consistent.exclusive (hs : s.Consistent) (hsingle : s.SingleOwners) (hcovered : s.Covered) : s.Exclusive where
  disjoint name other v w hne hv hw q hqv hqw := by
    have hname := lookup_of_mem hsingle (hcovered name q ⟨v, hv, hqv⟩)
    have hother := lookup_of_mem hsingle (hcovered other q ⟨w, hw, hqw⟩)
    exact hne (Option.some.inj (hname.symm.trans hother))
  owner_iff q name := ⟨fun h => hs.owned q name (mem_of_lookup h), fun h => lookup_of_mem hsingle (hcovered name q h)⟩

theorem Consistent.unbind (hs : s.Consistent) (hlocal : name ∉ s.locals) : (s.unbind name).Consistent where
  owned := OwnersBound.unbind hs.owned name
  declared other h := by
    rw [locals_unbind] at h
    have hother : other ≠ name := fun heq => hlocal (heq ▸ h)
    rw [get?_unbind, if_neg hother]
    exact hs.declared other h

theorem Consistent.bind (hs : s.Consistent) (hnew : s.get? name = none) (v : Variable) :
    (s.bind name v).Consistent where
  owned := OwnersBound.bind hs.owned hnew v
  declared other h := by
    rw [get?_bind]
    split
    · exact ⟨v, rfl⟩
    · next hother =>
        rw [locals_bind] at h
        exact hs.declared other ((mem_cons.mp h).resolve_left hother)

/-- A declaration that shares nothing succeeds exactly if its name is new in the scope and its registers
are free once the name has ended. -/
theorem declare_ok_iff : (s.declare name v false).1 = .ok () ↔
    name ∉ s.locals ∧ ∀ q ∈ v.registers, (s.unbind name).isFree q := by
  rw [← clash?_eq_none]
  unfold declare
  by_cases hlocal : name ∈ s.locals
  · simp [hlocal]
  · cases hclash : (s.unbind name).clash? v <;> simp [hlocal, hclash]

theorem Consistent.declare (hs : s.Consistent) (name : String) (v : Variable) (shares : Bool) :
    (s.declare name v shares).2.Consistent := by
  rcases s.declare_cases name v shares with ⟨-, h⟩ | ⟨hlocal, h⟩ | ⟨hlocal, e, h⟩
  · rw [h]
    exact hs
  · rw [h]
    exact (hs.unbind hlocal).bind (s.get?_unbind_self name) v
  · rw [h]
    exact hs.unbind hlocal

theorem Consistent.undefine (hs : s.Consistent) (name : String) : (s.undefine name).2.Consistent := by
  -- The name is forgotten as a declared one before it ends.
  have hforgot : Consistent { s with locals := s.locals.filter (· != name) } :=
    ⟨hs.owned, fun other h => hs.declared other (mem_filter.mp h).1⟩
  exact hforgot.unbind (by simp)

theorem Covered.declare (hs : s.Covered) (name : String) (v : Variable) : (s.declare name v false).2.Covered := by
  rcases s.declare_cases name v false with ⟨-, h⟩ | ⟨-, h⟩ | ⟨-, e, h⟩
  · rw [h]
    exact hs
  · have hfree := (declare_ok_iff.mp (congrArg Prod.fst h)).2
    rw [h]
    exact (hs.unbind name).bind hfree name
  · rw [h]
    exact hs.unbind name

theorem Covered.undefine (hs : s.Covered) (name : String) : (s.undefine name).2.Covered :=
  Covered.unbind (s := { s with locals := s.locals.filter (· != name) }) hs name

theorem SingleOwners.declare (hs : s.SingleOwners) (name : String) (v : Variable) (shares : Bool) :
    (s.declare name v shares).2.SingleOwners := by
  rcases s.declare_cases name v shares with ⟨-, h⟩ | ⟨-, h⟩ | ⟨-, e, h⟩
  · rw [h]
    exact hs
  · rw [h]
    exact (hs.unbind name).bind name v
  · rw [h]
    exact hs.unbind name

theorem SingleOwners.undefine (hs : s.SingleOwners) (name : String) : (s.undefine name).2.SingleOwners :=
  (s.replaces_undefine name).single hs

end Scope

def ScopeOp.shares : ScopeOp → Bool
  | declare _ _ shares => shares
  | _ => false

/-- Whether operations leave the scopes that they enter and no others; `entered` scopes have been entered
before them. -/
def ScopeOp.closes (entered : Nat) : List ScopeOp → Bool
  | [] => entered == 0
  | push :: rest => closes (entered + 1) rest
  | pop :: rest => entered != 0 && closes (entered - 1) rest
  | _ :: rest => closes entered rest

namespace ScopeStack

variable {ops : List ScopeOp}

theorem scopes_of_run {P : Scope → Prop} (hpush : ∀ s, P s → P { s with locals := [] })
    (hdeclare : ∀ name v shares, .declare name v shares ∈ ops → ∀ s : Scope, P s → P (s.declare name v shares).2)
    (hundefine : ∀ name, ∀ s : Scope, P s → P (s.undefine name).2)
    {s : ScopeStack} (hs : ∀ scope ∈ s.top :: s.outer, P scope) :
    ∀ scope ∈ (s.run ops).top :: (s.run ops).outer, P scope := by
  induction ops generalizing s with
  | nil => exact hs
  | cons op rest ih =>
    refine ih (fun name v shares hmem => hdeclare name v shares (.tail op hmem)) ?_
    obtain ⟨htop, houter⟩ := forall_mem_cons.mp hs
    cases op with
    | push => exact forall_mem_cons.mpr ⟨hpush _ htop, hs⟩
    | pop =>
      show ∀ scope ∈ s.pop.top :: s.pop.outer, P scope
      unfold pop
      split
      · exact hs
      · next heq => exact heq ▸ houter
    | declare name v shares => exact forall_mem_cons.mpr ⟨hdeclare name v shares (.head _) _ htop, houter⟩
    | undefine name => exact forall_mem_cons.mpr ⟨hundefine name _ htop, houter⟩

theorem consistent_run (ops : List ScopeOp) : ∀ scope ∈ (run {} ops).top :: (run {} ops).outer, scope.Consistent := by
  refine scopes_of_run (fun s hs => ⟨hs.owned, by simp⟩) (fun name v shares _ s hs => hs.declare name v shares)
    (fun name s hs => hs.undefine name) ?_
  simpa using Scope.Consistent.mk (s := {}) (by simp) (by simp)

theorem run_of_closes (outer : List Scope) {top : Scope} {entered} (h : ScopeOp.closes entered.length ops) :
    ∃ top', run ⟨top, entered ++ outer⟩ ops = ⟨top', outer⟩ := by
  induction ops generalizing top entered with
  | nil =>
    have hentered : entered = [] := length_eq_zero_iff.mp (eq_of_beq h)
    exact ⟨top, by rw [hentered]; rfl⟩
  | cons op rest ih =>
    cases op with
    | push => exact ih (show ScopeOp.closes (top :: entered).length rest from h)
    | pop =>
      cases entered with
      | nil => cases h
      | cons scope entered => exact ih h
    | declare name v shares | undefine name => exact ih h

theorem run_block (s : ScopeStack) (h : ScopeOp.closes 0 ops) : s.run (.push :: ops ++ [.pop]) = s := by
  have hpush : ∃ top, s.run (.push :: ops) = ⟨top, s.top :: s.outer⟩ :=
    run_of_closes (s.top :: s.outer) (show ScopeOp.closes ([] : List Scope).length ops from h)
  obtain ⟨top, hpush⟩ := hpush
  rw [run, foldl_append]
  exact congrArg pop hpush

end ScopeStack

/--
**The books of every scope agree after every run.**

After any run from the empty stack, every owner of a register is a variable of its scope that takes the
register, and every declared name can be seen.  If the run declares no name that may share registers, then
in each scope different variables take different registers, and a register is owned by the variable that
takes it.  A register that is given out for a name that the innermost scope has not declared can be declared
for it.  And entering a scope, any operations that leave what they enter, and leaving it again bring the
stack back as it was.
-/
theorem run_keeps_books (ops : List ScopeOp) :
    (∀ scope ∈ (ScopeStack.run {} ops).top :: (ScopeStack.run {} ops).outer, scope.Consistent)
    ∧ ((∀ op ∈ ops, op.shares = false) →
        ∀ scope ∈ (ScopeStack.run {} ops).top :: (ScopeStack.run {} ops).outer, scope.Exclusive)
    ∧ (∀ name type r isConst, (ScopeStack.run {} ops).allocate name type = .ok r →
        name ∉ (ScopeStack.run {} ops).top.locals →
        ((ScopeStack.run {} ops).declare name ⟨r, type, isConst⟩ false).1 = .ok ())
    ∧ ∀ block, ScopeOp.closes 0 block = true →
        ScopeStack.run {} (ops ++ .push :: block ++ [.pop]) = ScopeStack.run {} ops := by
  have hconsistent := ScopeStack.consistent_run ops
  have hsingle : ∀ scope ∈ (ScopeStack.run {} ops).top :: (ScopeStack.run {} ops).outer,
      scope.SingleOwners := by
    refine ScopeStack.scopes_of_run (fun s hs => hs)
      (fun name v shares _ s hs => hs.declare name v shares) (fun name s hs => hs.undefine name) ?_
    simp [Scope.SingleOwners]
  refine ⟨hconsistent, fun hshares scope hscope => ?_, fun name type r isConst hallocate hlocal => ?_,
    fun block hblock => ?_⟩
  · refine (hconsistent scope hscope).exclusive (hsingle scope hscope) ?_
    refine ScopeStack.scopes_of_run (P := Scope.Covered) (fun s hs => hs)
      (fun name v shares hmem s hs => ?_) (fun name s hs => hs.undefine name) ?_ scope hscope
    · obtain rfl : shares = false := hshares _ hmem
      exact hs.declare name v
    · simp [Scope.Covered, Scope.Sees, Scope.get?]
  · refine Scope.declare_ok_iff.mpr ⟨hlocal, fun q hq => ?_⟩
    have hfree := ScopeStack.isFree_of_allocate hallocate q hq
    exact Scope.isFree_iff.mpr fun other hmem =>
      Scope.isFree_iff.mp hfree other (Scope.mem_owners_unbind_iff.mp hmem).1
  · rw [List.append_assoc, ScopeStack.run, List.foldl_append]
    exact ScopeStack.run_block _ hblock

def hidingInBlock : List ScopeOp :=
  [.declare "v" ⟨.vector 2, .vec32, false⟩ false, .push, .declare "v" ⟨.vector 3, .vec16, false⟩ false,
    .declare "w" ⟨.vector 3, .vec16, false⟩ false]

theorem hidingInBlock_keeps_books :
    (∀ scope ∈ (ScopeStack.run {} hidingInBlock).top :: (ScopeStack.run {} hidingInBlock).outer,
      scope.Exclusive)
    ∧ (ScopeStack.run {} hidingInBlock).allocate "w" .vec32 = .ok (.vector 1)
    ∧ ((ScopeStack.run {} hidingInBlock).declare "w" ⟨.vector 1, .vec32, false⟩ false).1 = .ok ()
    ∧ ScopeStack.run {} (hidingInBlock ++ .push :: [.undefine "v", .push, .undefine "u", .pop] ++ [.pop])
      = ScopeStack.run {} hidingInBlock := by
  obtain ⟨-, hexclusive, hdeclare, hblock⟩ := run_keeps_books hidingInBlock
  have hallocate : (ScopeStack.run {} hidingInBlock).allocate "w" .vec32 = .ok (.vector 1) := rfl
  exact ⟨hexclusive (by decide), hallocate, hdeclare "w" .vec32 _ false hallocate (by decide),
    hblock _ (by decide)⟩

/-! ### Operations that fail -/

namespace Scope

variable {s : Scope} {name : String} {v : Variable} {shares : Bool}

theorem unbind_eq_self_iff : s.unbind name = s ↔ s.get? name = none := by
  refine ⟨fun h => ?_, fun h => by rw [unbind, h]⟩
  rw [← h, get?_unbind_self]

theorem undefine_of_not_local (h : name ∉ s.locals) : (s.undefine name).2 = s.unbind name := by
  have hlocals : s.locals.filter (· != name) = s.locals :=
    filter_eq_self.mpr fun other hother => bne_iff_ne.mpr fun heq => h (heq ▸ hother)
  simp only [undefine, hlocals]

theorem undefine_of_error (hs : s.Consistent) {e} (h : (s.undefine name).1 = .error e) : (s.undefine name).2 = s := by
  have hnone : s.get? name = none := by
    cases hget : s.get? name with
    | none => rfl
    | some v => simp [undefine, hget] at h
  have hlocal : name ∉ s.locals := fun hmem => by
    obtain ⟨v, hv⟩ := hs.declared name hmem
    rw [hnone] at hv
    cases hv
  rw [undefine_of_not_local hlocal, unbind_eq_self_iff.mpr hnone]

/-- A declaration fails in one of two ways: the name has been declared, or it has ended and a register is
missing. -/
theorem declare_of_error {e} (h : (s.declare name v shares).1 = .error e) :
    (e = .redeclared name ∧ (s.declare name v shares).2 = s)
    ∨ (e ≠ .redeclared name ∧ name ∉ s.locals ∧ (s.declare name v shares).2 = s.unbind name) := by
  by_cases hlocal : name ∈ s.locals
  · simp only [declare, contains_iff_mem, hlocal, if_true] at h ⊢
    exact .inl ⟨(Except.error.inj h).symm, trivial⟩
  · simp only [declare, contains_iff_mem, hlocal, if_false] at h ⊢
    split at h
    · cases h
      exact .inr ⟨by simp, not_false, rfl⟩
    · cases h

end Scope

/-- **What an operation that fails leaves behind.** Undefining a name that is not known and declaring one that the
scope has declared leave the stack as it is.  A declaration that lacks a register has ended the name before: it
leaves what undefining the name leaves, and that is the stack as it was only if the name could not be seen. -/
theorem run_failed_operation {ops : List ScopeOp} {s : ScopeStack} (hs : ScopeStack.run {} ops = s)
    (name : String) (e : ScopeError) :
    ((s.undefine name).1 = .error e → (s.undefine name).2 = s)
    ∧ ∀ v shares, (s.declare name v shares).1 = .error e →
      ((s.declare name v shares).2 = s ↔ e = .redeclared name ∨ s.lookup name = .error (.notKnown name))
      ∧ (e ≠ .redeclared name → (s.declare name v shares).2 = (s.undefine name).2) := by
  have hconsistent : s.top.Consistent := hs ▸ ScopeStack.consistent_run ops _ mem_cons_self
  obtain ⟨top, outer⟩ := s
  refine ⟨fun h => congrArg (ScopeStack.mk · outer) (Scope.undefine_of_error hconsistent h), fun v shares h => ?_⟩
  rcases Scope.declare_of_error h with ⟨rfl, hsame⟩ | ⟨he, hlocal, hended⟩
  · exact ⟨iff_of_true (congrArg (ScopeStack.mk · outer) hsame) (.inl rfl), fun hne => absurd rfl hne⟩
  · have hstack : (ScopeStack.declare ⟨top, outer⟩ name v shares).2 = ⟨top.unbind name, outer⟩ :=
      congrArg (ScopeStack.mk · outer) hended
    have hlookup : ScopeStack.lookup ⟨top, outer⟩ name = .error (.notKnown name) ↔ top.get? name = none := by
      unfold ScopeStack.lookup
      cases top.get? name <;> simp
    rw [hstack, hlookup, ← Scope.unbind_eq_self_iff]
    refine ⟨by simp [he], fun _ => ?_⟩
    exact congrArg (ScopeStack.mk · outer) (Scope.undefine_of_not_local hlocal).symm

/-- Two variables, and a scope in which a declaration asks for the register of the second for the name of the
first. -/
def wantingInBlock : List ScopeOp :=
  [.declare "x" ⟨.scalar 8, .u32, false⟩ false, .declare "y" ⟨.scalar 9, .u32, false⟩ false, .push]

theorem wantingInBlock_ends_name :
    (ScopeStack.run {} wantingInBlock).lookup "x" = .ok ⟨.scalar 8, .u32, false⟩
    ∧ ((ScopeStack.run {} wantingInBlock).declare "x" ⟨.scalar 9, .u32, false⟩ false).1
      = .error (.registerInUse "x" (.scalar 9) "y")
    ∧ ((ScopeStack.run {} wantingInBlock).declare "x" ⟨.scalar 9, .u32, false⟩ false).2.lookup "x"
      = .error (.notKnown "x")
    ∧ ((ScopeStack.run {} wantingInBlock).declare "x" ⟨.scalar 9, .u32, false⟩ false).2
      = ((ScopeStack.run {} wantingInBlock).undefine "x").2 := by
  have hfails : ((ScopeStack.run {} wantingInBlock).declare "x" ⟨.scalar 9, .u32, false⟩ false).1
      = .error (.registerInUse "x" (.scalar 9) "y") := rfl
  obtain ⟨-, hended⟩ := (run_failed_operation rfl "x" _).2 _ _ hfails
  exact ⟨rfl, hfails, rfl, hended (by simp)⟩

end Microcode
