import Microcode.Proofs.Result
import Microcode.Scope

/-!
What the operations on a scope change.

A scope keeps two books: which variable a name stands for, and which name owns a register.
-/

namespace Microcode

open List Option

theorem exists_notMem (names : List String) : ∃ name, name ∉ names := by
  have hlonger : ∃ n, ∀ name ∈ names, name.length < n := by
    induction names with
    | nil => exact ⟨0, by simp⟩
    | cons name rest ih =>
      obtain ⟨n, hn⟩ := ih
      refine ⟨max n (name.length + 1), fun other hother => ?_⟩
      rcases mem_cons.mp hother with rfl | hother
      · omega
      · have := hn other hother
        omega
  obtain ⟨n, hn⟩ := hlonger
  refine ⟨String.ofList (replicate n 'a'), fun hmem => ?_⟩
  have := hn _ hmem
  simp at this

namespace Scope

def Holds (s : Scope) (q : Register) : Prop := ∃ name v, s.get? name = some v ∧ q ∈ v.registers

/-- A variable of the scope other than `name` takes the register. -/
def HoldsBeside (s : Scope) (name : String) (q : Register) : Prop :=
  ∃ other v, other ≠ name ∧ s.get? other = some v ∧ q ∈ v.registers

def Owns (s : Scope) (name : String) (q : Register) : Prop :=
  s.owner q = some name ∧ ∃ v, s.get? name = some v ∧ q ∈ v.registers

def Sees (s : Scope) (name : String) (q : Register) : Prop := ∃ v, s.get? name = some v ∧ q ∈ v.registers

def SingleOwners (s : Scope) : Prop := (s.owners.map Prod.fst).Nodup

variable {s : Scope} {name other : String} {v : Variable} {q : Register}

theorem HoldsBeside.holds (h : s.HoldsBeside name q) : s.Holds q := by
  obtain ⟨other, v, -, hget, hq⟩ := h
  exact ⟨other, v, hget, hq⟩

theorem isFree_iff : s.isFree q ↔ ∀ name, (q, name) ∉ s.owners := by
  rw [isFree, owner, isNone_iff_eq_none]
  grind

theorem isFree_of_owner (h : (q, name) ∈ s.owners) :
    s.isFree q = false := Bool.eq_false_iff.mpr fun hfree => isFree_iff.mp hfree name h

theorem lookup_filter_ne (bindings : List (String × Variable)) (name other : String) :
    (bindings.filter (·.1 != name)).lookup other = if other = name then none else bindings.lookup other := by
  induction bindings with
  | nil => simp
  | cons b rest ih =>
    obtain ⟨key, v⟩ := b
    by_cases hkey : key = name
    · subst hkey
      rw [filter_cons_of_neg (by simp), ih]
      split
      · rfl
      · next hother => rw [lookup_cons, beq_false_of_ne hother]
    · rw [filter_cons_of_pos (by simpa using hkey), lookup_cons, lookup_cons, ih]
      by_cases hother : other = name
      · rw [hother, beq_false_of_ne (Ne.symm hkey)]
      · simp only [hother, if_false]

theorem get?_unbind (s : Scope) (name other : String) :
    (s.unbind name).get? other = if other = name then none else s.get? other := by
  unfold unbind
  split
  · next hnone =>
      split
      · next hother => rw [hother, hnone]
      · rfl
  · exact lookup_filter_ne s.bindings name other

theorem get?_unbind_self (s : Scope) (name : String) : (s.unbind name).get? name = none := by
  rw [get?_unbind, if_pos rfl]

theorem locals_unbind (s : Scope) (name : String) : (s.unbind name).locals = s.locals := by
  unfold unbind
  split <;> rfl

theorem SingleOwners.unbind (hs : s.SingleOwners) (name : String) : (s.unbind name).SingleOwners := by
  unfold Scope.unbind
  split
  · exact hs
  · exact Nodup.sublist (filter_sublist.map Prod.fst) hs

theorem mem_owners_unbind_iff : (q, other) ∈ (s.unbind name).owners ↔
    (q, other) ∈ s.owners ∧ ¬(other = name ∧ s.Sees name q) := by
  unfold unbind
  split
  · next hnone => simp [Sees, hnone]
  · next v hget =>
      simp only [mem_filter, Bool.not_eq_true', Bool.and_eq_false_iff, beq_eq_false_iff_ne,
        Sees, hget, some.injEq, exists_eq_left', not_and]
      grind

theorem sees_unbind : (s.unbind name).Sees other q ↔ other ≠ name ∧ s.Sees other q := by
  unfold Sees
  rw [get?_unbind]
  split <;> simp_all

theorem isFree_unbind_iff (hs : s.SingleOwners) : (s.unbind name).isFree q ↔ s.isFree q ∨ s.Owns name q := by
  simp only [isFree_iff, mem_owners_unbind_iff]
  constructor
  · intro h
    cases howner : s.owner q with
    | none => exact .inl (isFree_iff.mp (by rw [isFree, howner, isNone_none]))
    | some other =>
      obtain ⟨rfl, hsees⟩ := Classical.not_not.mp fun hkept => h other ⟨mem_of_lookup howner, hkept⟩
      exact .inr ⟨howner, hsees⟩
  · rintro (hfree | ⟨howner, hsees⟩) other ⟨hin, hkept⟩
    · exact hfree other hin
    · exact hkept ⟨some.inj ((lookup_of_mem hs hin).symm.trans howner), hsees⟩

/-! ### A new binding -/

theorem isFree_own {r} : (s.own name r).isFree q ↔ s.isFree q ∧ q ≠ r := by
  unfold own
  split
  · simp only [isFree_iff, mem_cons, Prod.mk.injEq, not_or, not_and]
    constructor
    · intro h
      exact ⟨fun other => (h other).2, fun heq => (h name).1 heq rfl⟩
    · rintro ⟨hfree, hne⟩ other
      exact ⟨fun heq => absurd heq hne, hfree other⟩
  · next hr =>
      constructor
      · intro hq
        exact ⟨hq, fun heq => hr (heq ▸ hq)⟩
      · exact And.left

theorem SingleOwners.own (hs : s.SingleOwners) (name : String) (r : Register) : (s.own name r).SingleOwners := by
  unfold Scope.own
  split
  · next hr =>
      refine nodup_cons.mpr ⟨fun hmem => ?_, hs⟩
      obtain ⟨⟨_, other⟩, hin, rfl⟩ := mem_map.mp hmem
      exact isFree_iff.mp hr other hin
  · exact hs

theorem own_frame (s : Scope) (name : String) (r : Register) :
    (s.own name r).bindings = s.bindings ∧ (s.own name r).locals = s.locals := by
  unfold own
  split <;> exact ⟨rfl, rfl⟩

theorem foldl_own_frame (name : String) (registers : List Register) (s : Scope) :
    (registers.foldl (own name) s).bindings = s.bindings ∧ (registers.foldl (own name) s).locals = s.locals := by
  induction registers generalizing s with
  | nil => exact ⟨rfl, rfl⟩
  | cons r rest ih =>
    obtain ⟨hbindings, hlocals⟩ := ih (s.own name r)
    obtain ⟨hbindings', hlocals'⟩ := own_frame s name r
    exact ⟨hbindings.trans hbindings', hlocals.trans hlocals'⟩

theorem SingleOwners.foldl_own (hs : s.SingleOwners) (name : String)
    (registers : List Register) : (registers.foldl (Scope.own name) s).SingleOwners := by
  induction registers generalizing s with
  | nil => exact hs
  | cons r rest ih => exact ih (hs.own name r)

variable {registers : List Register}

theorem isFree_foldl_own : (registers.foldl (own name) s).isFree q ↔ s.isFree q ∧ q ∉ registers := by
  induction registers generalizing s with
  | nil => simp
  | cons r rest ih => rw [foldl_cons, ih, isFree_own, mem_cons, not_or, and_assoc]

theorem get?_bind (s : Scope) (name other : String) (v : Variable) :
    (s.bind name v).get? other = if other = name then some v else s.get? other := by
  simp only [bind, get?, (foldl_own_frame name v.registers s).1, lookup_cons, lookup_filter_ne]
  by_cases hother : other = name
  · simp [hother]
  · simp [hother, beq_false_of_ne hother]

theorem locals_bind (s : Scope) (name : String) (v : Variable) : (s.bind name v).locals = name :: s.locals := by
  simp only [bind, (foldl_own_frame name v.registers s).2]

theorem mem_owners_foldl_own_iff : (q, other) ∈ (registers.foldl (own name) s).owners ↔
      (q, other) ∈ s.owners ∨ (other = name ∧ q ∈ registers ∧ s.isFree q) := by
  induction registers generalizing s with
  | nil => simp
  | cons r rest ih =>
    rw [foldl_cons, ih, isFree_own]
    unfold own
    split
    · next hr =>
        grind
    · next hr => grind

theorem mem_owners_bind : (q, other) ∈ (s.bind name v).owners ↔
    (q, other) ∈ s.owners ∨ (other = name ∧ q ∈ v.registers ∧ s.isFree q) :=
  mem_owners_foldl_own_iff

theorem sees_bind : (s.bind name v).Sees other q ↔
    (other = name ∧ q ∈ v.registers) ∨ (other ≠ name ∧ s.Sees other q) := by
  unfold Sees
  rw [get?_bind]
  split <;> simp_all

def OwnersBound (s : Scope) : Prop := ∀ q name, (q, name) ∈ s.owners → s.Sees name q

theorem OwnersBound.unbind (hs : s.OwnersBound) (name : String) : (s.unbind name).OwnersBound := by
  intro q other h
  obtain ⟨hmem, hkept⟩ := mem_owners_unbind_iff.mp h
  have hsees := hs q other hmem
  exact sees_unbind.mpr ⟨fun heq => hkept ⟨heq, heq ▸ hsees⟩, hsees⟩

theorem OwnersBound.bind (hs : s.OwnersBound) (hnew : s.get? name = none) (v : Variable) :
    (s.bind name v).OwnersBound := by
  intro q other h
  rw [sees_bind]
  rcases mem_owners_bind.mp h with hold | ⟨rfl, hq, -⟩
  · obtain ⟨w, hw, hq⟩ := hs q other hold
    refine .inr ⟨fun heq => ?_, w, hw, hq⟩
    rw [heq, hnew] at hw
    cases hw
  · exact .inl ⟨rfl, hq⟩

def Covered (s : Scope) : Prop := ∀ name q, s.Sees name q → (q, name) ∈ s.owners

theorem Covered.unbind (hs : s.Covered) (name : String) : (s.unbind name).Covered := by
  intro other q h
  obtain ⟨hother, hsees⟩ := sees_unbind.mp h
  exact mem_owners_unbind_iff.mpr ⟨hs other q hsees, fun hend => hother hend.1⟩

theorem Covered.bind (hs : s.Covered) (hfree : ∀ q ∈ v.registers, s.isFree q) (name : String) :
    (s.bind name v).Covered := by
  intro other q h
  rw [mem_owners_bind]
  rcases sees_bind.mp h with ⟨hother, hq⟩ | ⟨-, hsees⟩
  · exact .inr ⟨hother, hq, hfree q hq⟩
  · exact .inl (hs other q hsees)

theorem clash?_eq_none : s.clash? v = none ↔ ∀ q ∈ v.registers, s.isFree q := by
  simp only [clash?, findSome?_eq_none_iff, map_eq_none_iff, isFree, isNone_iff_eq_none]

theorem isFree_bind : (s.bind name v).isFree q ↔ s.isFree q ∧ q ∉ v.registers := isFree_foldl_own

theorem SingleOwners.bind (hs : s.SingleOwners) (name : String) (v : Variable) : (s.bind name v).SingleOwners :=
  hs.foldl_own name v.registers

/-- What a declaration does: nothing to a name of the scope itself; otherwise the name ends, and is
bound anew if the declaration succeeds. -/
theorem declare_cases (s : Scope) (name : String) (v : Variable) (shares : Bool) :
    (name ∈ s.locals ∧ s.declare name v shares = (.error (.redeclared name), s))
    ∨ (name ∉ s.locals ∧ s.declare name v shares = (.ok (), (s.unbind name).bind name v))
    ∨ (name ∉ s.locals ∧ ∃ e, s.declare name v shares = (.error e, s.unbind name)) := by
  unfold declare
  by_cases hlocal : name ∈ s.locals
  · exact .inl ⟨hlocal, by simp [hlocal]⟩
  · rw [if_neg (by simpa using hlocal)]
    refine .inr ?_
    cases hclash : (if shares then none else (s.unbind name).clash? v) with
    | none => exact .inl ⟨hlocal, by simp only [hclash]⟩
    | some clash => exact .inr ⟨hlocal, .registerInUse name clash.1 clash.2, by simp only [hclash]⟩

theorem declare_eq_ok {t : Scope} {shares : Bool} : s.declare name v shares = (.ok (), t) ↔ name ∉ s.locals ∧
      (shares = false → (s.unbind name).clash? v = none) ∧ t = (s.unbind name).bind name v := by
  unfold declare
  by_cases hlocal : name ∈ s.locals
  · simp [hlocal]
  · rw [if_neg (by simpa using hlocal)]
    cases shares with
    | true => simp [hlocal, eq_comm]
    | false =>
      cases hclash : (s.unbind name).clash? v with
      | none => simp [hclash, hlocal, eq_comm]
      | some clash => simp [hclash]

theorem declare_new (hlocal : name ∉ s.locals) (hnew : s.get? name = none) (hfree : ∀ q ∈ v.registers, s.isFree q) :
    s.declare name v false = (.ok (), s.bind name v) := by
  have hunbind : s.unbind name = s := by rw [unbind, hnew]
  exact declare_eq_ok.mpr ⟨hlocal, fun _ => by rwa [hunbind, clash?_eq_none], by rw [hunbind]⟩

theorem exists_new_name (s : Scope) : ∃ name, name ∉ s.locals ∧ s.get? name = none := by
  obtain ⟨name, hname⟩ := exists_notMem (s.locals ++ s.bindings.map Prod.fst)
  rw [mem_append, not_or] at hname
  exact ⟨name, hname.1, lookup_eq_none_of_notMem hname.2⟩

/-- The scope after the end of a name that is bound anew to some registers, or to none. -/
structure Replaces (s : Scope) (name : String) (taken : List Register) (t : Scope) : Prop where
  others : ∀ other, other ≠ name → t.get? other = s.get? other
  self : ∀ v, t.get? name = some v → name ∈ t.locals ∧ v.registers = taken
  locals : ∀ other, other ≠ name → other ∈ s.locals → other ∈ t.locals
  free : ∀ q, t.isFree q ↔ (s.unbind name).isFree q ∧ q ∉ taken
  single : s.SingleOwners → t.SingleOwners

theorem replaces_unbind (s : Scope) (name : String) : s.Replaces name [] (s.unbind name) where
  others other hother := by rw [get?_unbind, if_neg hother]
  self v hv := by simp [get?_unbind] at hv
  locals other _ hlocal := by rwa [locals_unbind]
  free q := by simp
  single hs := hs.unbind name

theorem replaces_bind (s : Scope) (name : String) (v : Variable) :
    s.Replaces name v.registers ((s.unbind name).bind name v) where
  others other hother := by rw [get?_bind, if_neg hother, get?_unbind, if_neg hother]
  self w hw := by
    rw [get?_bind, if_pos rfl] at hw
    rw [some.inj hw]
    exact ⟨.head _, rfl⟩
  locals other _ hlocal := by
    rw [locals_bind, locals_unbind]
    exact .tail _ hlocal
  free q := isFree_bind
  single hs := (hs.unbind name).bind name v

theorem replaces_undefine (s : Scope) (name : String) : s.Replaces name [] (s.undefine name).2 := by
  have hundefine : (s.undefine name).2 = { s.unbind name with locals := s.locals.filter (· != name) } := by
    unfold undefine unbind
    dsimp only [get?]
    split <;> rfl
  have h := replaces_unbind s name
  rw [hundefine]
  refine ⟨h.others, fun v hv => ?_, fun other hother hlocal => ?_, h.free, h.single⟩
  · have hsome : (s.unbind name).get? name = some v := hv
    rw [get?_unbind_self] at hsome
    cases hsome
  · exact mem_filter.mpr ⟨hlocal, by simpa using hother⟩

end Scope
end Microcode
