import Microcode.Proofs.Scope
import Microcode.Proofs.Selection

/-!
Two scopes that match.

The scopes of two programs can be compared although they do not know the same names.  They match if the same
registers have owners, if the names that the first may use stand for what the second has its own names for,
and if a name that only one of them knows owns no register.
-/

namespace Microcode

open List ScopeStack

variable {name other : String} {s t : Scope} {q : Register} {v : Variable} {K : String → Prop}
variable {σ : ScopeStack}

/-- Other names for some variables, and the names to keep clear of: those that are replaced and those that they
are replaced by. -/
structure Renaming where
  map : String → String
  avoided : List String
  fixes : ∀ name, name ∉ avoided → map name = name
  lands : ∀ name, map name = name ∨ map name ∈ avoided

def Renaming.none : Renaming := ⟨id, [], fun _ _ => rfl, fun _ => .inl rfl⟩

def Renaming.ofPairs (pairs : List (String × String)) : Renaming where
  map name := (pairs.lookup name).getD name
  avoided := pairs.map Prod.fst ++ pairs.map Prod.snd
  fixes name hname := by rw [lookup_eq_none_of_notMem fun hmem => hname (mem_append_left _ hmem), Option.getD_none]
  lands name := by
    cases hlookup : pairs.lookup name with
    | none => exact .inl rfl
    | some other => exact .inr (mem_append_right _ (mem_map_of_mem (mem_of_lookup hlookup)))

variable {pairs : List (String × String)}

theorem Renaming.mem_ofPairs (h : name ∈ pairs.map Prod.fst) : (name, (Renaming.ofPairs pairs).map name) ∈ pairs := by
  show (name, (pairs.lookup name).getD name) ∈ pairs
  cases hlookup : pairs.lookup name with
  | none =>
    obtain ⟨entry, hentry, rfl⟩ := mem_map.mp h
    simpa using lookup_eq_none_iff.mp hlookup entry hentry
  | some other => exact mem_of_lookup hlookup

theorem Renaming.ofPairs_injective (hnodup : (pairs.map Prod.snd).Nodup) (hname : name ∈ pairs.map Prod.fst)
    (hother : other ∈ pairs.map Prod.fst)
    (heq : (Renaming.ofPairs pairs).map name = (Renaming.ofPairs pairs).map other) : name = other := by
  have hswap : ((pairs.map Prod.swap).map Prod.fst).Nodup := by simpa [Function.comp_def] using hnodup
  have hback {x : String} (hx : x ∈ pairs.map Prod.fst) :
      (pairs.map Prod.swap).lookup ((Renaming.ofPairs pairs).map x) = some x :=
    lookup_of_mem hswap (mem_map_of_mem (f := Prod.swap) (mem_ofPairs hx))
  exact Option.some.inj ((hback hname).symm.trans (heq ▸ hback hother))

theorem Renaming.map_ne (R : Renaming) (hname : name ∉ R.avoided) (hne : other ≠ name) : R.map other ≠ name := by
  intro heq
  rcases R.lands other with hfix | hmem
  · exact hne (hfix.symm.trans heq)
  · exact hname (heq ▸ hmem)

namespace Scope

/-! ### Owners -/

theorem ownersBound_empty : OwnersBound {} := fun _ _ h => absurd h not_mem_nil

theorem covered_empty : Covered {} := by
  rintro name q ⟨v, hv, -⟩
  cases hv

theorem isFree_congr (h : t.owners = s.owners) (r : Register) : t.isFree r = s.isFree r := by
  rw [isFree, isFree, owner, owner, h]

theorem own_owners_congr (h : t.owners = s.owners) (name : String) (r : Register) :
    (t.own name r).owners = (s.own name r).owners := by
  unfold own
  rw [isFree_congr h]
  split
  · exact congrArg ((r, name) :: ·) h
  · exact h

theorem foldl_own_owners_congr (h : t.owners = s.owners) (name : String) (registers : List Register) :
    (registers.foldl (own name) t).owners = (registers.foldl (own name) s).owners := by
  induction registers generalizing s t with
  | nil => exact h
  | cons r rest ih => exact ih (own_owners_congr h name r)

theorem bind_owners_congr (h : t.owners = s.owners) (name : String) (v : Variable) :
    (t.bind name v).owners = (s.bind name v).owners := foldl_own_owners_congr h name v.registers

theorem clash?_congr (h : t.owners = s.owners) (v : Variable) : t.clash? v = s.clash? v := by
  unfold clash? owner
  rw [h]

variable {registers : List Register} {shares : Bool} {s' : Scope} {names : List (String × Variable)}

/-- Both scopes have the same owners, and the second knows the variables of the first that have names with the
property, under its own names for them.  A name that stands for different variables, or that only one of them
knows, owns nothing. -/
structure Matches (R : Renaming) (K : String → Prop) (s t : Scope) : Prop where
  owners : t.owners = s.owners
  known : ∀ name, K name → t.get? (R.map name) = s.get? name
  owning : ∀ name, t.get? name = s.get? name ∨ ∀ q, (q, name) ∉ s.owners
  locals : ∀ name, name ∉ R.avoided → (name ∈ t.locals ↔ name ∈ s.locals)

namespace Matches

variable {R : Renaming}

theorem refl (K : String → Prop) (s : Scope) : s.Matches .none K s :=
  ⟨rfl, fun _ _ => rfl, fun _ => .inl rfl, fun _ _ => .rfl⟩

variable {L : String → Prop}

theorem mono (h : s.Matches R K t) (hL : ∀ name, L name → K name) : s.Matches R L t :=
  { h with known := fun name hname => h.known name (hL name hname) }

theorem unbind_owners (h : s.Matches R K t) (name : String) : (t.unbind name).owners = (s.unbind name).owners := by
  have hnothing (u : Scope) (hu : ∀ q, (q, name) ∉ u.owners) : (u.unbind name).owners = u.owners := by
    unfold Scope.unbind
    split
    · rfl
    · refine filter_eq_self.mpr fun entry hentry => ?_
      have hne : entry.2 ≠ name := fun heq => hu entry.1 (heq ▸ hentry)
      simp [hne]
  rcases h.owning name with hget | hnone
  · unfold Scope.unbind
    rw [hget]
    split
    · exact h.owners
    · exact congrArg (filter _) h.owners
  · rw [hnothing s hnone, hnothing t (h.owners ▸ hnone), h.owners]

/-- **A declaration that succeeds on one side succeeds on the other.** -/
theorem declare (h : s.Matches R K t) (hname : name ∉ R.avoided)
    (hs : s.declare name v shares = (.ok (), s')) : ∃ t', t.declare name v shares = (.ok (), t') ∧
      s'.Matches R (fun other => other = name ∨ K other) t' := by
  obtain ⟨hlocal, hclash, rfl⟩ := declare_eq_ok.mp hs
  have hunbind := h.unbind_owners name
  refine ⟨_, declare_eq_ok.mpr ⟨mt (h.locals name hname).mp hlocal, ?_, rfl⟩, ?_⟩
  · intro hshares
    rw [clash?_congr hunbind]
    exact hclash hshares
  have hget (u : Scope) {other : String} (hother : other ≠ name) :
      ((u.unbind name).bind name v).get? other = u.get? other := by
    rw [get?_bind, if_neg hother, get?_unbind, if_neg hother]
  refine ⟨bind_owners_congr hunbind name v, ?_, ?_, ?_⟩
  · intro other hother
    by_cases heq : other = name
    · rw [heq, R.fixes name hname, get?_bind, get?_bind, if_pos rfl, if_pos rfl]
    · rw [hget t (R.map_ne hname heq), hget s heq]
      exact h.known other (hother.resolve_left heq)
  · intro other
    by_cases heq : other = name
    · exact .inl (by rw [heq, get?_bind, get?_bind, if_pos rfl, if_pos rfl])
    · rw [hget t heq, hget s heq]
      refine (h.owning other).imp_right fun hnone q hq => ?_
      rcases mem_owners_bind.mp hq with hin | ⟨hsame, -⟩
      · exact hnone q (mem_owners_unbind_iff.mp hin).1
      · exact heq hsame
  · intro other hother
    rw [locals_bind, locals_bind, locals_unbind, locals_unbind, mem_cons, mem_cons, h.locals other hother]

end Matches

/-- The first scope is the second with more names for variables whose registers have owners. -/
structure Extends (names : List (String × Variable)) (s t : Scope) : Prop where
  owners : s.owners = t.owners
  get? : ∀ name, s.get? name = (names.lookup name).or (t.get? name)
  locals : s.locals = names.map Prod.fst ++ t.locals
  nodup : (names.map Prod.fst).Nodup

theorem foldl_own_eq_self (h : ∀ q ∈ registers, s.isFree q = false) : registers.foldl (own name) s = s := by
  induction registers with
  | nil => rfl
  | cons r rest ih =>
    obtain ⟨hr, hrest⟩ := forall_mem_cons.mp h
    rw [foldl_cons, own, if_neg (by simp [hr]), ih hrest]

theorem Extends.declare (h : s.Extends names t) (hnew : t.get? name = none)
    (howned : ∀ q ∈ v.registers, t.isFree q = false) (hs : s.declare name v true = (.ok (), s')) :
    s'.Extends ((name, v) :: names) t := by
  obtain ⟨hlocal, -, rfl⟩ := declare_eq_ok.mp hs
  rw [h.locals, mem_append, not_or] at hlocal
  have hnone : s.get? name = none := by rw [h.get?, lookup_eq_none_of_notMem hlocal.1, hnew, Option.none_or]
  have hunbind : s.unbind name = s := by rw [unbind, hnone]
  have hkeep : v.registers.foldl (own name) s = s :=
    foldl_own_eq_self fun q hq => by rw [isFree_congr h.owners]; exact howned q hq
  rw [hunbind]
  refine ⟨?_, ?_, ?_, nodup_cons.mpr ⟨hlocal.1, h.nodup⟩⟩
  · show (v.registers.foldl (own name) s).owners = _
    rw [hkeep, h.owners]
  · intro other
    rw [get?_bind, lookup_cons]
    by_cases hother : other = name
    · simp [hother]
    · rw [if_neg hother, beq_false_of_ne hother, h.get?]
  · rw [locals_bind, h.locals]
    rfl

/-- A second name that can be left out: nothing has it, and what it stands for, a variable of that type, has
another that can be used and registers that have owners. -/
structure Spares (K : String → Prop) (s : Scope) (x : String × String × DataType) : Prop where
  unbound : s.get? x.1 = none
  known : K x.2.1
  fits : ∃ v, s.get? x.2.1 = some v ∧ v.type = x.2.2 ∧ ∀ q ∈ v.registers, s.isFree q = false

section
variable {names : List (String × String × DataType)} {pairs : List (String × Variable)}
  {u : Scope} (h : s.Extends pairs t) (hkeys : pairs.map Prod.fst = (names.map Prod.fst).reverse)
include h hkeys

theorem Extends.get?_other (hname : name ∉ names.map Prod.fst) : s.get? name = t.get? name := by
  rw [h.get?, lookup_eq_none_of_notMem (by rwa [hkeys, mem_reverse]), Option.none_or]

omit hkeys in
theorem Extends.notMem_of_owner (ht : t.OwnersBound) (hnew : ∀ name ∈ names.map Prod.fst, t.get? name = none)
    (hq : (q, name) ∈ s.owners) : name ∉ names.map Prod.fst := by
  intro hname
  rw [h.owners] at hq
  obtain ⟨v, hv, -⟩ := ht q name hq
  rw [hnew name hname] at hv
  cases hv

theorem Extends.ownersBound (ht : t.OwnersBound) (hnew : ∀ name ∈ names.map Prod.fst, t.get? name = none) :
    s.OwnersBound := by
  intro q name hq
  rw [Sees, h.get?_other hkeys (h.notMem_of_owner ht hnew hq)]
  exact ht q name (h.owners ▸ hq)

/-- **With second names on one side only, each is known by its first name on the other.** -/
theorem Extends.matches (hu : t.Matches .none K u) (ht : t.OwnersBound)
    (hnames : ∀ x ∈ names, t.Spares K x) (hpairs : ∀ x ∈ names, ∃ v, (x.1, v) ∈ pairs ∧ t.get? x.2.1 = some v) :
    s.Matches (.ofPairs (names.map fun x => (x.1, x.2.1))) (· ∈ names.map Prod.fst) u := by
  have hnew : ∀ name ∈ names.map Prod.fst, t.get? name = none := by
    intro name hname
    obtain ⟨x, hx, rfl⟩ := mem_map.mp hname
    exact (hnames x hx).unbound
  have hnodup : ((names.map fun x => (x.1, x.2.1)).map Prod.fst).Nodup := by
    have hreverse := h.nodup
    rw [hkeys] at hreverse
    have hforward : (names.map Prod.fst).Nodup := (pairwise_reverse.mp hreverse).imp Ne.symm
    simpa only [map_map, Function.comp_def] using hforward
  refine ⟨by rw [hu.owners, h.owners], ?_, ?_, ?_⟩
  · intro name hname
    obtain ⟨x, hx, rfl⟩ := mem_map.mp hname
    obtain ⟨v, hmem, hv⟩ := hpairs x hx
    have hlookup : (names.map fun x => (x.1, x.2.1)).lookup x.1 = some x.2.1 :=
      lookup_of_mem hnodup (mem_map_of_mem (f := fun x => (x.1, x.2.1)) hx)
    have hmap : (Renaming.ofPairs (names.map fun x => (x.1, x.2.1))).map x.1 = x.2.1 := by
      simp only [Renaming.ofPairs, hlookup, Option.getD_some]
    rw [hmap, h.get?, lookup_of_mem h.nodup hmem, Option.some_or, ← hv]
    exact hu.known x.2.1 (hnames x hx).known
  · intro name
    by_cases hname : name ∈ names.map Prod.fst
    · exact .inr fun q hq => h.notMem_of_owner ht hnew hq hname
    · rw [h.get?_other hkeys hname, h.owners]
      exact hu.owning name
  · intro name hname
    have hkey : name ∉ names.map Prod.fst := by
      intro hmem
      refine hname (mem_append_left _ ?_)
      rwa [map_map]
    rw [hu.locals name not_mem_nil, h.locals, hkeys]
    simp [hkey]

end
end Scope

theorem ScopeStack.aliasOf_type {target : String} (h : σ.top.get? target = some v) :
    σ.aliasOf target (some v.type) = .ok v := by
  unfold aliasOf
  rw [variableNamed_eq_ok.mpr h]
  simp [bind, Except.bind]
  rfl

theorem ScopeStack.allocate_congr {τ : ScopeStack} (h : τ.top.owners = σ.top.owners) (name : String)
    (type : DataType) : τ.allocate name type = σ.allocate name type := by
  have hfits : τ.fits type = σ.fits type := by
    funext r
    unfold fits
    simp only [Scope.isFree_congr h]
  unfold allocate
  rw [hfits]

end Microcode
