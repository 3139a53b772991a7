/-!
Computations that may fail, taken apart.

A result of a sequence of steps comes from a result of the first step and one of the rest.
-/

namespace Microcode

open List Except

variable {ε α β : Type}
variable {x : Except ε α} {f : α → Except ε β} {b : β} {a : α} {e : ε} {list : List α} {results : List β}

theorem bind_eq_ok : x >>= f = .ok b ↔ ∃ a, x = .ok a ∧ f a = .ok b := by cases x <;> simp [bind, Except.bind]

theorem bind₂_eq_ok {γ : Type} {g : α → β → Except ε γ} {c : γ} :
    (x >>= fun a => f a >>= g a) = .ok c ↔ ∃ a b, x = .ok a ∧ f a = .ok b ∧ g a b = .ok c := by
  simp only [bind_eq_ok, exists_and_left]

theorem bind_eq_error : x >>= f = .error e ↔ x = .error e ∨ ∃ a, x = .ok a ∧ f a = .error e := by
  cases x <;> simp [bind, Except.bind]

theorem map_eq_ok {f : α → β} : x.map f = .ok b ↔ ∃ a, x = .ok a ∧ f a = b := by cases x <;> simp [Except.map]

theorem mapError_eq_ok {ε' : Type} {f : ε → ε'} : x.mapError f = .ok a ↔ x = .ok a := by
  cases x with
  | error e => exact ⟨nofun, nofun⟩
  | ok b => exact ⟨fun h => congrArg ok (ok.inj h), fun h => congrArg ok (ok.inj h)⟩

theorem ok_of_toOption (h : x.toOption = some a) : x = .ok a := by
  cases x with
  | error e => cases h
  | ok b => exact congrArg ok (Option.some.inj h)

@[simp] theorem throw_ne_ok : (throw e : Except ε α) ≠ .ok a := by simp [throw, throwThe, MonadExceptOf.throw]

section
variable {κ : Type} [BEq κ] [LawfulBEq κ] {k : κ} {pairs : List (κ × α)}

theorem mem_of_lookup (h : pairs.lookup k = some a) : (k, a) ∈ pairs := by
  obtain ⟨front, back, rfl, -⟩ := lookup_eq_some_iff.mp h
  exact mem_append_right front (.head _)

theorem lookup_eq_none_of_notMem (h : k ∉ pairs.map Prod.fst) : pairs.lookup k = none := by
  refine lookup_eq_none_iff.mpr fun entry hentry => bne_iff_ne.mpr fun heq => ?_
  exact h (heq ▸ mem_map_of_mem hentry)

theorem lookup_of_mem (hnodup : (pairs.map Prod.fst).Nodup) (h : (k, a) ∈ pairs) : pairs.lookup k = some a := by
  obtain ⟨front, back, rfl⟩ := append_of_mem h
  refine lookup_eq_some_iff.mpr ⟨front, back, rfl, fun entry hentry => ?_⟩
  rw [map_append, nodup_append] at hnodup
  have hne := hnodup.2.2 entry.1 (mem_map_of_mem hentry) k (by simp)
  simpa using Ne.symm hne

end

theorem mapM_induction {R : List α → List β → Prop} (h : list.mapM f = .ok results) (nil : R [] [])
    (cons : ∀ a b list results, f a = .ok b → R list results → R (a :: list) (b :: results)) : R list results := by
  induction list generalizing results with
  | nil =>
    cases h
    exact nil
  | cons a list ih =>
    simp only [mapM_cons, bind_eq_ok] at h
    obtain ⟨b, hb, rest, hrest, h⟩ := h
    cases h
    exact cons a b list rest hb (ih hrest)

theorem exists_of_mapM (h : list.mapM f = .ok results) : ∀ b ∈ results, ∃ a ∈ list, f a = .ok b := by
  refine mapM_induction (R := fun list results => ∀ b ∈ results, ∃ a ∈ list, f a = .ok b) h nofun ?_
  intro a b list results hb ih
  refine forall_mem_cons.mpr ⟨⟨a, .head _, hb⟩, fun c hc => ?_⟩
  obtain ⟨d, hd, hcd⟩ := ih c hc
  exact ⟨d, .tail a hd, hcd⟩

theorem error_of_mapM (h : list.mapM f = .error e) : ∃ a ∈ list, f a = .error e := by
  induction list with
  | nil => cases h
  | cons a list ih =>
    simp only [mapM_cons, bind_eq_error] at h
    rcases h with h | ⟨b, -, h | ⟨rest, -, h⟩⟩
    · exact ⟨a, .head _, h⟩
    · obtain ⟨c, hc, h⟩ := ih h
      exact ⟨c, .tail a hc, h⟩
    · cases h

theorem mapM_eq_self {f : α → Except ε α} (h : ∀ a ∈ list, f a = .ok a) : list.mapM f = .ok list := by
  induction list with
  | nil => rfl
  | cons a list ih =>
    obtain ⟨ha, hrest⟩ := forall_mem_cons.mp h
    rw [mapM_cons, ha, ih hrest]
    rfl

/-- A run of steps is one of the steps that each of them stands for. -/
theorem foldlM_of_step {σ τ : Type} {e : σ → τ} {step : σ → α → Option σ} {step' : τ → α → Option τ}
    (hstep : ∀ {s t a}, step s a = some t → step' (e s) a = some (e t)) {s t : σ} (h : list.foldlM step s = some t) :
    list.foldlM step' (e s) = some (e t) := by
  induction list generalizing s with
  | nil =>
    cases h
    rfl
  | cons a list ih =>
    simp only [foldlM_cons, Option.bind_eq_bind, Option.bind_eq_some_iff] at h
    obtain ⟨u, hu, h⟩ := h
    rw [foldlM_cons, hstep hu]
    exact ih h

def Yields (x : Except ε α) (Q : α → Prop) : Prop := ∀ a, x = .ok a → Q a

namespace Yields

variable {x : Except ε α} {f : α → Except ε β} {P : α → Prop} {Q : β → Prop}

theorem ok (h : P a) : Yields (.ok a : Except ε α) P := by
  intro b hb
  cases hb
  exact h

theorem error : Yields (.error e) P := fun _ h => nomatch h

theorem mono {P'} (hx : Yields x P) (h : ∀ a, P a → P' a) : Yields x P' := fun a ha => h a (hx a ha)

theorem bind (hx : Yields x P) (hf : ∀ a, P a → Yields (f a) Q) : Yields (x >>= f) Q := by
  intro b hb
  obtain ⟨a, ha, hb⟩ := bind_eq_ok.mp hb
  exact hf a (hx a ha) b hb

theorem skip (hf : ∀ a, Yields (f a) Q) : Yields (x >>= f) Q := by
  intro b hb
  obtain ⟨a, -, hb⟩ := bind_eq_ok.mp hb
  exact hf a b hb

theorem known (hf : ∀ a, x = .ok a → Yields (f a) Q) : Yields (x >>= f) Q := bind (fun _ ha => ha) hf

theorem throw : Yields ((throw e : Except ε α) >>= f) Q := by
  intro b hb
  obtain ⟨a, ha, -⟩ := bind_eq_ok.mp hb
  cases ha

end Yields

theorem map_of_mapM {γ : Type} {before : α → γ} {after : β → γ}
    (hf : ∀ a, Yields (f a) fun b => after b = before a) (h : list.mapM f = .ok results) :
    results.map after = list.map before := by
  refine mapM_induction (R := fun list results => results.map after = list.map before) h rfl ?_
  intro a b list results hb ih
  rw [map_cons, map_cons, hf a b hb, ih]

/-- Whatever the computation gives from a state has, with the state that it leaves, the property. -/
def GivesFrom {S : Type} (m : StateT S (Except ε) α) (s : S) (Q : α → S → Prop) : Prop :=
  ∀ ⦃a : α⦄ ⦃t : S⦄, m.run s = .ok (a, t) → Q a t

namespace GivesFrom

variable {S : Type} {m : StateT S (Except ε) α} {f : α → StateT S (Except ε) β} {s : S}
  {P : α → S → Prop} {Q : β → S → Prop}

theorem pure (h : Q b s) : GivesFrom (pure b : StateT S (Except ε) β) s Q := by
  intro b' t hb
  cases hb
  exact h

theorem bind (hm : GivesFrom m s P) (hf : ∀ a t, P a t → GivesFrom (f a) t Q) : GivesFrom (m >>= f) s Q := by
  intro b t hb
  obtain ⟨⟨a, mid⟩, ha, hb⟩ := bind_eq_ok.mp hb
  exact hf a mid (hm ha) hb

variable {P' : α → S → Prop}

theorem mono (hm : GivesFrom m s P) (h : ∀ a t, P a t → P' a t) : GivesFrom m s P' := fun a t ha => h a t (hm ha)

end GivesFrom
end Microcode
