import Microcode.Proofs.Lockstep
import Microcode.Proofs.Origin

/-!
Bodies that are lowered alike.

A plain body and its counterpart under other names give the same lines from all linked points, have the same labels
and end by leaving the routine in the same places.
-/

namespace Microcode

open Lower List ScopeStack Statement

/-! ### Bodies in parts -/

def Statement.isExit : Statement → Bool
  | .action _ .exit => true
  | _ => false

theorem endsWithExit_eq (body : List Statement) :
    endsWithExit body = (body.map isExit).getLast?.getD false := by
  rw [getLast?_map, endsWithExit]
  cases body.getLast? with
  | none => rfl
  | some t =>
    cases t with
    | action tag a => cases a <;> rfl
    | _ => rfl

theorem labelsOf_append (front rest : List Statement) : labelsOf (front ++ rest) = labelsOf front ++ labelsOf rest := by
  induction front with
  | nil => rfl
  | cons t front ih => rw [cons_append, labelsOf, labelsOf, ih, append_assoc]

variable (f : Frame)

theorem lowerStatements_singleton (t : Statement) : lowerStatements f false [t] = t.lower f := by simp [lowerStatements]

theorem lowerStatements_append (front rest : List Statement) : lowerStatements f false (front ++ rest) = (do
      let lines ← lowerStatements f false front
      let more ← lowerStatements f false rest
      pure (lines ++ more)) := by
  induction front with
  | nil => simp [lowerStatements]
  | cons t front ih =>
    simp only [cons_append, lowerStatements, Bool.false_and, Bool.false_eq_true, if_false, ih, bind_assoc,
      pure_bind, append_assoc]

variable {body : List Statement}

theorem lowerStatements_atStart (h : ∀ t ∈ body, t.alias? = none) :
    lowerStatements f true body = lowerStatements f false body := by
  cases body with
  | nil => rfl
  | cons t rest => simp [lowerStatements, h t]

theorem lowerStatements_secondNames (line : Nat) (names : List (String × String × DataType))
    (h : ∀ t ∈ body, t.alias? = none) :
    lowerStatements f true (secondNames line names ++ body) = lowerStatements f false body := by
  induction names with
  | nil => exact lowerStatements_atStart f h
  | cons x names ih => exact ih

theorem alias?_secondNames (line : Nat) (names : List (String × String × DataType)) :
    ∀ t ∈ secondNames line names, t.alias?.isSome := by
  intro t ht
  obtain ⟨x, -, rfl⟩ := mem_map.mp ht
  rfl

theorem labelsOf_secondNames (line : Nat) (names : List (String × String × DataType)) :
    labelsOf (secondNames line names) = [] := by
  induction names with
  | nil => rfl
  | cons x names ih => exact ih

theorem ScopeStack.enter_plain (σ : ScopeStack) (h : ∀ t ∈ body, t.alias? = none) : σ.enter body = σ.push := by
  rw [enter, leadingAliases_eq_nil h]
  rfl

theorem ScopeStack.enter_secondNames (σ : ScopeStack) (line : Nat) (names : List (String × String × DataType))
    (h : ∀ t ∈ body, t.alias? = none) :
    σ.enter (secondNames line names ++ body) = σ.enter (secondNames line names) := by
  rw [enter, leadingAliases_append (alias?_secondNames line names) h]
  rfl

theorem givesFrom_afterAll {p} (hp : p.scopes.IsProper) (body : List Statement) :
    GivesFrom (lowerStatements f false body) p fun _ q => q.scopes = afterAll p.scopes body := by
  induction body generalizing p with
  | nil => exact .pure rfl
  | cons t rest ih =>
    refine .bind (t.givesFrom_lower hp) fun _ q ⟨lines, _, hfirst⟩ => ?_
    have hq : q.scopes.IsProper := hfirst.scopes ▸ hfirst.proper
    refine .bind (ih hq) fun _ r hr => .pure ?_
    rw [hr, hfirst.scopes]
    rfl

/-- The second body is lowered like the first, from points that are linked in the names with the first property
to points that are linked in those with the second.  The scopes at the first point are given. -/
structure Counterpart (R : Renaming) (outside : Prop) (σ : ScopeStack) (K L : String → Prop)
    (body body' : List Statement) : Prop where
  alias? : ∀ t ∈ body, t.alias? = none
  alias?' : ∀ t ∈ body', t.alias? = none
  labels : labelsOf body' = labelsOf body
  exits : body'.map isExit = body.map isExit
  follows : ∀ (f : Frame) (around around' : List Scope) (p p' : Progress), p.scopes = σ →
    p.Linked R K outside around around' p' → Follows (lowerStatements f false body)
      (lowerStatements f false body') p p' fun lines q lines' q' =>
        lines = lines' ∧ q.Linked R L outside around around' q'

namespace Counterpart

variable {R : Renaming} {outside : Prop} {σ : ScopeStack} {K L M : String → Prop} {tag : Tag}
  {body body' yes yes' no no' : List Statement}

theorem mono {K' L'} (h : Counterpart R outside σ K L body body')
    (hK : ∀ name, K name → K' name) (hL : ∀ name, L' name → L name) :
    Counterpart R outside σ K' L' body body' := by
  refine { h with follows := fun f around around' p p' hσ hlinked => ?_ }
  refine (h.follows f around around' p p' hσ (hlinked.mono hK)).mono ?_
  rintro lines q _ q' ⟨rfl, hlinked⟩
  exact ⟨rfl, hlinked.mono hL⟩

theorem nil : Counterpart R outside σ K K [] [] where
  alias? := by simp
  alias?' := by simp
  labels := rfl
  exits := rfl
  follows _ _ _ _ _ _ hlinked := .pure ⟨rfl, hlinked⟩

theorem append (h : Counterpart R outside σ K L yes yes') (h' : Counterpart R outside (afterAll σ yes) L M no no') :
    Counterpart R outside σ K M (yes ++ no) (yes' ++ no') where
  alias? := forall_mem_append.mpr ⟨h.alias?, h'.alias?⟩
  alias?' := forall_mem_append.mpr ⟨h.alias?', h'.alias?'⟩
  labels := by rw [labelsOf_append, labelsOf_append, h.labels, h'.labels]
  exits := by rw [map_append, map_append, h.exits, h'.exits]
  follows f around around' p p' hσ hlinked := by
    rw [lowerStatements_append, lowerStatements_append]
    refine .bind ((h.follows f around around' p p' hσ hlinked).given (givesFrom_afterAll f hlinked.proper yes)) ?_
    rintro lines q _ q' ⟨⟨rfl, hlinked⟩, hq⟩
    refine .bind (h'.follows f around around' q q' (hσ ▸ hq) hlinked) ?_
    rintro more r _ r' ⟨rfl, hlinked⟩
    exact .pure ⟨rfl, hlinked⟩

theorem actions {actions} (hkeeps : ∀ a ∈ actions, a.keepsNames)
    (hactions : withinActions K actions) (hdeclared : ∀ name ∈ actions.flatMap Action.declared, name ∉ R.avoided) :
    Counterpart R outside σ K (fun name => name ∈ actions.flatMap Action.declared ∨ K name)
      (actions.map (.action tag)) ((actions.map (·.rename R.map)).map (.action tag)) where
  alias? := by
    intro t ht
    obtain ⟨a, ha, rfl⟩ := mem_map.mp ht
    cases a with
    | declareAlias => cases hkeeps _ ha
    | _ => rfl
  alias?' := by
    intro t ht
    obtain ⟨b, hb, rfl⟩ := mem_map.mp ht
    obtain ⟨a, ha, rfl⟩ := mem_map.mp hb
    cases a with
    | declareAlias => cases hkeeps _ ha
    | _ => rfl
  labels := by
    clear hkeeps hactions hdeclared
    induction actions with
    | nil => rfl
    | cons a rest ih =>
      simp only [map_cons, labelsOf, ih]
      cases a <;> rfl
  exits := by
    simp only [map_map]
    refine map_congr_left fun a _ => ?_
    cases a <;> rfl
  follows f around around' p p' _ hlinked := hlinked.lowerActions tag hkeeps hactions hdeclared

theorem behindNames {S} {inner : Prop} {N full full'}
    (h : Counterpart S inner (σ.enter full) N L body body') (g : Frame) {p p'} (hσ : p.scopes = σ)
    (hproper : p.scopes.IsProper) (hnames : Follows (lookUpAliases full >>= declareAliases)
      (lookUpAliases full' >>= declareAliases) p.inside p'.inside fun _ q _ q' =>
        q.Linked S N inner (p.scopes.top :: p.scopes.outer) (p'.scopes.top :: p'.scopes.outer) q') :
    Follows (Microcode.inScope full (lowerStatements g false body))
      (Microcode.inScope full' (lowerStatements g false body')) p p' (p.Stays p') := by
  refine Progress.Linked.inScope hproper hnames fun q q' hinner hq => ?_
  rw [hσ] at hq
  refine (h.follows g _ _ q q' hq hinner).mono ?_
  rintro lines r _ r' ⟨rfl, hinner⟩
  exact ⟨rfl, L, hinner⟩

variable {around around' : List Scope} {σ' : ScopeStack}

theorem inScope (h : Counterpart R outside σ.push K L body body') (f : Frame) :
    Together R K outside around around' σ σ' (Microcode.inScope body (lowerStatements f true body))
      (Microcode.inScope body' (lowerStatements f true body')) := by
  intro p p' hσ _ hlinked
  rw [lowerStatements_atStart f h.alias?, lowerStatements_atStart f h.alias?']
  rw [← σ.enter_plain h.alias?] at h
  have hpush := hlinked.push
  rw [← hlinked.outer, ← hlinked.outer'] at hpush
  exact h.behindNames f hσ hlinked.proper (hpush.noNames h.alias? h.alias?')

theorem one {t t'} (halias : t.alias? = none) (halias' : t'.alias? = none)
    (hlabels : t'.labels = t.labels) (hexit : t'.isExit = t.isExit)
    (hfollows : ∀ (f : Frame) (around around' : List Scope) (σ' : ScopeStack),
      Together R K outside around around' σ σ' (t.lower f) (t'.lower f)) :
    Counterpart R outside σ K K [t] [t'] where
  alias? := forall_mem_singleton.mpr halias
  alias?' := forall_mem_singleton.mpr halias'
  labels := by simp only [labelsOf, hlabels]
  exits := by simp only [map_cons, map_nil, hexit]
  follows f around around' p p' hσ hlinked := by
    rw [lowerStatements_singleton, lowerStatements_singleton]
    exact (hfollows f around around' _ hσ rfl hlinked).mono fun _ _ _ _ hstays => ⟨hstays.1, hlinked.stays hstays⟩

theorem enter {s s'} (htag : s'.tag = s.tag) (hbranch : s'.isBranch = s.isBranch)
    (hblock : s'.isBlock = s.isBlock) {f : Frame} {rest rest' : Frame × List Line → Lower (List Line)}
    (h : ∀ r, Together R K outside around around' σ σ' (rest r) (rest' r)) :
    Together R K outside around around' σ σ' (f.enter s >>= rest) (f.enter s' >>= rest') :=
  .bind (fun _ _ _ _ hlinked => (hlinked.enter f s s' htag hbranch hblock).mono fun _ _ _ _ h => h.1) h

theorem block (h : Counterpart R outside σ.push K L body body') :
    Counterpart R outside σ K K [.block tag body] [.block tag body'] := by
  refine one rfl rfl h.labels rfl fun f _ _ _ => enter (by rfl) (by rfl) (by rfl) fun ⟨g, comment⟩ => ?_
  exact .bind (h.inScope g) fun lines => .pure _

variable {c : Comparison}

theorem branch (hc : c.All (Operand.Names K)) (h : Counterpart R outside σ.push K L yes yes') :
    Counterpart R outside σ K K [.branch tag c yes none] [.branch tag (c.rename R.map) yes' none] := by
  refine one rfl rfl h.labels rfl fun f _ _ _ => enter (by rfl) (by rfl) (by rfl) fun ⟨g, comment⟩ => ?_
  refine .bind .freshLabel fun done => ?_
  refine .bind (.emitChecked fun hagrees => hagrees.branchIf (c := c.negate) hc done) fun test => ?_
  exact .bind (h.inScope g) fun lines => .pure _

theorem branchElse (hc : c.All (Operand.Names K)) (h : Counterpart R outside σ.push K L yes yes')
    (h' : Counterpart R outside σ.push K M no no') : Counterpart R outside σ K K [.branch tag c yes (some no)]
      [.branch tag (c.rename R.map) yes' (some no')] := by
  have hlabels : labelsOf yes' ++ labelsOf no' = labelsOf yes ++ labelsOf no := by rw [h.labels, h'.labels]
  refine one rfl rfl hlabels rfl fun f _ _ _ => enter (by rfl) (by rfl) (by rfl) fun ⟨g, comment⟩ => ?_
  refine .bind .freshLabel fun otherwise => .bind .freshLabel fun done => ?_
  refine .bind (.emitChecked fun hagrees => hagrees.branchIf (c := c.negate) hc otherwise) fun test => ?_
  refine .bind (h.inScope g) fun lines => .bind (.emit g _) fun skip => ?_
  exact .bind (h'.inScope g) fun more => .pure _

theorem whileLoop (hc : c.All (Operand.Names K)) (h : Counterpart R outside σ.push K L body body') :
    Counterpart R outside σ K K [.whileLoop tag c body] [.whileLoop tag (c.rename R.map) body'] := by
  refine one rfl rfl h.labels rfl fun f _ _ _ => enter (by rfl) (by rfl) (by rfl) fun ⟨g, comment⟩ => ?_
  refine .bind .freshLabel fun again => .bind .freshLabel fun done => ?_
  refine .bind (.emitChecked fun hagrees => hagrees.branchIf (c := c.negate) hc done) fun test => ?_
  exact .bind (h.inScope _) fun lines => .bind (.emit g _) fun back => .pure _

theorem loop {c} (hc : ∀ c', c = some c' → c'.All (Operand.Names K)) (h : Counterpart R outside σ.push K L body body') :
    Counterpart R outside σ K K [.loop tag body c] [.loop tag body' (c.map (·.rename R.map))] := by
  refine one rfl rfl h.labels rfl fun f _ _ _ => enter (by rfl) (by rfl) (by rfl) fun ⟨g, comment⟩ => ?_
  cases c with
  | none =>
    refine .bind .freshLabel fun start => .bind .freshLabel fun done => ?_
    exact .bind (h.inScope _) fun lines => .bind (.emit g _) fun back => .pure _
  | some c =>
    refine .bind .freshLabel fun start => .bind .freshLabel fun next => .bind .freshLabel fun done => ?_
    refine .bind (h.inScope _) fun lines => ?_
    exact .bind (.emitChecked fun hagrees => hagrees.branchIf (hc c rfl) start) fun back => .pure _

variable {names : List (String × String × DataType)}

theorem labels_secondNames (h : labelsOf body' = labelsOf body) (line : Nat) :
    labelsOf body' = labelsOf (secondNames line names ++ body) := by
  rw [labelsOf_append, labelsOf_secondNames, nil_append, h]

theorem secondNames {line : Nat} (hnames : ∀ x ∈ names, K x.2.1)
    (h : Counterpart .none False (σ.enter (Microcode.secondNames line names)) (· ∈ names.map Prod.fst) L body body') :
    Counterpart R outside σ K K [.block tag (Microcode.secondNames line names ++ body)]
      [.block tag (Microcode.secondNames line (names.map fun x => (x.1, R.map x.2.1, x.2.2)) ++ body')] := by
  have hlabels : labelsOf (Microcode.secondNames line (names.map fun x => (x.1, R.map x.2.1, x.2.2)) ++ body')
      = labelsOf (Microcode.secondNames line names ++ body) :=
    (labels_secondNames rfl line).symm.trans (labels_secondNames h.labels line)
  rw [← σ.enter_secondNames line names h.alias?] at h
  refine one rfl rfl hlabels rfl fun f _ _ _ => enter (by rfl) (by rfl) (by rfl) fun ⟨g, comment⟩ => ?_
  refine .bind (fun p p' hσ _ hlinked => ?_) fun lines => .pure _
  rw [lowerStatements_secondNames g _ _ h.alias?, lowerStatements_secondNames g _ _ h.alias?']
  have hpush := hlinked.pushNone
  rw [← hlinked.outer, ← hlinked.outer'] at hpush
  exact h.behindNames g hσ hlinked.proper (hpush.bothNames hlinked.push.agrees line hnames h.alias? h.alias?')

/-- **A block that starts with second names on its own line, and a block that uses the first names instead.** -/
theorem firstNames (tag : Tag) (hnames : (outside → σ.top.Covered) → ∀ x ∈ names, σ.push.top.Spares K x)
    (h : Counterpart (.ofPairs (names.map fun x => (x.1, x.2.1))) False
      (σ.enter (Microcode.secondNames tag.line names)) (· ∈ names.map Prod.fst) L body body') :
    Counterpart .none outside σ K K [.block tag (Microcode.secondNames tag.line names ++ body)] [.block tag body'] := by
  rw [← σ.enter_secondNames tag.line names h.alias?] at h
  refine one rfl rfl (labels_secondNames h.labels tag.line) rfl fun f _ _ σ' p p' hσ hσ' hlinked => ?_
  refine .bind (hlinked.enter f (.block tag _) (.block tag _) rfl rfl rfl) ?_
  rintro ⟨g, comment⟩ q _ q' ⟨hstays, hline⟩
  obtain ⟨rfl, hq, hq', -⟩ := id hstays
  have hlinked := hlinked.stays hstays
  have hpush := hlinked.push
  rw [← hlinked.outer, ← hlinked.outer'] at hpush
  have hspares : ∀ x ∈ names, q.inside.scopes.top.Spares K x := by
    have htop : q.inside.scopes = σ.push := congrArg push (hq.trans hσ)
    rw [htop]
    refine hnames fun houtside => ?_
    rw [← hσ, ← hq]
    exact hlinked.owned houtside
  have hblock := h.behindNames g (hq.trans hσ) hlinked.proper (hpush.oneSidedNames rfl hline hspares h.alias? h.alias?')
  dsimp only
  rw [lowerStatements_secondNames g _ _ h.alias?, lowerStatements_atStart g h.alias?']
  refine .bind hblock ?_
  rintro lines r _ r' ⟨rfl, hr, hr', hsession⟩
  exact .pure ⟨rfl, hr.trans hq, hr'.trans hq', hsession⟩

end Counterpart
end Microcode
