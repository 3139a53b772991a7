import Microcode.Expression.Chain
import Microcode.Proofs.Result

/-!
Other operands in an expression.

An expression is gathered into levels, loses brackets, has its constants folded and is turned until its group is in
front, all without a look at operands that are no constants.
-/

namespace Microcode

open List Level Except Constant Function

variable {g : Operand → Operand}

mutual

def Part.map (g : Operand → Operand) : Part → Part
  | .operand o => .operand (g o)
  | .op op => .op op
  | .group parts => .group (mapParts g parts)

def mapParts (g : Operand → Operand) : List Part → List Part
  | [] => []
  | p :: rest => p.map g :: mapParts g rest

end

mutual

def Term.map (g : Operand → Operand) : Term → Term
  | .leaf o => .leaf (g o)
  | .group first rest => .group (first.map g) (mapTerms g rest)

def mapTerms (g : Operand → Operand) : List (BinaryOp × Term) → List (BinaryOp × Term)
  | [] => []
  | (op, t) :: more => (op, t.map g) :: mapTerms g more

end

def Level.map (g : Operand → Operand) (l : Level) : Level := ⟨l.first.map g, mapTerms g l.rest⟩

variable (rest : List (BinaryOp × Term)) (l : Level)

section

theorem mapTerms_eq : mapTerms g rest = rest.map fun x => (x.1, x.2.map g) := by
  induction rest with
  | nil => rfl
  | cons x rest ih => rw [mapTerms, ih, map_cons]

theorem mapTerms_append (front rest : List (BinaryOp × Term)) :
    mapTerms g (front ++ rest) = mapTerms g front ++ mapTerms g rest := by
  simp only [mapTerms_eq, map_append]

@[simp] theorem Term.isLeaf_map (t : Term) : (t.map g).isLeaf = t.isLeaf := by cases t <;> rfl

@[simp] theorem Term.operand?_map (t : Term) : (t.map g).operand? = t.operand?.map g := by cases t <;> rfl

@[simp] theorem fst_mapTerms : (mapTerms g rest).map Prod.fst = rest.map Prod.fst := by simp [mapTerms_eq]

@[simp] theorem Level.ops_map : (l.map g).ops = l.ops := fst_mapTerms l.rest

theorem Level.toTerm_map : (l.map g).toTerm = l.toTerm.map g := by
  obtain ⟨first, rest⟩ := l
  cases rest <;> rfl

namespace Level

/-! ### Gathering -/

theorem splitAtTier_map (tier : Nat) (rest : List (BinaryOp × Term)) :
    splitAtTier tier (mapTerms g rest) = (mapTerms g (splitAtTier tier rest).1,
      (splitAtTier tier rest).2.map fun x => (x.1, x.2.1.map g, mapTerms g x.2.2)) := by
  induction rest with
  | nil => rfl
  | cons x rest ih =>
    simp only [mapTerms, splitAtTier, ih]
    by_cases htier : x.1.precedence = tier
    · rw [if_pos htier, if_pos htier]
      rfl
    · rw [if_neg htier, if_neg htier]
      rfl

theorem all_mapTerms (test : BinaryOp → Bool) (rest : List (BinaryOp × Term)) :
    (mapTerms g rest).all (fun x => test x.1) = rest.all fun x => test x.1 := by
  rw [mapTerms_eq, List.all_map]
  rfl

theorem split_map {gather : Term → List (BinaryOp × Term) → Level}
    (hgather : ∀ first rest, gather (first.map g) (mapTerms g rest) = (gather first rest).map g) (tier : Nat)
    (first : Term) (rest : List (BinaryOp × Term)) :
    (⟨(gather (first.map g) (splitAtTier tier (mapTerms g rest)).1).toTerm,
      (splitAtTier tier (mapTerms g rest)).2.map fun (op, t, run) => (op, (gather t run).toTerm)⟩ : Level)
    = map g ⟨(gather first (splitAtTier tier rest).1).toTerm,
      (splitAtTier tier rest).2.map fun (op, t, run) => (op, (gather t run).toTerm)⟩ := by
  simp only [splitAtTier_map, hgather, toTerm_map, map_map, comp_def]
  simp only [map, mapTerms_eq, map_map, comp_def]

theorem gather_map (tiers : List Nat) (first : Term) (rest : List (BinaryOp × Term)) :
    gather tiers (first.map g) (mapTerms g rest) = (gather tiers first rest).map g := by
  induction tiers generalizing first rest with
  | nil => rfl
  | cons tier tighter ih =>
    rw [gather, gather, all_mapTerms fun op => decide (op.precedence = tier),
      all_mapTerms fun op => decide (op.precedence ≠ tier)]
    split
    · rfl
    split
    · exact ih first rest
    · exact split_map ih tier first rest

theorem gatherOpen?_map (tiers : List Nat) (first : Term) (rest : List (BinaryOp × Term)) (last : BinaryOp) :
    gatherOpen? tiers (first.map g) (mapTerms g rest) last = (gatherOpen? tiers first rest last).map (map g) := by
  induction tiers with
  | nil => rfl
  | cons tier tighter ih =>
    have hops : (mapTerms g rest).map (·.1.precedence) = rest.map (·.1.precedence) := by simp [mapTerms_eq]
    rw [gatherOpen?, gatherOpen?, hops]
    split
    · rfl
    split
    · exact ih
    · exact congrArg some (split_map (gather_map tighter) tier first rest)

def Run.map (g : Operand → Operand) (r : Run) : Run := ⟨r.first.map g, mapTerms g r.rest, r.extra⟩

theorem ofRun?_map (r : Run) : ofRun? (r.map g) = (ofRun? r).map (map g) := by
  obtain ⟨first, rest, extra⟩ := r
  cases extra with
  | none => exact congrArg some (gather_map tiers first rest)
  | some op => exact gatherOpen?_map tiers first rest op

mutual

theorem termOf?_map : ∀ p : Part, termOf? (p.map g) = (termOf? p).map (Term.map g)
  | .operand o => rfl
  | .op _ => rfl
  | .group parts => by
    simp only [Part.map, termOf?, Option.bind_eq_bind, runOf?_map parts, Option.bind_map, comp_def,
      ofRun?_map, toTerm_map, Option.pure_def, Option.map_bind, Option.map_some]

theorem runOf?_map : ∀ parts : List Part, runOf? (mapParts g parts) = (runOf? parts).map (Run.map g)
  | [] => rfl
  | [p] => by
    simp only [mapParts, runOf?, termOf?_map p, Option.map_map]
    rfl
  | [p, .op op] => by
    simp only [mapParts, Part.map, runOf?, termOf?_map p, Option.map_map]
    rfl
  | p :: .op op :: q :: rest => by
    have hrest := runOf?_map (q :: rest)
    simp only [mapParts] at hrest
    simp only [mapParts, Part.map, runOf?, termOf?_map p, hrest, Option.bind_eq_bind, Option.bind_map,
      comp_def, Option.pure_def, Option.map_bind, Option.map_some]
    rfl
  | _ :: .operand _ :: _ | _ :: .group _ :: _ => by simp [mapParts, Part.map, runOf?]

end

theorem ofParts?_map (parts : List Part) : ofParts? (mapParts g parts) = (ofParts? parts).map (map g) := by
  simp only [ofParts?, runOf?_map, Option.bind_map, comp_def, ofRun?_map, Option.map_bind]

theorem leads_map (group : Level) (ops : List BinaryOp) : leads (group.map g) ops = leads group ops := by
  unfold leads
  rw [ops_map]

theorem absorb_map (op : BinaryOp) (group : Level) : absorb op (group.map g) = mapTerms g (absorb op group) := by
  unfold absorb
  rw [ops_map]
  split
  · simp [mapTerms, mapTerms_eq, map, comp_def]
  split
  · rfl
  · rfl

theorem assemble_map (start : Term × List (BinaryOp × Term)) (rest : List (BinaryOp × Term)) :
    assemble (start.1.map g, mapTerms g start.2) (mapTerms g rest) = (assemble start rest).map g := by
  simp only [assemble, map, mapTerms_append]

mutual

theorem spliceFirst_map (ops : List BinaryOp) : ∀ t : Term,
    spliceFirst ops (t.map g) = ((spliceFirst ops t).1.map g, mapTerms g (spliceFirst ops t).2)
  | .leaf o => rfl
  | .group first rest => by
    rw [Term.map, spliceFirst, spliceFirst, fst_mapTerms, spliceFirst_map _ first, spliceRest_map rest, assemble_map,
      leads_map]
    split <;> rfl

theorem spliceRest_map : ∀ rest : List (BinaryOp × Term), spliceRest (mapTerms g rest) = mapTerms g (spliceRest rest)
  | [] => rfl
  | (op, .leaf o) :: more => by
    simp only [mapTerms, Term.map, spliceRest, spliceRest_map more]
  | (op, .group first rest) :: more => by
    simp only [mapTerms, Term.map, spliceRest, spliceRest_map more, mapTerms_append]
    rw [fst_mapTerms, spliceFirst_map _ first, spliceRest_map rest, assemble_map, absorb_map]

end

theorem splice_map : (l.map g).splice = l.splice.map g := by
  unfold splice
  rw [ops_map, show (l.map g).first = l.first.map g from rfl, show (l.map g).rest = mapTerms g l.rest from rfl,
    spliceFirst_map, spliceRest_map, assemble_map]

theorem canRotate_map (op : BinaryOp) : (l.map g).canRotate op = l.canRotate op := by
  unfold canRotate
  rw [ops_map]

theorem rotate_map (i : Nat) : (l.map g).rotate i = (l.rotate i).map g := by
  obtain ⟨first, rest⟩ := l
  unfold rotate map
  rw [mapTerms_eq, getElem?_map]
  cases hx : rest[i]? with
  | none => simp [mapTerms_eq]
  | some x => simp [mapTerms, mapTerms_eq, eraseIdx_eq_take_drop_succ, map_take, map_drop]

theorem groupFirst_map : (l.map g).groupFirst = l.groupFirst.map (map g) := by
  have hgroups : (mapTerms g l.rest).filter (! ·.2.isLeaf) = mapTerms g (l.rest.filter (! ·.2.isLeaf)) := by
    simp [mapTerms_eq, filter_map, comp_def]
  have hindex : (mapTerms g l.rest).findIdx (! ·.2.isLeaf) = l.rest.findIdx (! ·.2.isLeaf) := by
    simp [mapTerms_eq, findIdx_map, comp_def]
  have hfirst : (l.map g).first.isLeaf = l.first.isLeaf := Term.isLeaf_map l.first
  unfold groupFirst
  rw [show (l.map g).rest = mapTerms g l.rest from rfl, hgroups, hindex, hfirst]
  simp only [canRotate_map, rotate_map]
  generalize l.rest.filter (! ·.2.isLeaf) = groups
  match groups with
  | [] => rfl
  | [(op, t)] =>
    simp only [mapTerms]
    split <;> rfl
  | _ :: _ :: _ => rfl

theorem leaves?_map : leaves? (mapTerms g rest) = (leaves? rest).map (List.map fun x => (x.1, g x.2)) := by
  induction rest with
  | nil => rfl
  | cons x rest ih =>
    obtain ⟨op, t⟩ := x
    simp only [mapTerms, leaves?, Option.bind_eq_bind, ih, Term.operand?_map, Option.bind_map, comp_def,
      Option.pure_def, Option.map_bind, Option.map_some, map_cons]

theorem steps?_map : (l.map g).steps? = l.steps?.map fun x => (g x.1, x.2.map fun y => (y.1, g y.2)) := by
  obtain ⟨first, rest⟩ := l
  cases first with
  | leaf o =>
    simp only [steps?, map, Term.map, leaves?_map, Option.bind_eq_bind, Option.bind_map, comp_def,
      Option.pure_def, Option.map_bind, Option.map_some]
  | group first inner =>
    simp only [steps?, map, Term.map, leaves?_map, Option.bind_eq_bind, Option.bind_map, comp_def,
      Term.operand?_map, Option.pure_def, Option.map_bind, Option.map_some, map_append]

end Level
end

/-! ### Constants -/

theorem Operand.eq_ofConstant {o : Operand} {c} (h : o.constant? = some c) : o = .ofConstant c := by
  obtain ⟨atom, swizzle⟩ := o
  cases atom with
  | constant c' =>
    cases swizzle with
    | none =>
      cases h
      rfl
    | some _ => cases h
  | «variable» _ | address _ => cases h

/-- Constants stay what they are, and nothing else becomes one. -/
structure KeepsConstants (g : Operand → Operand) : Prop where
  constant? : ∀ o, (g o).constant? = o.constant?
  ofConstant : ∀ c, g (.ofConstant c) = .ofConstant c

section
variable (hg : KeepsConstants g)
include hg

theorem Term.constant?_map (t : Term) : (t.map g).constant? = t.constant? := by
  cases t with
  | leaf o => exact hg.constant? o
  | group first rest => rfl

theorem Term.map_ofConstant (c : Constant) : (Term.ofConstant c).map g = Term.ofConstant c :=
  congrArg Term.leaf (hg.ofConstant c)

namespace Level

theorem sumConstants_map (sum : Option Constant) (rest : List (BinaryOp × Term)) : sumConstants.go sum (mapTerms g rest)
      = (sumConstants.go sum rest).map fun x => (x.1, mapTerms g x.2) := by
  induction rest generalizing sum with
  | nil => rfl
  | cons x rest ih =>
    obtain ⟨op, t⟩ := x
    rw [mapTerms, sumConstants.go, sumConstants.go, Term.constant?_map hg]
    cases t.constant? with
    | some c =>
      dsimp only
      cases combine op (sum.getD (.int 0)) c with
      | error e => rfl
      | ok c => exact ih (some c)
    | none =>
      rw [ih]
      cases sumConstants.go sum rest with
      | error e | ok x => rfl

theorem signedTerm_map (c : Constant) : ((signedTerm c).1, (signedTerm c).2.map g) = signedTerm c := by
  cases c <;> unfold signedTerm <;> dsimp only <;> split <;> simp [Term.map_ofConstant hg]

theorem foldSum_map (l : Level) : foldSum (l.map g) = (foldSum l).map (map g) := by
  have hsum := sumConstants_map hg none ((.add, l.first) :: l.rest)
  unfold foldSum sumConstants
  rw [show ((BinaryOp.add, (l.map g).first) :: (l.map g).rest) = mapTerms g ((.add, l.first) :: l.rest) from rfl, hsum]
  cases sumConstants.go none ((.add, l.first) :: l.rest) with
  | error e => rfl
  | ok x =>
    obtain ⟨sum, terms⟩ := x
    have htail (more : List (BinaryOp × Term)) : mapTerms g (more ++ ((sum.filter (! ·.isZero)).map signedTerm).toList)
          = mapTerms g more ++ ((sum.filter (! ·.isZero)).map signedTerm).toList := by
      rw [mapTerms_append]
      cases sum.filter (! ·.isZero) with
      | none => rfl
      | some c => exact congrArg (mapTerms g more ++ [·]) (signedTerm_map hg c)
    match terms with
    | [] => exact congrArg (fun t => ok (mk t [])) (Term.map_ofConstant hg _).symm
    | (op, t) :: more =>
      cases op with
      | sub =>
        exact congrArg (fun t' => ok (mk t' ((.sub, t.map g) :: mapTerms g more)))
          (Term.map_ofConstant hg _).symm
      | _ => exact congrArg (fun rest => ok (mk (t.map g) rest)) (htail more).symm

theorem productConstants_map (op : BinaryOp) (terms : List Term) (product : Option Constant) :
    productConstants op (terms.map (Term.map g)) product
      = (productConstants op terms product).map fun x => (x.1, x.2.map (Term.map g)) := by
  induction terms generalizing product with
  | nil => rfl
  | cons t terms ih =>
    rw [map_cons, productConstants, productConstants, Term.constant?_map hg]
    cases t.constant? with
    | some c =>
      cases product with
      | none => exact ih (some c)
      | some d =>
        dsimp only
        cases combine op d c with
        | error e => rfl
        | ok c => exact ih (some c)
    | none =>
      rw [ih]
      cases productConstants op terms product with
      | error e | ok x => rfl

theorem foldProduct_map (op : BinaryOp) (l : Level) :
    foldProduct op (l.map g) = (foldProduct op l).map (map g) := by
  have hterms : (l.map g).first :: (l.map g).rest.map Prod.snd = (l.first :: l.rest.map Prod.snd).map (Term.map g) := by
    simp [map, mapTerms_eq]
  unfold foldProduct
  rw [hterms, productConstants_map hg]
  cases productConstants op (l.first :: l.rest.map Prod.snd) none with
  | error e => rfl
  | ok x =>
    obtain ⟨product, terms⟩ := x
    have hkept : terms.map (Term.map g)
          ++ ((product.filter fun c => !isIdentity op c || terms.isEmpty).map Term.ofConstant).toList
        = (terms ++ ((product.filter fun c =>
            !isIdentity op c || terms.isEmpty).map Term.ofConstant).toList).map (Term.map g) := by
      rw [map_append]
      cases product.filter fun c => !isIdentity op c || terms.isEmpty with
      | none => rfl
      | some c => exact congrArg (terms.map (Term.map g) ++ [·]) (Term.map_ofConstant hg c).symm
    simp only [Except.map, bind, Except.bind, isEmpty_map, hkept]
    generalize terms ++ _ = kept
    cases kept with
    | nil => rfl
    | cons first rest => simp [map, mapTerms_eq, comp_def]

theorem foldStart_map (first : Term) (rest : List (BinaryOp × Term)) :
    foldStart (first.map g) (mapTerms g rest) = (foldStart first rest).map (map g) := by
  induction rest generalizing first with
  | nil => rfl
  | cons x rest ih =>
    obtain ⟨op, t⟩ := x
    rw [mapTerms, foldStart, foldStart, Term.constant?_map hg, Term.constant?_map hg]
    cases first.constant? with
    | none => rfl
    | some a =>
      cases t.constant? with
      | none => rfl
      | some b =>
        dsimp only
        cases combine op a b with
        | error e => rfl
        | ok c =>
          have hrest := ih (.ofConstant c)
          rw [Term.map_ofConstant hg] at hrest
          exact hrest

theorem foldOwn_map (l : Level) : foldOwn (l.map g) = (foldOwn l).map (map g) := by
  unfold foldOwn
  rw [ops_map]
  split
  · rfl
  split
  · exact foldSum_map hg l
  split
  · exact foldProduct_map hg _ l
  · exact foldStart_map hg l.first l.rest

end Level
end

namespace Level

theorem foldTerm_group (first : Term) (rest : List (BinaryOp × Term)) :
    foldTerm (.group first rest) = (fold ⟨first, rest⟩).map toTerm := by
  simp only [foldTerm, fold]
  cases foldTerm first with
  | error => rfl
  | ok first => cases foldTerms rest <;> rfl

theorem fold_map_of_terms (hg : KeepsConstants g) {first : Term} {rest}
    (hfirst : foldTerm (first.map g) = (foldTerm first).map (Term.map g))
    (hrest : foldTerms (mapTerms g rest) = (foldTerms rest).map (mapTerms g)) :
    fold ⟨first.map g, mapTerms g rest⟩ = (fold ⟨first, rest⟩).map (map g) := by
  simp only [fold, hfirst, hrest]
  cases foldTerm first with
  | error e => rfl
  | ok first =>
    cases foldTerms rest with
    | error e => rfl
    | ok rest => exact foldOwn_map hg ⟨first, rest⟩

mutual

theorem foldTerm_map (hg : KeepsConstants g) : ∀ t : Term, foldTerm (t.map g) = (foldTerm t).map (Term.map g)
  | .leaf o => rfl
  | .group first rest => by
    rw [Term.map, foldTerm_group, foldTerm_group, fold_map_of_terms hg (foldTerm_map hg first) (foldTerms_map hg rest)]
    cases fold ⟨first, rest⟩ with
    | error e => rfl
    | ok l => exact congrArg ok (toTerm_map l)

theorem foldTerms_map (hg : KeepsConstants g) : ∀ rest : List (BinaryOp × Term),
    foldTerms (mapTerms g rest) = (foldTerms rest).map (mapTerms g)
  | [] => rfl
  | (op, t) :: more => by
    rw [mapTerms, foldTerms, foldTerms, foldTerm_map hg t, foldTerms_map hg more]
    cases foldTerm t with
    | error e => rfl
    | ok t =>
      cases foldTerms more with
      | error e | ok more => rfl

end

theorem fold_map (hg : KeepsConstants g) (l : Level) : (l.map g).fold = l.fold.map (map g) :=
  fold_map_of_terms hg (foldTerm_map hg l.first) (foldTerms_map hg l.rest)

theorem variableFirst_map (hg : KeepsConstants g) (l : Level) : (l.map g).variableFirst = l.variableFirst.map g := by
  obtain ⟨first, rest⟩ := l
  have hfirst : (map g ⟨first, rest⟩).first.constant? = first.constant? := Term.constant?_map hg first
  unfold variableFirst
  rw [hfirst]
  cases first.constant? with
  | none => rfl
  | some c =>
    match rest with
    | [] => rfl
    | (op, .group inner more) :: rest => rfl
    | (op, .leaf o) :: rest =>
      simp only [map, mapTerms, Term.map, hg.constant?]
      have hrotate := canRotate_map (g := g) ⟨first, (op, .leaf o) :: rest⟩ op
      have hturn := rotate_map (g := g) ⟨first, (op, .leaf o) :: rest⟩ 0
      simp only [map, mapTerms, Term.map] at hrotate hturn
      rw [hrotate]
      split <;> rfl

end Level

/-- The operand that the chain of an expression starts with, and the steps behind it. -/
def StepsOf (parts : List Part) (head : Operand) (steps : List (BinaryOp × Operand)) : Prop :=
  ∃ l folded turned, ofParts? parts = some l ∧ l.splice.fold = .ok folded ∧ folded.groupFirst = .ok turned ∧
    turned.variableFirst.steps? = some (head, steps)

/-- How a chain starts, and the steps that are left: what is in front is loaded if it is a constant or stands alone,
and takes part in the first step if not. -/
inductive Opens (head : Operand) : List (BinaryOp × Operand) → Expr → List (BinaryOp × Operand) → Prop
  | load {steps} (h : head.constant?.isSome ∨ steps = []) : Opens head steps (.ofOperand head) steps
  | combine {op right steps} (h : head.constant? = none) :
      Opens head ((op, right) :: steps) (.ofStep op head right) steps

section
variable {parts : List Part} {head : Operand} {steps : List (BinaryOp × Operand)}
variable {target : String} {values : List Expr}

theorem laterSteps_eq_ok : laterSteps target steps = .ok values ↔
    (∀ s ∈ steps, s.2.name? ≠ some target) ∧ values = steps.map fun s => .ofStep s.1 (.ofName target) s.2 := by
  induction steps generalizing values with
  | nil => simp [laterSteps, eq_comm]
  | cons s steps ih =>
    rw [laterSteps, forall_mem_cons]
    split
    next hname => exact iff_of_false nofun fun h => h.1.1 hname
    next hname =>
      simp only [bind_eq_ok, ih, ok.injEq]
      constructor
      · rintro ⟨_, ⟨hsteps, rfl⟩, rfl⟩
        exact ⟨⟨hname, hsteps⟩, rfl⟩
      · rintro ⟨⟨-, hsteps⟩, rfl⟩
        exact ⟨_, ⟨hsteps, rfl⟩, rfl⟩

theorem chainSteps_eq_ok : chainSteps target head steps = .ok values ↔ ∃ value rest later,
    Opens head steps value rest ∧ laterSteps target rest = .ok later ∧ values = value :: later := by
  constructor
  · intro h
    unfold chainSteps at h
    split at h
    · cases h
      exact ⟨_, _, _, .load (.inr rfl), rfl, rfl⟩
    · split at h
      all_goals
        rename_i hconst
        obtain ⟨later, hlater, h⟩ := bind_eq_ok.mp h
        cases h
      · exact ⟨_, _, _, .load (.inl hconst), hlater, rfl⟩
      · exact ⟨_, _, _, .combine (by simpa using hconst), hlater, rfl⟩
  · rintro ⟨value, rest, later, hopens, hlater, rfl⟩
    cases hopens with
    | load h =>
      cases steps with
      | nil =>
        cases hlater
        rfl
      | cons s steps => rw [chainSteps, if_pos (by simpa using h), hlater]; rfl
    | combine h => rw [chainSteps, if_neg (by simp [h]), hlater]; rfl

theorem chainOfParts_eq_ok {swizzle chain} :
    chainOfParts target swizzle parts = .ok chain ↔ ∃ head steps values, StepsOf parts head steps ∧
      chainSteps target head steps = .ok values ∧ chain = values.map fun v => ⟨target, swizzle, none, v, false⟩ := by
  unfold chainOfParts
  constructor
  · intro h
    split at h
    · cases h
    next l hl =>
      obtain ⟨folded, turned, hfold, hturned, h⟩ := bind₂_eq_ok.mp h
      split at h
      · cases h
      next head steps hsteps =>
        obtain ⟨values, hvalues, h⟩ := bind_eq_ok.mp h
        exact ⟨head, steps, values, ⟨l, folded, turned, hl, mapError_eq_ok.mp hfold, hturned, hsteps⟩, hvalues,
          (ok.inj h).symm⟩
  · rintro ⟨head, steps, values, ⟨l, folded, turned, hl, hfold, hturned, hsteps⟩, hvalues, rfl⟩
    simp only [hl, chain]
    refine bind₂_eq_ok.mpr ⟨folded, turned, mapError_eq_ok.mpr hfold, hturned, ?_⟩
    simp only [hsteps]
    exact bind_eq_ok.mpr ⟨values, hvalues, rfl⟩

theorem StepsOf.unique {head' steps'} (h : StepsOf parts head steps)
    (h' : StepsOf parts head' steps') : head = head' ∧ steps = steps' := by
  obtain ⟨l, folded, turned, hl, hfold, hturned, hsteps⟩ := h
  obtain ⟨l', folded', turned', hl', hfold', hturned', hsteps'⟩ := h'
  cases hl.symm.trans hl'
  cases hfold.symm.trans hfold'
  cases hturned.symm.trans hturned'
  exact Prod.mk.inj (Option.some.inj (hsteps.symm.trans hsteps'))

/-- **An expression of other operands has the steps of other operands.** -/
theorem StepsOf.map (hg : KeepsConstants g) (h : StepsOf parts head steps) :
    StepsOf (mapParts g parts) (g head) (steps.map fun s => (s.1, g s.2)) := by
  obtain ⟨l, folded, turned, hl, hfold, hturned, hsteps⟩ := h
  refine ⟨l.map g, folded.map g, turned.map g, ?_, ?_, ?_, ?_⟩
  · rw [ofParts?_map, hl]
    rfl
  · rw [splice_map, fold_map hg, hfold]
    rfl
  · rw [groupFirst_map, hturned]
    rfl
  · rw [variableFirst_map hg, steps?_map, hsteps]
    rfl

end
end Microcode
