import Microcode.Proofs.Plain
import Microcode.Proofs.Spelling

/-!
Addresses in plain programs.

The step to plain form makes addresses, of variables that live in memory and of nothing else, and every operand of the
plain form is one of the program, a constant or the target of its assignment.
-/

namespace Microcode

open Operand Assignment List

def Action.All (P : Operand → Prop) : Action → Prop
  | .declareInit _ value => value.All P
  | .assign a => a.value.All P
  | .call _ args => ∀ a ∈ args, a.All P
  | _ => True

variable {P : Operand → Prop} {steps : List Assignment} {o : Operand} {c : Comparison} {C : Comparison → Prop}

theorem Action.all_of_forall (h : ∀ o, P o) (a : Action) : a.All P := by
  cases a with
  | declareInit d value => exact value.all_of_forall h
  | assign a => exact a.value.all_of_forall h
  | call name args => exact fun a _ => a.all_of_forall h
  | _ => trivial

variable {a : Assignment}

theorem Assignment.step_of_plain {state step} (h : a.plain state = .ok steps)
    (hstep : step ∈ steps) : step.target = a.target ∧ step.isInit = a.isInit ∧
      ∀ name args swizzle, step.value = .call name args swizzle →
        ∃ written, a.value = .call name written swizzle ∧ args = written.map (·.resolve state) := by
  obtain ⟨-, value, hwhole, ⟨parts, chain, -, hchain, rfl⟩ | ⟨-, rfl⟩⟩ := plain_cases h
  · obtain ⟨link, hlink, rfl⟩ := mem_map.mp hstep
    have hparts : allParts (fun _ => True) parts := allParts_of_forall (fun _ => trivial) parts
    obtain ⟨htarget, -, hvalue⟩ := isStep_chainOfParts trivial (fun _ => trivial) hparts hchain link hlink
    refine ⟨htarget, rfl, fun name args swizzle hcall => ?_⟩
    rw [hcall] at hvalue
    cases hvalue
  · obtain rfl := mem_singleton.mp hstep
    refine ⟨rfl, rfl, fun name args swizzle hcall => ?_⟩
    cases value with
    | call written args' z =>
      cases hcall
      refine ⟨args', ?_, rfl⟩
      unfold whole? at hwhole
      split at hwhole
      · exact Option.some.inj hwhole
      · unfold Expr.compound? at hwhole
        split at hwhole <;> cases hwhole
    | _ => cases hcall

/-! ### The step to plain form -/

def Operand.IsWritten (o : Operand) : Prop := ∀ name, o.atom ≠ .address name

def Operand.AddressIn (state : List String) (o : Operand) : Prop := ∀ name, o.atom = .address name → name ∈ state

variable {a : Action}

section
variable {state : List String}

theorem Operand.isWritten_ofName (name : String) : (ofName name).IsWritten := by
  intro n h
  cases h

theorem Operand.isWritten_ofConstant (c : Constant) : (ofConstant c).IsWritten := by
  intro n h
  cases h

theorem Operand.IsWritten.addressIn (h : o.IsWritten) : o.AddressIn state := fun name hname => absurd hname (h name)

theorem Operand.IsWritten.resolve (h : o.IsWritten) : (o.resolve state).AddressIn state := by
  unfold Operand.resolve
  split
  next name _ =>
    split
    next hname =>
      intro n hn
      obtain rfl := Atom.address.inj hn
      simpa using hname
    · exact h.addressIn
  · exact h.addressIn

section
variable {P Q : Operand → Prop} (hPQ : ∀ o, P o → Q (o.resolve state))
include hPQ

theorem Comparison.All.resolve (h : c.All P) : (c.resolve state).All Q := ⟨hPQ _ h.1, hPQ _ h.2⟩

theorem CallArg.All.resolve {args : List CallArg} (h : ∀ a ∈ args, a.All P) :
    ∀ a ∈ args.map (·.resolve state), a.All Q := (CallArg.all_resolve args).mpr fun a ha => (h a ha).mono hPQ

theorem Expr.All.resolve {e : Expr} (h : e.All P) : (e.resolve state).All Q := e.all_resolve.mpr (h.mono hPQ)

end
variable {Q : Operand → Prop}

variable {P : Operand → Prop} {e : Expr}

theorem Assignment.all_of_whole? (hconst : ∀ c, P (.ofConstant c)) {a : Assignment}
    (htarget : P (.ofName a.target)) (ha : a.value.All P) (he : a.whole? = some e) : e.All P := by
  unfold whole? at he
  split at he
  · cases he
    exact ha
  · cases hvalue : a.value with
    | constant c =>
      rw [hvalue] at he
      cases he
      exact htarget
    | copy o =>
      rw [hvalue] at ha he
      cases he
      exact ⟨htarget, ha⟩
    | binary inner l r =>
      rw [hvalue] at ha he
      cases he
      exact ⟨htarget, trivial, ⟨ha.1, trivial, ha.2, trivial⟩, trivial⟩
    | withConstant inner l c =>
      rw [hvalue] at ha he
      cases he
      exact ⟨htarget, trivial, ⟨ha, trivial, hconst c, trivial⟩, trivial⟩
    | flat parts =>
      rw [hvalue] at ha he
      cases he
      exact ⟨htarget, trivial, ha, trivial⟩
    | _ =>
      rw [hvalue] at he
      cases he

theorem Assignment.all_of_plain (hPQ : ∀ o, P o → Q (o.resolve state)) (hconst : ∀ c, P (.ofConstant c))
    {a : Assignment} (htarget : P (.ofName a.target)) (ha : a.value.All P) (h : a.plain state = .ok steps) :
    ∀ b ∈ steps, b.value.All Q := by
  obtain ⟨hstate, value, hwhole, h⟩ := plain_cases h
  have hall : (value.resolve state).All Q := (a.all_of_whole? hconst htarget ha hwhole).resolve hPQ
  rcases h with ⟨parts, chain, hparts, hchain, rfl⟩ | ⟨-, rfl⟩
  · rw [hparts] at hall
    have hname := hPQ _ htarget
    rw [resolve_of_isResolved (isResolved_ofName hstate)] at hname
    intro b hb
    obtain ⟨step, hstep, rfl⟩ := mem_map.mp hb
    exact (isStep_chainOfParts hname (fun c => hPQ _ (hconst c)) hall hchain step hstep).2.2.all
  · exact forall_mem_singleton.mpr hall

theorem Action.all_of_plain (ha : a.All Operand.IsWritten) {actions : List Action}
    (h : a.plain state = .ok actions) : ∀ b ∈ actions, b.All (Operand.AddressIn state) := by
  have hassigns {b : Assignment} {steps : List Assignment} (hsteps : b.plain state = .ok steps)
      (hb : b.value.All Operand.IsWritten) : ∀ step ∈ steps, step.value.All (Operand.AddressIn state) :=
    Assignment.all_of_plain (fun _ h => h.resolve) isWritten_ofConstant (isWritten_ofName _) hb hsteps
  intro b hb
  cases Action.standsFor_of_plain h b hb with
  | declare d => trivial
  | init hinit hsteps hstep =>
    subst hinit
    exact hassigns hsteps ha _ hstep
  | assign hassign hsteps hstep =>
    subst hassign
    exact hassigns hsteps ha _ hstep
  | call hcall =>
    subst hcall
    exact CallArg.All.resolve (fun _ h => h.resolve) ha
  | self hself =>
    cases a with
    | declareInit | declareMany | assign | call => cases hself
    | _ => trivial

end

def Program.All (P : Operand → Prop) (p : Program) : Prop :=
  ∀ r ∈ p.routines, ∀ body, r.body = some body → everyIn (Action.All P) (Comparison.All P) body

variable {p : Program}

theorem Program.All.carries (hp : p.All Operand.IsWritten) : p.surroundings.Carries
    (Action.All Operand.IsWritten) (Comparison.All Operand.IsWritten)
    (Action.All (Operand.AddressIn p.surroundings.state))
    (Comparison.All (Operand.AddressIn p.surroundings.state)) where
  condition _ hc := hc.resolve fun _ h => h.resolve
  action ha _ h := Action.all_of_plain ha h
  call ha _ := CallArg.All.resolve (fun _ h => h.resolve) ha
  secondName _ _ _ := trivial
  macros m hm := hp m (mem_filter.mp hm).1

theorem Program.All.plain {q} (hp : p.All Operand.IsWritten) (h : p.plain = .ok q) :
    q.All (Operand.AddressIn (q.state.map StateVariable.name)) := by
  obtain ⟨routines, hroutines, h⟩ := bind_eq_ok.mp h
  cases h
  intro r hr
  obtain ⟨r', hr', hplain⟩ := exists_of_mapM hroutines r hr
  exact (hp.carries.routine (hp r' (mem_filter.mp hr').1) hplain).2

theorem Operand.IsVariable.isWritten (h : o.IsVariable) : o.IsWritten := by
  obtain ⟨name, hname⟩ := h
  intro n hn
  rw [hname] at hn
  cases hn

theorem Operand.Writable.isWritten (h : o.Writable) : o.IsWritten := by
  rcases h with h | ⟨c, rfl⟩
  · exact h.isWritten
  · exact isWritten_ofConstant c

theorem Comparison.Writable.all (h : c.Writable) : c.All Operand.IsWritten := ⟨h.1.isWritten, h.2.isWritten⟩

theorem CallArg.Writable.all {a : CallArg} (h : a.Writable) : a.All Operand.IsWritten := by
  cases a with
  | operand o => exact Operand.Writable.isWritten h
  | string text => trivial

mutual

theorem Part.IsTerm.all : ∀ {p : Part}, p.IsTerm → p.All Operand.IsWritten
  | .operand _, h => Operand.Writable.isWritten h
  | .op _, h => h.elim
  | .group _, h => allParts_of_alternating h

theorem allParts_of_alternating : ∀ {parts : List Part}, Alternating parts → allParts Operand.IsWritten parts
  | [], h => h.elim
  | _ :: _, h => ⟨h.1.all, allParts_of_continues h.2⟩

theorem allParts_of_continues : ∀ {parts : List Part}, Continues parts → allParts Operand.IsWritten parts
  | [], _ => trivial
  | [.op _], h => h.elim
  | .op _ :: _ :: _, h => ⟨trivial, h.1.all, allParts_of_continues h.2⟩
  | .operand _ :: _, h | .group _ :: _, h => h.elim

end

theorem Expr.Writable.all {e : Expr} (h : e.Writable) : e.All Operand.IsWritten := by
  cases e with
  | constant c => trivial
  | copy o | withConstant op l c => exact Operand.IsVariable.isWritten h
  | unary op o => exact h.1.isWritten
  | binary op l r => exact ⟨h.1.isWritten, h.2.isWritten⟩
  | call name args swizzle => exact fun a ha => (h a ha).all
  | test c => exact Comparison.Writable.all h
  | choose c yes no => exact ⟨h.1.all, h.2.1.isWritten, h.2.2.isWritten⟩
  | flat parts => exact allParts_of_alternating h.1

theorem Action.Writable.all (h : a.Writable) : a.All Operand.IsWritten := by
  cases a with
  | declareInit d value | assign a => exact h.2.all
  | call name args => exact fun a ha => (h a ha).all
  | _ => trivial

mutual

theorem Statement.Writable.every : ∀ {s : Statement}, s.Writable → s.Every Action.Writable Comparison.Writable
  | .block _ _, h => everyIn_of_writableBlock h
  | .branch _ _ _ none, h => ⟨h.1, everyIn_of_writableBlock h.2, trivial⟩
  | .branch _ _ _ (some _), h => ⟨h.1, everyIn_of_writableBlock h.2.1, everyIn_of_writableBlock h.2.2⟩
  | .whileLoop _ _ _, h => ⟨h.1, everyIn_of_writableBlock h.2⟩
  | .loop _ _ none, h => ⟨everyIn_of_writableBlock h, fun _ hc => by cases hc⟩
  | .loop _ _ (some _), h => ⟨everyIn_of_writableBlock h.1, fun _ hc => Option.some.inj hc ▸ h.2⟩
  | .action _ _, h => h

theorem everyIn_of_writableBlock : ∀ {body : List Statement}, writableBlock body →
    everyIn Action.Writable Comparison.Writable body
  | [], _ => trivial
  | _ :: _, h => ⟨h.1.every, everyIn_of_writableBlock h.2.2⟩

end
variable {P : Action → Prop}

theorem Program.Writable.every (hP : ∀ a, a.Writable → P a) (hC : ∀ c, c.Writable → C c) (h : p.Writable) :
    ∀ r ∈ p.routines, ∀ body, r.body = some body → everyIn P C body :=
  fun r hr body hbody => everyIn_mono hP hC (everyIn_of_writableBlock ((h.routines r hr).body body hbody))

theorem Program.Writable.all (h : p.Writable) : p.All Operand.IsWritten :=
  h.every (fun _ => Action.Writable.all) (fun _ => Comparison.Writable.all)

end Microcode
