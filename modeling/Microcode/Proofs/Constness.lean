import Microcode.Compiler
import Microcode.Proofs.Occurrence
import Microcode.Proofs.Origin

/-!
What becomes of constants.

Whether a variable may be changed is asked where one is assigned to and nowhere else, while builtins have
code of their own.  `Action.Changes` says from a statement alone which registers its code may write.
-/

namespace Microcode

open List Operand

def Instruction.Writes (i : Instruction) (r : Register) : Prop := ∃ x ∈ i.writes, x.register? = some r

variable {state : List String} {σ τ : ScopeStack} {r : Register}

theorem Operand.name?_resolve {o : Operand} {name : String} :
    (o.resolve state).name? = some name ↔ o.name? = some name ∧ name ∉ state := by
  obtain ⟨atom, swizzle⟩ := o
  cases atom with
  | «variable» other =>
    by_cases hother : other ∈ state
    · have hmem : other = name → name ∈ state := fun h => h ▸ hother
      simpa [resolve, name?, hother] using hmem
    · have hmem : other = name → name ∉ state := fun h => h ▸ hother
      simpa [resolve, name?, hother] using hmem
  | _ => simp [resolve, name?]

theorem Expr.Fills.of_plain {a step : Assignment} {steps} (hplain : a.plain state = .ok steps)
    (hstep : step ∈ steps) {v : Variable} (h : step.value.Fills state σ v r) : a.value.Fills state σ v r := by
  cases h with
  | target hr => exact .target hr
  | row hvalue hargs hfirst hle hlt =>
    obtain ⟨written, hwritten, rfl⟩ := (Assignment.step_of_plain hplain hstep).2.2 _ _ _ hvalue
    refine .row hwritten (fun o name w ho hname hstate hw => ?_) hfirst hle hlt
    exact hargs (o.resolve state) name w (mem_map.mpr ⟨_, ho, rfl⟩)
      (name?_resolve.mpr ⟨hname, hstate⟩) hstate hw

theorem Occurs.of_assigns {tag : Tag} {b : Action} {steps : List Assignment}
    (h : Occurs σ (.all (steps.map fun a => .action tag (.assign a))) τ (.action b)) :
    τ = σ ∧ ∃ step ∈ steps, b = .assign step := by
  induction steps with
  | nil => cases h
  | cons first rest ih =>
    cases h with
    | first h =>
      cases h
      exact ⟨rfl, first, .head _, rfl⟩
    | rest h =>
      obtain ⟨hτ, step, hstep, hb⟩ := ih h
      exact ⟨hτ, step, .tail _ hstep, hb⟩

theorem Frame.keepsTo_none (f : Frame) : f.KeepsTo .none :=
  ⟨fun _ _ => trivial, fun _ _ => trivial, fun _ _ => ⟨trivial, trivial⟩, trivial, trivial⟩

section
variable {f : Frame} {n k : Nat} {tag : Tag} {a : Action} {actions : List Action} {lines : List Line} {i : Instruction}

theorem Translated.mayWrite {body} (h : Translated f σ n (.all body) lines k) (state : List String)
    {W} (hW : ∀ τ b, Occurs σ (.all body) τ (.action b) → ∀ r, b.Changes state τ r → W r)
    (hi : .op i ∈ lines) (hr : i.Writes r) : MayWrite W r := by
  obtain ⟨x, hx, hr⟩ := hr
  have haccepts := h.accepts h.proper f.keepsTo_none (fun τ y _ => y.keepsTo_none τ) (fun _ _ _ => trivial) hW
  exact haccepts.writes i hi r (Instruction.mem_targets hx hr)

theorem Translated.changes (h : Translated f σ n (.all (actions.map (.action tag))) lines k)
    (hplain : a.plain state = .ok actions) (hi : .op i ∈ lines) (hr : i.Writes r) : MayWrite (a.Changes state σ) r := by
  cases hassigns : a.assignment? with
  | some b =>
    obtain ⟨steps, front, more, m, hsteps, hmore, rfl, hfront⟩ := h.exists_assignment hassigns hplain
    rcases mem_append.mp hi with hi | hi
    · cases hfront _ hi
    · refine hmore.mayWrite state (fun τ c hc r hr => ?_) hi hr
      obtain ⟨rfl, step, hstep, rfl⟩ := hc.of_assigns
      obtain ⟨htarget, hinit, -⟩ := Assignment.step_of_plain hsteps hstep
      cases hr with
      | assign hv hconst hr =>
        have hfills := hr.of_plain hsteps hstep
        rw [htarget] at hv
        rw [hinit] at hconst
        cases a with
        | assign => cases hassigns; exact .assign hv hconst hfills
        | declareInit => cases hassigns; exact .init hv hfills
        | _ => cases hassigns
  | none =>
    refine h.mayWrite state (fun τ c hc r hr => ?_) hi hr
    have hstands : a.StandsFor state c := hc.has (P := a.StandsFor state) (C := fun _ => True)
      (everyIn_actions tag (Action.standsFor_of_plain hplain))
    cases hstands with
    | declare => cases hr
    | init ha | assign ha =>
      subst ha
      cases hassigns
    | self ha =>
      cases hr with
      | _ => cases ha
    | @call name args ha =>
      subst ha
      cases hplain
      cases hc with
      | rest h => cases h
      | first h =>
        cases h
        cases hr with
        | call hname => exact .call hname
        | exchange ho hname hv hr =>
          obtain ⟨arg, harg, heq⟩ := mem_map.mp ho
          cases arg with
          | string => cases heq
          | operand o =>
            cases heq
            exact .exchange harg (name?_resolve.mp hname).1 hv hr

end

/-- The lines of an action write registers of constants only where they are for scratch or the action changes them. -/
def Emission.SparesConstants (state : List String) (e : Emission) : Prop :=
  ∀ ⦃tag a path⦄, e.path = .action tag a :: path → ∀ i, .op i ∈ e.lines →
    ∀ ⦃name v⦄, e.scopes.variableNamed name = .ok v → v.isConst → ∀ r ∈ v.registers, i.Writes r →
      r = .scratchVector ∨ a.Changes state e.scopes r

theorem Variable.ne_scratch {v : Variable} (h : v.register.Suits v.type) (hr : r ∈ v.registers) : r ≠ .scratch := by
  unfold Variable.registers Register.span at hr
  split at hr
  · rcases mem_cons.mp hr with rfl | hr
    · exact h.ne_scratch
    · have hfraction := Register.Suits.fraction (p := .ofVariable v none) h
      rw [Option.mem_toList] at hr
      simpa [Place.fraction, Place.ofVariable, hr] using hfraction
  · rw [mem_singleton.mp hr]
    exact h.ne_scratch

/-- **Constants.**  In the code of a program that was read, what is emitted for an action, inside of macros too,
writes a register of a constant only in these cases: the register is the scratch vector; the action declares a
variable with a value, or assigns to one that is no constant or is just initialised, and fills the register with it;
it exchanges a variable that is in the register; or it calls a function. -/
theorem Program.lower_spares_constants {tokens : List Token} {p q : Program} (hread : Program.ofTokens tokens = .ok p)
    (hplain : p.plain = .ok q) {o : Options} {codes : List Code} {warnings : List Warning}
    (hlower : q.lower o = .ok (codes, warnings)) {code : Code} (hcode : code ∈ codes) :
    ∃ r ∈ p.routines, ∃ body es leave, r.Emits p o body code es leave ∧
      ∀ e ∈ es, e.SparesConstants p.surroundings.state := by
  obtain ⟨r, hr, body, es, leave, hemits⟩ := (Program.namesOnce_ofTokens hread).emits hplain hlower hcode
  obtain ⟨signatures, plain, first, last, hissued⟩ := hemits.issued
  refine ⟨r, hr, body, es, leave, hemits, fun e he tag a path hpath i hi name v hv _ s hs hwrites => ?_⟩
  obtain ⟨f, n, actions, k, hactions, htranslated⟩ := hissued.exists_action he hpath
  exact (htranslated.changes hactions hi hwrites).resolve_left
    (Variable.ne_scratch (htranslated.proper.variableNamed name v hv) hs)

def exchangingSource : String := "function f()\x7bconst u32<$t0>a;u32<$t1>b;swap(a,b);\x7d"

theorem exchangingSource_changes : ∃ tokens p q codes warnings, Program.ofTokens tokens = .ok p ∧ p.plain = .ok q ∧
    q.lower {} = .ok (codes, warnings) ∧ ∃ code ∈ codes,
      (code.lines.filterMap Line.instruction?).map Instruction.targets =
        [[.scalar 8], [.scalar 9], [.scalar 8], [], []] ∧
      ∃ r ∈ p.routines, ∃ body es leave, r.Emits p {} body code es leave ∧
        ∀ e ∈ es, e.SparesConstants p.surroundings.state := by
  have hok : (Program.ofSource exchangingSource {} .refuse >>= Program.plain >>= (·.lower {})).toOption.map
      (fun r => r.1.map fun code => (code.lines.filterMap Line.instruction?).map Instruction.targets) =
        some [[[.scalar 8], [.scalar 9], [.scalar 8], [], []]] := by decide +kernel
  obtain ⟨⟨codes, warnings⟩, hcodes, htargets⟩ := Option.map_eq_some_iff.mp hok
  obtain ⟨q, hq, hlower⟩ := bind_eq_ok.mp (ok_of_toOption hcodes)
  obtain ⟨p, hp, hplain⟩ := bind_eq_ok.mp hq
  obtain ⟨text, tokens, -, -, hp⟩ := bind₂_eq_ok.mp hp
  have hread := mapError_eq_ok.mp hp
  refine ⟨tokens, p, q, codes, warnings, hread, hplain, hlower, ?_⟩
  obtain ⟨code, hcode, htargets⟩ := List.mem_map.mp (htargets ▸ List.mem_singleton_self _)
  exact ⟨code, hcode, htargets, Program.lower_spares_constants hread hplain hlower hcode⟩

end Microcode
