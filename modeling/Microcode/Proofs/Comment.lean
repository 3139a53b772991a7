import Microcode.Proofs.Linking
import Microcode.Proofs.Lowering

/-!
Comments change no code.

With comments asked for, lowering puts one in front of the code of each statement and does everything else as without:
it makes up the same labels, takes the same registers, gives the same warnings and fails the same way.
-/

namespace Microcode

open Program

theorem Program.lower_uncommented {p q : Program} (h : p.plain = .ok q) (o : Options) :
    q.lower { o with sourceComments := false } = (q.lower o).map fun r => (r.1.map Code.bare, r.2) := by
  unfold lower
  rw [(lower_mirrors o (isPlain_of_plain h)).image, StateT.run_map]
  cases (lowerProgram o q).run {} with
  | error e => rfl
  | ok r => rfl

theorem optimizeLines_bare (rounds : Nat) (isCommand : Bool) (lines : List Line) :
    optimizeLines rounds isCommand (bare lines) = optimizeLines rounds isCommand lines := by
  have hbare : (stripComments (bare lines)).lines = (stripComments lines).lines := bare_bare lines
  unfold optimizeLines
  rw [hbare]

theorem Code.optimize_bare (rounds : Nat) (c : Code) : c.bare.optimize rounds = c.optimize rounds := by
  show optimizeLines rounds c.isCommand (Microcode.bare c.lines) >>= _ = _
  rw [optimizeLines_bare]
  rfl

variable {o : Options}

theorem optimizeAll_bare (h : o.optimize) (codes : List Code) :
    optimizeAll o (codes.map Code.bare) = optimizeAll o codes := by
  unfold optimizeAll
  rw [List.mapM_map, h]
  simp only [Function.comp_def, Code.optimize_bare]
  rfl

theorem optimizeAll_off (h : o.optimize = false) (codes : List Code) : optimizeAll o codes = .ok codes := by
  unfold optimizeAll
  rw [h]
  rfl

theorem bind_congr_of_ok {ε α β : Type} {x} {f g : α → Except ε β} (h : ∀ a, x = .ok a → f a = g a) :
    x >>= f = x >>= g := by
  cases x with
  | error e => rfl
  | ok a => exact h a rfl

theorem compile_bare (h : o.optimize) (source : String) (defines : Source.Defines) (loader : Source.Loader) :
    compile source { o with sourceComments := false } defines loader = compile source o defines loader := by
  refine congrArg (ofSource source defines loader >>= ·) (funext fun parsed => ?_)
  refine bind_congr_of_ok fun p hplain => ?_
  rw [lower_uncommented hplain o]
  cases p.lower o with
  | error e => rfl
  | ok r =>
    have hall : optimizeAll { o with sourceComments := false } (r.1.map Code.bare) = optimizeAll o r.1 :=
      optimizeAll_bare h r.1
    show (optimizeAll { o with sourceComments := false } (r.1.map Code.bare)).mapError CompileError.internal >>= _ = _
    rw [hall]
    rfl

theorem compile_of_compiles {source : String} {defines loader compiled p codes out}
    (h : Compiles source o defines loader compiled p codes out) :
    compile source o defines loader = .ok compiled := by
  obtain ⟨parsed, hparsed, hplain⟩ := h.plain
  have hlower := h.lower
  have hout : (optimizeAll o codes).mapError CompileError.internal = .ok out := mapError_eq_ok.mpr h.optimize
  refine bind₂_eq_ok.mpr ⟨parsed, p, hparsed, hplain, bind_eq_ok.mpr ⟨_, hlower, ?_⟩⟩
  exact bind_eq_ok.mpr ⟨out, hout, congrArg Except.ok (by rw [← h.text])⟩

/--
**Comments change no code.**

With the passes asked for, a compilation gives the same whether comments are asked for or not.  Without the
passes both compilations fail with the same error, or both succeed with the same warnings, and the code of the
one without comments is that of the other less the lines that are comments.
-/
theorem compile_ignores_comments (source : String) (o : Options) (defines : Source.Defines)
    (loader : Source.Loader) :
    (o.optimize = true → compile source { o with sourceComments := true } defines loader
      = compile source { o with sourceComments := false } defines loader)
    ∧ (o.optimize = false →
      (∃ e, compile source { o with sourceComments := true } defines loader = .error e
        ∧ compile source { o with sourceComments := false } defines loader = .error e)
      ∨ ∃ commented plain p codes,
        compile source { o with sourceComments := true } defines loader = .ok commented
        ∧ compile source { o with sourceComments := false } defines loader = .ok plain
        ∧ Compiles source { o with sourceComments := true } defines loader commented p codes codes
        ∧ Compiles source { o with sourceComments := false } defines loader plain p (codes.map Code.bare)
            (codes.map Code.bare)
        ∧ commented.warnings = plain.warnings) := by
  refine ⟨fun h => (compile_bare (o := { o with sourceComments := true }) h source defines loader).symm,
    fun h => ?_⟩
  cases hparsed : Program.ofSource source defines loader with
  | error e => exact .inl ⟨e, by simp [compile, hparsed, bind, Except.bind]⟩
  | ok parsed =>
    cases hplain : parsed.plain with
    | error e => exact .inl ⟨e, by simp [compile, hparsed, hplain, bind, Except.bind]⟩
    | ok p =>
      have hbare := Program.lower_uncommented hplain { o with sourceComments := true }
      cases hlower : p.lower { o with sourceComments := true } with
      | error e =>
        rw [hlower] at hbare
        have hbare : p.lower { o with sourceComments := false } = .error e := hbare
        exact .inl ⟨e, by simp [compile, hparsed, hplain, hlower, hbare, bind, Except.bind]⟩
      | ok r =>
        obtain ⟨codes, warnings⟩ := r
        rw [hlower] at hbare
        have hcommented : Compiles source { o with sourceComments := true } defines loader
            ⟨if o.dispatchWrapper then overlayText p codes else routinesText codes, warnings⟩ p codes codes :=
          ⟨⟨parsed, hparsed, hplain⟩, hlower, optimizeAll_off h codes, rfl⟩
        have hplain : Compiles source { o with sourceComments := false } defines loader
            ⟨if o.dispatchWrapper then overlayText p (codes.map Code.bare)
              else routinesText (codes.map Code.bare), warnings⟩ p (codes.map Code.bare)
            (codes.map Code.bare) :=
          ⟨⟨parsed, hparsed, hplain⟩, hbare, optimizeAll_off h _, rfl⟩
        exact .inr ⟨_, _, p, codes, compile_of_compiles hcommented, compile_of_compiles hplain, hcommented,
          hplain, rfl⟩

def remarkedSource : String := "function f(u32 a)\x7bwhile(a==a)\x7bif(a!=a)\x7bexit;\x7d\x7dasm(\"## L1\");\x7d"

theorem remarkedSource_ignores_comments :
    compile remarkedSource { sourceComments := true } {} .refuse
      = compile remarkedSource { sourceComments := false } {} .refuse
    ∧ ∃ commented plain p codes,
      compile remarkedSource { optimize := false, sourceComments := true } {} .refuse = .ok commented
      ∧ compile remarkedSource { optimize := false, sourceComments := false } {} .refuse = .ok plain
      ∧ Compiles remarkedSource { optimize := false, sourceComments := true } {} .refuse commented p codes codes
      ∧ Compiles remarkedSource { optimize := false, sourceComments := false } {} .refuse plain p
          (codes.map Code.bare) (codes.map Code.bare)
      ∧ commented.warnings = plain.warnings := by
  have hok : (compile remarkedSource { optimize := false, sourceComments := true } {} .refuse).isOk = true := by
    decide +kernel
  refine ⟨(compile_ignores_comments remarkedSource {} {} .refuse).1 rfl, ?_⟩
  rcases (compile_ignores_comments remarkedSource { optimize := false } {} .refuse).2 rfl with ⟨e, he, -⟩ | h
  · rw [he] at hok
    cases hok
  · exact h

end Microcode
