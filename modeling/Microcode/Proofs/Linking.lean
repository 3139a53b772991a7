import Microcode.Compiler
import Microcode.Proofs.Forwarding
import Microcode.Proofs.Occurrence
import Microcode.Proofs.Reading.Writable

/-!
Every symbol that an overlay names is found.

A statement names labels of its own routine, routines that are known and variables in memory, and so does the code
that is selected for it (`Program.Closes`).
-/

namespace Microcode

open List

variable {o : Options} {p : Program} {name : String} {codes : List Code}

/-- The plain form that a source text is compiled to, its code, and the code after the passes. -/
structure Compiles (source : String) (o : Options) (defines : Source.Defines) (loader : Source.Loader)
    (compiled : Compiled) (p : Program) (codes out : List Code) : Prop where
  plain : ∃ parsed, Program.ofSource source defines loader = .ok parsed ∧ parsed.plain = .ok p
  lower : p.lower o = .ok (codes, compiled.warnings)
  optimize : optimizeAll o codes = .ok out
  text : compiled.text = if o.dispatchWrapper then overlayText p out else routinesText out

variable {source : String} {defines : Source.Defines} {loader : Source.Loader} {lines : List Line}
  {made : Nat} {c : Code} {out : List Code}

theorem exists_compiles {compiled} (h : compile source o defines loader = .ok compiled) :
    ∃ p codes out, Compiles source o defines loader compiled p codes out := by
  obtain ⟨parsed, p, hparsed, hplain, h⟩ := bind₂_eq_ok.mp h
  obtain ⟨⟨codes, warnings⟩, out, hlower, hout, h⟩ := bind₂_eq_ok.mp h
  cases h
  exact ⟨p, codes, out, ⟨parsed, hparsed, hplain⟩, hlower, mapError_eq_ok.mp hout, rfl⟩

def Arg.name? : Arg → Option String
  | .label name | .low name _ | .mem _ (some name) _ => some name
  | _ => none

/-- How a symbol is found that is named next to the given labels: by one of them, by the code of a routine
that has some, as a routine or a variable of the program that may be elsewhere, or in the library. -/
inductive Program.Resolves (p : Program) (codes : List Code) (own : List String) (name : String) : Prop
  | label (h : name ∈ own)
  | code {c : Code} (hc : c ∈ codes) (hemitted : c.aliasOf = none) (hname : c.name = name)
  | variable {v : StateVariable} (hv : v ∈ p.state) (hinside : v.isExtern = false) (hname : v.name = name)
  | declared {r : Routine} (hr : r ∈ p.routines) (hbody : r.body = none) (hname : r.name = name)
  | external {v : StateVariable} (hv : v ∈ p.state) (houtside : v.isExtern) (hname : v.name = name)
  | dispatchLoop (h : name = dispatchLoop)
  | assertHandler (h : name = assertHandler)

/-- All symbols that the instructions and the command table of an overlay name are found. -/
structure Program.Linked (p : Program) (codes : List Code) : Prop where
  instructions : ∀ c ∈ codes, c.aliasOf = none → ∀ i, .op i ∈ c.lines → ∀ a ∈ i.args, ∀ name ∈ a.name?,
    p.Resolves codes (labels c.lines) name
  table : ∀ line ∈ commandLines (commandTable p codes), ∃ target rest,
    line = "    RSPQ_DefineCommand " ++ target ++ ", " ++ rest ∧ p.Resolves codes [] target

theorem Program.resolves_variable (h : name ∈ p.state.map StateVariable.name)
    (codes : List Code) (own : List String) : p.Resolves codes own name := by
  obtain ⟨v, hv, rfl⟩ := mem_map.mp h
  cases hexternal : v.isExtern with
  | false => exact .variable hv hexternal rfl
  | true => exact .external hv hexternal rfl

/-- The program has a routine or a variable of the name, or the library has it. -/
def Program.Knows (p : Program) (name : String) : Prop :=
  name ∈ p.routines.map Routine.name ∨ name ∈ p.state.map StateVariable.name ∨ name = dispatchLoop ∨
    name = assertHandler

/-- The lines name their own labels and what the program knows, and in memory only its variables. -/
structure Program.Closes (p : Program) (lines : List Line) : Prop where
  symbols : ∀ name ∈ symbols lines, name ∈ labels lines ∨ p.Knows name
  cells : ∀ name ∈ cells lines, name ∈ p.state.map StateVariable.name

theorem mem_symbols_or_cells {i} (hi : .op i ∈ lines) {a : Arg} (ha : a ∈ i.args)
    (h : name ∈ a.name?) : name ∈ symbols lines ∨ name ∈ cells lines := by
  unfold Arg.name? at h
  split at h
  next label =>
    cases h
    exact .inl (mem_symbols.mpr ⟨_, hi, mem_filterMap.mpr ⟨_, ha, rfl⟩⟩)
  · cases h
    exact .inl (mem_symbols.mpr ⟨_, hi, mem_filterMap.mpr ⟨_, ha, rfl⟩⟩)
  · cases h
    exact .inr (mem_cells.mpr ⟨_, hi, mem_filterMap.mpr ⟨_, ha, rfl⟩⟩)
  · cases h

theorem Program.Closes.relabels {new old} (h : p.Closes old) (hnew : Relabels new old) : p.Closes new := by
  refine ⟨fun name hname => ?_, fun name hname => h.cells name (hnew.cells hname)⟩
  rcases hnew.symbols name hname with hold | hlabel
  · exact (h.symbols name hold).imp_left fun hlabel => hnew.kept name hlabel hname
  · exact .inl hlabel

/-- The limits of code next to some labels: what it may name; any number is allowed. -/
def Program.naming (p : Program) (own : List String) : Limits where
  names name := name ∈ own ∨ p.Knows name
  cells name := name ∈ p.state.map StateVariable.name
  numbers _ _ := True
  of_cells h := .inr (.inr (.inl h))
  of_takes _ := trivial

theorem Limits.AdmitLines.closes (h : (p.naming (labels lines)).AdmitLines lines) : p.Closes lines := by
  refine ⟨fun name hname => ?_, fun name hname => ?_⟩
  · obtain ⟨l, hl, hname⟩ := mem_symbols.mp hname
    obtain ⟨i, rfl, a, ha, hname⟩ := Line.mem_symbols_iff.mp hname
    have hkeeps := h i hl a ha
    unfold Arg.symbol? at hname
    split at hname
    · cases hname
      exact hkeeps
    · cases hname
      exact hkeeps
    · cases hname
  · obtain ⟨l, hl, hname⟩ := mem_cells.mp hname
    obtain ⟨i, rfl, a, ha, hname⟩ := Line.mem_cells_iff.mp hname
    have hkeeps := h i hl a ha
    unfold Arg.cell? at hname
    split at hname
    · subst hname
      exact hkeeps
    · cases hname

theorem mem_of_signaturesOf {routines}
    (h : ((signaturesOf routines).lookup name).isSome) : name ∈ routines.map Routine.name := by
  obtain ⟨s, hs⟩ := Option.isSome_iff_exists.mp h
  obtain ⟨r, hr, hname⟩ := mem_map.mp (mem_reverse.mp (mem_of_lookup hs))
  exact mem_map.mpr ⟨r, hr, congrArg Prod.fst hname⟩

theorem Program.Translated.closes (h : p.Translated o codes made)
    (hp : p.All (Operand.AddressIn (p.state.map StateVariable.name))) (hc : c ∈ codes) :
    p.Closes c.lines ∧ c.aliasOf = none := by
  obtain ⟨r, hr, body, hbody, first, last, hcode⟩ := h.routines.exists_routine hc
  have haccepts := hcode.accepts (l := p.naming (labels c.lines)) (fun _ hname => .inl hname)
    (fun name hname => .inr (.inl (mem_of_signaturesOf hname))) (.inr (.inr (.inr (.inl rfl))))
    (.inr (.inr (.inr (.inr rfl))))
  refine ⟨Limits.AdmitLines.closes (haccepts fun τ x hx => ?_).admits, hcode.notAliased⟩
  have hall := hx.has (everyIn_withoutAliases (hp r hr body hbody))
  cases x with
  | action a => exact ⟨hall, a.reaches_of_numbers (fun _ _ => trivial) τ⟩
  | condition c => exact hall

structure Program.Complete (p : Program) (codes : List Code) : Prop where
  closes : ∀ c ∈ codes, p.Closes c.lines
  notAliased : ∀ c ∈ codes, c.aliasOf = none
  defined : ∀ r ∈ p.routines, r.body ≠ none → r.name ∈ codes.map Code.name

theorem Code.optimize_spec (rounds : Nat) (c : Code) :
    Yields (c.optimize rounds) fun d => d.name = c.name ∧ d.aliasOf = c.aliasOf ∧ Relabels d.lines c.lines :=
  .bind (optimizeLines_relabels rounds c.isCommand c.lines) fun _ hlines => .ok ⟨rfl, rfl, hlines⟩

theorem Program.Complete.optimize (h : p.Complete codes) {rounds : Nat}
    (hout : codes.mapM (Code.optimize rounds) = .ok out) : p.Complete out := by
  have hnames := map_of_mapM (fun c => (c.optimize_spec rounds).mono fun _ hd => hd.1) hout
  have hspec : ∀ d ∈ out, ∃ c ∈ codes, d.aliasOf = c.aliasOf ∧ Relabels d.lines c.lines := by
    intro d hd
    obtain ⟨c, hc, hd⟩ := exists_of_mapM hout d hd
    exact ⟨c, hc, (c.optimize_spec rounds d hd).2⟩
  refine ⟨fun d hd => ?_, fun d hd => ?_, fun r hr hbody => ?_⟩
  · obtain ⟨c, hc, -, hlines⟩ := hspec d hd
    exact (h.closes c hc).relabels hlines
  · obtain ⟨c, hc, halias, -⟩ := hspec d hd
    rw [halias]
    exact h.notAliased c hc
  · rw [hnames]
    exact h.defined r hr hbody

/-- What a table of commands without code relies on: no code names such a command, and its target is named
by code that has no labels. -/
def Forwards (codes : List Code) (table : List (String × String)) : Prop :=
  ∀ e ∈ table, (∀ c ∈ codes, e.1 ∉ symbols c.lines) ∧ ∃ c ∈ codes, e.2 ∈ symbols c.lines ∧ labels c.lines = []

section
variable {table : List (String × String)}

theorem Program.Complete.resolves (h : p.Complete codes) (htable : Forwards codes table) (hc : c ∈ codes)
    (hname : name ∈ symbols c.lines) :
    p.Resolves (codes.map (·.forwarded table)) (labels c.lines) name := by
  rcases (h.closes c hc).symbols name hname with hlabel | hroutine | hstate | hloop | hhandler
  · exact .label hlabel
  · obtain ⟨r, hr, rfl⟩ := mem_map.mp hroutine
    by_cases hbody : r.body = none
    · exact .declared hr hbody rfl
    · obtain ⟨d, hd, hdname⟩ := mem_map.mp (h.defined r hr hbody)
      have hstays : d.forwarded table = d := by
        unfold Code.forwarded
        split
        next target hlookup => exact absurd hname ((htable _ (mem_of_lookup (hdname ▸ hlookup))).1 c hc)
        · rfl
      exact .code (mem_map.mpr ⟨d, hd, hstays⟩) (h.notAliased d hd) hdname
  · exact p.resolves_variable hstate _ _
  · exact .dispatchLoop hloop
  · exact .assertHandler hhandler

theorem Code.forwarded_cases (table : List (String × String)) (c : Code) :
    (∃ target, table.lookup c.name = some target ∧
      c.forwarded table = { c with aliasOf := some target, lines := [] }) ∨ c.forwarded table = c := by
  unfold Code.forwarded
  split
  next target hlookup => exact .inl ⟨target, hlookup, rfl⟩
  · exact .inr rfl

theorem Program.Complete.resolves_entry (h : p.Complete codes) (htable : Forwards codes table) {index : Nat}
    {e} (he : (index, e) ∈ commandTable p (codes.map (·.forwarded table))) :
    p.Resolves (codes.map (·.forwarded table)) [] e.target := by
  rcases mem_append.mp he with he | he
  · obtain ⟨c, hc, hentry⟩ := mem_filterMap.mp (mem_reverse.mp he)
    obtain ⟨i, -, heq⟩ := Option.map_eq_some_iff.mp hentry
    obtain ⟨-, rfl⟩ := Prod.mk.inj heq
    obtain ⟨d, hd, rfl⟩ := mem_map.mp hc
    rcases d.forwarded_cases table with ⟨target, hlookup, hforwarded⟩ | hforwarded
    · -- The target of a command without code is named by code without labels.
      obtain ⟨-, source, hsource, hnamed, hlabels⟩ := htable _ (mem_of_lookup hlookup)
      have hresolves := h.resolves htable hsource hnamed
      rw [hlabels] at hresolves
      rw [hforwarded]
      exact hresolves
    · rw [hforwarded, h.notAliased d hd]
      exact .code (mem_map.mpr ⟨d, hd, hforwarded⟩) (h.notAliased d hd) rfl
  · obtain ⟨r, hr, hentry⟩ := mem_filterMap.mp he
    split at hentry
    next hbody =>
      obtain ⟨-, rfl⟩ := Prod.mk.inj (Option.some.inj hentry)
      exact .declared hr hbody rfl
    · cases hentry

theorem Program.Complete.linked (h : p.Complete codes) (htable : Forwards codes table) :
    p.Linked (codes.map (·.forwarded table)) := by
  refine ⟨fun c hc hemitted i hi a ha name hname => ?_, fun line hline => ?_⟩
  · obtain ⟨d, hd, rfl⟩ := mem_map.mp hc
    rcases d.forwarded_cases table with ⟨target, -, hforwarded⟩ | hforwarded
    · rw [hforwarded] at hemitted
      cases hemitted
    · rw [hforwarded] at hi ⊢
      rcases mem_symbols_or_cells hi ha hname with hname | hname
      · exact h.resolves htable hd hname
      · exact p.resolves_variable ((h.closes d hd).cells name hname) _ _
  · unfold commandLines at hline
    split at hline
    · cases hline
    · obtain ⟨index, -, rfl⟩ := mem_map.mp hline
      unfold commandLine
      split
      next e hlookup => exact ⟨e.target, toString e.argSize, rfl, h.resolves_entry htable (mem_of_lookup hlookup)⟩
      · refine ⟨dispatchLoop, "4  ## Warning: unused command index " ++ toString index, ?_, .dispatchLoop rfl⟩
        rfl

end

end Microcode
