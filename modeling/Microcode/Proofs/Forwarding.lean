import Mathlib.Data.List.Forall2
import Mathlib.Data.List.Nodup
import Microcode.Proofs.Reference

/-!
Commands that are only an entry of the dispatch table.

A command goes without code exactly if it is nothing but a jump elsewhere and no instruction names it
(`Code.Forwards`).  Only instructions count, and of them only jumps and the low halves of addresses: what raw lines
and memory cells name may go.
-/

namespace Microcode

open List Code

/-- The command is nothing but a jump to a target elsewhere, and no instruction names it. -/
structure Code.Forwards (codes : List Code) (c : Code) (target : String) : Prop where
  command : c.isCommand
  lines : ∃ jump slot, c.lines = [.op jump, .op slot] ∧ jump.opcode = .j ∧ slot.isNop ∧ jump.target? = some target
  ne_name : target ≠ c.name
  ne_dispatchLoop : target ≠ dispatchLoop
  unnamed : ∀ d ∈ codes, c.name ∉ d.symbols

variable {codes : List Code} {c d : Code} {target : String}

theorem Code.forward?_eq_some : c.forward? = some target ↔
    c.isCommand ∧ (∃ jump slot, c.lines = [.op jump, .op slot] ∧ jump.opcode = .j ∧ slot.isNop ∧
      jump.target? = some target) ∧ target ≠ c.name ∧ target ≠ dispatchLoop := by
  unfold forward?
  split
  next jump slot hlines =>
    simp only [hlines, Option.ite_none_right_eq_some, Option.filter_eq_some_iff, Bool.and_eq_true, beq_iff_eq,
      decide_eq_true_eq]
    constructor
    · rintro ⟨⟨⟨hcommand, hjump⟩, hslot⟩, htarget, helse⟩
      exact ⟨hcommand, ⟨jump, slot, rfl, hjump, hslot, htarget⟩, helse⟩
    · rintro ⟨hcommand, ⟨_, _, heq, hjump, hslot, htarget⟩, helse⟩
      cases heq
      exact ⟨⟨⟨hcommand, hjump⟩, hslot⟩, htarget, helse⟩
  next hlines =>
    constructor
    · intro h
      cases h
    · rintro ⟨-, ⟨jump, slot, heq, -⟩, -⟩
      exact absurd heq (hlines jump slot)

theorem mem_forwards {name : String} :
    (name, target) ∈ forwards codes ↔ ∃ c ∈ codes, c.name = name ∧ c.Forwards codes target := by
  have hnamed : (codes.any (·.symbols.contains name)) ↔ ∃ d ∈ codes, name ∈ d.symbols := by simp [any_eq_true]
  simp only [forwards, mem_filterMap, Option.ite_none_left_eq_some, Option.map_eq_some_iff, Prod.mk.injEq]
  constructor
  · rintro ⟨c, hc, hunnamed, _, hforward, rfl, rfl⟩
    obtain ⟨hcommand, hlines, hname, hloop⟩ := forward?_eq_some.mp hforward
    exact ⟨c, hc, rfl, hcommand, hlines, hname, hloop, fun d hd h => hunnamed (hnamed.mpr ⟨d, hd, h⟩)⟩
  · rintro ⟨c, hc, rfl, h⟩
    refine ⟨c, hc, fun hany => ?_, target, ?_, rfl, rfl⟩
    · obtain ⟨d, hd, hmem⟩ := hnamed.mp hany
      exact h.unnamed d hd hmem
    · exact forward?_eq_some.mpr ⟨h.command, h.lines, h.ne_name, h.ne_dispatchLoop⟩

theorem Code.Forwards.mem_symbols (h : c.Forwards codes target) : target ∈ c.symbols := by
  obtain ⟨jump, slot, hlines, -, -, htarget⟩ := h.lines
  rw [c.symbols_eq, hlines]
  exact mem_append_left _ (Instruction.mem_symbols_of_target htarget)

/-- What a routine becomes: an entry without code, or itself. -/
inductive Code.Becomes (codes : List Code) (c : Code) : Code → Prop
  | entry {target : String} (h : c.Forwards codes target) : c.Becomes codes { c with aliasOf := some target, lines := [] }
  | code (h : ∀ target, ¬c.Forwards codes target) : c.Becomes codes c

theorem Code.forwarded_becomes (hnames : (codes.map name).Nodup) (hc : c ∈ codes) :
    c.Becomes codes (c.forwarded (forwards codes).reverse) := by
  unfold forwarded
  split
  next target hlookup =>
    -- No two routines have one name, so the entry is the routine's own.
    obtain ⟨d, hd, hname, h⟩ := mem_forwards.mp (mem_reverse.mp (mem_of_lookup hlookup))
    obtain rfl : d = c := inj_on_of_nodup_map hnames hd hc hname
    exact .entry h
  next hlookup =>
    refine .code fun target h => ?_
    have hmem := mem_reverse.mpr (mem_forwards.mpr ⟨c, hc, rfl, h⟩)
    simpa using lookup_eq_none_iff.mp hlookup _ hmem

def linesBehind (name : String) : List Line → List (List Line)
  | [] => []
  | l :: rest => if l = .label name then rest :: linesBehind name rest else linesBehind name rest

/-- The lines that a symbol stands for in a routine: all of them for its name, and those behind a label.  A routine
that an entry stands for has none. -/
def Code.linesFrom (symbol : String) (c : Code) : List (List Line) := if c.aliasOf.isSome then []
  else (if c.name = symbol then [c.lines] else []) ++ linesBehind symbol c.lines

def linesFrom (codes : List Code) (symbol : String) : List (List Line) := codes.flatMap (·.linesFrom symbol)

def Code.entry (c : Code) : String := c.aliasOf.getD c.name

theorem Code.Becomes.linesFrom {symbol : String} (h : c.Becomes codes d)
    (hsymbol : ∀ target, c.Forwards codes target → c.name ≠ symbol) : d.linesFrom symbol = c.linesFrom symbol := by
  cases h with
  | entry h =>
    obtain ⟨jump, slot, hlines, -⟩ := h.lines
    simp [linesFrom, hlines, linesBehind, hsymbol _ h]
  | code h => rfl

theorem linesFrom_aliasCommands (hnames : (codes.map name).Nodup) {symbol : String}
    (h : ∀ c ∈ codes, ∀ target, c.Forwards codes target → c.name ≠ symbol) :
    linesFrom (aliasCommands codes) symbol = linesFrom codes symbol := by
  unfold linesFrom aliasCommands
  rw [flatMap_map]
  exact congrArg flatten (map_congr_left fun c hc => (forwarded_becomes hnames hc).linesFrom (h c hc))

theorem Code.Forwards.target_stays (h : c.Forwards codes target) (hc : c ∈ codes) (hd : d.name = target)
    {other : String} : ¬d.Forwards codes other := fun h' => h'.unnamed c hc (hd ▸ h.mem_symbols)

/-- **Commands that only jump elsewhere.**  In a module of routines with distinct names, a command loses its code
exactly if it is nothing but a jump elsewhere and no instruction has it for a jump target or the low half of an
address.  So the target of such an entry keeps its code.  Each entry that pointed at its own routine leads to lines that
stand as they stood before, directly or by the one jump that the routine was.  What the lines that are left name as a
jump target or as the low half of an address has kept its code; a name in a raw line or in a memory cell does not
count. -/
theorem aliasCommands_keeps_entries (codes : List Code) (hnames : (codes.map Code.name).Nodup) :
    List.Forall₂ (fun c d => c.Becomes codes d) codes (aliasCommands codes) ∧
      (∀ c ∈ codes, ∀ target, c.Forwards codes target → ∀ d ∈ codes, d.name = target →
        d ∈ aliasCommands codes) ∧
      List.Forall₂ (fun c d => c.aliasOf = none →
        linesFrom (aliasCommands codes) d.entry = linesFrom codes d.entry ∧
          (d.entry = c.name ∨ ∃ jump slot, c.lines = [.op jump, .op slot] ∧ jump.opcode = .j ∧ slot.isNop = true ∧
            jump.target? = some d.entry)) codes (aliasCommands codes) ∧
      ∀ d ∈ aliasCommands codes, ∀ name ∈ d.symbols, ∀ c ∈ codes, c.name = name →
        c ∈ aliasCommands codes := by
  have hmap {R : Code → Code → Prop} (h : ∀ c ∈ codes, R c (c.forwarded (forwards codes).reverse)) :
      List.Forall₂ R codes (aliasCommands codes) := by
    unfold aliasCommands
    rw [List.forall₂_map_right_iff, List.forall₂_same]
    exact h
  have hstays (c : Code) (hc : c ∈ codes) (h : ∀ target, ¬c.Forwards codes target) : c ∈ aliasCommands codes := by
    refine List.mem_map.mpr ⟨c, hc, ?_⟩
    generalize hd : c.forwarded (forwards codes).reverse = d
    cases (hd ▸ Code.forwarded_becomes hnames hc : c.Becomes codes d) with
    | entry h' => exact absurd h' (h _)
    | code _ => rfl
  refine ⟨hmap fun c hc => Code.forwarded_becomes hnames hc, ?_, hmap ?_, ?_⟩
  · intro c hc target h d hd hname
    exact hstays d hd fun other => h.target_stays hc hname
  · intro c hc hnone
    generalize hd : c.forwarded (forwards codes).reverse = d
    cases (hd ▸ Code.forwarded_becomes hnames hc : c.Becomes codes d) with
    | entry h =>
      refine ⟨linesFrom_aliasCommands hnames fun d hd other h' hname => ?_, .inr h.lines⟩
      exact h.target_stays hc hname h'
    | code h =>
      have hentry : c.entry = c.name := by rw [Code.entry, hnone, Option.getD_none]
      refine ⟨linesFrom_aliasCommands hnames fun d hd other h' hname => ?_, .inl hentry⟩
      obtain rfl : d = c := List.inj_on_of_nodup_map hnames hd hc (hname.trans hentry)
      exact h _ h'
  · intro d hd name hname c hc hcname
    obtain ⟨e, he, rfl⟩ := List.mem_map.mp hd
    refine hstays c hc fun target h => ?_
    generalize hd : e.forwarded (forwards codes).reverse = d at hname
    cases (hd ▸ Code.forwarded_becomes hnames he : e.Becomes codes d) with
    | entry _ => cases hname
    | code _ => exact h.unnamed e he (hcname ▸ hname)

def rawlyNamed : List Code := [⟨"T", none, 0, none, [.instr .jr [.reg .returnAddress], .nop], none⟩,
   ⟨"A", some 0, 4, none, [.instr .j [.label "T"], .nop], none⟩,
   ⟨"g", none, 0, none, [.raw "j A", .instr .jr [.reg .returnAddress], .nop], none⟩]

theorem rawlyNamed_loses_code :
    (rawlyNamed.map Code.name).Nodup ∧ (∃ c ∈ aliasCommands rawlyNamed, .raw "j A" ∈ c.lines) ∧
      linesFrom rawlyNamed "A" ≠ [] ∧ linesFrom (aliasCommands rawlyNamed) "A" = [] ∧
      ∀ d ∈ aliasCommands rawlyNamed, ∀ name ∈ d.symbols, ∀ c ∈ rawlyNamed, c.name = name →
        c ∈ aliasCommands rawlyNamed :=
  ⟨by decide, by decide, by decide, rfl, (aliasCommands_keeps_entries rawlyNamed (by decide)).2.2.2⟩

end Microcode
