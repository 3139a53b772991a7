import Microcode.Proofs.Peephole.Label

/-!
The passes that shorten code keep its work.

Every pass leaves lines that shorten what it got, and shorter lines of a well-formed body are well-formed again, so
the passes can be put together in any order and any number.
-/

namespace Microcode

open Microcode.Symbol Instruction

inductive Pass where
  | stripComments
  | mergeJumps
  | mergeAsserts
  | collapseJumps
  | dedupeLabels
  | cutDeadTail

def Pass.apply : Pass → List Line → Except Defect (List Line)
  | .stripComments, lines => .ok (Microcode.stripComments lines).lines
  | .mergeJumps, lines => (Microcode.mergeJumps false lines).map Edited.lines
  | .mergeAsserts, lines => (Microcode.mergeAsserts lines).map Edited.lines
  | .collapseJumps, lines => .ok (Microcode.collapseJumps lines).lines
  | .dedupeLabels, lines => .ok (Microcode.dedupeLabels lines).lines
  | .cutDeadTail, lines => .ok (Microcode.cutDeadTail lines).lines

def applyPasses (passes : List Pass) (lines : List Line) : Except Defect (List Line) :=
  passes.foldlM (fun lines pass => pass.apply lines) lines

section
variable {Value Memory : Type} {M : Machine Value Memory} {site : String → String} {first lines : List Line}

structure Works (M : Machine Value Memory) (site : String → String) (first lines out : List Line) :
    Prop where
  wellFormed : WellFormed site first out
  sameWork : ∀ s, M.SameWork site first out lines s

theorem Works.refl (hw : WellFormed site first lines) : Works M site first lines lines := ⟨hw, .refl M site first lines⟩

theorem Works.trans {between out} (h : Works M site first between out)
    (h' : Works M site first lines between) : Works M site first lines out :=
  ⟨h.wellFormed, fun s => (h.sameWork s).trans (h'.sameWork s)⟩

theorem Shortens.works {out} (h : Shortens site out lines out lines)
    (hM : M.Faithful site) (hw : WellFormed site first lines) : Works M site first lines out :=
  ⟨h.wellFormed hw, h.sameWork hw hM⟩

theorem collapseJumps_works (hM : M.Faithful site) (hw : WellFormed site first lines) :
    Works M site first lines (collapseJumps lines).lines := by
  have hhops : Works M site first lines (lines.map (·.followHops (hops lines))) :=
    (followHops_shortens hw hw.slotted (List.suffix_refl _)).works hM hw
  exact ((dropUnreached_shortens hhops.wellFormed.slotted).works hM hhops.wellFormed).trans hhops

/-- **Each pass** succeeds on a well-formed body and keeps its work. -/
theorem Pass.apply_works (pass : Pass) (hM : M.Faithful site) (hw : WellFormed site first lines) :
    ∃ out, pass.apply lines = .ok out ∧ Works M site first lines out := by
  cases pass with
  | stripComments => exact ⟨_, rfl, (stripComments_shortens hw.slotted).works hM hw⟩
  | mergeJumps =>
    obtain ⟨e, hok, hmerges⟩ := mergeJumps_merges false lines
    refine ⟨e.lines, ?_, (hmerges.shortens hw.slotted fun _ hname => hname).works hM hw⟩
    rw [Pass.apply, hok]
    rfl
  | mergeAsserts =>
    obtain ⟨e, hok, hmerges⟩ := mergeAsserts_merges lines
    refine ⟨e.lines, ?_, (hmerges.shortens hw.slotted).works hM hw⟩
    rw [Pass.apply, hok]
    rfl
  | collapseJumps => exact ⟨_, rfl, collapseJumps_works hM hw⟩
  | dedupeLabels => exact ⟨_, rfl, (dedupeLabels_shortens hw).works hM hw⟩
  | cutDeadTail => exact ⟨_, rfl, (cutDeadTail_shortens hw.slotted).works hM hw⟩

theorem applyPasses_works (passes : List Pass) (hM : M.Faithful site) (hw : WellFormed site first lines) :
    ∃ out, applyPasses passes lines = .ok out ∧ Works M site first lines out := by
  induction passes generalizing lines with
  | nil => exact ⟨lines, rfl, .refl hw⟩
  | cons pass passes ih =>
    obtain ⟨between, hbetween, hworks⟩ := pass.apply_works hM hw
    obtain ⟨out, hout, hworks'⟩ := ih hworks.wellFormed
    refine ⟨out, ?_, hworks'.trans hworks⟩
    rw [applyPasses, List.foldlM_cons, hbetween]
    exact hout

end

/-- **Passes keep the work of a function.**  On a body without texts, with distinct labels, empty slots, no
call into itself, and a scratch register that behind a label is written before it is read, any row of
passes succeeds.  From the top, in every state, the body that they leave executes the same instructions
and calls the same functions in the same order, the code of assertions that hold aside, and it leaves the
same way, or not at all, with everything but the scratch register the same. -/
theorem applyPasses_preserves_work {Value Memory : Type} (M : Machine Value Memory) (body : List Line)
    (hbody : IsPlain body) (hM : M.Faithful (siteOf body)) (passes : List Pass) :
    ∃ out, applyPasses passes body = .ok out ∧ ∀ s, M.SameWork (siteOf body) body out body s := by
  obtain ⟨out, hout, hworks⟩ := applyPasses_works passes hM hbody.wellFormed
  exact ⟨out, hout, hworks.sameWork⟩

theorem Instruction.effect_mapSymbols (f : String → String) (i : Instruction) : (i.mapSymbols f).effect = i.effect := by
  unfold effect
  rw [reads_mapSymbols, writes_mapSymbols]
  rfl

/-- The machine whose values are terms, with one name for labels at one site.  A branch tells the values
that a register held at first from all others. -/
def Symbol.machine (site : String → String) : Machine Symbol Symbol where
  exec i := interpretation.exec (i.mapSymbols site)
  frame := by
    intro i s l hi hl
    exact interpretation.frame (i.mapSymbols site) s l hi (by rwa [i.effect_mapSymbols site])
  frameMemory := by
    intro i s hi hm
    exact interpretation.frameMemory (i.mapSymbols site) s hi (by rwa [i.effect_mapSymbols site])
  agree := by
    intro i s t hi
    rw [← i.effect_mapSymbols site]
    exact interpretation.agree (i.mapSymbols site) s t hi
  word
    | .initial _ => 0
    | _ => 1
  link i := .result (i.mapSymbols site) none []
  callee := fun _ s => some s
  text := fun _ s => (s, none)

theorem Symbol.machine_faithful (site : String → String) : (machine site).Faithful site where
  exec_site := by
    intro i j _ hsame
    show interpretation.exec (i.mapSymbols site) = interpretation.exec (j.mapSymbols site)
    rw [hsame]
  link_site := by
    intro i j hsame
    show result (i.mapSymbols site) none [] = result (j.mapSymbols site) none []
    rw [hsame]
  overwrites := by
    intro i s t hi hread hwrite h
    have hinputs : inputs (i.mapSymbols site) s = inputs (i.mapSymbols site) t := by
      refine inputs_congr (fun l hl => ?_) fun _ => h.memory
      rw [i.reads_mapSymbols site] at hl
      refine h.registers l ?_
      rintro rfl
      exact hread hl
    have hw : (i.mapSymbols site).effect.writes.contains .scratch := by
      rw [i.effect_mapSymbols site, effect_writes_contains]
      exact hwrite
    refine MachineState.ext ?_ ?_
    · funext l
      show (if (i.mapSymbols site).effect.writes.contains l then _ else s.registers l)
        = if (i.mapSymbols site).effect.writes.contains l then _ else t.registers l
      split
      · rw [hinputs]
      next hl =>
        refine h.registers l ?_
        rintro rfl
        exact hl hw
    · show (if (i.mapSymbols site).effect.memory = .store then _ else s.memory)
        = if (i.mapSymbols site).effect.memory = .store then _ else t.memory
      rw [hinputs, h.memory]
  callee_scratch := fun _ _ _ h => .some h

def checkedCode : List Line := [.comment "checks", .instr .bne [.reg (.scalar 8), .reg .zero, .label "ok"], .nop,
   .instr .lui [.reg .scratch, .imm 7], .instr .j [.label assertHandler], .nop,
   .label "ok",
   .instr .beq [.reg (.scalar 9), .reg .zero, .label "more"], .nop,
   .instr .j [.label "done"], .nop,
   .label "more", .label "again",
   .instr .jal [.label "helper"], .nop,
   .instr .addiu [.reg (.scalar 8), .reg (.scalar 9), .imm 1],
   .instr .bgtz [.reg (.scalar 8), .label "again"], .nop,
   .label "done",
   .instr .j [.label "end"], .nop,
   .instr .addiu [.reg (.scalar 8), .reg (.scalar 8), .imm 1],
   .label "end",
   .instr .jr [.reg .returnAddress], .nop]

/-- On this body the passes turn both branches round, send one of them past the jump that it would come to,
and leave out a comment, a label and an instruction. -/
theorem checkedCode_passes_preserve_work :
    IsPlain checkedCode ∧ (Symbol.machine (siteOf checkedCode)).Faithful (siteOf checkedCode) ∧
      ∃ out, applyPasses [.stripComments, .mergeJumps, .mergeAsserts, .collapseJumps, .dedupeLabels,
          .cutDeadTail] checkedCode = .ok out ∧
        ∀ s, (Symbol.machine (siteOf checkedCode)).SameWork (siteOf checkedCode) checkedCode out
          checkedCode s := by
  have hplain : IsPlain checkedCode := ⟨rfl, by decide, rfl, by decide, by decide⟩
  have hfaithful := Symbol.machine_faithful (siteOf checkedCode)
  exact ⟨hplain, hfaithful, applyPasses_preserves_work _ checkedCode hplain hfaithful _⟩

end Microcode
