import Microcode.Proofs.Location

/-!
What instructions mean, as far as their effects say.

An `Interpretation` gives every instruction that is no branch some action on registers and memory.
-/

namespace Microcode

open Instruction Bool

/-- Registers and memory between two instructions. -/
@[ext]
structure MachineState (Value Memory : Type) where
  registers : Location → Value
  memory : Memory

variable {Value Memory : Type} {k : Location} {s t : MachineState Value Memory} {i : Instruction}

namespace MachineState

variable {u : MachineState Value Memory}

def set (k : Location) (v : Value) (s : MachineState Value Memory) : MachineState Value Memory :=
  { s with registers := fun l => if l = k then v else s.registers l }

structure AgreeBut (k : Location) (s t : MachineState Value Memory) : Prop where
  registers : ∀ l, l ≠ k → s.registers l = t.registers l
  memory : s.memory = t.memory

namespace AgreeBut

theorem refl (k : Location) (s : MachineState Value Memory) : AgreeBut k s s := ⟨fun _ _ => rfl, rfl⟩

theorem symm (h : AgreeBut k s t) : AgreeBut k t s := ⟨fun l hl => (h.registers l hl).symm, h.memory.symm⟩

theorem trans (h : AgreeBut k s t) (h' : AgreeBut k t u) : AgreeBut k s u :=
  ⟨fun l hl => (h.registers l hl).trans (h'.registers l hl), h.memory.trans h'.memory⟩

theorem eq (h : AgreeBut k s t) (hk : s.registers k = t.registers k) : s = t := by
  refine MachineState.ext ?_ h.memory
  funext l
  by_cases hl : l = k
  · rw [hl]
    exact hk
  · exact h.registers l hl

end AgreeBut

theorem set_same (v : Value) : (s.set k v).registers k = v := if_pos rfl

theorem set_agreeBut (v : Value) : AgreeBut k (s.set k v) s := ⟨fun _ hl => if_neg hl, rfl⟩

end MachineState

/-- Whether the result of an instruction may depend on a location. -/
def Effect.dependsOn (e : Effect) (l : Location) : Bool := e.reads.contains l || e.writes.contains l || l.isConstant

/-- An action for each instruction that is no branch, within the bounds of its effect. -/
structure Interpretation (Value Memory : Type) where
  exec : Instruction → MachineState Value Memory → MachineState Value Memory
  /-- Only locations in the write set change. -/
  frame : ∀ i s l, i.isBranch = false → i.effect.writes.contains l = false → (exec i s).registers l = s.registers l
  /-- Only a store changes memory. -/
  frameMemory : ∀ i s, i.isBranch = false → i.effect.memory ≠ .store → (exec i s).memory = s.memory
  /-- States that agree on what the instruction depends on agree on what it leaves. -/
  agree : ∀ i s t, i.isBranch = false → (∀ l, i.effect.dependsOn l → s.registers l = t.registers l) →
    (i.effect.memory ≠ .none → s.memory = t.memory) →
    (∀ l, i.effect.writes.contains l → (exec i s).registers l = (exec i t).registers l) ∧
      (i.effect.memory = .store → (exec i s).memory = (exec i t).memory)

/-- Neither of two effects changes what the other depends on. -/
structure Effect.Independent (e f : Effect) : Prop where
  keepsLeft : ∀ l, e.dependsOn l → f.writes.contains l = false
  keepsRight : ∀ l, f.dependsOn l → e.writes.contains l = false
  memory : e.memory.conflicts f.memory = false

theorem MemoryUse.conflicts_comm (m n : MemoryUse) : m.conflicts n = n.conflicts m := by cases m <;> cases n <;> rfl

theorem MemoryUse.ne_store_of_not_conflicts {m n : MemoryUse} (h : m.conflicts n = false)
    (hm : m ≠ .none) : n ≠ .store := by
  rintro rfl
  cases m with
  | none => exact hm rfl
  | load | store => cases h

theorem Effect.Independent.symm {e f : Effect} (h : e.Independent f) : f.Independent e where
  keepsLeft := h.keepsRight
  keepsRight := h.keepsLeft
  memory := by rw [MemoryUse.conflicts_comm]; exact h.memory

variable {j : Instruction}

theorem Instruction.independent_of_not_conflicts (h : i.effect.conflicts j.effect = false) :
    i.effect.Independent j.effect := by
  simp only [Effect.conflicts, or_eq_false_iff] at h
  obtain ⟨⟨⟨hwr, hrw⟩, hww⟩, hm⟩ := h
  refine ⟨?_, ?_, hm⟩
  · intro l hl
    simp only [Effect.dependsOn, or_eq_true] at hl
    rcases hl with (hr | hw) | hc
    · exact LocationSet.not_contains_of_not_intersects hrw hr
    · exact LocationSet.not_contains_of_not_intersects hww hw
    · exact j.effect_writes_constant hc
  · intro l hl
    simp only [Effect.dependsOn, or_eq_true] at hl
    rw [eq_false_iff]
    intro hi
    rcases hl with (hr | hw) | hc
    · rw [LocationSet.not_contains_of_not_intersects hwr hi] at hr
      cases hr
    · rw [LocationSet.not_contains_of_not_intersects hww hi] at hw
      cases hw
    · rw [i.effect_writes_constant hc] at hi
      cases hi

theorem Instruction.isBranch_of_isNop (h : i.isNop) : i.isBranch = false := by
  simp only [isNop, beq_iff_eq] at h
  rw [isBranch, h]
  rfl

namespace Interpretation

variable (I : Interpretation Value Memory)

theorem exec_frame (hi : i.isBranch = false) {l} (hl : l ∉ i.writes) (s : MachineState Value Memory) :
    (I.exec i s).registers l = s.registers l :=
  I.frame i s l hi (eq_false_iff.mpr fun hw => hl (effect_writes_contains.mp hw))

theorem exec_nop (h : i.isNop) (s : MachineState Value Memory) : I.exec i s = s := by
  have ho : i.opcode = .nop := by simpa [isNop] using h
  have hb : i.isBranch = false := isBranch_of_isNop h
  have hw : i.writes = [] := by unfold writes; rw [ho]
  refine MachineState.ext ?_ ?_
  · funext l
    exact I.exec_frame hb (by simp [hw]) s
  · refine I.frameMemory i s hb ?_
    show i.opcode.memoryUse ≠ .store
    rw [ho]
    decide

theorem exec_undisturbed (hi : i.isBranch = false) (hj : j.isBranch = false)
    (h : i.effect.Independent j.effect) (s : MachineState Value Memory) :
    (∀ l, i.effect.writes.contains l → (I.exec i (I.exec j s)).registers l = (I.exec i s).registers l) ∧
    (i.effect.memory = .store → (I.exec i (I.exec j s)).memory = (I.exec i s).memory) := by
  refine I.agree i (I.exec j s) s hi ?_ ?_
  · intro l hl
    exact I.frame j s l hj (h.keepsLeft l hl)
  · intro hm
    exact I.frameMemory j s hj (MemoryUse.ne_store_of_not_conflicts h.memory hm)

theorem exec_agreeBut (hi : i.isBranch = false) (hk : i.effect.dependsOn k = false) (h : MachineState.AgreeBut k s t) :
    MachineState.AgreeBut k (I.exec i s) (I.exec i t) := by
  obtain ⟨hr, hm⟩ := I.agree i s t hi
    (fun l hl => h.registers l (by rintro rfl; rw [hk] at hl; exact Bool.noConfusion hl))
    (fun _ => h.memory)
  refine ⟨?_, ?_⟩
  · intro l hl
    by_cases hw : i.effect.writes.contains l
    · exact hr l hw
    · rw [Bool.not_eq_true] at hw
      rw [I.frame i s l hi hw, I.frame i t l hi hw]
      exact h.registers l hl
  · by_cases hs : i.effect.memory = .store
    · exact hm hs
    · rw [I.frameMemory i s hi hs, I.frameMemory i t hi hs]
      exact h.memory

/-- States that differ at a location which the instruction does not read become equal, or differ still there only. -/
theorem exec_but (hi : i.isBranch = false) (hk : k.isConstant = false) (hread : k ∉ i.reads)
    (hwrite : k ∈ i.writes → I.exec i s = I.exec i t) (h : MachineState.AgreeBut k s t) :
    I.exec i s = I.exec i t ∨ MachineState.AgreeBut k (I.exec i s) (I.exec i t) ∧ k ∉ i.writes := by
  by_cases hw : k ∈ i.writes
  · exact .inl (hwrite hw)
  · refine .inr ⟨I.exec_agreeBut hi (eq_false_iff.mpr fun hdepends => ?_) h, hw⟩
    simp_all [Effect.dependsOn, effect_reads_contains, effect_writes_contains]

theorem exec_set (hi : i.isBranch = false) (hk : i.effect.dependsOn k = false) (v : Value)
    (s : MachineState Value Memory) : I.exec i (s.set k v) = (I.exec i s).set k v := by
  have hw : i.effect.writes.contains k = false := by
    simp only [Effect.dependsOn, or_eq_false_iff] at hk
    exact hk.1.2
  have hset : MachineState.AgreeBut k (s.set k v) s := MachineState.set_agreeBut v
  have hleft := I.exec_agreeBut hi hk hset
  refine (hleft.trans (MachineState.set_agreeBut v).symm).eq ?_
  rw [I.frame i _ k hi hw, MachineState.set_same, MachineState.set_same]

/-- **Independent instructions commute.** -/
theorem exec_comm (hi : i.isBranch = false) (hj : j.isBranch = false) (h : i.effect.Independent j.effect)
    (s : MachineState Value Memory) : I.exec i (I.exec j s) = I.exec j (I.exec i s) := by
  obtain ⟨hri, hmi⟩ := I.exec_undisturbed hi hj h s
  obtain ⟨hrj, hmj⟩ := I.exec_undisturbed hj hi h.symm s
  refine MachineState.ext ?_ ?_
  · -- A location is written by the first, by the second, or by neither.
    funext l
    by_cases hwi : i.effect.writes.contains l
    · have hd : i.effect.dependsOn l = true := by simp [Effect.dependsOn, hwi]
      rw [hri l hwi, I.frame j _ l hj (h.keepsLeft l hd)]
    · rw [not_eq_true] at hwi
      rw [I.frame i _ l hi hwi]
      by_cases hwj : j.effect.writes.contains l
      · exact (hrj l hwj).symm
      · rw [not_eq_true] at hwj
        rw [I.frame j s l hj hwj, I.frame j _ l hj hwj, I.frame i s l hi hwi]
  · by_cases hsi : i.effect.memory = .store
    · have hsj : j.effect.memory ≠ .store := MemoryUse.ne_store_of_not_conflicts h.memory (by rw [hsi]; decide)
      rw [hmi hsi, I.frameMemory j _ hj hsj]
    · rw [I.frameMemory i _ hi hsi]
      by_cases hsj : j.effect.memory = .store
      · exact (hmj hsj).symm
      · rw [I.frameMemory j s hj hsj, I.frameMemory j _ hj hsj, I.frameMemory i s hi hsi]

end Interpretation

/-! ### The interpretation that keeps every dependence

Each result is the term of how it came about, so two orders of execution end in the same state only if
every instruction has seen the same inputs.
-/

/-- A value that is known by the instructions it came from. -/
inductive Symbol where
  | initial (l : Location)
  | initialMemory
  | result (i : Instruction) (place : Option Location) (inputs : List Symbol)

namespace Symbol

def inputs (i : Instruction) (s : MachineState Symbol Symbol) : List Symbol :=
  i.reads.map s.registers ++ if i.effect.memory = .none then [] else [s.memory]

theorem inputs_congr {s t} (hr : ∀ l ∈ i.reads, s.registers l = t.registers l)
    (hm : i.effect.memory ≠ .none → s.memory = t.memory) : inputs i s = inputs i t := by
  unfold inputs
  rw [List.map_congr_left hr]
  split
  · rfl
  next h => rw [hm h]

def start : MachineState Symbol Symbol := ⟨initial, initialMemory⟩

def interpretation : Interpretation Symbol Symbol where
  exec i s :=
    { registers := fun l =>
        if i.effect.writes.contains l then result i (some l) (inputs i s) else s.registers l
      memory := if i.effect.memory = .store then result i none (inputs i s) else s.memory }
  frame := by
    intro i s l _ hl
    simp only [hl, false_eq_true, if_false]
  frameMemory := by
    intro i s _ hm
    simp only [hm, if_false]
  agree := by
    intro i s t _ hr hm
    have hreads : ∀ l ∈ i.reads, s.registers l = t.registers l := by
      intro l hl
      refine hr l ?_
      simp [Effect.dependsOn, effect_reads_contains.mpr hl]
    have hinputs := inputs_congr hreads hm
    refine ⟨?_, ?_⟩
    · intro l hl
      simp only [hl, if_true, hinputs]
    · intro hs
      simp only [hs, if_true, hinputs]

end Symbol
end Microcode
