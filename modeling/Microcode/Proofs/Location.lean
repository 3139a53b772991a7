import Microcode.Dataflow.Effect

/-!
Location sets are sets.

A `LocationSet` is a bit mask, and everything else here is about lists of locations: what an argument names, what an
instruction reads and writes.
-/

namespace Microcode

open List Nat Location

namespace Location

def isConstant : Location → Bool
  | scalar r => r == 0
  | lane r _ => r == 0
  | _ => false

theorem number_injective {a b : Location} (h : a.number = b.number) : a = b := by
  cases a <;> cases b <;>
    simp only [number, scalar.injEq, lane.injEq, Fin.ext_iff, reduceCtorEq] at h ⊢ <;> omega

end Location

namespace LocationSet

theorem testBit_foldl (ls : List Location) :
    ∀ (bits n : Nat), (ls.foldl (fun bits l => bits ||| (1 <<< l.number)) bits).testBit n ↔
      bits.testBit n ∨ ∃ l ∈ ls, l.number = n := by
  induction ls with
  | nil => intro bits n; simp
  | cons a rest ih =>
    intro bits n
    rw [foldl_cons, ih, testBit_or, one_shiftLeft, testBit_two_pow]
    simp only [Bool.or_eq_true, decide_eq_true_eq, mem_cons, exists_eq_or_imp]
    exact or_assoc

theorem contains_ofList (ls : List Location) (l : Location) : (ofList ls).contains l ↔ l ∈ ls := by
  unfold contains ofList
  rw [testBit_foldl]
  simp only [zero_testBit, Bool.false_eq_true, false_or]
  constructor
  · rintro ⟨a, ha, hn⟩
    rw [← number_injective hn]
    exact ha
  · intro h
    exact ⟨l, h, rfl⟩

theorem not_contains_of_not_intersects {s t : LocationSet} (h : s.intersects t = false)
    {l} (hs : s.contains l) : t.contains l = false := by
  have hz : s.bits &&& t.bits = 0 := by simpa [intersects] using h
  have hb : (s.bits &&& t.bits).testBit l.number = false := by rw [hz, zero_testBit]
  rw [testBit_and] at hb
  unfold contains at hs ⊢
  rw [hs] at hb
  exact hb

end LocationSet

theorem Register.locations_isConstant {lanes} {r : Register} {l}
    (h : l ∈ r.locations lanes) : l.isConstant = false := by
  unfold Register.locations at h
  split at h
  · split at h
    · simp at h
    next hr =>
      rw [mem_singleton.mp h]
      simpa [isConstant] using hr
  · split at h
    · simp at h
    next hr =>
      obtain ⟨k, -, rfl⟩ := mem_map.mp h
      simpa [isConstant] using hr

theorem Arg.locations_isConstant {whole : Bool} {a : Arg} {l} (h : l ∈ a.locations whole) : l.isConstant = false := by
  unfold Arg.locations at h
  split at h <;> first | exact Register.locations_isConstant h | simp at h

namespace Instruction

variable {i : Instruction} {n : Nat} {l : Location}

theorem wholeAt_isConstant (h : l ∈ i.wholeAt n) : l.isConstant = false := by
  unfold wholeAt at h
  split at h
  · exact Arg.locations_isConstant h
  · simp at h

theorem lanesAt_isConstant (h : l ∈ i.lanesAt n) : l.isConstant = false := by
  unfold lanesAt at h
  split at h
  · exact Arg.locations_isConstant h
  · simp at h

theorem transposedAt_isConstant (h : l ∈ i.transposedAt n) : l.isConstant = false := by
  unfold transposedAt at h
  split at h
  · obtain ⟨r, -, hr⟩ := mem_flatMap.mp h
    exact Register.locations_isConstant hr
  · simp at h

theorem accessed_isConstant (h : l ∈ i.accessed) : l.isConstant = false := by
  unfold accessed at h
  split at h
  · exact transposedAt_isConstant h
  · exact transposedAt_isConstant h
  · exact lanesAt_isConstant h
  · exact lanesAt_isConstant h
  · exact wholeAt_isConstant h

theorem flagsWritten_subset (o : Opcode) : ∀ l ∈ o.flagsWritten, l ∈ flags := by cases o <;> decide

theorem flags_isConstant (h : l ∈ flags) : l.isConstant = false := by
  revert l
  decide

theorem computed_isConstant {o : Opcode}
    (h : l ∈ accumulator :: i.wholeAt 0 ++ o.flagsWritten) : l.isConstant = false := by
  rcases mem_append.mp h with h | h
  · rcases mem_cons.mp h with rfl | h
    · rfl
    · exact wholeAt_isConstant h
  · exact flags_isConstant (flagsWritten_subset o l h)

theorem writes_isConstant (h : l ∈ i.writes) : l.isConstant = false := by
  unfold writes at h
  split at h <;> try exact absurd h not_mem_nil
  · rw [mem_singleton.mp h]
    rfl
  · exact lanesAt_isConstant h
  · exact flags_isConstant h
  · rcases mem_cons.mp h with rfl | h
    · rfl
    · exact lanesAt_isConstant h
  · split at h
    · exact absurd h not_mem_nil
    · exact absurd h not_mem_nil
    · exact accessed_isConstant h
    · rcases mem_cons.mp h with rfl | h
      · rfl
      rcases mem_cons.mp h with rfl | h
      · rfl
      · exact lanesAt_isConstant h
    · exact computed_isConstant h
    · exact computed_isConstant h
    · exact wholeAt_isConstant h

theorem effect_reads_contains : i.effect.reads.contains l ↔ l ∈ i.reads := LocationSet.contains_ofList i.reads l

theorem effect_writes_contains : i.effect.writes.contains l ↔ l ∈ i.writes := LocationSet.contains_ofList i.writes l

theorem effect_writes_constant (i : Instruction) (h : l.isConstant) : i.effect.writes.contains l = false := by
  rw [Bool.eq_false_iff]
  intro hw
  rw [writes_isConstant (effect_writes_contains.mp hw)] at h
  exact Bool.noConfusion h

end Instruction
end Microcode
