import Microcode.Proofs.Immediate

/-!
Loads of constants.

The code that loads a word takes one instruction wherever one is enough, and the pass over loads reads the word and
the number of instructions back from it.
-/

namespace Microcode

open Instruction RegisterFile BitVec Opcode

/-- An instruction that sets a register to what it computes from zero, and from a number that its field takes. -/
inductive Instruction.SetsFromZero (d : Register) : Instruction → Prop
  | or : SetsFromZero d (.scalar .or [d, .zero, .zero])
  | addiu {v} (h : addiu.Takes v.toInt) : SetsFromZero d (.scalarWith .addiu [d, .zero] (.imm v))
  | ori {v} (h : ori.Takes v.toNat) : SetsFromZero d (.scalarWith .ori [d, .zero] (.hex v))
  | lui {v} (h : lui.Takes v.toNat) : SetsFromZero d (.scalarWith .lui [d] (.hex v))

variable {d : Fin 32} {w : UInt32} {i : Instruction}

theorem fitsSigned_of_word {v : Int64} (hv : addiu.Takes v.toInt) (h : word v = w.toBitVec) :
    fitsSigned (signedWord w) := by
  obtain ⟨field, hfield, hleast, hmost, -⟩ := hv
  cases hfield
  change -32768 ≤ v.toInt at hleast
  change v.toInt ≤ 32767 at hmost
  have hint : (signedWord w).toInt = v.toInt.bmod 4294967296 := by
    rw [← toInt_word, h, signedWord, Int32.toInt_toInt64]
    rfl
  rw [fitsSigned_iff, hint, Int.bmod_eq_of_le] <;> omega

theorem shiftLeft_and_low (v : BitVec 32) : v <<< 16 &&& 0xFFFF#32 = 0#32 := by
  apply eq_of_toNat_eq
  rw [toNat_and, toNat_shiftLeft]
  show _ &&& 1 <<< 16 - 1 = 0
  rw [Nat.one_shiftLeft, Nat.and_two_pow_sub_one_eq_mod]
  omega

theorem length_loadWord (d : Register) (w : UInt32) : (loadWord d w).length = 1 ∨ (loadWord d w).length = 2 ∧
    w ≠ 0 ∧ fitsSigned (signedWord w) ≠ true ∧ ¬w ≤ 0xFFFF ∧ w &&& 0xFFFF ≠ 0 := by
  unfold loadWord
  repeat' split
  all_goals simp_all

/-- What one instruction computes from zero is loaded by one instruction. -/
theorem length_loadWord_of_setsFromZero (hd : d ≠ 0) (hi : i.SetsFromZero (.scalar d))
    {f g : RegisterFile} (hrun : f.run [i] = some g) (hw : g.get (.scalar d) = w.toBitVec) :
    (loadWord (.scalar d) w).length = 1 := by
  have hword : Register.HoldsWord (.scalar d) := ⟨rfl, fun h => hd (Register.scalar.inj h)⟩
  refine (length_loadWord (.scalar d) w).resolve_right fun ⟨_, hzero, hsigned, hsmall, hlow⟩ => ?_
  cases hi with
  | or =>
    cases hrun
    rw [f.get_set_self hword, get_zero] at hw
    exact hzero (UInt32.toBitVec_inj.mp hw.symm)
  | addiu h =>
    cases hrun
    rw [f.get_set_self hword] at hw
    exact hsigned (fitsSigned_of_word h ((zero_add _).symm.trans hw))
  | ori h =>
    cases hrun
    rw [f.get_set_self hword] at hw
    obtain ⟨field, hfield, -, hmost, -⟩ := h
    cases hfield
    obtain rfl := UInt32.toBitVec_inj.mp (zero_or.symm.trans hw)
    exact hsmall (UInt32.le_iff_toNat_le.mpr (Int.ofNat_le.mp hmost))
  | lui h =>
    cases hrun
    rw [f.get_set_self hword] at hw
    refine hlow (UInt32.toBitVec_inj.mp ?_)
    rw [UInt32.toBitVec_and, ← hw]
    exact shiftLeft_and_low _

theorem lowHalf?_of_ne (h : i.opcode = .ori → i.args.head? ≠ some (.reg (.scalar d))) : i.lowHalf? d = none := by
  unfold lowHalf?
  split
  next a b v rest hop hargs =>
    have ha : a ≠ d := by
      rintro rfl
      exact h hop (by rw [hargs]; rfl)
    simp [ha]
  · rfl

/-- The pass over loads reads a load back, whatever comes after it, unless that sets more bits of the register. -/
theorem loadAt?_loadWord (hd : d ≠ 0) {rest}
    (hrest : ∀ i more, rest = .op i :: more → i.opcode = .ori → i.args.head? ≠ some (.reg (.scalar d))) :
    loadAt? ((loadWord (.scalar d) w).map .op ++ rest) = some (d, .word w, (loadWord (.scalar d) w).length == 2) := by
  have hhalves : w >>> 16 <<< 16 ||| w &&& 0xFFFF = w := UInt32.toBitVec_inj.mp (high_or_low w.toBitVec)
  unfold loadWord
  split
  next hzero => simp [loadAt?, loaded?, scalar, Register.zero, hd, hzero]
  split
  · have hword : (signedWord w).toUInt64.toUInt32 = w := UInt32.toBitVec_inj.mp (word_signedWord w)
    simp [loadAt?, loaded?, scalarWith, Register.zero, hd, hword]
  split
  · simp [loadAt?, loaded?, scalarWith, Register.zero, hd]
  split
  next hlow =>
    rw [hlow, UInt32.or_zero] at hhalves
    -- Only here does the next line matter: the upper half alone could be the first of two instructions.
    cases rest with
    | nil => simp [loadAt?, loaded?, scalarWith, hd, hhalves]
    | cons l rest =>
      cases l with
      | op i =>
        have hnone := lowHalf?_of_ne (hrest i rest rfl)
        simp [loadAt?, loaded?, scalarWith, hd, hhalves, hnone]
      | _ => simp [loadAt?, loaded?, scalarWith, hd, hhalves]
  · simp [loadAt?, loaded?, lowHalf?, scalarWith, hd, hhalves]

/-- A load leaves its word in the register and nothing else changes; it takes a second instruction only for a word
that no instruction computes from zero; and the pass over loads reads back the register, the text of the word and
the number of instructions. -/
theorem loadWord_runs_and_reads_back (hd : d ≠ 0) (w : UInt32) :
    (∀ f : RegisterFile, ∃ g, f.run (loadWord (.scalar d) w) = some g ∧ g.get (.scalar d) = w.toBitVec
      ∧ ∀ r, r ≠ .scalar d → g.get r = f.get r)
    ∧ (loadWord (.scalar d) w).length ≤ 2
    ∧ ((loadWord (.scalar d) w).length = 2 → ∀ i : Instruction, i.SetsFromZero (.scalar d) →
      ∀ f g : RegisterFile, f.run [i] = some g → g.get (.scalar d) ≠ w.toBitVec)
    ∧ ∀ rest : List Line,
      (∀ i more, rest = .op i :: more → i.opcode = .ori → i.args.head? ≠ some (.reg (.scalar d))) →
      ∃ v two, loadAt? ((loadWord (.scalar d) w).map .op ++ rest) = some (d, v, two)
        ∧ v.text = "0x" ++ String.ofList (Nat.toDigits 16 w.toNat)
        ∧ (bif two then 2 else 1) = (loadWord (.scalar d) w).length := by
  have hword : Register.HoldsWord (.scalar d) := ⟨rfl, fun h => hd (Register.scalar.inj h)⟩
  have hlength := (length_loadWord (.scalar d) w).imp_right And.left
  refine ⟨fun f => ?_, by omega, fun htwo i hi f g hrun hw => ?_, fun rest hrest => ?_⟩
  · exact ⟨_, f.run_loadWord hword w, f.get_set_self hword, fun r hr => f.get_set_of_ne hr.symm⟩
  · have hone := length_loadWord_of_setsFromZero hd hi hrun hw
    omega
  · refine ⟨_, _, loadAt?_loadWord hd hrest, rfl, ?_⟩
    rcases hlength with hlength | hlength <;> rw [hlength] <;> rfl

theorem loadWord_reads_back_upper_half :
    ∃ v two, loadAt? ((loadWord (.scalar 8) 0x120000).map .op
        ++ [.op (.scalarWith .ori [.scalar 9, .scalar 8] (.hex 1))]) = some (8, v, two)
      ∧ v.text = "0x120000" ∧ (bif two then 2 else 1) = 1 := by
  obtain ⟨-, -, -, hreads⟩ := loadWord_runs_and_reads_back (d := 8) (by decide) 0x120000
  refine hreads [.op (.scalarWith .ori [.scalar 9, .scalar 8] (.hex 1))] ?_
  rintro i more ⟨⟩ -
  decide

end Microcode
