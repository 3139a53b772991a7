import Mathlib
import Microcode.Program.Parser
import Microcode.Proofs.Lexeme

/-!
Numbers that survive being written down.

A register number is written in decimal, a word of 32 bits as a whole number, and a negative constant as a
minus sign in front of the constant with its sign changed.
-/

namespace Microcode

section

open Float.Model Float.Model.UnpackedFloat

variable {spec : Format}

theorem neg_unpack (b : BitVec spec.numBits) :
    (UnpackedFloat.unpack spec b).neg = UnpackedFloat.unpack spec (packComponents spec
      (-Sign.ofBitVec (unpackSign b)) (unpackExponent b) (unpackMantissa b)) := by
  unfold UnpackedFloat.unpack
  simp only [unpackExponent_packComponents, unpackMantissa_packComponents,
    unpackSign_packComponents, Sign.ofBitVec_toBitVec]
  split
  · split <;> rfl
  · split
    · split <;> rfl
    · rfl

theorem neg_neg_unpacked (u : UnpackedFloat) : u.neg.neg = u := by
  have hsign (s : UnpackedFloat.Sign) : -(-s) = s := by cases s <;> rfl
  cases u with
  | notANumber => rfl
  | infinity s | zero s => exact congrArg _ (hsign s)
  | finite s m e h => simp only [UnpackedFloat.neg, hsign]

theorem unpack_pack_neg {b} (hb : spec.Valid b) (hspec : 2 ≤ spec.exponentBits) :
    UnpackedFloat.unpack spec (UnpackedFloat.pack spec (UnpackedFloat.unpack spec b).neg)
      = (UnpackedFloat.unpack spec b).neg := by
  by_cases hnan : isNaNBits b
  · obtain ⟨he, hm⟩ : unpackExponent b = -1#_ ∧ unpackMantissa b ≠ 0#_ := by
      simpa [isNaNBits] using hnan
    have hunpack : UnpackedFloat.unpack spec b = .notANumber := by
      unfold UnpackedFloat.unpack
      simp only [he, hm, if_true, if_false]
    rw [hunpack]
    show UnpackedFloat.unpack spec (packedNaN spec) = .notANumber
    rw [← hb.eq_packedNaN he hm]
    exact hunpack
  · rw [neg_unpack, pack_unpack_of_valid _ hspec]
    refine ⟨fun he hm => ?_⟩
    rw [unpackExponent_packComponents] at he
    rw [unpackMantissa_packComponents] at hm
    simp [isNaNBits, he, hm] at hnan

theorem float_neg_neg (x : Float) : -(-x) = x := by
  obtain ⟨⟨bits, valid⟩⟩ := x
  rw [← Float.toBits_inj]
  show UInt64.ofBitVec (UnpackedFloat.pack .binary64 (UnpackedFloat.unpack .binary64
    (UnpackedFloat.pack .binary64 (UnpackedFloat.unpack .binary64 bits.toBitVec).neg)).neg) = bits
  rw [unpack_pack_neg valid (by decide), neg_neg_unpacked, pack_unpack_of_valid valid (by decide)]

end

theorem Constant.negate_negate (c : Constant) : c.negate.negate = c := by
  cases c with
  | int v => exact congrArg Constant.int (Int64.neg_neg)
  | float x => exact congrArg Constant.float (float_neg_neg x)

theorem lowWord_ofNat {n : Nat} (h : n < UInt32.size) : (lowWord (Int64.ofNat n)).toNat = n := by
  have hn : n < 4294967296 := h
  simp only [lowWord, UInt64.toNat_toUInt32, Int64.toUInt64_ofNat', UInt64.toNat_ofNat']
  omega

theorem numberOf_of_isDigit {digits} (h : ∀ c ∈ digits, c.isDigit) :
    Text.numberOf 10 digits = Nat.ofDigitChars 10 digits 0 := by
  refine List.foldl_ext _ _ _ fun n c hc => ?_
  rw [digitValue_of_isDigit (h c hc), Option.getD_some, Nat.mul_comm]

theorem numberOf_toDigits (n : Nat) : Text.numberOf 10 (Nat.toDigits 10 n) = n := by
  rw [numberOf_of_isDigit fun _ => Nat.isDigit_of_mem_toDigits (by decide) (by decide), Nat.ofDigitChars_ten_toDigits]

theorem bindingOf_number {n : Nat} (h : n < UInt32.size) (line : Nat) :
    Parser.bindingOf ("$" ++ toString n) line = .ok (.index n) := by
  have hdigits : ("$" ++ toString n).toList.drop 1 = Nat.toDigits 10 n := by simp [String.toList_append]
  have hall : (Nat.toDigits 10 n).all Char.isDigit :=
    List.all_eq_true.mpr fun _ => Nat.isDigit_of_mem_toDigits (by decide) (by decide)
  simp only [Parser.bindingOf, hdigits, hall, if_true, numberOf_toDigits, h]

end Microcode
