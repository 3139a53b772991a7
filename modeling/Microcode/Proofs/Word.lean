import Microcode.Selection.Scalar

/-!
Whole numbers as words.

Constants are 64-bit words; a register holds the low 32 bits of one, and a field of an instruction fewer.
-/

namespace Microcode

open BitVec

variable {v : Int64}

theorem fitsSigned_iff : fitsSigned v ↔ -32768 ≤ v.toInt ∧ v.toInt ≤ 32767 := by
  simp [fitsSigned, Int64.le_iff_toInt_le]

theorem fitsUnsigned_iff : fitsUnsigned v ↔ 0 ≤ v.toInt ∧ v.toInt ≤ 65535 := by
  simp [fitsUnsigned, Int64.le_iff_toInt_le]

theorem toNat_lowWord (v : Int64) : ((lowWord v).toNat : Int) = v.toInt % 4294967296 := by
  have hnat : (lowWord v).toNat = v.toBitVec.toNat % 4294967296 := rfl
  have hint := toInt_eq_toNat_cond v.toBitVec
  rw [← v.toInt_toBitVec, hint]
  split <;> omega

theorem exists_of_log2? {k : Int64} (h : log2? v = some k) :
    ∃ n : Nat, n ≤ 62 ∧ k.toInt = n ∧ v.toInt = (1 <<< n : Nat) := by
  unfold log2? at h
  split at h
  next hv =>
    obtain ⟨hpos, hpower⟩ := hv
    have hpos : 0 < v.toInt := by simpa [Int64.lt_iff_toInt_lt] using hpos
    have hnat : (v.toNatClampNeg : Int) = v.toInt := by
      rw [← Int64.toNat_toInt]
      omega
    have hbits : v.toBitVec.toNat = v.toNatClampNeg := by
      have := toInt_eq_toNat_cond v.toBitVec
      rw [v.toInt_toBitVec] at this
      split at this <;> omega
    have hzero : v.toNatClampNeg &&& (v.toNatClampNeg - 1) = 0 := by
      have hone : 1#64 ≤ v.toBitVec := by
        rw [le_def]
        show 1 ≤ _
        omega
      have hand : (v.toBitVec &&& (v.toBitVec - 1#64)).toNat = 0 := congrArg (fun w : Int64 => w.toBitVec.toNat) hpower
      rw [toNat_and, toNat_sub_of_le hone, hbits] at hand
      exact hand
    obtain ⟨n, hn⟩ := (Nat.and_sub_one_eq_zero_iff_isPowerOfTwo (by omega)).mp hzero
    have hlt : n < 63 := by
      have := v.toInt_lt
      exact (Nat.pow_lt_pow_iff_right (a := 2) (by decide)).mp (by omega)
    rw [hn, Nat.log2_two_pow] at h
    refine ⟨n, by omega, ?_, ?_⟩
    · rw [← Option.some.inj h, Int64.toInt_ofNat_of_lt (Nat.lt_trans hlt (by decide))]
    · rw [← hnat, hn, Nat.one_shiftLeft]
  · cases h

def word (v : Int64) : BitVec 32 := (lowWord v).toBitVec

theorem word_eq_setWidth (v : Int64) : word v = v.toBitVec.setWidth 32 := rfl

theorem toNat_word (v : Int64) : ((word v).toNat : Int) = v.toInt % 4294967296 := toNat_lowWord v

theorem word_eq_ofInt (v : Int64) : word v = BitVec.ofInt 32 v.toInt := by
  apply BitVec.eq_of_toNat_eq
  have h := toNat_word v
  rw [BitVec.toNat_ofInt]
  omega

theorem toInt_word (v : Int64) : (word v).toInt = v.toInt.bmod 4294967296 := by rw [word_eq_ofInt, toInt_ofInt]

variable (a b : Int64)

theorem word_add : word (a + b) = word a + word b := by
  rw [word_eq_setWidth, Int64.toBitVec_add, setWidth_add _ _ (by decide)]
  rfl

theorem word_neg : word (-a) = -word a := by
  rw [word_eq_setWidth, Int64.toBitVec_neg, setWidth_neg_of_le (by decide)]
  rfl

theorem word_sub : word (a - b) = word a - word b := by rw [Int64.sub_eq_add_neg, word_add, word_neg, sub_eq_add_neg]

theorem word_mul : word (a * b) = word a * word b := by
  rw [word_eq_setWidth, Int64.toBitVec_mul, setWidth_mul _ _ (by decide)]
  rfl

theorem word_and : word (a &&& b) = word a &&& word b := by
  rw [word_eq_setWidth, Int64.toBitVec_and, setWidth_and]
  rfl

theorem word_or : word (a ||| b) = word a ||| word b := by
  rw [word_eq_setWidth, Int64.toBitVec_or, setWidth_or]
  rfl

theorem word_xor : word (a ^^^ b) = word a ^^^ word b := by
  rw [word_eq_setWidth, Int64.toBitVec_xor, setWidth_xor]
  rfl

theorem word_not : word (~~~a) = ~~~word a := by
  rw [word_eq_setWidth, Int64.toBitVec_not, setWidth_not (by decide)]
  rfl

theorem word_signedWord (w : UInt32) : word (signedWord w) = w.toBitVec := by
  rw [word_eq_ofInt, signedWord, Int32.toInt_toInt64]
  exact BitVec.ofInt_toInt

theorem word_wrap32 (v : Int64) : word (wrap32 v) = word v := by
  have h : v.toInt32.toBitVec = word v := BitVec.signExtend_eq_setWidth_of_le _ (by decide)
  rw [← h, word_eq_ofInt, wrap32, Int32.toInt_toInt64]
  exact BitVec.ofInt_toInt

end Microcode
