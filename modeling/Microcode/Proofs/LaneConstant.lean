import Microcode.Selection.Vector

/-!
Constants in all lanes of a vector.

A wide vector takes its constants with a fraction of sixteen bits, and the sixteen bits that a number loses at its
upper end on the way are lost before its range is looked at: the number is judged by its lower forty-eight.
-/

namespace Microcode

/-- The numbers that sixteen bits hold, read with a sign or without. -/
def FitsLane (x : Int) : Prop := -0x8000 ≤ x ∧ x < 0x10000

def lanePattern (v : Int64) : UInt16 := ⟨.ofInt 16 v.toInt⟩

section Patterns

variable (v : Int64)

theorem toUInt16_eq_lanePattern : v.toUInt64.toUInt16 = lanePattern v := by
  refine UInt16.toBitVec_inj.mp (BitVec.eq_of_toNat_eq ?_)
  show (v.toBitVec.setWidth 16).toNat = (BitVec.ofInt 16 v.toInt).toNat
  rw [← Int64.toInt_toBitVec, BitVec.toNat_ofInt, BitVec.toNat_setWidth, BitVec.toInt_eq_toNat_bmod]
  simp only [Int.bmod]
  omega

theorem toInt_shiftLeft : (v <<< 16).toInt = v.toInt.bmod 0x1000000000000 * 0x10000 := by
  have hbits : (v <<< 16).toBitVec = v.toBitVec <<< 16 := by simp [Int64.toBitVec_shiftLeft]
  rw [← Int64.toInt_toBitVec, hbits, BitVec.toInt_shiftLeft, Nat.shiftLeft_eq, ← Int64.toInt_toBitVec,
    BitVec.toInt_eq_toNat_bmod]
  simp only [Int.bmod]
  omega

theorem toInt_shiftRight : (v >>> 16).toInt = v.toInt / 0x10000 := by
  have hbits : (v >>> 16).toBitVec = v.toBitVec.sshiftRight 16 := by simp [Int64.toBitVec_shiftRight]
  rw [← Int64.toInt_toBitVec, hbits, BitVec.toInt_sshiftRight, Int.shiftRight_eq_div_pow]
  rfl

theorem lanePattern_shiftLeft : lanePattern (v <<< 16) = 0 := by
  refine UInt16.toBitVec_inj.mp (BitVec.eq_of_toNat_eq ?_)
  show (BitVec.ofInt 16 (v <<< 16).toInt).toNat = 0
  rw [BitVec.toNat_ofInt, toInt_shiftLeft]
  omega

theorem lanePattern_shifts : lanePattern (v <<< 16 >>> 16) = lanePattern v := by
  refine UInt16.toBitVec_inj.mp (BitVec.eq_of_toNat_eq ?_)
  show (BitVec.ofInt 16 (v <<< 16 >>> 16).toInt).toNat = (BitVec.ofInt 16 v.toInt).toNat
  rw [BitVec.toNat_ofInt, BitVec.toNat_ofInt, toInt_shiftRight, toInt_shiftLeft]
  simp only [Int.bmod]
  omega

theorem lanePatterns_vec16_iff (pattern : UInt16 × UInt16) :
    (Constant.int v).lanePatterns .vec16 = .ok pattern ↔ FitsLane v.toInt ∧ (lanePattern v, 0) = pattern := by
  have hrange : -0x8000 ≤ v ∧ v ≤ 0xFFFF ↔ FitsLane v.toInt := by
    rw [Int64.le_iff_toInt_le, Int64.le_iff_toInt_le]
    exact and_congr_right fun _ => Int.lt_add_one_iff.symm
  rw [Constant.lanePatterns, toUInt16_eq_lanePattern]
  split <;> simp_all

theorem lanePatterns_vec32_iff (pattern : UInt16 × UInt16) :
    (Constant.int v).lanePatterns .vec32 = .ok pattern
      ↔ FitsLane (v.toInt.bmod 0x1000000000000) ∧ (lanePattern v, 0) = pattern := by
  have hrange : (-0x80000000 : Int64) ≤ v <<< 16 ∧ v <<< 16 < 0x100000000
      ↔ FitsLane (v.toInt.bmod 0x1000000000000) := by
    rw [Int64.le_iff_toInt_le, Int64.lt_iff_toInt_lt, toInt_shiftLeft, FitsLane]
    have hleast : (-0x80000000 : Int64).toInt = -0x80000000 := rfl
    have hmost : (0x100000000 : Int64).toInt = 0x100000000 := rfl
    omega
  simp only [Constant.lanePatterns, toUInt16_eq_lanePattern, lanePattern_shiftLeft, lanePattern_shifts]
  split <;> simp_all

end Patterns

/-- **A whole number in all lanes** is taken by a narrow vector if sixteen bits hold it, and by a wide one if sixteen
bits hold what forty-eight leave of it.  A number that is not taken is refused; for one that is, the lanes are filled
with its lower sixteen bits and those of the fractions with zero. -/
theorem vectorValue_int (v : Int64) :
    (∀ pattern, (Constant.int v).lanePatterns .vec16 = .ok pattern
      ↔ FitsLane v.toInt ∧ (lanePattern v, 0) = pattern)
    ∧ (∀ pattern, (Constant.int v).lanePatterns .vec32 = .ok pattern
      ↔ FitsLane (v.toInt.bmod 0x1000000000000) ∧ (lanePattern v, 0) = pattern)
    ∧ ∀ (scopes : ScopeStack) (target : Target), target.place.isVector → target.place.swizzle = none →
      (∃ fault, (Constant.int v).lanePatterns target.place.type = .error fault
        ∧ vectorValue scopes target (.constant (.int v)) = .error (.vector fault))
      ∨ vectorValue scopes target (.constant (.int v)) = .ok (fillLanes target.place.register (lanePattern v) none
        ++ if target.place.isWide then fillLanes target.place.fraction 0 none else []) := by
  refine ⟨lanePatterns_vec16_iff v, lanePatterns_vec32_iff v, fun scopes target hvector hswizzle => ?_⟩
  have hvalue : vectorValue scopes target (.constant (.int v)) = fillConstant target.place (.int v) none := by
    simp only [vectorValue, vectorConstant, hswizzle]
    rfl
  rw [hvalue, fillConstant]
  cases hpattern : (Constant.int v).lanePatterns target.place.type with
  | error fault => exact .inl ⟨fault, rfl, rfl⟩
  | ok pattern =>
    have hint : (lanePattern v, 0) = pattern := by
      unfold Place.isVector DataType.isVector at hvector
      split at hvector
      next htype => exact ((lanePatterns_vec16_iff v pattern).mp (htype ▸ hpattern)).2
      next htype => exact ((lanePatterns_vec32_iff v pattern).mp (htype ▸ hpattern)).2
      · cases hvector
    subst hint
    exact .inr rfl

/-- The number 2⁴⁸ is zero in all lanes of a wide vector, and no narrow vector takes it. -/
theorem vectorValue_int_beyond : (Constant.int 0x1000000000000).lanePatterns .vec32 = .ok (0, 0)
    ∧ (∀ pattern, (Constant.int 0x1000000000000).lanePatterns .vec16 ≠ .ok pattern)
    ∧ vectorValue {} ⟨"p", .vector 4, .vec32, none⟩ (.constant (.int 0x1000000000000))
      = .ok (fillLanes (.vector 4) 0 none ++ fillLanes (.vector 5) 0 none) := by
  obtain ⟨hnarrow, hwide, hvalue⟩ := vectorValue_int 0x1000000000000
  have hpatterns := (hwide (0, 0)).mpr ⟨by unfold FitsLane; decide, by decide⟩
  refine ⟨hpatterns, fun pattern h => absurd ((hnarrow pattern).mp h).1 (by unfold FitsLane; decide), ?_⟩
  rcases hvalue {} ⟨"p", .vector 4, .vec32, none⟩ rfl rfl with ⟨fault, hfault, -⟩ | hcode
  · cases hpatterns.symm.trans hfault
  · exact hcode

end Microcode
