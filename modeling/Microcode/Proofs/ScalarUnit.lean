import Microcode.Proofs.Result
import Microcode.Proofs.Word

/-!
The scalar unit, and what the code for an operation with a constant leaves in its target.

The code that is selected for a variable and a constant computes the operator on words (`BinaryOp.onWord`): sums,
products and bits as they are, and quotients and remainders rounded down, whatever the signs.
-/

namespace Microcode

open Instruction Nat Except BitVec BinaryOp

abbrev RegisterFile := Fin 32 → BitVec 32

variable {r s d : Register} {v k : Int64} {w : BitVec 32} {f : RegisterFile} {o : Opcode}
  {compute : BitVec 32 → BitVec 32 → BitVec 32} {signed : Bool} {op : BinaryOp}

def Register.HoldsWord (r : Register) : Prop := r.isVector = false ∧ r ≠ .zero

namespace RegisterFile

variable (f : RegisterFile) {v : BitVec 32}

def get : Register → BitVec 32
  | .scalar i => if i = 0 then 0 else f i
  | .vector _ => 0

def set (r : Register) (w : BitVec 32) : RegisterFile := fun i => if r = .scalar i then w else f i

@[simp] theorem get_zero : f.get .zero = 0 := rfl

theorem get_set_self (h : r.HoldsWord) : (f.set r w).get r = w := by
  cases r with
  | scalar i =>
    have hi : i ≠ 0 := fun hi => h.2 (congrArg Register.scalar hi)
    simp [get, set, hi]
  | vector i => cases h.1

theorem get_set_of_ne (h : r ≠ s) : (f.set r w).get s = f.get s := by
  cases s with
  | scalar i => simp [get, set, h]
  | vector i => rfl

@[simp] theorem set_set : (f.set r v).set r w = f.set r w := by
  funext i
  simp only [set]
  split <;> rfl

def operand? : Arg → Option (BitVec 32)
  | .reg r => some (f.get r)
  | .imm v => some (word v)
  | .hex v => some v.toBitVec
  | _ => none

end RegisterFile

def Opcode.compute? : Opcode → Option (BitVec 32 → BitVec 32 → BitVec 32)
  | .addu | .addiu => some fun a b => a + b
  | .subu => some fun a b => a - b
  | .and | .andi => some fun a b => a &&& b
  | .or | .ori => some fun a b => a ||| b
  | .xor | .xori => some fun a b => a ^^^ b
  | .nor => some fun a b => ~~~(a ||| b)
  | .sll => some fun a b => a <<< (b.toNat % 32)
  | .srl => some fun a b => a >>> (b.toNat % 32)
  | .sra => some fun a b => a.sshiftRight (b.toNat % 32)
  | _ => none

def Instruction.exec? (i : Instruction) (f : RegisterFile) : Option RegisterFile := match i.args with
  | [.reg d, .reg s, last] => do
    let compute ← i.opcode.compute?
    let w ← f.operand? last
    pure (f.set d (compute (f.get s) w))
  | [.reg d, .hex v] => if i.opcode = .lui then some (f.set d (v.toBitVec <<< 16)) else none
  | _ => none

def RegisterFile.run (f : RegisterFile) (code : List Instruction) : Option RegisterFile :=
  code.foldlM (fun f i => i.exec? f) f

section
variable {g : RegisterFile} {t : Register}

theorem RegisterFile.run_append {front rest} (h : f.run front = some g) : f.run (front ++ rest) = g.run rest := by
  rw [run, List.foldlM_append]
  show (f.run front).bind _ = _
  rw [h]
  rfl

theorem RegisterFile.run_scalar (h : o.compute? = some compute) :
    f.run [.scalar o [d, s, t]] = some (f.set d (compute (f.get s) (f.get t))) := by
  simp [run, exec?, scalar, h, operand?]

theorem RegisterFile.run_scalarWith (h : o.compute? = some compute) {last : Arg} (hlast : f.operand? last = some w) :
    f.run [.scalarWith o [d, s] last] = some (f.set d (compute (f.get s) w)) := by
  simp [run, exec?, scalarWith, h, hlast]

theorem RegisterFile.run_lui {v : UInt32} :
    f.run [.scalarWith .lui [d] (.hex v)] = some (f.set d (v.toBitVec <<< 16)) := by
  simp [run, exec?, scalarWith]

end

theorem high_or_low (w : BitVec 32) : w >>> 16 <<< 16 ||| w &&& 0xFFFF#32 = w := by
  apply eq_of_toNat_eq
  have hlow : w.toNat &&& 65535 = w.toNat % 65536 := and_two_pow_sub_one_eq_mod w.toNat 16
  rw [toNat_or, toNat_shiftLeft, toNat_ushiftRight, mod_eq_of_lt (by omega)]
  show _ ||| w.toNat &&& 65535 = _
  rw [← shiftLeft_add_eq_or_of_lt (i := 16) (by omega)]
  omega

theorem RegisterFile.run_loadWord (f : RegisterFile) (hr : r.HoldsWord) (w : UInt32) :
    f.run (loadWord r w) = some (f.set r w.toBitVec) := by
  have hhalves := high_or_low w.toBitVec
  unfold loadWord
  split
  next hzero =>
    rw [run_scalar rfl, hzero]
    simp
  split
  · rw [run_scalarWith rfl rfl, word_signedWord]
    simp
  split
  · rw [run_scalarWith rfl rfl]
    simp
  split
  next hlow =>
    have hlow : w.toBitVec &&& 0xFFFF#32 = 0#32 := congrArg UInt32.toBitVec hlow
    rw [hlow, BitVec.or_zero] at hhalves
    exact congrArg (fun w => some (f.set r w)) hhalves
  · rw [← List.singleton_append, run_append run_lui, run_scalarWith rfl rfl, get_set_self _ hr, set_set]
    exact congrArg (fun w => some (f.set r w)) hhalves

theorem RegisterFile.run_loadConstant (f : RegisterFile) (hr : r.HoldsWord) (v : Int64) :
    f.run (loadConstant r v) = some (f.set r (word v)) := f.run_loadWord hr (lowWord v)

variable (x : BitVec 32) (n : Nat)

theorem ushiftRight_eq_ofInt : x >>> n = .ofInt 32 (x.toNat / (1 <<< n : Nat)) := by
  apply eq_of_toNat_eq
  have hle : x.toNat / 1 <<< n ≤ x.toNat := div_le_self _ _
  rw [← Int.natCast_ediv, ofInt_natCast, toNat_ushiftRight, toNat_ofNat,
    mod_eq_of_lt (by omega), shiftRight_eq_div_pow, one_shiftLeft]

theorem sshiftRight_eq_ofInt : x.sshiftRight n = .ofInt 32 (x.toInt / (1 <<< n : Nat)) := by
  rw [sshiftRight, Int.shiftRight_eq_div_pow, one_shiftLeft]

theorem shiftLeft_eq_mul : x <<< n = x * .ofInt 32 (1 <<< n : Nat) := by
  have hpow : BitVec.ofNat 32 (2 ^ n) = .twoPow 32 n := by
    apply BitVec.eq_of_toNat_eq
    rw [BitVec.toNat_ofNat, BitVec.toNat_twoPow]
  rw [BitVec.ofInt_natCast, one_shiftLeft, hpow, BitVec.shiftLeft_eq_mul_twoPow]

theorem and_eq_ofInt : x &&& .ofNat 32 (1 <<< n - 1) = .ofInt 32 (x.toNat % (1 <<< n : Nat)) := by
  apply eq_of_toNat_eq
  have hlt := x.isLt
  have hmod := and_mod_two_pow (a := x.toNat) (b := 1 <<< n - 1) (n := 32)
  rw [mod_eq_of_lt hlt] at hmod
  rw [← Int.natCast_emod, ofInt_natCast, toNat_and, toNat_ofNat, toNat_ofNat, ← hmod,
    one_shiftLeft, and_two_pow_sub_one_eq_mod]

theorem shiftAmount_iff : 0 ≤ v ∧ v < 32 ↔ 0 ≤ v.toInt ∧ v.toInt < 32 := by
  simp [Int64.le_iff_toInt_le, Int64.lt_iff_toInt_lt]

theorem lt_of_log2? (hv : v.toInt < 4294967296) (h : log2? v = some k) :
    (0 ≤ k ∧ k < 32) ∧ v.toInt = (1 <<< k.toInt.toNat : Nat) := by
  obtain ⟨n, -, hk, hn⟩ := exists_of_log2? h
  have hlt : n < 32 := by
    exact (Nat.pow_lt_pow_iff_right (a := 2) (m := 32) (by decide)).mp (by omega)
  refine ⟨shiftAmount_iff.mpr (by omega), ?_⟩
  rw [hn, hk, Int.toNat_natCast]

/-! ### A variable and a constant -/

/-- The value of an operator on a word and a constant.  A quotient is rounded down, and a remainder is that
of the word without its sign.  The operator for vectors has none. -/
def BinaryOp.onWord (signed : Bool) (x : BitVec 32) (v : Int64) : BinaryOp → BitVec 32
  | .add => x + word v
  | .sub => x - word v
  | .mul => x * word v
  | .div => .ofInt 32 ((if signed then x.toInt else x.toNat) / v.toInt)
  | .mod => .ofInt 32 (x.toNat % v.toInt)
  | .and => x &&& word v
  | .or => x ||| word v
  | .xor => x ^^^ word v
  | .nor => ~~~(x ||| word v)
  | .shl => x <<< v.toInt.toNat
  | .shr => if signed then x.sshiftRight v.toInt.toNat else x >>> v.toInt.toNat
  | .mulAdd => 0

/-- The code leaves a word in a register, and all others as they were, but for the scratch register. -/
def RegisterFile.Leaves (f : RegisterFile) (code : List Instruction) (d : Register) (w : BitVec 32) : Prop :=
  ∃ g, f.run code = some g ∧ g.get d = w ∧ ∀ r, r ≠ d → r ≠ .scratch → g.get r = f.get r

theorem toNat_word_mod (hv : 0 ≤ v ∧ v < 32) : (word v).toNat % 32 = v.toInt.toNat := by
  have hnat := toNat_word v
  have hrange := shiftAmount_iff.mp hv
  omega

section
variable (hd : d.HoldsWord)
include hd
variable {code : List Instruction}

theorem RegisterFile.leaves_set (h : f.run code = some (f.set d w)) : f.Leaves code d w :=
  ⟨_, h, f.get_set_self hd, fun _ hr _ => f.get_set_of_ne hr.symm⟩

theorem leaves_copyScalar : f.Leaves (copyScalar d s) d (f.get s) := by
  unfold copyScalar
  split
  next heq => exact ⟨f, rfl, by rw [heq], fun _ _ _ => rfl⟩
  · refine f.leaves_set hd ?_
    rw [RegisterFile.run_scalar rfl]
    simp

theorem leaves_throughScratch (hs : s ≠ .scratch) (ho : o.compute? = some compute) (v : Int64) :
    f.Leaves (loadConstant .scratch v ++ [.scalar o [d, s, .scratch]]) d (compute (f.get s) (word v)) := by
  have hscratch : Register.scratch.HoldsWord := ⟨rfl, by decide⟩
  obtain ⟨g, hrun, hw, hrest⟩ := RegisterFile.leaves_set (f := f.set .scratch (word v)) hd
    (RegisterFile.run_scalar (s := s) (t := .scratch) ho)
  rw [RegisterFile.get_set_of_ne _ hs.symm] at hw
  refine ⟨g, (RegisterFile.run_append (f.run_loadConstant hscratch v)).trans hrun, hw, fun r hr hne => ?_⟩
  rw [hrest r hr hne, f.get_set_of_ne hne.symm]

theorem leaves_addition (hs : s ≠ .scratch) (ho : o.compute? = some compute) {add : Int64}
    (hadd : f.get s + word add = compute (f.get s) (word v)) : f.Leaves (if add = 0 then copyScalar d s
      else if fitsSigned add then [.scalarWith .addiu [d, s] (.imm add)]
      else loadConstant .scratch v ++ [.scalar o [d, s, .scratch]]) d (compute (f.get s) (word v)) := by
  rw [← hadd]
  split
  next hzero =>
    rw [hzero, show word 0 = 0#32 from rfl, BitVec.add_zero]
    exact leaves_copyScalar hd
  split
  · exact f.leaves_set hd (RegisterFile.run_scalarWith rfl rfl)
  · rw [hadd]
    exact leaves_throughScratch hd hs ho v

theorem leaves_addConstant (hs : s ≠ .scratch) (v : Int64) : f.Leaves (addConstant d s .add v) d (f.get s + word v) :=
  leaves_addition hd hs (o := .addu) rfl rfl

theorem leaves_subConstant (hs : s ≠ .scratch) (v : Int64) : f.Leaves (addConstant d s .sub v) d (f.get s - word v) :=
  leaves_addition hd hs (o := .subu) rfl <| by
    rw [if_pos rfl, word_neg, sub_eq_add_neg]

theorem leaves_bitsConstant (hs : s ≠ .scratch) (immediate register : Opcode)
    (himmediate : immediate.compute? = some compute)
    (hregister : register.compute? = some compute) (v : Int64) :
    f.Leaves (bitsConstant d s immediate register v) d (compute (f.get s) (word v)) := by
  unfold bitsConstant
  split
  · exact f.leaves_set hd (RegisterFile.run_scalarWith himmediate rfl)
  · exact leaves_throughScratch hd hs hregister v

theorem leaves_norConstant (hs : s ≠ .scratch) (v : Int64) : f.Leaves (if v = 0 then [.scalar .nor [d, s, .zero]]
      else loadConstant .scratch v ++ [.scalar .nor [d, s, .scratch]]) d (~~~(f.get s ||| word v)) := by
  split
  next hzero =>
    rw [hzero]
    exact f.leaves_set hd (RegisterFile.run_scalar (o := .nor) rfl)
  · exact leaves_throughScratch hd hs (o := .nor) rfl v

theorem leaves_shift (compute : BitVec 32 → Nat → BitVec 32)
    (ho : o.compute? = some fun a b => compute a (b.toNat % 32)) (hv : 0 ≤ v ∧ v < 32) :
    f.Leaves [.scalarWith o [d, s] (.imm v)] d (compute (f.get s) v.toInt.toNat) := by
  refine f.leaves_set hd ?_
  rw [RegisterFile.run_scalarWith ho rfl, toNat_word_mod hv]

theorem leaves_shiftConstant (compute : BitVec 32 → Nat → BitVec 32)
    (ho : o.compute? = some fun a b => compute a (b.toNat % 32)) (hzero : compute (f.get s) 0 = f.get s)
    (hv : 0 ≤ v ∧ v < 32) :
    f.Leaves (shiftConstant d s o v) d (compute (f.get s) v.toInt.toNat) := by
  unfold shiftConstant
  split
  next hv0 =>
    rw [hv0]
    exact hzero.symm ▸ leaves_copyScalar hd
  · exact leaves_shift hd compute ho hv

theorem leaves_mulConstant (hv : v.toInt < 4294967296) (hk : log2? v = some k) :
    f.Leaves (shiftConstant d s .sll k) d (f.get s * word v) := by
  obtain ⟨hn, hvn⟩ := lt_of_log2? hv hk
  rw [word_eq_ofInt, hvn, ← shiftLeft_eq_mul]
  exact leaves_shiftConstant hd (fun a n => a <<< n) rfl (shiftLeft_zero _) hn

theorem leaves_divConstant (hv : v.toInt < 4294967296) (hk : log2? v = some k)
    (signed : Bool) : f.Leaves (shiftConstant d s (if signed then .sra else .srl) k) d
      (div.onWord signed (f.get s) v) := by
  obtain ⟨hn, hvn⟩ := lt_of_log2? hv hk
  rw [onWord, hvn]
  cases signed with
  | true =>
    rw [if_pos rfl, if_pos rfl, ← sshiftRight_eq_ofInt]
    exact leaves_shiftConstant hd (fun a n => a.sshiftRight n) rfl sshiftRight_zero hn
  | false =>
    rw [if_neg (by decide), if_neg (by decide), ← ushiftRight_eq_ofInt]
    exact leaves_shiftConstant hd (fun a n => a >>> n) rfl (ushiftRight_zero _) hn

theorem leaves_modConstant (hs : s ≠ .scratch) (hk : log2? v = some k) :
    f.Leaves (bitsConstant d s .andi .and (v - 1)) d (.ofInt 32 ((f.get s).toNat % v.toInt)) := by
  obtain ⟨n, -, -, hvn⟩ := exists_of_log2? hk
  have hpos : 1 ≤ 1 <<< n := by
    rw [Nat.one_shiftLeft]
    exact Nat.one_le_two_pow
  have hlow : word (v - 1) = .ofNat 32 (1 <<< n - 1) := by
    rw [word_sub, word_eq_ofInt v, hvn, ← ofNat_sub_ofNat_of_le _ _ (by decide) hpos]
    rfl
  rw [hvn, ← and_eq_ofInt _ n, ← hlow]
  exact leaves_bitsConstant hd hs .andi .and rfl rfl (v - 1)

/-- The code for a register and a constant leaves the value of the operator.  The factor or divisor has to be
a word. -/
theorem leaves_step (hs : s ≠ .scratch) (hv : op = .mul ∨ op = .div → v.toInt < 4294967296)
    (h : constantStep d s signed op v = .ok code) : f.Leaves code d (op.onWord signed (f.get s) v) := by
  cases op with
  | add => exact ok.inj h ▸ leaves_addConstant hd hs v
  | sub => exact ok.inj h ▸ leaves_subConstant hd hs v
  | mul =>
    simp only [constantStep] at h
    split at h
    next hzero =>
      rw [hzero]
      exact f.leaves_set hd (ok.inj h ▸ f.run_loadConstant hd 0)
    split at h
    · exact ok.inj h ▸ leaves_mulConstant hd (hv (.inl rfl)) ‹_›
    · cases h
  | div =>
    simp only [constantStep] at h
    split at h
    · cases h
    split at h
    · exact ok.inj h ▸ leaves_divConstant hd (hv (.inr rfl)) ‹_› signed
    · cases h
  | mod =>
    simp only [constantStep] at h
    split at h
    · exact ok.inj h ▸ leaves_modConstant hd hs ‹_›
    · cases h
  | and => exact ok.inj h ▸ leaves_bitsConstant hd hs .andi .and rfl rfl v
  | or => exact ok.inj h ▸ leaves_bitsConstant hd hs .ori .or rfl rfl v
  | xor => exact ok.inj h ▸ leaves_bitsConstant hd hs .xori .xor rfl rfl v
  | nor => exact ok.inj h ▸ leaves_norConstant hd hs v
  | shl =>
    simp only [constantStep] at h
    split at h
    · exact ok.inj h ▸ leaves_shift hd (fun a n => a <<< n) rfl ‹_›
    · cases h
  | shr =>
    simp only [constantStep] at h
    split at h
    next hrange =>
      cases h
      cases signed with
      | true => exact leaves_shift hd (fun a n => a.sshiftRight n) rfl hrange
      | false => exact leaves_shift hd (fun a n => a >>> n) rfl hrange
    · cases h
  | mulAdd => cases h

theorem leaves_constantStep (hs : s ≠ .scratch)
    (hv : v.toInt < 4294967296) (h : constantStep d s signed op v = .ok code) :
    f.Leaves code d (op.onWord signed (f.get s) v) := leaves_step hd hs (fun _ => hv) h

end
end Microcode
