import Microcode.Proofs.ScalarUnit
import Microcode.Proofs.Translation

/-!
Constants that are folded, and the same constants in variables.

An operation on two constants is folded into one constant.  If the first of them is put into a variable
instead, the operation is computed by the code.
-/

namespace Microcode

open List Constant Operand Assignment Level BinaryOp Int

variable {op : BinaryOp} {state : List String} {f : Frame} {p : Progress}

def IsWord (v : Int64) : Prop := -2147483648 ≤ v.toInt ∧ v.toInt < 4294967296
deriving Decidable

/-- Folding the operator on two constants gives the word that the code computes from the first in a
variable.  Folding rounds a quotient to zero and keeps the sign of a remainder, and it fills a word that is
shifted to the right with zeros. -/
def BinaryOp.FoldsExactly (signed : Bool) (a b : Int64) : BinaryOp → Prop
  | .div => b.toInt = 1 ∨ if signed then a.toInt < 2147483648 ∧ (0 ≤ a.toInt ∨ b.toInt ∣ a.toInt) else 0 ≤ a.toInt
  | .mod => 0 ≤ a.toInt ∨ b.toInt ∣ a.toInt
  | .shr => signed → b.toInt = 0 ∨ 0 ≤ (word a).toInt
  | _ => True

theorem ofInt_eq_ofInt_iff {u v : Int} : BitVec.ofInt 32 u = .ofInt 32 v ↔ u % 4294967296 = v % 4294967296 := by
  rw [← BitVec.toNat_inj, BitVec.toNat_ofInt, BitVec.toNat_ofInt]
  omega

variable {code : List Instruction} {v b : Int64}

section
variable {a b : Int64}

theorem IsWord.toInt_word (h : IsWord a) :
    (word a).toInt = if a.toInt < 2147483648 then a.toInt else a.toInt - 4294967296 := by
  unfold IsWord at h
  rw [Microcode.toInt_word, bmod_def]
  omega

theorem IsWord.toNat_word (h : IsWord a) :
    ((word a).toNat : Int) = if 0 ≤ a.toInt then a.toInt else a.toInt + 4294967296 := by
  unfold IsWord at h
  rw [Microcode.toNat_word]
  omega

variable {k : Int64}

theorem bounds_of_log2? (hb : IsWord b) (hk : log2? b = some k) :
    0 < b.toInt ∧ b.toInt ≤ 2147483648 ∧ b.toInt ∣ 4294967296 := by
  obtain ⟨hn, hbn⟩ := lt_of_log2? hb.2 hk
  have hrange := shiftAmount_iff.mp hn
  rw [hbn, Nat.one_shiftLeft]
  refine ⟨natCast_pos.mpr (Nat.two_pow_pos _), ?_, ?_⟩
  · exact ofNat_le.mpr (Nat.pow_le_pow_right (n := 2) (j := 31) (by decide) (by omega))
  · exact natCast_dvd_natCast.mpr (Nat.pow_dvd_pow 2 (n := 32) (by omega))

theorem word_div (hb : 0 < b.toInt) : word (a / b) = .ofInt 32 (a.toInt.tdiv b.toInt) := by
  have hne : b ≠ -1 := by
    rintro rfl
    exact absurd hb (by decide)
  rw [word_eq_ofInt, Int64.toInt_div_of_ne_right a b hne]

theorem word_mod : word (a % b) = .ofInt 32 (a.toInt.tmod b.toInt) := by rw [word_eq_ofInt, Int64.toInt_mod]

variable {n m : Int}

theorem ediv_bounds_of_neg (hn : -2147483648 ≤ n) (hneg : n < 0) (hm : 2 ≤ m) : -1073741824 ≤ n / m ∧ n / m < 0 :=
  ⟨Int.le_ediv_of_mul_le (by omega) (by omega), Int.ediv_neg_of_neg_of_pos hneg (by omega)⟩

theorem ediv_bounds_of_top (hn : n < 4294967296) (htop : 2147483648 ≤ n) (hm : 2 ≤ m)
    (hle : m ≤ 2147483648) : 0 < n / m ∧ n / m < 2147483648 :=
  ⟨Int.le_ediv_of_mul_le (by omega) (by omega), Int.ediv_lt_of_lt_mul (by omega) (by omega)⟩

theorem tdiv_of_pos (hm : 0 < m) : n.tdiv m = n / m + if 0 ≤ n ∨ m ∣ n then 0 else 1 := by
  rw [tdiv_eq_ediv, sign_eq_one_of_pos hm]

theorem tdiv_eq_signed_iff (ha : IsWord a) (hm : 2 ≤ m) (hle : m ≤ 2147483648) :
    BitVec.ofInt 32 (a.toInt.tdiv m) = .ofInt 32 ((word a).toInt / m) ↔
      a.toInt < 2147483648 ∧ (0 ≤ a.toInt ∨ m ∣ a.toInt) := by
  have hquotient := tdiv_of_pos (n := a.toInt) (m := m) (by omega)
  rw [ofInt_eq_ofInt_iff, ha.toInt_word]
  unfold IsWord at ha
  by_cases hlt : a.toInt < 2147483648
  · -- The two roundings of one quotient.
    split <;> omega
  · have htop := ediv_bounds_of_top ha.2 (by omega) hm hle
    have hneg := ediv_bounds_of_neg (n := a.toInt - 4294967296) (by omega) (by omega) hm
    rw [if_neg hlt]
    omega

theorem tdiv_eq_unsigned_iff (ha : IsWord a) (hm : 2 ≤ m) (hle : m ≤ 2147483648) :
    BitVec.ofInt 32 (a.toInt.tdiv m) = .ofInt 32 ((word a).toNat / m) ↔ 0 ≤ a.toInt := by
  have hquotient := tdiv_of_pos (n := a.toInt) (m := m) (by omega)
  rw [ofInt_eq_ofInt_iff, ha.toNat_word]
  unfold IsWord at ha
  by_cases hnonneg : 0 ≤ a.toInt
  · rw [if_pos hnonneg, hquotient, if_pos (.inl hnonneg), Int.add_zero]
    exact iff_of_true rfl hnonneg
  · have hneg := ediv_bounds_of_neg ha.1 (by omega) hm
    have htop := ediv_bounds_of_top (n := a.toInt + 4294967296) (by omega) (by omega) hm hle
    split <;> omega

theorem word_div_iff (ha : IsWord a) (hb : IsWord b) (hk : log2? b = some k) (signed : Bool) :
    word (a / b) = div.onWord signed (word a) b ↔ div.FoldsExactly signed a b := by
  obtain ⟨hpos, hle, -⟩ := bounds_of_log2? hb hk
  rw [word_div hpos, onWord, BinaryOp.FoldsExactly]
  by_cases hone : b.toInt = 1
  · refine iff_of_true ?_ (.inl hone)
    rw [hone, Int.tdiv_one, Int.ediv_one, ← word_eq_ofInt]
    cases signed with
    | false => rw [if_neg (by decide), BitVec.ofInt_natCast, BitVec.ofNat_toNat, BitVec.setWidth_eq]
    | true => rw [if_pos rfl, BitVec.ofInt_toInt]
  · rw [or_iff_right hone]
    cases signed with
    | false => exact tdiv_eq_unsigned_iff ha (by omega) hle
    | true => exact tdiv_eq_signed_iff ha (by omega) hle

theorem word_mod_iff (hb : IsWord b) (hk : log2? b = some k) (signed : Bool) :
    word (a % b) = mod.onWord signed (word a) b ↔ mod.FoldsExactly signed a b := by
  obtain ⟨hpos, hle, hdvd⟩ := bounds_of_log2? hb hk
  rw [word_mod, onWord, BinaryOp.FoldsExactly, ofInt_eq_ofInt_iff, toNat_word,
    emod_emod_of_dvd _ hdvd, tmod_eq_emod]
  split <;> omega

theorem word_shl (hb : 0 ≤ b ∧ b < 32) : word (signedWord (lowWord a <<< lowWord b)) = word a <<< b.toInt.toNat := by
  rw [word_signedWord]
  exact congrArg (word a <<< ·) (toNat_word_mod hb)

theorem word_shr (hb : 0 ≤ b ∧ b < 32) : word (signedWord (lowWord a >>> lowWord b)) = word a >>> b.toInt.toNat := by
  rw [word_signedWord]
  exact congrArg (word a >>> ·) (toNat_word_mod hb)

theorem ushiftRight_eq_sshiftRight_iff (x : BitVec 32) (n : Nat) : x >>> n = x.sshiftRight n ↔ n = 0 ∨ 0 ≤ x.toInt := by
  by_cases hn : n = 0
  · subst hn
    simp
  rw [or_iff_right hn]
  cases hmsb : x.msb with
  | false => exact iff_of_true (BitVec.sshiftRight_eq_of_msb_false hmsb).symm (BitVec.toInt_nonneg_of_msb_false hmsb)
  | true =>
    refine iff_of_false (fun h => ?_) (Int.not_le.mpr (BitVec.toInt_neg_of_msb_true hmsb))
    have htop := congrArg BitVec.msb h
    rw [BitVec.msb_sshiftRight, hmsb] at htop
    simp [Nat.pos_of_ne_zero hn] at htop

theorem word_shr_iff (hb : 0 ≤ b ∧ b < 32) (signed : Bool) :
    word (signedWord (lowWord a >>> lowWord b)) = shr.onWord signed (word a) b ↔
      shr.FoldsExactly signed a b := by
  have hrange := shiftAmount_iff.mp hb
  rw [word_shr hb, onWord, BinaryOp.FoldsExactly]
  cases signed with
  | false => simp
  | true =>
    rw [if_pos rfl, ushiftRight_eq_sshiftRight_iff, forall_prop_of_true rfl]
    omega

theorem combineInt_iff (ha : IsWord a) (hb : IsWord b) {d s} {signed : Bool}
    (h : constantStep d s signed op b = .ok code) : ∃ v, combineInt op a b = .ok v ∧
      (word v = op.onWord signed (word a) b ↔ op.FoldsExactly signed a b) := by
  cases op with
  | add => exact ⟨_, rfl, iff_of_true (word_add a b) trivial⟩
  | sub => exact ⟨_, rfl, iff_of_true (word_sub a b) trivial⟩
  | mul => exact ⟨_, rfl, iff_of_true (word_mul a b) trivial⟩
  | and => exact ⟨_, rfl, iff_of_true (word_and a b) trivial⟩
  | or => exact ⟨_, rfl, iff_of_true (word_or a b) trivial⟩
  | xor => exact ⟨_, rfl, iff_of_true (word_xor a b) trivial⟩
  | nor =>
    refine ⟨_, rfl, iff_of_true ?_ trivial⟩
    rw [word_not, word_or]
    rfl
  | div =>
    simp only [constantStep] at h
    split at h
    · cases h
    rename_i hzero
    split at h
    · refine ⟨a / b, if_neg hzero, word_div_iff ha hb ‹_› signed⟩
    · cases h
  | mod =>
    simp only [constantStep] at h
    split at h
    next k hk =>
      have hzero : b ≠ 0 := by
        rintro rfl
        exact absurd (bounds_of_log2? hb hk).1 (by decide)
      exact ⟨a % b, if_neg hzero, word_mod_iff hb hk signed⟩
    · cases h
  | shl =>
    simp only [constantStep] at h
    split at h
    · exact ⟨_, rfl, iff_of_true (word_shl ‹_›) trivial⟩
    · cases h
  | shr =>
    simp only [constantStep] at h
    split at h
    · exact ⟨_, rfl, word_shr_iff ‹_› signed⟩
    · cases h
  | mulAdd => cases h

end

namespace Level

variable (l r : Operand)

theorem ofParts?_pair (op : BinaryOp) :
    ofParts? [.operand l, .op op, .operand r] = some ⟨.leaf l, [(op, .leaf r)]⟩ := by
  cases op <;> simp [ofParts?, runOf?, termOf?, ofRun?, gather, tiers, precedence]

def ofConstant (c : Constant) : Level := ⟨.ofConstant c, []⟩

theorem chain_ofConstant (target : String) (swizzle : Option Swizzle) (c : Constant) :
    (ofConstant c).chain target swizzle = .ok [⟨target, swizzle, none, .constant c, false⟩] := rfl

section
variable {x y c : Constant}

theorem foldProduct_constants (h : combine op x y = .ok c) :
    foldProduct op ⟨.ofConstant x, [(op, .ofConstant y)]⟩ = .ok (ofConstant c) := by
  have hproduct : productConstants op [.ofConstant x, .ofConstant y] none = .ok (some c, []) := by
    show (combine op x y >>= fun p => productConstants op [] (some p)) = _
    rw [h]
    rfl
  simp only [foldProduct, List.map, hproduct, bind, Except.bind, isEmpty_nil, Bool.or_true]
  rfl

theorem foldStart_constants (h : combine op x y = .ok c) :
    foldStart (.ofConstant x) [(op, .ofConstant y)] = .ok (ofConstant c) := by
  show (combine op x y >>= fun c => foldStart (.ofConstant c) []) = _
  rw [h]
  rfl

theorem foldSum_constants {sum} (hfirst : combine .add (.int 0) x = .ok sum) (h : combine op sum y = .ok (.int v)) :
    foldSum ⟨.ofConstant x, [(op, .ofConstant y)]⟩ = .ok (ofConstant (.int v)) := by
  have hsum : sumConstants [(.add, .ofConstant x), (op, .ofConstant y)] = .ok (some (.int v), []) := by
    show (combine .add (.int 0) x >>= fun s => sumConstants.go (some s) [(op, .ofConstant y)]) = _
    rw [hfirst]
    show (combine op sum y >>= fun s => sumConstants.go (some s) []) = _
    rw [h]
    rfl
  have hvalue : ((some (.int v)).filter fun c : Constant => !c.isZero).getD (.int 0) = .int v := by
    by_cases hv : v = 0
    · rw [hv]
      rfl
    · simp [Option.filter, isZero, hv]
  simp only [foldSum, hsum, bind, Except.bind, hvalue]
  rfl

end

theorem foldOwn_constants {a : Int64} (h : combineInt op a b = .ok v) :
    ∃ c, foldOwn ⟨.ofConstant (.int a), [(op, .ofConstant (.int b))]⟩ = .ok (ofConstant (.int c)) ∧
      word c = word v := by
  have hcombine : combine op (.int a) (.int b) = .ok (.int (wrap32 v)) := by
    rw [combine, h]
    rfl
  have hsum : word (wrap32 (0 + a)) = word a := by rw [word_wrap32, Int64.zero_add]
  cases op with
  | add =>
    refine ⟨wrap32 (wrap32 (0 + a) + b), foldSum_constants rfl rfl, ?_⟩
    rw [← Except.ok.inj h, word_wrap32, word_add, word_add, hsum]
  | sub =>
    refine ⟨wrap32 (wrap32 (0 + a) - b), foldSum_constants rfl rfl, ?_⟩
    rw [← Except.ok.inj h, word_wrap32, word_sub, word_sub, hsum]
  | mul | and | or | xor => exact ⟨wrap32 v, foldProduct_constants hcombine, word_wrap32 v⟩
  | div | mod | nor | shl | shr | mulAdd => exact ⟨wrap32 v, foldStart_constants hcombine, word_wrap32 v⟩

end Level

abbrev Operand.ofInt (v : Int64) : Operand := .ofConstant (.int v)

theorem chainOfParts_constants (target : String) (swizzle : Option Swizzle) {a : Int64}
    (h : combineInt op a b = .ok v) :
    ∃ c, chainOfParts target swizzle [.operand (.ofInt a), .op op, .operand (.ofInt b)] =
      .ok [⟨target, swizzle, none, .constant (.int c), false⟩] ∧ word c = word v := by
  obtain ⟨c, hfold, hword⟩ := foldOwn_constants h
  refine ⟨c, ?_, hword⟩
  rw [chainOfParts, ofParts?_pair]
  dsimp only
  show ((foldOwn ⟨.ofConstant (.int a), [(op, .ofConstant (.int b))]⟩).mapError .arithmetic >>=
    fun l => l.chain target swizzle) = _
  rw [hfold]
  exact chain_ofConstant target swizzle (.int c)

/-! ### The lines of an assignment -/

def Line.exec? (g : RegisterFile) : Line → Option RegisterFile
  | .op i => i.exec? g
  | _ => none

def RegisterFile.runLines (g : RegisterFile) (lines : List Line) : Option RegisterFile := lines.foldlM Line.exec? g

theorem RegisterFile.runLines_stamped (g : RegisterFile) (p : Provenance) (code : List Instruction) :
    g.runLines (stamped p code) = g.run code := by
  rw [runLines, stamped, foldlM_map]
  rfl

section

open Lower

theorem bind_scopes {α : Type} (next : ScopeStack → Lower α) (p : Progress) :
    (scopes >>= next) p = next p.scopes p := rfl

variable {select : ScopeStack → Except Fault (List Instruction)} {lines : List Line} {q : Progress}

theorem emitChecked_eq (h : select p.scopes = .ok code) :
    emitChecked f select p = .ok (stamped ⟨p.session.site.line, f.barrier⟩ code, p) := by
  rw [emitChecked, bind_scopes, h]
  rfl

variable {a : Assignment}

theorem lowerAssignment_scalar {v} (hv : p.scopes.variableNamed a.target = .ok v) (hscalar : v.type.isVector = false)
    (hop : a.op = none) (hswizzle : a.swizzle = none)
    (hcall : ∀ name args swizzle, a.value ≠ .call name args swizzle)
    (hflat : ∀ parts, a.value ≠ .flat parts) (hchoose : ∀ c yes no, a.value ≠ .choose c yes no) :
    lowerAssignment f a p = if v.isConst && !a.isInit then fail (.statement (.constAssigned a.target)) p
      else emitChecked f (scalarValue · ⟨a.target, .ofVariable v none⟩ a.value) p := by
  obtain ⟨target, swizzle, op, value, isInit⟩ := a
  subst hop hswizzle
  simp only [lowerAssignment, Option.isSome_none, Bool.false_eq_true, if_false, Bool.false_and]
  rw [bind_scopes, hv]
  by_cases hconst : (v.isConst && !isInit)
  · simp only [checked, pure_bind, hconst, if_true]
    rfl
  · simp only [checked, pure_bind, hconst]
    cases value with
    | call name args swizzle => exact absurd rfl (hcall _ _ _)
    | flat parts => exact absurd rfl (hflat _)
    | choose c yes no => exact absurd rfl (hchoose _ _ _)
    | _ => simp [hscalar]

def Assignment.lower (state : List String) (f : Frame) (a : Assignment) : Lower (List Line) := do
  let steps ← checked (a.plain state)
  let lines ← steps.mapM (lowerAssignment f)
  pure lines.flatten

theorem Assignment.lower_eq {step} (h : a.plain state = .ok [step])
    (f : Frame) (p : Progress) : a.lower state f p = lowerAssignment f step p := by
  simp only [lower, h, checked, pure_bind, mapM_cons, mapM_nil, bind_assoc,
    flatten_cons, flatten_nil, append_nil, bind_pure]

/-- The name is that of a scalar variable in a register that can hold its value.  Declarations refuse the
registers that cannot. -/
structure ScopeStack.HoldsWord (σ : ScopeStack) (name : String) (v : Variable) : Prop where
  named : σ.variableNamed name = .ok v
  scalar : v.type.isVector = false
  register : v.register.HoldsWord
  ne_scratch : v.register ≠ .scratch

variable {σ : ScopeStack} {d x : String} {vd vx : Variable}

theorem ScopeStack.HoldsWord.source (hx : σ.HoldsWord x vx) :
    (ofName x).source σ = .ok (.variable (.ofVariable vx none)) := by
  simp only [Operand.source, ofName, hx.named]
  rfl

theorem ScopeStack.HoldsWord.scalarValue_withConstant (hx : σ.HoldsWord x vx) (htype : vx.type = vd.type)
    (op : BinaryOp) (b : Int64) :
    scalarValue σ ⟨d, .ofVariable vd none⟩ (.withConstant op (.ofName x) (.int b)) =
      constantStep vd.register vx.register vd.type.isSigned op b := by
  have hcheck : (Source.variable (.ofVariable vx none)).checkType ⟨d, .ofVariable vd none⟩ op = .ok () := if_pos htype
  have hscalar : (Source.variable (.ofVariable vx none)).scalar vd.register = .ok (vx.register, []) :=
    if_pos (by simp [Place.isVector, Place.ofVariable, hx.scalar])
  show scalarWithConstant σ ⟨d, .ofVariable vd none⟩ op (.ofName x) (.int b) = _
  simp only [scalarWithConstant, whole, toInt?, hx.source, hcheck, bind, Except.bind]
  show ((Source.variable (.ofVariable vx none)).scalar vd.register >>= fun _ => _) = _
  rw [hscalar, ← htype]
  show (constantStep vd.register vx.register vx.type.isSigned op b >>= fun step => Except.ok step) = _
  cases constantStep vd.register vx.register vx.type.isSigned op b <;> rfl

theorem ScopeStack.HoldsWord.lower_constant (hx : p.scopes.HoldsWord x vx) (hconst : vx.isConst = false)
    (f : Frame) (c : Int64) : lowerAssignment f ⟨x, none, none, .constant (.int c), false⟩ p =
      .ok (stamped ⟨p.session.site.line, f.barrier⟩ (loadConstant vx.register c), p) := by
  rw [lowerAssignment_scalar hx.named hx.scalar rfl rfl (by simp) (by simp) (by simp), hconst]
  exact emitChecked_eq rfl

theorem ScopeStack.HoldsWord.exists_of_lower (hd : p.scopes.HoldsWord d vd) (hx : p.scopes.HoldsWord x vx)
    (htype : vx.type = vd.type)
    (h : lowerAssignment f ⟨d, none, none, .withConstant op (.ofName x) (.int b), false⟩ p = .ok (lines, q)) :
    vd.isConst = false ∧ q = p ∧ ∃ code, constantStep vd.register vx.register vd.type.isSigned op b = .ok code ∧
        lines = stamped ⟨p.session.site.line, f.barrier⟩ code := by
  rw [lowerAssignment_scalar hd.named hd.scalar rfl rfl (by simp) (by simp) (by simp)] at h
  cases hconst : vd.isConst with
  | true =>
    rw [hconst] at h
    cases h
  | false =>
    rw [hconst] at h
    refine ⟨rfl, ?_⟩
    revert lines q
    show GivesFrom (emitChecked f _) p _
    refine .emitChecked fun code hcode => ?_
    rw [hx.scalarValue_withConstant htype] at hcode
    exact ⟨rfl, code, hcode, rfl⟩

def Assignment.ofOperand (target : String) (o : Operand) : Assignment :=
  ⟨target, none, none, .ofParts [.operand o], false⟩

def Assignment.ofPair (target : String) (op : BinaryOp) (left right : Operand) : Assignment :=
  ⟨target, none, none, .ofParts [.operand left, .op op, .operand right], false⟩

theorem Assignment.ofOperand_ofInt (target : String) (v : Int64) :
    ofOperand target (.ofInt v) = ⟨target, none, none, .constant (.int v), false⟩ := by
  rw [ofOperand, Expr.ofParts]
  rfl

theorem Assignment.ofPair_ofName (target : String) (op : BinaryOp) (name : String) (v : Int64) :
    ofPair target op (.ofName name) (.ofInt v) =
      ⟨target, none, none, .withConstant op (.ofName name) (.int v), false⟩ := by
  rw [ofPair, Expr.ofParts]
  rfl

theorem Assignment.ofPair_ofInt (target : String) (op : BinaryOp) (a b : Int64) :
    ofPair target op (.ofInt a) (.ofInt b) =
      ⟨target, none, none, .flat [.operand (.ofInt a), .op op, .operand (.ofInt b)], false⟩ := by
  rw [ofPair, Expr.ofParts]
  rfl

theorem Assignment.plain_ofPair (hd : d ∉ state) {a c : Int64}
    (h : chainOfParts d none [.operand (.ofInt a), .op op, .operand (.ofInt b)]
      = .ok [⟨d, none, none, .constant (.int c), false⟩]) :
    (ofPair d op (.ofInt a) (.ofInt b)).plain state = .ok [⟨d, none, none, .constant (.int c), false⟩] := by
  rw [ofPair_ofInt]
  exact plain_of_chain (a := ⟨d, none, none, .flat [.operand (.ofInt a), .op op, .operand (.ofInt b)], false⟩)
    hd rfl rfl h

theorem Assignment.notMem_of_lower (h : a.lower state f p = .ok (lines, q)) : a.target ∉ state := by
  cases hplain : a.plain state with
  | ok steps => exact (plain_cases hplain).1
  | error e =>
    rw [lower, hplain] at h
    cases h

end

/-- An operation on two constants is folded without a fault wherever there is code for a variable and the
second constant.  That code computes the operator, and the constant that is loaded instead is the same word
exactly if the operator folds exactly. -/
theorem Assignment.lower_folded_iff {state : List String} {f : Frame} {p q : Progress} {d x : String}
    {vd vx : Variable} (hd : p.scopes.HoldsWord d vd) (hx : p.scopes.HoldsWord x vx)
    (htype : vx.type = vd.type) (hconst : vx.isConst = false) (hmemory : x ∉ state) {op : BinaryOp}
    {a b : Int64} (ha : IsWord a) (hb : IsWord b) {step : List Line}
    (h : (Assignment.ofPair d op (.ofName x) (.ofInt b)).lower state f p = .ok (step, q)) :
    ∃ load folded, (Assignment.ofOperand x (.ofInt a)).lower state f p = .ok (load, q) ∧
      (Assignment.ofPair d op (.ofInt a) (.ofInt b)).lower state f p = .ok (folded, q) ∧
      ∀ g : RegisterFile, ∃ u v, g.runLines folded = some u ∧ g.runLines (load ++ step) = some v ∧
        v.get vd.register = op.onWord vd.type.isSigned (word a) b ∧
        (u.get vd.register = v.get vd.register ↔ op.FoldsExactly vd.type.isSigned a b) := by
  have hstate : d ∉ state := Assignment.notMem_of_lower h
  have hstep : Assignment.IsPlain state ⟨d, none, none, .withConstant op (.ofName x) (.int b), false⟩ :=
    ⟨rfl, hstate, Operand.isResolved_ofName hmemory⟩
  have hload : Assignment.IsPlain state ⟨x, none, none, .constant (.int a), false⟩ := ⟨rfl, hmemory, trivial⟩
  rw [Assignment.ofPair_ofName, Assignment.lower_eq (Assignment.plain_of_isPlain hstep)] at h
  obtain ⟨hdconst, rfl, code, hcode, rfl⟩ := hd.exists_of_lower hx htype h
  obtain ⟨w, hcombine, hagree⟩ := combineInt_iff ha hb hcode
  obtain ⟨c, hchain, hword⟩ := chainOfParts_constants d none hcombine
  rw [Assignment.ofOperand_ofInt, Assignment.lower_eq (Assignment.plain_of_isPlain hload),
    Assignment.lower_eq (Assignment.plain_ofPair hstate hchain)]
  refine ⟨_, _, hx.lower_constant hconst f a, hd.lower_constant hdconst f c, fun g => ?_⟩
  -- The code starts with the first constant in the variable.
  obtain ⟨v, hrun, hv, -⟩ := leaves_constantStep (f := g.set vx.register (word a)) hd.register
    hx.ne_scratch hb.2 hcode
  rw [g.get_set_self hx.register] at hv
  refine ⟨g.set vd.register (word c), v, ?_, ?_, hv, ?_⟩
  · rw [g.runLines_stamped, g.run_loadConstant hd.register]
  · rw [← stamped_append, g.runLines_stamped,
      RegisterFile.run_append (g.run_loadConstant hx.register a), hrun]
  · rw [g.get_set_self hd.register, hword, hv, hagree]

def Progress.signedPair : Progress :=
  { scopes := ((({} : ScopeStack).declare "d" ⟨.scalar 8, .s32, false⟩ false).2.declare "x"
      ⟨.scalar 9, .s32, false⟩ false).2 }

def Frame.alone : Frame := ⟨"f", false, [], [], false, none, none⟩

/-- For `-8 >> 1` the code leaves `-4`, and folding another word. -/
theorem Assignment.shiftedSign_lower : ∃ load step folded,
    (Assignment.ofOperand "x" (.ofInt (-8))).lower [] .alone .signedPair = .ok (load, .signedPair) ∧
    (Assignment.ofPair "d" .shr (.ofName "x") (.ofInt 1)).lower [] .alone .signedPair =
      .ok (step, .signedPair) ∧
    (Assignment.ofPair "d" .shr (.ofInt (-8)) (.ofInt 1)).lower [] .alone .signedPair =
      .ok (folded, .signedPair) ∧
    ∀ g : RegisterFile, ∃ u v, g.runLines folded = some u ∧ g.runLines (load ++ step) = some v ∧
      v.get (.scalar 8) = -4 ∧ u.get (.scalar 8) ≠ -4 := by
  have hd : Progress.signedPair.scopes.HoldsWord "d" ⟨.scalar 8, .s32, false⟩ :=
    ⟨rfl, rfl, ⟨rfl, by decide⟩, by decide⟩
  have hx : Progress.signedPair.scopes.HoldsWord "x" ⟨.scalar 9, .s32, false⟩ :=
    ⟨rfl, rfl, ⟨rfl, by decide⟩, by decide⟩
  have hstep : (Assignment.ofPair "d" .shr (.ofName "x") (.ofInt 1)).lower [] .alone .signedPair =
      .ok (stamped ⟨0, none⟩ [.scalarWith .sra [.scalar 8, .scalar 9] (.imm 1)], .signedPair) := by
    rw [Assignment.ofPair_ofName]
    rfl
  obtain ⟨load, folded, hload, hfolded, hrun⟩ :=
    Assignment.lower_folded_iff (a := -8) hd hx rfl rfl List.not_mem_nil (by decide) (by decide) hstep
  refine ⟨load, _, folded, hload, hstep, hfolded, fun g => ?_⟩
  obtain ⟨u, v, hu, hv, hvalue, hagree⟩ := hrun g
  have hcomputed : BinaryOp.shr.onWord true (word (-8)) 1 = -4 := by decide
  refine ⟨u, v, hu, hv, hvalue.trans hcomputed, fun h => ?_⟩
  have hfolds := hagree.mp (h.trans (hvalue.trans hcomputed).symm)
  exact absurd (hfolds rfl) (by decide)

end Microcode
