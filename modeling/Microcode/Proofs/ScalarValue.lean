import Microcode.Proofs.Branching
import Microcode.Proofs.Chain

/-!
What a scalar assignment leaves.

A right-hand side of scalar variables and whole constants has a result of 32 bits (`Expr.Results`), and a
comparison is true or false of two words (`Comparison.Weighs`).
-/

namespace Microcode

open Option BitVec Opcode Place Environment Int

variable {d s : Register} {f g : RegisterFile} {σ : ScopeStack} {code : List Instruction}

/-! ### The machine -/

variable {i : Instruction} {either : Bool} {target : Target}

namespace Environment

variable (m : Environment)

def step? (f : RegisterFile) (i : Instruction) : Option RegisterFile := match i.opcode.less?, i.args with
  | some less, [.reg d, .reg s, last] => (f.operand? last).map fun w => f.set d (if less (f.get s) w then 1 else 0)
  | _, _ => m.exec? f i

/-- The code takes registers to others that differ at most in one of them and the scratch register. -/
def Leads (f : RegisterFile) (code : List Instruction) (d : Register) (g : RegisterFile) : Prop :=
  code.foldlM m.step? f = some g ∧ ∀ r, r ≠ d → r ≠ .scratch → g.get r = f.get r

/-- The numbers in the code fit the fields of its instructions, and it leaves a word in a register and all others as
they were, but for the scratch register. -/
def Delivers (f : RegisterFile) (code : List Instruction) (d : Register) (w : BitVec 32) : Prop :=
  (∀ i ∈ code, i.IsEncodable) ∧ ∃ g, m.Leads f code d g ∧ g.get d = w

variable {m} {w : BitVec 32}

theorem step?_of_exec? (h : m.exec? f i = some g) : m.step? f i = some g := by
  unfold step?
  split
  next less hless hargs =>
    have hnone : i.opcode.computeAny? = none := by
      revert hless
      unfold less?
      split <;> simp_all [computeAny?, compute?]
    simp [exec?, hargs, hnone] at h
  · exact h

theorem steps_of_run (h : m.run f code = some g) : code.foldlM m.step? f = some g :=
  foldlM_of_step (e := id) step?_of_exec? h

variable {rest : List Instruction} {compute : BitVec 32 → BitVec 32 → BitVec 32} {a : Arg}

theorem Leads.append {u} (h : m.Leads f code d g) (h' : m.Leads g rest d u) : m.Leads f (code ++ rest) d u := by
  refine ⟨?_, fun r hr hne => (h'.2 r hr hne).trans (h.2 r hr hne)⟩
  rw [List.foldlM_append, h.1]
  exact h'.1

theorem leads_set (h : code.foldlM m.step? f = some (f.set d w)) : m.Leads f code d (f.set d w) :=
  ⟨h, fun _ hr _ => f.get_set_of_ne hr.symm⟩

theorem leads_scalar {o : Opcode} (ho : o.computeAny? = some compute) (hlast : m.operand? f a = some w) :
    m.Leads f [⟨o, [.reg d, .reg s, a], {}⟩] d (f.set d (compute (f.get s) w)) := by
  refine leads_set (steps_of_run ?_)
  simp [run, exec?, ho, hlast]

theorem leads_less {o : Opcode} (signed : Bool) (ho : o = lessThan signed ∨ o = lessThanConstant signed)
    (hlast : f.operand? a = some w) : m.Leads f [⟨o, [.reg d, .reg s, a], {}⟩] d
      (f.set d (if wordNumber signed (f.get s) < wordNumber signed w then 1 else 0)) := by
  exact leads_set (by simp [step?, less?_eq ho, hlast])

theorem Puts.delivers (h : m.Puts f code d w) (hcode : ∀ i ∈ code, m.Fits i) : m.Delivers f code d w := by
  obtain ⟨g, hrun, hw, hframe⟩ := h
  exact ⟨fun i hi => (hcode i hi).1, g, ⟨steps_of_run hrun, hframe⟩, hw⟩

end Environment

def Limits.bare : Limits where
  names _ := False
  cells _ := False
  numbers := Opcode.Takes
  of_cells h := h
  of_takes h := h

theorem Instruction.fits_of_keepsTo (m : Environment) (h : i.KeepsTo .bare) : m.Fits i := by
  refine ⟨fun a ha v hv => ?_, fun name offset hlow => absurd (h _ hlow) id⟩
  have ha := h a ha
  cases a with
  | mem offset label base =>
    cases label with
    | none => exact some.inj hv ▸ ha
    | some _ => cases hv
  | imm | hex => exact some.inj hv ▸ ha
  | _ => cases hv

/-- The word that an operand stands for: a scalar variable for what is in its register, a constant for itself. -/
inductive Operand.Holds (σ : ScopeStack) (f : RegisterFile) : Operand → BitVec 32 → Prop
  | scalar {o v} (h : o.IsScalar σ v) : Holds σ f o (f.get v.register)
  | constant {n} (hn : IsWord n) : Holds σ f (.ofConstant (.int n)) (word n)

section
variable {o : Operand} {w : BitVec 32}

theorem Operand.IsScalar.scalar {v} (h : o.IsScalar σ v) (offered : Register) :
    (Source.variable (.ofVariable v none)).scalar offered = .ok (v.register, []) := by
  obtain ⟨_, -, -, hscalar⟩ := h
  exact if_pos (by simp [isVector, ofVariable, hscalar])

theorem Operand.Holds.keepsTo (h : o.Holds σ f w) : o.KeepsTo .bare := by
  intro name hname
  cases h with
  | scalar h =>
    obtain ⟨_, rfl, -⟩ := h
    cases hname
  | constant => cases hname

theorem Operand.Holds.exists_read (h : o.Holds σ f w) (m : Environment) :
    ∃ x, m.read σ f o = some x ∧ x.toWord = w := by
  cases h with
  | scalar h =>
    obtain ⟨_, -, -, hscalar⟩ := id h
    refine ⟨.word _, ?_, rfl⟩
    simp only [Environment.read, h.source, Environment.value?, isVector, ofVariable, hscalar]
    rfl
  | constant => exact ⟨.number _, rfl, rfl⟩

end

def UnaryOp.result (w : BitVec 32) : UnaryOp → BitVec 32
  | .neg => -w
  | .not => ~~~w
  | .logicalNot => if w = 0 then 1 else 0

/-- The result of an operator on two words.  Quotients and remainders are of numbers, the right one of which is
given, and rounded down.  The operator for vectors has none. -/
def BinaryOp.result (signed : Bool) (a b : BitVec 32) (n : Int) : BinaryOp → BitVec 32
  | .add => a + b
  | .sub => a - b
  | .mul => a * b
  | .div => .ofInt 32 ((wordNumber signed a).fdiv n)
  | .mod => .ofInt 32 ((wordNumber signed a).fmod n)
  | .and => a &&& b
  | .or => a ||| b
  | .xor => a ^^^ b
  | .nor => ~~~(a ||| b)
  | .shl => a <<< (b.toNat % 32)
  | .shr => if signed then a.sshiftRight (b.toNat % 32) else a >>> (b.toNat % 32)
  | .mulAdd => 0

/-- The result of a right-hand side of scalar variables and whole constants, as a value of a type with or without
sign. -/
inductive Expr.Results (σ : ScopeStack) (f : RegisterFile) (signed : Bool) : Expr → BitVec 32 → Prop
  | constant {c n} (hc : c.toInt? = some n) : Results σ f signed (.constant c) (word n)
  | copy {o w} (ho : o.Holds σ f w) : Results σ f signed (.copy o) w
  | unary {op o w} (ho : o.Holds σ f w) : Results σ f signed (.unary op o) (op.result w)
  | binary {op l r a b} (hl : l.Holds σ f a) (hr : r.Holds σ f b) :
      Results σ f signed (.binary op l r) (op.result signed a b (wordNumber signed b))
  | withConstant {op l a n} (hl : l.Holds σ f a) (hn : IsWord n) :
      Results σ f signed (.withConstant op l (.int n)) (op.result signed a (word n) n.toInt)

theorem UnaryOp.word_apply (op : UnaryOp) {n : Int64} (hn : IsWord n) : word (op.apply n) = op.result (word n) := by
  cases op with
  | neg => exact word_neg n
  | not => exact word_not n
  | logicalNot =>
    have hnat := toNat_word n
    have hzero : n = 0 ↔ word n = 0 := by
      refine ⟨fun h => h ▸ rfl, fun h => Int64.toInt_inj.mp ?_⟩
      rw [h] at hnat
      have hmod : 0 = n.toInt % 4294967296 := hnat
      obtain ⟨hlow, hhigh⟩ := hn
      show n.toInt = 0
      omega
    simp only [apply, result, hzero]
    split <;> rfl

variable {op : BinaryOp}

theorem BinaryOp.result_of_onWords? {signed : Bool} {a b w : BitVec 32} (h : op.onWords? signed a b = some w) (n : Int) :
    op.result signed a b n = w := by
  cases op <;> first | exact Option.some.inj h | cases h

theorem fmod_wordNumber (signed : Bool) (a : BitVec 32) {k : Nat} (hk : k < 32) :
    (wordNumber signed a).fmod (1 <<< k : Nat) = a.toNat % (1 <<< k : Nat) := by
  have hpos : (0 : Int) ≤ (1 <<< k : Nat) := natCast_nonneg _
  have hdvd : ((1 <<< k : Nat) : Int) ∣ 4294967296 := by
    rw [Nat.one_shiftLeft]
    exact natCast_dvd_natCast.mpr (Nat.pow_dvd_pow (n := 32) 2 (by omega))
  rw [fmod_eq_emod_of_nonneg _ hpos]
  unfold wordNumber
  split
  · rw [toInt_eq_toNat_cond]
    split
    · rfl
    · obtain ⟨q, hq⟩ := hdvd
      show ((a.toNat : Int) - 4294967296) % _ = _
      rw [hq, sub_mul_emod_self_left]
  · rfl

theorem BinaryOp.onWord_eq_result {n : Int64}
    (h : constantStep d s either op n = .ok code) (hn : IsWord n) (signed : Bool) (a : BitVec 32) :
    op.onWord signed a n = op.result signed a (word n) n.toInt := by
  cases op with
  | div =>
    simp only [constantStep] at h
    split at h
    · cases h
    split at h
    next k hk =>
      obtain ⟨-, hpow⟩ := lt_of_log2? hn.2 hk
      simp only [onWord, result, wordNumber, hpow, fdiv_eq_ediv_of_nonneg _ (natCast_nonneg _)]
    · cases h
  | mod =>
    simp only [constantStep] at h
    split at h
    next k hk =>
      obtain ⟨hrange, hpow⟩ := lt_of_log2? hn.2 hk
      have hlt := shiftAmount_iff.mp hrange
      simp only [onWord, result, hpow]
      rw [fmod_wordNumber signed a (by omega)]
    · cases h
  | shl | shr =>
    simp only [constantStep] at h
    split at h
    next hrange => simp only [onWord, result, toNat_word_mod hrange]
    · cases h
  | _ => rfl

theorem lt_one_iff (a : BitVec 32) : wordNumber false a < wordNumber false (word 1) ↔ a = 0 := by
  rw [← toNat_inj]
  show (a.toNat : Int) < 1 ↔ a.toNat = 0
  omega

theorem UnaryOp.exists_leads (op : UnaryOp) {m : Environment} (hd : d.HoldsWord) (s : Register) :
    ∃ g, m.Leads f [op.scalarStep d s] d g ∧ g.get d = op.result (f.get s) := by
  cases op with
  | neg =>
    refine ⟨_, leads_scalar (o := .subu) rfl (m := m) rfl, ?_⟩
    rw [f.get_set_self hd]
    exact zero_sub _
  | not =>
    refine ⟨_, leads_scalar (o := .nor) rfl (m := m) rfl, ?_⟩
    rw [f.get_set_self hd]
    exact congrArg (~~~ ·) or_zero
  | logicalNot =>
    refine ⟨_, leads_less (m := m) false (.inr rfl) rfl, ?_⟩
    simp only [f.get_set_self hd, lt_one_iff, result]

section
variable (hσ : σ.IsProper) {name : String} {v : Variable} (hd : (Operand.ofName name).IsScalar σ v)
include hσ hd

theorem holdsWord_of_isScalar : σ.HoldsWord name v := by
  obtain ⟨_, hname, hv, hscalar⟩ := hd
  cases hname
  exact hσ.holdsWord (ScopeStack.variableNamed_eq_ok.mpr hv) hscalar

theorem fits_of_scalarValue {e : Expr} (he : e.All (Operand.KeepsTo .bare))
    (hwords : ∀ op l c, e = .withConstant op l c → ∀ n, c.toInt? = some n → IsWord n)
    (h : scalarValue σ ⟨name, .ofVariable v none⟩ e = .ok code) (m : Environment) : ∀ i ∈ code, m.Fits i := by
  obtain ⟨_, hname, hv, -⟩ := id hd
  cases hname
  have hopen : (ofVariable v none).Open fun _ => True := ⟨hσ hv, .inr (.inr trivial), fun _ => .inr (.inr trivial)⟩
  have hcomputes : Yields (scalarValue σ ⟨name, .ofVariable v none⟩ e) (Computes _ _ false) :=
    computes_scalarValue hσ hopen he fun op l c he hop n hn k hk => by
      obtain ⟨hrange, -⟩ := lt_of_log2? (hwords op l c he n hn).2 hk
      obtain ⟨hlow, hhigh⟩ := shiftAmount_iff.mp hrange
      have htakes {o : Opcode} (ho : o = .sll ∨ o = .srl ∨ o = .sra) : o.Takes k.toInt :=
        (o.takes_shift ho).mpr ⟨hlow, by omega⟩
      exact ⟨htakes (.inl rfl), htakes (.inr (.inl rfl)), htakes (.inr (.inr rfl))⟩
  exact fun i hi => Instruction.fits_of_keepsTo m ((hcomputes code h).admits i hi)

/-- **Scalar assignments.**  Code that is selected for a right-hand side of scalar variables and whole constants of
32 bits leaves its result in the target and changes no other register but the scratch register, whichever registers the
variables share. -/
theorem scalarValue_delivers {f : RegisterFile} {e : Expr} {w : BitVec 32} (he : e.Results σ f v.type.isSigned w)
    {code : List Instruction} (h : scalarValue σ ⟨name, .ofVariable v none⟩ e = .ok code) (m : Environment) :
    m.Delivers f code v.register w := by
  have hword := holdsWord_of_isScalar hσ hd
  have hfits (hall : e.All (Operand.KeepsTo .bare))
      (hwords : ∀ op l c, e = .withConstant op l c → ∀ n, c.toInt? = some n → IsWord n) : ∀ i ∈ code, m.Fits i :=
    fits_of_scalarValue hσ hd hall hwords h m
  cases he with
  | @constant c n hc =>
    have hwhole : c.whole = .ok n := by simp [Constant.whole, hc]
    obtain ⟨n', hn, h⟩ := bind_eq_ok.mp h
    cases hwhole.symm.trans hn
    cases h
    exact (Environment.puts_loadConstant hword.register n).delivers (hfits trivial (by simp))
  | @copy o _ ho =>
    obtain ⟨x, hx, rfl⟩ := ho.exists_read m
    have hcode := hfits ho.keepsTo (by simp)
    exact (Environment.puts_scalarCopy hword h hx hcode).delivers hcode
  | @unary op o _ ho =>
    have hcode := hfits ho.keepsTo (by simp)
    cases ho with
    | @scalar _ source hsource =>
      obtain ⟨g, hg, hw⟩ := op.exists_leads hword.register source.register (m := m) (f := f)
      obtain ⟨s, hs, h⟩ := bind_eq_ok.mp h
      cases hsource.source.symm.trans hs
      obtain ⟨⟨r, bring⟩, hr, h⟩ := bind_eq_ok.mp h
      cases h
      cases (hsource.scalar _).symm.trans hr
      exact ⟨fun i hi => (hcode i hi).1, g, hg, hw⟩
    | @constant n hn =>
      cases h
      rw [← op.word_apply hn]
      exact (Environment.puts_loadConstant hword.register _).delivers hcode
  | @binary op l r a b hl hr =>
    obtain ⟨x, hx, rfl⟩ := hl.exists_read m
    obtain ⟨y, hy, rfl⟩ := hr.exists_read m
    have hcode := hfits ⟨hl.keepsTo, hr.keepsTo⟩ (by simp)
    obtain ⟨w, hw, hputs⟩ := Environment.puts_scalarBinary hσ hword h hx hy hcode
    rw [op.result_of_onWords? hw]
    exact hputs.delivers hcode
  | @withConstant op l a n hl hn =>
    obtain ⟨x, hx, rfl⟩ := hl.exists_read m
    have hcode := hfits hl.keepsTo (by rintro _ _ _ ⟨⟩ _ ⟨⟩; exact hn)
    obtain ⟨hputs, hstep⟩ := Environment.puts_scalarWithConstant hσ hword h hx hcode
    have hresult : op.onWord v.type.isSigned x.toWord n = op.result v.type.isSigned x.toWord (word n) n.toInt := by
      obtain rfl | rfl | ⟨_, _, _, _, hstep⟩ := hstep
      · rfl
      · rfl
      · exact op.onWord_eq_result hstep hn _ _
    exact hresult ▸ hputs.delivers hcode

end

theorem scalarValue_delivers_difference : ∃ code, scalarValue .single ⟨"a", .ofVariable ⟨.scalar 4, .u32, false⟩ none⟩
      (.withConstant .sub (.ofName "a") (.int 70000)) = .ok code ∧
    ∀ (m : Environment) (f : RegisterFile), m.Delivers f code (.scalar 4) (f.get (.scalar 4) - 70000#32) :=
  ⟨_, rfl, fun m _ => scalarValue_delivers ScopeStack.isProper_single isScalar_single
    (e := .withConstant .sub (.ofName "a") (.int 70000)) (.withConstant (.scalar isScalar_single) (by decide)) rfl m⟩

section
variable {m : Environment} {ls rs : Register} (hd : d.HoldsWord) (hls : ls ≠ .scratch)
  {b : BitVec 32} {constant : Option Int64} {rightCode : List Instruction}

theorem leads_testZero (r : Register) (isZero : Bool) :
    m.Leads f (testZero d r isZero) d (f.set d (if decide (f.get r = 0) = isZero then 1 else 0)) := by
  cases isZero with
  | true =>
    have hless := leads_less (m := m) (f := f) (d := d) (s := r) (a := .imm 1) false (.inr rfl) rfl
    simp only [lt_one_iff] at hless
    simp only [decide_eq_true_eq]
    exact hless
  | false =>
    have hless := leads_less (m := m) (f := f) (d := d) (s := .zero) (a := .reg r) false (.inl rfl) rfl
    have hzero : wordNumber false (f.get .zero) < wordNumber false (f.get r) ↔ ¬ f.get r = 0 := by
      rw [← toNat_inj]
      show (0 : Int) < (f.get r).toNat ↔ ¬ (f.get r).toNat = 0
      omega
    simp only [hzero] at hless
    simp only [decide_eq_false_iff_not]
    exact hless

include hd in
theorem exists_flipTruth {P : Prop} [Decidable P] (hg : g.get d = if P then 1 else 0) (flip : Bool) :
    ∃ u, m.Leads g (flipTruth d flip) d u ∧ u.get d = if decide P != flip then 1 else 0 := by
  cases flip with
  | false => exact ⟨g, ⟨rfl, fun _ _ _ => rfl⟩, by simpa using hg⟩
  | true =>
    refine ⟨_, leads_scalar (o := .xori) rfl (m := m) rfl, ?_⟩
    rw [g.get_set_self hd, hg]
    by_cases hP : P <;> simp [hP, word_eq_ofInt]

variable (hright : m.run f rightCode = some g) (hb : g.get rs = b) (hframe : ∀ t, t ≠ .scratch → g.get t = f.get t)
  (hconstant : ∀ n ∈ constant, word n = b)
include hright hb hframe hconstant hls
include hd in
theorem exists_differenceFrom : ∃ r code u, differenceFrom d ls constant (.ok (rs, rightCode)) = .ok (r, code) ∧
    m.Leads f code d u ∧ (u.get r = 0 ↔ f.get ls = b) := by
  unfold differenceFrom
  split
  next hzero =>
    have hb : word 0 = b := hconstant 0 (filter_eq_some_iff.mp hzero).1
    exact ⟨ls, [], f, rfl, ⟨rfl, fun _ _ _ => rfl⟩, by rw [← hb]; rfl⟩
  next n _ hn =>
    have hb : word n = b := hconstant n (filter_eq_some_iff.mp hn).1
    refine ⟨d, _, _, rfl, leads_scalar (o := .xori) rfl (m := m) rfl, ?_⟩
    rw [f.get_set_self hd, ← hb]
    exact BitVec.xor_eq_zero_iff
  · refine ⟨d, _, _, rfl, .append ⟨steps_of_run hright, fun r _ hr => hframe r hr⟩
      (leads_scalar (o := .xor) rfl (m := m) rfl), ?_⟩
    rw [g.get_set_self hd, hframe ls hls, hb]
    exact BitVec.xor_eq_zero_iff

include hd in
theorem exists_lessThanOperand (signed : Bool) : ∃ code u,
    lessThanOperand signed d ls constant (.ok (rs, rightCode)) = .ok code ∧ m.Leads f code d u ∧
      u.get d = if wordNumber signed (f.get ls) < wordNumber signed b then 1 else 0 := by
  unfold lessThanOperand
  split
  next n hn =>
    have hb : word n = b := hconstant n (filter_eq_some_iff.mp hn).1
    refine ⟨_, _, rfl, leads_less signed (.inr rfl) rfl, ?_⟩
    rw [f.get_set_self hd, hb]
  · refine ⟨_, _, rfl, .append ⟨steps_of_run hright, fun r _ hr => hframe r hr⟩
      (leads_less signed (.inl rfl) rfl), ?_⟩
    rw [g.get_set_self hd, hframe ls hls, hb]

include hd in
theorem exists_scalarTest (htarget : target.place.register = d) {c} {left right r : Source}
    {p : Place} {op} (hleft : c.left.source σ = .ok left) (hsource : c.right.source σ = .ok right)
    (horient : orient left c.op right = (.variable p, op, r))
    (hp : (Source.variable p).scalar .scratch = .ok (ls, [])) (hr : r.scalar .scratch = .ok (rs, rightCode))
    (hwhole : r.whole? = .ok constant) : ∃ code u, scalarTest σ target c = .ok code ∧ m.Leads f code d u ∧
      u.get d = if op.onNumbers (wordNumber p.type.isSigned (f.get ls)) (wordNumber p.type.isSigned b) then 1 else 0 := by
  have hsigned : (Source.variable p).isSigned target.place.type = p.type.isSigned := rfl
  simp only [scalarTest, hleft, hsource, horient, hp, hr, hwhole, htarget, hsigned, bind, Except.bind, if_neg hls]
  have hequality (equal : Bool) : ∃ r code u, differenceFrom d ls constant (.ok (rs, rightCode)) = .ok (r, code) ∧
      m.Leads f (code ++ testZero d r equal) d u ∧ u.get d =
        if decide (wordNumber p.type.isSigned (f.get ls) = wordNumber p.type.isSigned b) = equal then 1 else 0 := by
    obtain ⟨r, code, u, hdiff, hu, hzero⟩ := exists_differenceFrom hd hls hright hb hframe hconstant
    refine ⟨r, code, _, hdiff, hu.append (leads_testZero r equal), ?_⟩
    simp only [u.get_set_self hd, hzero, wordNumber_inj]
  have hless (flip : Bool) : ∃ code u, lessThanOperand p.type.isSigned d ls constant (.ok (rs, rightCode)) = .ok code ∧
      m.Leads f (code ++ flipTruth d flip) d u ∧ u.get d =
        if decide (wordNumber p.type.isSigned (f.get ls) < wordNumber p.type.isSigned b) != flip then 1 else 0 := by
    obtain ⟨code, g, hcode, hg, hvalue⟩ := exists_lessThanOperand hd hls hright hb hframe hconstant p.type.isSigned
    obtain ⟨u, hu, hflip⟩ := exists_flipTruth hd (m := m) hvalue flip
    exact ⟨code, u, hcode, hg.append hu, hflip⟩
  have hgreater (flip : Bool) : ∃ u,
      m.Leads f (rightCode ++ .scalar (lessThan p.type.isSigned) [d, rs, ls] :: flipTruth d flip) d u ∧ u.get d =
        if decide (wordNumber p.type.isSigned b < wordNumber p.type.isSigned (f.get ls)) != flip then 1 else 0 := by
    have hslt := leads_less (m := m) (f := g) (d := d) (s := rs) (a := .reg ls) p.type.isSigned (.inl rfl) rfl
    obtain ⟨u, hu, hflip⟩ := exists_flipTruth hd (m := m)
      (P := wordNumber p.type.isSigned (g.get rs) < wordNumber p.type.isSigned (g.get ls)) (g.get_set_self hd) flip
    refine ⟨u, .append ⟨steps_of_run hright, fun r _ hr => hframe r hr⟩ (hslt.append hu), ?_⟩
    rw [hflip, hb, hframe ls hls]
  cases op with
  | eq =>
    obtain ⟨r, code, u, hdiff, hu, hvalue⟩ := hequality true
    exact ⟨_, u, by rw [hdiff]; rfl, hu, by simpa [CompareOp.onNumbers] using hvalue⟩
  | ne =>
    obtain ⟨r, code, u, hdiff, hu, hvalue⟩ := hequality false
    exact ⟨_, u, by rw [hdiff]; rfl, hu, by simpa [CompareOp.onNumbers] using hvalue⟩
  | lt =>
    obtain ⟨code, u, hcode, hu, hvalue⟩ := hless false
    exact ⟨_, u, by rw [hcode]; rfl, hu, by simpa [CompareOp.onNumbers] using hvalue⟩
  | ge =>
    obtain ⟨code, u, hcode, hu, hvalue⟩ := hless true
    exact ⟨_, u, by rw [hcode]; rfl, hu, by simpa [CompareOp.onNumbers] using hvalue⟩
  | gt =>
    obtain ⟨u, hu, hvalue⟩ := hgreater false
    exact ⟨_, u, rfl, hu, by simpa [CompareOp.onNumbers] using hvalue⟩
  | le =>
    obtain ⟨u, hu, hvalue⟩ := hgreater true
    exact ⟨_, u, rfl, hu, by simpa [CompareOp.onNumbers] using hvalue⟩

end

/-- The words that a comparison is about, and whether they are numbers with a sign: as the left variable says, or the
only one. -/
inductive Comparison.Weighs (σ : ScopeStack) (f : RegisterFile) : Comparison → Bool → BitVec 32 → BitVec 32 → Prop
  | left {l op r v b} (hl : l.IsScalar σ v) (hr : r.Holds σ f b) :
      Weighs σ f ⟨l, op, r⟩ v.type.isSigned (f.get v.register) b
  | right {op r v n} (hn : IsWord n) (hr : r.IsScalar σ v) :
      Weighs σ f ⟨.ofConstant (.int n), op, r⟩ v.type.isSigned (word n) (f.get v.register)

theorem Operand.Holds.exists_scalar {o : Operand} {b} (h : o.Holds σ f b) (m : Environment) :
    ∃ s rs code g constant, o.source σ = .ok s ∧
      s.scalar .scratch = .ok (rs, code) ∧ s.whole? = .ok constant ∧ m.run f code = some g ∧ g.get rs = b ∧
      (∀ t, t ≠ .scratch → g.get t = f.get t) ∧ ∀ n ∈ constant, word n = b := by
  cases h with
  | scalar h => exact ⟨_, _, _, f, none, h.source, h.scalar _, rfl, rfl, rfl, fun _ _ => rfl, by simp⟩
  | @constant n =>
    exact ⟨_, _, _, _, some n, rfl, rfl, rfl, run_of_run (f.run_loadConstant holdsWord_scratch n),
      f.get_set_self holdsWord_scratch, fun t ht => f.get_set_of_ne ht.symm, by simp⟩

/-- **Comparisons.**  The code of a comparison of scalars leaves a one in the target if it holds of the words as numbers
of the left variable's type, and else a zero.  It changes no other register but the scratch register, whichever
registers the target and the operands share. -/
theorem scalarTest_delivers {σ : ScopeStack} (hσ : σ.IsProper) {name : String} {v : Variable}
    (hd : (Operand.ofName name).IsScalar σ v) {f : RegisterFile} {c : Comparison} {signed : Bool} {a b : BitVec 32}
    (hc : c.Weighs σ f signed a b) (m : Environment) :
    ∃ code, scalarTest σ ⟨name, .ofVariable v none⟩ c = .ok code ∧ m.Delivers f code v.register
      (if c.op.onNumbers (wordNumber signed a) (wordNumber signed b) then 1 else 0) := by
  have hword := holdsWord_of_isScalar hσ hd
  have htarget : (Target.mk name (.ofVariable v none)).place.register = v.register := rfl
  have hbound {code : List Instruction} (h : scalarTest σ ⟨name, .ofVariable v none⟩ c = .ok code)
      (hleft : c.left.KeepsTo .bare) (hright : c.right.KeepsTo .bare) : ∀ i ∈ code, i.IsEncodable := fun i hi =>
    (fits_of_scalarValue hσ hd (e := .test c) ⟨hleft, hright⟩ (by simp) h m i hi).1
  cases hc with
  | @left l op r w b hl hr =>
    obtain ⟨s, rs, rightCode, g, constant, hs, hscalar, hwhole, hrun, hb, hframe, hconstant⟩ := hr.exists_scalar m
    obtain ⟨code, u, hcode, hu, hvalue⟩ := exists_scalarTest hword.register (hl.ne_scratch hσ) hrun hb hframe hconstant
      htarget (c := ⟨l, op, r⟩) hl.source hs rfl (hl.scalar _) hscalar hwhole
    exact ⟨code, hcode, hbound hcode (Operand.Holds.scalar hl : l.Holds σ f _).keepsTo hr.keepsTo, u, hu, hvalue⟩
  | @right op r w n hn hr =>
    have hl : (Operand.ofConstant (.int n)).Holds σ f (word n) := .constant hn
    obtain ⟨s, rs, rightCode, g, constant, hs, hscalar, hwhole, hrun, hb, hframe, hconstant⟩ := hl.exists_scalar m
    cases hs
    obtain ⟨code, u, hcode, hu, hvalue⟩ := exists_scalarTest hword.register (hr.ne_scratch hσ) hrun hb hframe hconstant
      htarget (c := ⟨.ofConstant (.int n), op, r⟩) rfl hr.source rfl (hr.scalar _)
      hscalar hwhole
    refine ⟨code, hcode, hbound hcode hl.keepsTo (Operand.Holds.scalar hr : r.Holds σ f _).keepsTo, u, hu, ?_⟩
    rw [hvalue, CompareOp.onNumbers_swap]
    rfl

theorem scalarTest_delivers_above : ScopeStack.single.IsProper ∧ ∀ (m : Environment) (f : RegisterFile),
    ∃ code, scalarTest .single ⟨"a", .ofVariable ⟨.scalar 4, .u32, false⟩ none⟩
        ⟨.ofConstant (.int 70000), .ge, .ofName "a"⟩ = .ok code ∧ m.Delivers f code (.scalar 4)
          (if CompareOp.ge.onNumbers 70000 ((f.get (.scalar 4)).toNat : Int) then 1 else 0) := by
  refine ⟨ScopeStack.isProper_single, fun m f => ?_⟩
  exact scalarTest_delivers ScopeStack.isProper_single isScalar_single (f := f) (a := 70000#32)
    (.right (n := 70000) (by decide) isScalar_single) m

end Microcode
