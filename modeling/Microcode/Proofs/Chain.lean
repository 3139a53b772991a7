import Microcode.Proofs.Collection
import Microcode.Proofs.Encoding
import Microcode.Proofs.Folding
import Microcode.Proofs.Origin

/-!
What the code of an expression leaves in its target.

An expression of several operators becomes a chain of steps that all leave their values in the target.
-/

namespace Microcode

variable {code : List Instruction} {front lines more : List Line} {signed isInit : Bool} {y z : Quantity}
  {f g f₀ : RegisterFile} {d offered : Register} {w b : BitVec 32} {n k : Nat} {r l head : Operand}
  {name target : String}

open List Operand Microcode.Expr Term Opcode Source Place BinaryOp Quantity

/-! ### The machine -/

/-- What the scalar unit reads from elsewhere: where variables are in memory, and the lanes of vectors. -/
structure Environment where
  address : String → BitVec 32
  lane : Register → Fin 8 → BitVec 16

/-- What an instruction computes from two words; the amount of a shift may be in a register. -/
def Opcode.computeAny? : Opcode → Option (BitVec 32 → BitVec 32 → BitVec 32)
  | .sllv => sll.compute?
  | .srlv => srl.compute?
  | .srav => sra.compute?
  | o => o.compute?

variable {v : Variable} {x : Quantity}
  {σ : ScopeStack} {ρ : Operand → Option Quantity} {parts : List Part} {chain steps : List Assignment}
  {a : Assignment} {m : Environment}

namespace Environment

variable (m : Environment)

/-- The word that the last argument of an instruction stands for.  Of an address there is only the low half. -/
def operand? (f : RegisterFile) : Arg → Option (BitVec 32)
  | .low name offset => some ((m.address name + word offset) &&& 0xFFFF#32)
  | a => f.operand? a

def exec? (f : RegisterFile) (i : Instruction) : Option RegisterFile := match i.args with
  | [.reg d, .reg s, last] => do
    let compute ← i.opcode.computeAny?
    let w ← m.operand? f last
    pure (f.set d (compute (f.get s) w))
  | [.reg d, .lanes r (some (.lane n))] =>
    if i.opcode = .mfc2 then some (f.set d ((m.lane r n).signExtend 32)) else none
  | _ => i.exec? f

def run (f : RegisterFile) (code : List Instruction) : Option RegisterFile := code.foldlM m.exec? f

def runLines (f : RegisterFile) (lines : List Line) : Option RegisterFile := lines.foldlM (fun f line =>
    match line with
    | .op i => m.exec? f i
    | .comment _ => some f
    | _ => none) f

/-- What a source stands for: a whole number for itself, and all else for a word. -/
def value? (f : RegisterFile) : Source → Option Quantity
  | .constant (.int v) => some (.number v)
  | .constant (.float _) => none
  | .variable p =>
    if p.isVector then p.lane?.map fun n => .word ((m.lane p.register n).signExtend 32)
    else some (.word (f.get p.register))
  | .address name => some (.word (m.address name))

def read (σ : ScopeStack) (f : RegisterFile) (o : Operand) : Option Quantity := match o.source σ with
  | .ok s => m.value? f s
  | .error _ => none

/-- The numbers in an instruction fit its fields, and the addresses the low half. -/
def Fits (i : Instruction) : Prop :=
  i.IsEncodable ∧ ∀ name offset, .low name offset ∈ i.args → (m.address name + word offset).toNat < 65536

variable {m}

theorem exec?_of_exec? {i} (h : i.exec? f = some g) : m.exec? f i = some g := by
  unfold exec?
  split
  next d s last hargs =>
    simp only [Instruction.exec?, hargs, Option.bind_eq_bind, Option.bind_eq_some_iff] at h
    obtain ⟨compute, hcompute, w, hw, h⟩ := h
    have hany : i.opcode.computeAny? = some compute := by
      unfold computeAny?
      split
      all_goals first | exact hcompute | simp_all [compute?]
    have hlast : m.operand? f last = some w := by cases last <;> first | exact hw | cases hw
    simp [hany, hlast, ← h]
  next hargs => simp [Instruction.exec?, hargs] at h
  · exact h

theorem run_of_run (h : f.run code = some g) : m.run f code = some g := foldlM_of_step (e := id) exec?_of_exec? h

theorem run_append {front rest} (h : m.run f front = some g) : m.run f (front ++ rest) = m.run g rest := by
  unfold run at *
  rw [foldlM_append, h]
  rfl

theorem runLines_append {rest} (h : m.runLines f front = some g) :
    m.runLines f (front ++ rest) = m.runLines g rest := by
  unfold runLines at *
  rw [foldlM_append, h]
  rfl

theorem runLines_stamped (p : Provenance) (code : List Instruction) : m.runLines f (stamped p code) = m.run f code := by
  rw [runLines, stamped, foldlM_map]
  rfl

theorem runLines_comment (frame : Frame) (s : Statement) : m.runLines f (frame.comment s) = some f := by
  unfold Frame.comment
  split <;> rfl

end Environment
variable {m : Environment} {op : BinaryOp} {fr : Frame} {tag : Tag} {rest : List Statement}

namespace Environment

variable {o : Opcode}
variable {s : Register} {v : Int64} {a : BitVec 32} {compute : BitVec 32 → BitVec 32 → BitVec 32}

theorem lt_of_shiftConstant {k : Int64} (ho : o.field? = some .shift) (hk : log2? v = some k)
    (h : ∀ i ∈ shiftConstant d s o k, i.IsEncodable) : v.toInt < 4294967296 := by
  obtain ⟨n, -, hkn, hvn⟩ := exists_of_log2? hk
  have hn : n < 32 := by
    unfold shiftConstant at h
    split at h
    next hzero =>
      rw [hzero] at hkn
      have : (0 : Int) = n := hkn
      omega
    · obtain ⟨field, hfield, htakes⟩ := h _ (.head _) (.imm k) (by simp [Instruction.scalarWith]) k.toInt rfl
      cases ho.symm.trans hfield
      have := htakes.2.1
      simp only [NumberField.shift] at this
      omega
  rw [hvn, Nat.one_shiftLeft]
  exact Int.ofNat_lt.mpr (Nat.pow_lt_pow_right (a := 2) (n := 32) (by decide) hn)

/-- The code leaves a word in a register, and all others as they were, but for the scratch register. -/
def Puts (m : Environment) (f : RegisterFile) (code : List Instruction) (d : Register) (w : BitVec 32) : Prop :=
  ∃ g, m.run f code = some g ∧ g.get d = w ∧ ∀ r, r ≠ d → r ≠ .scratch → g.get r = f.get r

theorem puts_of_leaves (h : f.Leaves code d w) : m.Puts f code d w := by
  obtain ⟨g, hrun, hg⟩ := h
  exact ⟨g, run_of_run hrun, hg⟩

theorem puts_loadConstant (hd : d.HoldsWord) (v : Int64) : m.Puts f (loadConstant d v) d (word v) :=
  puts_of_leaves (f.leaves_set hd (f.run_loadConstant hd v))

theorem puts_copyScalar (hd : d.HoldsWord) (s : Register) : m.Puts f (copyScalar d s) d (f.get s) :=
  puts_of_leaves (leaves_copyScalar hd)

theorem puts_constantStep (hd : d.HoldsWord) (hs : s ≠ .scratch) (h : constantStep d s signed op v = .ok code)
    (hcode : ∀ i ∈ code, i.IsEncodable) : m.Puts f code d (op.onWord signed (f.get s) v) := by
  refine puts_of_leaves (leaves_step hd hs (fun hop => ?_) h)
  by_cases hzero : v = 0
  · rw [hzero]
    decide
  rcases hop with rfl | rfl
  · simp only [constantStep, hzero, if_false] at h
    split at h
    · exact lt_of_shiftConstant (o := .sll) rfl ‹_› (Except.ok.inj h ▸ hcode)
    · cases h
  · simp only [constantStep, hzero, if_false] at h
    split at h
    · refine lt_of_shiftConstant (o := if signed then .sra else .srl) ?_ ‹_› (Except.ok.inj h ▸ hcode)
      cases signed <;> rfl
    · cases h

theorem low_eq (h : a.toNat < 65536) : 0#32 ||| (a &&& 0xFFFF#32) = a := by
  apply BitVec.eq_of_toNat_eq
  have hlow : a.toNat &&& 65535 = a.toNat % 65536 := Nat.and_two_pow_sub_one_eq_mod a.toNat 16
  show 0 ||| (a.toNat &&& 65535) = a.toNat
  rw [hlow, Nat.zero_or, Nat.mod_eq_of_lt h]

theorem run_address (name : String) (offset : Int64) (h : m.Fits (.address d name offset)) :
    m.run f [.address d name offset] = some (f.set d (m.address name + word offset)) := by
  have hlow := low_eq (h.2 name offset (by simp [Instruction.address, Instruction.scalarWith]))
  simp only [run, foldlM_cons, foldlM_nil, exec?, Instruction.address, Instruction.scalarWith, map_cons,
    map_nil, cons_append, nil_append, computeAny?, compute?, operand?, Option.bind_eq_bind,
    Option.bind_some, Option.pure_def, RegisterFile.get_zero]
  exact congrArg (fun w => some (f.set d w)) hlow

variable {s : Source}

theorem value?_congr (h : ∀ p, s = .variable p → p.isVector = false → g.get p.register = f.get p.register) :
    m.value? g s = m.value? f s := by
  cases s with
  | «variable» p =>
    by_cases hvector : p.isVector
    · simp [value?, hvector]
    · simp only [value?, h p rfl (by simpa using hvector)]
  | constant c => cases c <;> rfl
  | address _ => rfl

theorem exists_of_scalar {r} (h : s.scalar offered = .ok (r, code))
    (hoffered : offered.HoldsWord) (hx : m.value? f s = some x) (hfits : ∀ i ∈ code, m.Fits i) :
    ∃ g, m.run f code = some g ∧ g.get r = x.toWord ∧ (∀ t, t ≠ offered → g.get t = f.get t) ∧
      (r = offered ∨ code = [] ∧ s.place?.map register = some r) := by
  cases s with
  | «variable» p =>
    simp only [scalar] at h
    split at h
    next hvector =>
      cases h
      have hvector : p.isVector = false := by simpa using hvector
      simp only [value?, hvector, Bool.false_eq_true, if_false, Option.some.injEq] at hx
      subst hx
      exact ⟨f, rfl, rfl, fun _ _ => rfl, .inr ⟨rfl, rfl⟩⟩
    next hvector =>
      have hvector : p.isVector := by simpa using hvector
      split at h
      next n hlane =>
        cases h
        simp only [value?, hvector, if_true, hlane, Option.map_some, Option.some.injEq] at hx
        subst hx
        have hselector : p.selector = some (.lane n) := by
          unfold lane? at hlane
          split at hlane
          next hswizzle =>
            cases hlane
            simp [selector, hswizzle, Swizzle.selector]
          · cases hlane
        refine ⟨f.set offered ((m.lane p.register n).signExtend 32), ?_, f.get_set_self hoffered,
          fun t ht => f.get_set_of_ne ht.symm, .inl rfl⟩
        rw [hselector]
        rfl
      · cases h
  | constant c =>
    obtain ⟨v, hv, h⟩ := bind_eq_ok.mp h
    cases h
    cases c with
    | float _ => cases hx
    | int v' =>
      cases hv
      cases hx
      exact ⟨_, run_of_run (f.run_loadConstant hoffered v), f.get_set_self hoffered,
        fun t ht => f.get_set_of_ne ht.symm, .inl rfl⟩
  | address name =>
    cases h
    cases hx
    refine ⟨_, run_address name 0 (hfits _ (.head _)), ?_, fun t ht => f.get_set_of_ne ht.symm, .inl rfl⟩
    rw [f.get_set_self hoffered]
    exact BitVec.add_zero _

section
variable {σ : ScopeStack} {v : Variable}

theorem puts_scalarCopy (hd : σ.HoldsWord name v) {o}
    (h : scalarCopy σ ⟨name, .ofVariable v none⟩ o = .ok code) (hx : m.read σ f o = some x)
    (hfits : ∀ i ∈ code, m.Fits i) : m.Puts f code v.register x.toWord := by
  obtain ⟨s, ⟨r, bring⟩, hs, hr, h⟩ := bind₂_eq_ok.mp h
  cases h
  simp only [read, hs] at hx
  obtain ⟨g, hrun, hvalue, hframe, -⟩ := exists_of_scalar hr hd.register hx fun i hi => hfits i (by simp [hi])
  obtain ⟨u, hu, hcopy, hrest⟩ := puts_copyScalar (m := m) (f := g) hd.register r
  refine ⟨u, (run_append hrun).trans hu, hcopy.trans hvalue, fun t ht hscratch => ?_⟩
  rw [hrest t ht hscratch, hframe t ht]

theorem isSigned_of_checkType (h : s.checkType ⟨name, .ofVariable v none⟩ op = .ok ()) :
    s.isSigned v.type = v.type.isSigned := by
  cases s with
  | «variable» p =>
    simp only [checkType] at h
    split at h
    next htype =>
      simp only [isSigned, place?, Option.map_some, Option.getD_some, htype]
      rfl
    · cases h
  | _ => rfl

theorem not_isVector_of_checkType (hd : σ.HoldsWord name v) {p : Place}
    (h : (Source.variable p).checkType ⟨name, .ofVariable v none⟩ op = .ok ()) : p.isVector = false := by
  simp only [Source.checkType] at h
  split at h
  next htype =>
    rw [isVector, htype]
    exact hd.scalar
  · cases h

end

theorem computeAny?_scalarOpcode (h : op.scalarOpcode signed = .ok o) (a b : BitVec 32) :
    ∃ compute, o.computeAny? = some compute ∧ op.onWords? signed a b = some (compute a b) := by
  cases op with
  | mul | div | mod | mulAdd => cases h
  | shr =>
    cases h
    cases signed <;> exact ⟨_, rfl, rfl⟩
  | _ =>
    cases h
    exact ⟨_, rfl, rfl⟩

theorem run_scalar (h : o.computeAny? = some compute) (s t : Register) :
    m.run f [.scalar o [d, s, t]] = some (f.set d (compute (f.get s) (f.get t))) := by
  simp [run, exec?, Instruction.scalar, h, operand?, RegisterFile.operand?]

theorem puts_scalarBinary (hσ : σ.IsProper) {v} (hd : σ.HoldsWord name v)
    (h : scalarBinary σ ⟨name, .ofVariable v none⟩ op l r = .ok code) (hx : m.read σ f l = some x)
    (hy : m.read σ f r = some y) (hfits : ∀ i ∈ code, m.Fits i) :
    ∃ w, op.onWords? v.type.isSigned x.toWord y.toWord = some w ∧ m.Puts f code v.register w := by
  obtain ⟨ls, rs, hls, hrs, h⟩ := bind₂_eq_ok.mp h
  obtain ⟨⟨⟩, ⟨⟩, hltype, hrtype, h⟩ := bind₂_eq_ok.mp h
  obtain ⟨⟨lreg, leftCode⟩, hleft, h⟩ := bind_eq_ok.mp h
  simp only [read, hls] at hx
  simp only [read, hrs] at hy
  have hscratch : Register.scratch.HoldsWord := ⟨rfl, by decide⟩
  dsimp only at h
  split at h
  · obtain ⟨_, hthrow, -⟩ := bind_eq_ok.mp h
    cases hthrow
  rename_i htemporaries
  obtain ⟨⟨rreg, rightCode⟩, opcode, hright, hopcode, h⟩ := bind₂_eq_ok.mp h
  cases h
  have hleftFits : ∀ i ∈ leftCode, m.Fits i := fun i hi => hfits i (by simp [hi])
  have hrightFits : ∀ i ∈ rightCode, m.Fits i := fun i hi => hfits i (by simp [hi])
  -- The left operand goes where the right one is not.
  obtain ⟨offered, hoffer, hleft⟩ : ∃ offered, offered = (if rs.place?.map register = some v.register then
      .scratch else v.register) ∧ ls.scalar offered = .ok (lreg, leftCode) := ⟨_, rfl, hleft⟩
  have hcases : offered = .scratch ∨ offered = v.register := by
    rw [hoffer]
    split
    · exact .inl rfl
    · exact .inr rfl
  have hoffered : offered.HoldsWord := by
    rcases hcases with rfl | rfl
    · exact hscratch
    · exact hd.register
  have happart : ∀ p, rs = .variable p → p.register ≠ offered := by
    rintro p rfl hp
    have hproper : p.register.Suits p.type := hσ.source r.keepsTo_none _ hrs
    split at hoffer
    · exact hproper.ne_scratch (hp.trans hoffer)
    next hne => exact hne (congrArg some (hp.trans hoffer))
  obtain ⟨g, hg, hlvalue, hlframe, hlplace⟩ := exists_of_scalar hleft hoffered hx hleftFits
  have hy' : m.value? g rs = some y := (value?_congr fun p hp _ => hlframe _ (happart p hp)).trans hy
  obtain ⟨u, hu, hrvalue, hrframe, hrplace⟩ := exists_of_scalar hright hscratch hy' hrightFits
  have hkeep : u.get lreg = x.toWord := by
    cases rs with
    | «variable» p =>
      simp only [Source.scalar, not_isVector_of_checkType hd hrtype, Bool.not_false, if_true] at hright
      cases hright
      cases hu
      exact hlvalue
    | _ =>
      have hne : lreg ≠ .scratch := by simpa [Source.isVariable, Source.place?] using htemporaries
      exact (hrframe _ hne).trans hlvalue
  have hsigned := isSigned_of_checkType hltype
  obtain ⟨compute, hcompute, hvalue⟩ := computeAny?_scalarOpcode (hsigned ▸ hopcode) x.toWord y.toWord
  refine ⟨_, hvalue, u.set v.register _, ?_, u.get_set_self hd.register, fun t ht htscratch => ?_⟩
  · rw [append_assoc, run_append hg, run_append hu]
    exact (run_scalar hcompute _ _).trans (by rw [hkeep, hrvalue]; rfl)
  · rw [u.get_set_of_ne ht.symm, hrframe t htscratch, hlframe t]
    rcases hcases with rfl | rfl
    · exact htscratch
    · exact ht

theorem puts_scalarWithConstant (hσ : σ.IsProper) {v} (hd : σ.HoldsWord name v) {c : Int64}
    (h : scalarWithConstant σ ⟨name, .ofVariable v none⟩ op l (.int c) = .ok code)
    (hx : m.read σ f l = some x) (hfits : ∀ i ∈ code, m.Fits i) :
    m.Puts f code v.register (op.onWord v.type.isSigned x.toWord c) ∧
      (op = .add ∨ op = .sub ∨ ∃ d s signed step, constantStep d s signed op c = .ok step) := by
  obtain ⟨c', hc, h⟩ := bind_eq_ok.mp h
  cases hc
  obtain ⟨ls, ⟨⟩, hls, hltype, h⟩ := bind₂_eq_ok.mp h
  simp only [read, hls] at hx
  -- A number that is added to an address is part of it.
  have hsum {symbol : String} {offset : Int64} (hfit : m.Fits (.address v.register symbol offset)) :
      m.Puts f [.address v.register symbol offset] v.register (m.address symbol + word offset) :=
    ⟨_, run_address symbol offset hfit, f.get_set_self hd.register, fun t ht _ => f.get_set_of_ne ht.symm⟩
  split at h
  · cases h
    cases hx
    exact ⟨hsum (hfits _ (.head _)), .inl rfl⟩
  · cases h
    cases hx
    have hneg := hsum (hfits _ (.head _))
    rw [word_neg, ← BitVec.sub_eq_add_neg] at hneg
    exact ⟨hneg, .inr (.inl rfl)⟩
  · obtain ⟨⟨lreg, leftCode⟩, step, hleft, hstep, h⟩ := bind₂_eq_ok.mp h
    cases h
    obtain ⟨g, hg, hlvalue, hlframe, hlplace⟩ :=
      exists_of_scalar hleft hd.register hx fun i hi => hfits i (by simp [hi])
    have hne : lreg ≠ .scratch := by
      rcases hlplace with rfl | ⟨-, hplace⟩
      · exact hd.ne_scratch
      · cases ls with
        | «variable» p =>
          cases hplace
          have hproper : p.register.Suits p.type := hσ.source l.keepsTo_none _ hls
          exact hproper.ne_scratch
        | _ => cases hplace
    obtain ⟨u, hu, hvalue, hrest⟩ := puts_constantStep (m := m) (f := g) hd.register hne hstep
      fun i hi => (hfits i (by simp [hi])).1
    refine ⟨⟨u, (run_append hg).trans hu, ?_, fun t ht hscratch => ?_⟩, .inr (.inr ⟨_, _, _, step, hstep⟩)⟩
    · have hsigned : ls.isSigned (ofVariable v none).type = v.type.isSigned := isSigned_of_checkType hltype
      rw [hvalue, hlvalue, hsigned]
    · rw [hrest t ht hscratch, hlframe t ht]

/-! ### Chains -/

theorem read_congr {o}
    (h : ∀ p, o.source σ = .ok (.variable p) → p.isVector = false → g.get p.register = f.get p.register) :
    m.read σ g o = m.read σ f o := by
  unfold read
  split
  next s hs => exact value?_congr fun p hp => h p (hp ▸ hs)
  · rfl

theorem isNumber_read {o} (hconst : o.constant? = none) (hx : m.read σ f o = some x) : x.isNumber = false := by
  unfold read at hx
  split at hx
  next s hs =>
    cases s with
    | «variable» p =>
      simp only [value?] at hx
      split at hx
      · obtain ⟨n, -, rfl⟩ := Option.map_eq_some_iff.mp hx
        rfl
      · cases hx
        rfl
    | constant c =>
      exfalso
      obtain ⟨atom, swizzle⟩ := o
      cases atom with
      | constant c' =>
        cases swizzle with
        | none => cases hconst
        | some _ => cases hs
      | «variable» n =>
        obtain ⟨v, -, hs⟩ := bind_eq_ok.mp hs
        split at hs
        · cases hs
        · cases hs
      | address _ => cases hs
    | address _ =>
      cases hx
      rfl
  · cases hx

theorem readsConstants (m : Environment) (σ : ScopeStack) (f : RegisterFile) : ReadsConstants (m.read σ f) where
  int _ := rfl
  float _ := rfl
  short o x hconst hx := by
    rw [eq_word_of_isNumber (isNumber_read hconst hx)]
    rfl

theorem puts_ofOperand {v} (hd : σ.HoldsWord name v) {o}
    (h : scalarValue σ ⟨name, .ofVariable v none⟩ (.ofOperand o) = .ok code) (hx : m.read σ f o = some x)
    (hfits : ∀ i ∈ code, m.Fits i) : m.Puts f code v.register x.toWord := by
  unfold ofOperand at h
  split at h
  next c hc =>
    have hconst : (leaf o).constant? = some c := hc
    have hterm : (leaf o).value? (m.read σ f) v.type.isSigned = some x := hx
    obtain ⟨c, rfl, rfl⟩ := int_of_constant? (m.readsConstants σ f) hconst hterm
    cases h
    exact puts_loadConstant hd.register c
  · exact puts_scalarCopy hd h hx hfits

theorem puts_ofStep (hσ : σ.IsProper) {v} (hd : σ.HoldsWord name v)
    (h : scalarValue σ ⟨name, .ofVariable v none⟩ (.ofStep op l r) = .ok code) (hx : m.read σ f l = some x)
    (hword : x.isNumber = false) (hy : m.read σ f r = some y) (hz : op.eval? v.type.isSigned x y = some z)
    (hfits : ∀ i ∈ code, m.Fits i) : m.Puts f code v.register z.toWord := by
  unfold ofStep at h
  split at h
  next c hc =>
    have hconst : (leaf r).constant? = some c := hc
    have hterm : (leaf r).value? (m.read σ f) v.type.isSigned = some y := hy
    obtain ⟨c, rfl, rfl⟩ := int_of_constant? (m.readsConstants σ f) hconst hterm
    have hz' : z.toWord = op.onWord v.type.isSigned x.toWord c := by
      rw [eq_word_of_isNumber hword] at hz
      simp only [eval?] at hz
      split at hz
      · cases hz
      · cases hz
        rfl
    exact hz' ▸ (puts_scalarWithConstant hσ hd h hx hfits).1
  next hc =>
    obtain ⟨w, hw, rfl⟩ : ∃ w, op.onWords? v.type.isSigned x.toWord y.toWord = some w ∧ z = .word w := by
      rw [eq_word_of_isNumber (isNumber_read hc hy)] at hz
      cases x <;> exact (Option.map_eq_some_iff.mp hz).imp fun _ h => ⟨h.1, h.2.symm⟩
    obtain ⟨w', hw', hputs⟩ := puts_scalarBinary hσ hd h hx hy hfits
    cases hw.symm.trans hw'
    exact hputs

end Environment

theorem BinaryOp.eval?_toWord (h : x.isNumber = false ∨ y.isNumber = false) :
    op.eval? signed (.word x.toWord) y = op.eval? signed x y := by
  cases x with
  | word _ => rfl
  | number a =>
    cases y with
    | number b => simp [isNumber] at h
    | word b => rfl

section
variable {σ : ScopeStack} {a : Assignment} {v : Variable}
 

variable {P : Operand → Prop} {steps : List (BinaryOp × Operand)} {values : List Expr}

theorem Translated.exists_step (h : Translated fr σ n (.all (.action tag (.assign a) :: rest)) lines k)
    (hv : σ.HoldsWord a.target v) (hswizzle : a.swizzle = none) (hstep : a.value.IsStep P) :
    ∃ line code more m,
      scalarValue σ ⟨a.target, .ofVariable v none⟩ a.value = .ok code ∧ Translated fr σ m (.all rest) more k ∧
        lines = fr.comment (.action tag (.assign a)) ++ stamped line code ++ more := by
  cases h with
  | cons _ hfirst hrest =>
    cases hfirst with
    | declaration ha => cases ha
    | choose _ _ hvalue =>
      rw [hvalue] at hstep
      cases hstep
    | selected hcode =>
      rename_i code line
      cases hcode with
      | assign hallowed hcode =>
        refine ⟨_, code, _, _, ?_, hrest, rfl⟩
        have hselect := hcode fun _ => true
        simp only [Assignment.code, hv.named, hswizzle] at hselect
        cases hvalue : a.value with
        | call _ _ _ | choose _ _ _ =>
          rw [hvalue] at hstep
          cases hstep
        | _ => simpa [hvalue, hv.scalar, bind, Except.bind] using hselect

def chainStatements (tag : Tag) (name : String) (isInit : Bool) (values : List Expr) : List Statement :=
  values.map fun value => .action tag (.assign ⟨name, none, none, value, isInit⟩)

def Expr.right? : Expr → Option Operand
  | .binary _ _ r => some r
  | _ => none

/-- The right-hand side does not read the register behind its operator. -/
def Expr.SparesRight (σ : ScopeStack) (d : Register) (value : Expr) : Prop :=
  ∀ o p, value.right? = some o → o.source σ = .ok (.variable p) → p.register ≠ d

/-- The lines leave a word in a register, and all others as they were before, but for the scratch register. -/
def Environment.PutsLines (m : Environment) (before f : RegisterFile) (lines : List Line) (d : Register)
    (w : BitVec 32) : Prop :=
  ∃ g, m.runLines f lines = some g ∧ g.get d = w ∧ ∀ r, r ≠ d → r ≠ .scratch → g.get r = before.get r

theorem Environment.putsLines_step {s line x} (hcode : m.Puts f code d x)
    (hframe : ∀ r, r ≠ d → r ≠ .scratch → f.get r = f₀.get r)
    (hmore : ∀ g, g.get d = x → (∀ r, r ≠ d → r ≠ .scratch → g.get r = f₀.get r) → m.PutsLines f₀ g more d w) :
    m.PutsLines f₀ f (fr.comment s ++ stamped line code ++ more) d w := by
  obtain ⟨g, hg, hx, hrest⟩ := hcode
  obtain ⟨u, hu, hw, hall⟩ := hmore g hx fun r hd hscratch => by rw [hrest r hd hscratch, hframe r hd hscratch]
  refine ⟨u, ?_, hw, hall⟩
  rw [append_assoc, runLines_append (runLines_comment fr s), runLines_append ((runLines_stamped line code).trans hg)]
  exact hu

theorem Environment.read_ofName (hd : σ.HoldsWord name v) :
    m.read σ f (.ofName name) = some (.word (f.get v.register)) := by
  have hvector : (ofVariable v none).isVector = false := hd.scalar
  simp only [read, hd.source, value?, hvector]
  rfl

theorem Environment.fits_of_stamped (line : Provenance) (h : ∀ i, .op i ∈ stamped line code → m.Fits i) :
    ∀ i ∈ code, m.Fits i := by
  intro i hi
  exact h { i with provenance := line } (mem_map_of_mem hi)

open Level in
theorem Environment.putsLines_laterSteps (hσ : σ.IsProper) (hd : σ.HoldsWord name v)
    (hvalues : laterSteps name steps = .ok values)
    (hlines : Translated fr σ n (.all (chainStatements tag name isInit values)) lines k)
    (hfits : ∀ i, .op i ∈ lines → m.Fits i) (hspares : ∀ e ∈ values, e.SparesRight σ v.register)
    (hx : f.get v.register = x.toWord)
    (hfirst : x.isNumber → ∀ op o more, steps = (op, o) :: more → o.constant? = none)
    (hframe : ∀ r, r ≠ v.register → r ≠ .scratch → f.get r = f₀.get r)
    (hz : runValue? (m.read σ f₀) v.type.isSigned x (ofSteps steps) = some z) :
    m.PutsLines f₀ f lines v.register z.toWord := by
  obtain ⟨-, rfl⟩ := laterSteps_eq_ok.mp hvalues
  clear hvalues
  induction steps generalizing f n lines x with
  | nil =>
    cases hlines
    cases hz
    exact ⟨f, rfl, hx, hframe⟩
  | cons s steps ih =>
    obtain ⟨op, o⟩ := s
    have hisStep : (ofStep op (.ofName name) o).IsStep fun _ => True := isStep_ofStep op trivial trivial
    obtain ⟨line, code, more, _, hcode, hrest, rfl⟩ := hlines.exists_step hd rfl hisStep
    simp only [ofSteps, map_cons, runValue?, Option.bind_eq_some_iff] at hz
    obtain ⟨y, hy, u, hu, hz⟩ := hz
    have hword : x.isNumber = false ∨ y.isNumber = false := by
      cases hnumber : x.isNumber with
      | false => exact .inl rfl
      | true => exact .inr (isNumber_read (hfirst hnumber op o steps rfl) hy)
    have htarget : m.read σ f (.ofName name) = some (.word x.toWord) := hx ▸ read_ofName hd
    have hright : m.read σ f o = some y := by
      rw [← hy]
      refine read_congr fun p hp hvector => hframe _ ?_ (hσ.source o.keepsTo_none _ hp).ne_scratch
      refine hspares _ (.head _) o p ?_ hp
      cases hc : o.constant? with
      | none => simp [ofStep, hc, right?]
      | some c =>
        rw [eq_ofConstant hc] at hp
        cases hp
    have hcodeFits : ∀ i ∈ code, m.Fits i := fits_of_stamped line fun i hi => hfits i (by simp [hi])
    have hputs := puts_ofStep hσ hd hcode htarget rfl hright ((eval?_toWord hword).trans hu) hcodeFits
    refine putsLines_step hputs hframe fun g hg hgframe => ?_
    refine ih (fun i hi => hfits i (by simp [hi])) hg ?_ hgframe hz hrest fun e he => hspares e (.tail _ he)
    intro hnumber
    rw [isNumber_eval? hu] at hnumber
    simp_all

open Level in
theorem Environment.putsLines_chainSteps (hσ : σ.IsProper) (hd : σ.HoldsWord name v)
    (hvalues : chainSteps name head steps = .ok values)
    (hlines : Translated fr σ n (.all (chainStatements tag name isInit values)) lines k)
    (hfits : ∀ i, .op i ∈ lines → m.Fits i) (hspares : ∀ e ∈ values.tail, e.SparesRight σ v.register)
    (hfirst : head.constant?.isSome → ∀ op o more, steps = (op, o) :: more → o.constant? = none)
    (hx : m.read σ f head = some x)
    (hz : runValue? (m.read σ f) v.type.isSigned x (ofSteps steps) = some z) :
    m.PutsLines f f lines v.register z.toWord := by
  obtain ⟨value, rest, later, hopens, hlater, rfl⟩ := chainSteps_eq_ok.mp hvalues
  -- Once the first step leaves a value that the others go on from, they do.
  have hall {u : Quantity} (hisStep : value.IsStep fun _ => True)
      (hputs : ∀ code, scalarValue σ ⟨name, .ofVariable v none⟩ value = .ok code → (∀ i ∈ code, m.Fits i) →
        m.Puts f code v.register u.toWord)
      (hnumber : u.isNumber → ∀ op o more, rest = (op, o) :: more → o.constant? = none)
      (hz : runValue? (m.read σ f) v.type.isSigned u (ofSteps rest) = some z) :
      m.PutsLines f f lines v.register z.toWord := by
    obtain ⟨line, code, more, _, hcode, hrest, rfl⟩ := hlines.exists_step hd rfl hisStep
    have hcodeFits : ∀ i ∈ code, m.Fits i := fits_of_stamped line fun i hi => hfits i (by simp [hi])
    refine putsLines_step (hputs code hcode hcodeFits) (fun _ _ _ => rfl) fun g hg hgframe => ?_
    exact putsLines_laterSteps hσ hd hlater hrest (fun i hi => hfits i (by simp [hi])) hspares hg hnumber hgframe hz
  cases hopens with
  | load =>
    refine hall (isStep_ofOperand trivial) (fun code hcode => puts_ofOperand hd hcode hx) (fun hnumber => hfirst ?_) hz
    cases hc : head.constant? with
    | none => simp [isNumber_read hc hx] at hnumber
    | some c => rfl
  | combine hconst =>
    simp only [ofSteps, map_cons, runValue?, Option.bind_eq_some_iff] at hz
    obtain ⟨y, hy, u, hu, hz⟩ := hz
    have hword : x.isNumber = false := isNumber_read hconst hx
    refine hall (isStep_ofStep _ trivial trivial)
      (fun code hcode => puts_ofStep hσ hd hcode hx hword hy hu) (fun hnumber => ?_) hz
    simp [isNumber_eval? hu, hword] at hnumber

end

/-- No group of the expression is turned to the front of a run of `~|` from behind its second term. -/
def TurnsSafely (parts : List Part) : Prop :=
  ∀ l l', Level.ofParts? parts = some l → l.splice.fold = .ok l' → l'.TurnsSafely

theorem exists_chainSteps (hρ : ReadsConstants ρ) (hx : HasValue ρ signed parts x)
    (hturns : TurnsSafely parts) {swizzle}
    (h : chainOfParts target swizzle parts = .ok chain) :
    ∃ head steps values y, chainSteps target head steps = .ok values ∧
      chain = values.map (fun value => ⟨target, swizzle, none, value, false⟩) ∧ ρ head = some y ∧
      runValue? ρ signed y (Level.ofSteps steps) = some x ∧
      (head.constant?.isSome → ∀ op o more, steps = (op, o) :: more → o.constant? = none) := by
  obtain ⟨head, steps, values, ⟨l, folded, turned, hl, hfold, hturned, hsteps⟩, hvalues, rfl⟩ := chainOfParts_eq_ok.mp h
  obtain ⟨l', hl', hvalue⟩ := hx.value?_ofParts
  cases hl.symm.trans hl'
  obtain ⟨hkept, hsettled⟩ := Level.value?_fold hρ (l.value?_splice.trans hvalue) hfold
  obtain ⟨hstarts, hfirst⟩ := hsettled.groupFirst hturned
  obtain ⟨hstarts, hfirst⟩ := Level.startsOnce_variableFirst hstarts hfirst
  rw [← Level.value?_groupFirst (hturns l folded hl hfold) hturned, ← Level.value?_variableFirst,
    Level.value?_of_steps? hsteps] at hkept
  obtain ⟨y, hy, hrun⟩ := Option.bind_eq_some_iff.mp hkept
  refine ⟨head, steps, values, y, hvalues, rfl, hy, hrun, fun hconst op o more hcons => ?_⟩
  exact Level.constant?_of_steps? hstarts hfirst (hcons ▸ hsteps) hconst

theorem ScopeStack.IsProper.holdsWord (hσ : σ.IsProper) (hv : σ.variableNamed name = .ok v)
    (hscalar : v.type.isVector = false) : σ.HoldsWord name v :=
  have hsuits := hσ.variableNamed name v hv
  ⟨hv, hscalar, ⟨hsuits.isVector.trans hscalar, hsuits.ne_zero⟩, hsuits.ne_scratch⟩

theorem Translated.isAllowed
    (h : Translated fr σ n (.all (.action tag (.assign a) :: rest)) lines k) : ∃ v, a.IsAllowed σ v := by
  cases h with
  | cons _ hfirst _ =>
    cases hfirst with
    | declaration ha => cases ha
    | choose hallowed => exact ⟨_, hallowed⟩
    | selected hcode =>
      cases hcode with
      | assign hallowed _ => exact ⟨_, hallowed⟩

theorem Environment.putsLines_assignment {state} {value : Expr}
    (hsteps : a.plain state = .ok steps) (hwhole : a.whole? = some value)
    (hflat : value.resolve state = .flat parts) (hv : σ.variableNamed a.target = .ok v)
    (hscalar : v.type.isVector = false)
    (hlines : Translated fr σ n (.all (steps.map fun a => .action tag (.assign a))) lines k)
    (hturns : TurnsSafely parts) (hspares : ∀ step ∈ steps.tail, step.value.SparesRight σ v.register)
    (hfits : ∀ i, .op i ∈ lines → m.Fits i) (hx : HasValue (m.read σ f) v.type.isSigned parts x) :
    m.PutsLines f f lines v.register x.toWord := by
  obtain ⟨-, value', hwhole', ⟨parts', chain, hflat', hchain, rfl⟩ | ⟨hnone, -⟩⟩ := Assignment.plain_cases hsteps
  · cases hwhole.symm.trans hwhole'
    cases hflat.symm.trans hflat'
    obtain ⟨head, steps, values, y, hvalues, rfl, hy, hrun, hfirst⟩ :=
      exists_chainSteps (m.readsConstants σ f) hx hturns hchain
    obtain ⟨first, _, rest, -, -, hcons⟩ := chainSteps_eq_ok.mp hvalues
    have hswizzle : a.swizzle = none := by
      rw [hcons] at hlines
      obtain ⟨w, hallowed⟩ := hlines.isAllowed
      cases hv.symm.trans hallowed.target
      cases hs : a.swizzle with
      | none => rfl
      | some _ =>
        have hvector : v.type.isVector = true := hallowed.lanes (by simp [hs])
        cases hscalar.symm.trans hvector
    have hstatements : ((values.map fun value => (⟨a.target, a.swizzle, none, value, false⟩ : Assignment)).map
        fun step => { step with isInit := a.isInit }).map (fun a => Statement.action tag (.assign a)) =
        chainStatements tag a.target a.isInit values := by
      rw [map_map, map_map, hswizzle]
      rfl
    rw [hstatements] at hlines
    refine putsLines_chainSteps hlines.proper (hlines.proper.holdsWord hv hscalar) hvalues hlines hfits ?_ hfirst hy hrun
    intro e he
    refine hspares ⟨a.target, a.swizzle, none, e, a.isInit⟩ ?_
    rw [← map_tail, ← map_tail, map_map]
    exact mem_map_of_mem he
  · cases hwhole.symm.trans hwhole'
    exact absurd hflat (hnone parts)

theorem Environment.runLines_comments (h : ∀ l ∈ front, l.isComment) : m.runLines f front = some f := by
  induction front with
  | nil => rfl
  | cons l front ih =>
    obtain ⟨hl, hfront⟩ := forall_mem_cons.mp h
    cases l with
    | comment text => exact ih hfront
    | _ => cases hl

structure Emission.IsChain (s : Surroundings) (e : Emission) (σ : ScopeStack) (a : Assignment) (parts : List Part)
    (v : Variable) : Prop where
  statement : ∃ tag b path, e.path = .action tag b :: path ∧ b.assignment? = some a ∧ b.inside e.scopes = σ
  value : ∃ value, a.whole? = some value ∧ value.resolve s.state = .flat parts
  target : σ.variableNamed a.target = .ok v
  scalar : v.type.isVector = false

/-- **Chains.**  In the code of a program, the lines of a scalar assignment of several operators leave the value
of the expression in the target, computed from the registers and names before the assignment, and every other
register but the scratch register as it was.  The numbers and addresses in the instructions have to fit, no group
may be turned to the front of a run of `~|` from behind, and no step after the first may read the register of the
target behind its operator.  The name of the target is refused there; another name of its register is not. -/
theorem Program.lower_chains {p q : Program} (hnames : p.NamesOnce) (hplain : p.plain = .ok q) {o : Options}
    {codes : List Code} {warnings : List Warning} (hlower : q.lower o = .ok (codes, warnings)) {code : Code}
    (hcode : code ∈ codes) : ∃ r ∈ p.routines, ∃ body es leave, r.Emits p o body code es leave ∧
      ∀ e ∈ es, ∀ {σ a parts v}, e.IsChain p.surroundings σ a parts v → TurnsSafely parts →
        (∀ steps, a.plain p.surroundings.state = .ok steps →
          ∀ step ∈ steps.tail, step.value.SparesRight σ v.register) →
        ∀ (m : Environment) (f : RegisterFile), (∀ i, .op i ∈ e.lines → m.Fits i) →
          ∀ {x}, HasValue (m.read σ f) v.type.isSigned parts x →
            ∃ g, m.runLines f e.lines = some g ∧ g.get v.register = x.toWord ∧
              ∀ r, r ≠ v.register → r ≠ .scratch → g.get r = f.get r := by
  obtain ⟨r, hr, body, es, leave, hemits⟩ := hnames.emits hplain hlower hcode
  obtain ⟨signatures, plain, first, last, hissued⟩ := hemits.issued
  refine ⟨r, hr, body, es, leave, hemits, ?_⟩
  intro e he σ a parts v hchain hturns hspares m f hfits x hx
  obtain ⟨tag, b, around, hpath, hassigns, rfl⟩ := hchain.statement
  obtain ⟨fr, n, actions, k, hactions, htranslated⟩ := hissued.exists_action he hpath
  obtain ⟨steps, front, more, n', hsteps, hmore, hlines, hfront⟩ := htranslated.exists_assignment hassigns hactions
  obtain ⟨value, hwhole, hflat⟩ := hchain.value
  rw [hlines] at hfits ⊢
  rw [Environment.runLines_append (Environment.runLines_comments hfront)]
  exact Environment.putsLines_assignment hsteps hwhole hflat hchain.target hchain.scalar hmore hturns
    (hspares steps hsteps) (fun i hi => hfits i (by simp [hi])) hx

def sharingParts : List Part :=
  [.operand (.ofName "y"), .op .add, .operand (.ofName "z"), .op .add, .operand (.ofConstant (.int 1))]

def Program.sharing : Program where
  routines := [⟨.template, "m", [⟨"x", .u32, none⟩, ⟨"y", .u32, none⟩, ⟨"z", .u32, none⟩],
      some [.action ⟨1, []⟩ (.assign ⟨"x", none, none, .flat sharingParts, false⟩)], [], 1⟩,
     ⟨.function, "f", [⟨"a", .u32, none⟩, ⟨"b", .u32, none⟩],
      some [.action ⟨1, []⟩ (.call "m" [.operand (.ofName "a"), .operand (.ofName "a"), .operand (.ofName "b")])],
      [], 1⟩]

def Program.sharingCode : Code where
  name := "f"
  command := none
  argSize := 0
  align := none
  lines := [.op ⟨.addu, [.reg (.scalar 4), .reg (.scalar 4), .reg (.scalar 5)], ⟨1, none⟩⟩,
     .op ⟨.addiu, [.reg (.scalar 4), .reg (.scalar 4), .imm 1], ⟨1, none⟩⟩,
     .op ⟨.jr, [.reg .returnAddress], ⟨1, none⟩⟩,
     .op ⟨.nop, [], ⟨1, none⟩⟩]

theorem turnsSafely_sharingParts : TurnsSafely sharingParts := by
  intro l l' hl hfold i op t ht hgroup
  cases hl
  cases hfold
  match i with
  | 0 | 1 =>
    cases ht
    cases hgroup
  | _ + 2 => cases ht

theorem hasValue_sharingParts (hρ : ReadsConstants ρ) {y z}
    (hy : ρ (.ofName "y") = some (.word y)) (hz : ρ (.ofName "z") = some (.word z)) (signed : Bool) :
    HasValue ρ signed sharingParts (.word (y + z + 1)) := by
  have hall : HasValue ρ signed ([.operand (.ofName "y"), .op .add, .operand (.ofName "z")] ++
      .op .add :: [.operand (.ofConstant (.int 1))]) (.word (y + z + 1)) :=
    .apply (by simp [operatorsOf]) (by simp [operatorsOf]) (.pair hy hz rfl) (.operand (hρ.int 1)) rfl
  exact hall

theorem sparesRight_sharing (σ : ScopeStack) (d : Register) : ∀ steps,
    Assignment.plain [] ⟨"x", none, none, .flat sharingParts, false⟩ = .ok steps →
      ∀ step ∈ steps.tail, step.value.SparesRight σ d := by
  intro steps hsteps
  have hplain : Assignment.plain [] ⟨"x", none, none, .flat sharingParts, false⟩ =
    .ok [⟨"x", none, none, .binary .add (.ofName "y") (.ofName "z"), false⟩,
      ⟨"x", none, none, .withConstant .add (.ofName "x") (.int 1), false⟩] := rfl
  cases hplain.symm.trans hsteps
  simp [Expr.SparesRight, right?]

theorem Program.sharing_chains : Program.sharing.NamesOnce ∧ ∃ q, Program.sharing.plain = .ok q ∧
    q.lower {} = .ok ([Program.sharingCode], []) ∧
    ∃ r ∈ Program.sharing.routines, ∃ body es leave, r.Emits Program.sharing {} body Program.sharingCode es leave ∧
      ∃ e ∈ es, ∀ (m : Environment) (f : RegisterFile), ∃ g, m.runLines f e.lines = some g ∧
        g.get (.scalar 4) = f.get (.scalar 4) + f.get (.scalar 5) + 1 := by
  have hnames : Program.sharing.NamesOnce := by
    intro r hr body hbody
    simp only [Program.sharing, List.mem_cons, List.not_mem_nil, or_false] at hr
    rcases hr with rfl | rfl
    all_goals
      cases hbody
      exact ⟨rfl, trivial⟩
  have hcode : (Program.sharing.plain >>= fun q => q.lower {}) = .ok ([Program.sharingCode], []) := rfl
  obtain ⟨q, hplain, hlower⟩ := bind_eq_ok.mp hcode
  obtain ⟨r, hr, body, es, leave, hemits, hchains⟩ := Program.lower_chains hnames hplain hlower List.mem_cons_self
  refine ⟨hnames, q, hplain, hlower, r, hr, body, es, leave, hemits, ?_⟩
  simp only [Program.sharing, List.mem_cons, List.not_mem_nil, or_false] at hr
  rcases hr with rfl | rfl
  · exact absurd rfl hemits.notMacro
  cases hemits.hasBody
  obtain ⟨signatures, plain, first, last, hissued⟩ := hemits.issued
  cases hissued with
  | cons _ hcall hnil =>
    cases hnil
    cases hcall with
    | branch _ hst | branchElse _ _ hst | whileLoop _ _ hst | loop _ hst | loopUntil _ hst => cases hst
    | action htemplate => cases htemplate _ _ rfl
    | expanded htemplate hinstance hbody =>
      cases htemplate
      cases hinstance
      cases hbody with
      | cons _ hassign hnil =>
        cases hnil
        cases hassign with
        | branch _ hst | branchElse _ _ hst | whileLoop _ _ hst | loop _ hst | loopUntil _ hst => cases hst
        | action _ _ hlines =>
          refine ⟨_, .head _, fun m f => ?_⟩
          have hfits : ∀ i, .op i ∈ Program.sharingCode.lines → m.Fits i := by
            simp only [Program.sharingCode, List.mem_cons, Line.op.injEq, List.not_mem_nil, or_false]
            rintro i (rfl | rfl | rfl | rfl)
            all_goals exact ⟨by decide, by simp⟩
          have hrun := hchains _ (.head _) (v := ⟨.scalar 4, .u32, false⟩)
            ⟨⟨_, _, _, rfl, rfl, rfl⟩, ⟨_, rfl, rfl⟩, rfl, rfl⟩ turnsSafely_sharingParts
            (sparesRight_sharing _ _) m f (fun i hi => hfits i (by simp [hemits.lines, hi]))
            (hasValue_sharingParts (m.readsConstants _ f) rfl rfl _)
          obtain ⟨g, hg, hvalue, -⟩ := hrun
          exact ⟨g, hg, hvalue⟩

end Microcode
