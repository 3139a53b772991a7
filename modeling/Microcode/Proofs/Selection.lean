import Microcode.Selection.Call
import Microcode.Proofs.Scratch

/-!
Selected code: its branches, the limits that it keeps to, and the registers that it writes.

Values are computed without branches; only comparisons, calls and assertions bring one, and each comes with an empty
slot.
-/

namespace Microcode

open Instruction Option Opcode Int64

variable {code rest : List Instruction} {opcode immediate onFractions onIntegers : Opcode} {W : Register → Prop}
  {p x y : Place} {r register a b offered : Register} {size amount : Int64} {name routine : String}

open List

variable {l : Limits} {o : Opcode} {σ : ScopeStack} {d : Place} {args : List CallArg}

def EmptySlots (code : List Instruction) : Prop := SlotsAre Line.isNop (code.map .op)

/-- Every instruction keeps to the limits and writes only what it may, and every branch has an empty slot. -/
structure WithSlots (l : Limits) (W : Register → Prop) (code : List Instruction) : Prop where
  admits : l.Admit code
  writes : ∀ i ∈ code, ∀ r ∈ i.targets, MayWrite W r
  slots : EmptySlots code

section
variable {ready : Bool} {target : String}

theorem Straight.emptySlots (h : Straight code) : EmptySlots code := by
  induction code with
  | nil => trivial
  | cons i code ih =>
    rw [straight_cons] at h
    exact SlotsAre.cons h.1 (ih h.2)

theorem emptySlots_withSlot (i : Instruction) : EmptySlots (withSlot i) := ⟨fun _ => rfl, SlotsAre.cons rfl trivial⟩

theorem Computes.withSlots (h : Computes l W ready code) : WithSlots l W code :=
  ⟨h.admits, fun i hi => (h.forall_mem i hi).writes, h.straight.emptySlots⟩

theorem WithSlots.append (h : WithSlots l W code) (h' : WithSlots l W rest) : WithSlots l W (code ++ rest) where
  admits := Limits.admit_append.mpr ⟨h.admits, h'.admits⟩
  writes := forall_mem_append.mpr ⟨h.writes, h'.writes⟩
  slots := by
    unfold EmptySlots
    rw [map_append]
    exact SlotsAre.append h.slots h'.slots

variable {i : Instruction}

theorem withSlots_withSlot (h : i.KeepsTo l) (hw : ∀ r ∈ i.targets, MayWrite W r) : WithSlots l W (withSlot i) where
  admits := by simp [withSlot, h]
  writes := forall_mem_cons.mpr ⟨hw, forall_mem_singleton.mpr nofun⟩
  slots := emptySlots_withSlot i

theorem withSlots_branch (hi : (i.isBranch && i.opcode != .jal)) (h : i.KeepsTo l) : WithSlots l W (withSlot i) := by
  have hnone : i.targets = [] := by
    obtain ⟨o, args, p⟩ := i
    cases o <;> first | rfl | cases hi
  exact withSlots_withSlot h (by simp [hnone])

theorem withSlots_jump (ho : (o.isBranch && o != .jal)) (h : l.names target) : WithSlots l W (jump o target) :=
  withSlots_branch ho (forall_mem_singleton.mpr h)

theorem Computes.branchOn (hcode : Computes l W true code)
    (ho : (o.isBranch && o != .jal)) (h : l.names target) : WithSlots l W (code ++ branchOn o a b target) :=
  hcode.withSlots.append (withSlots_branch ho (keepsTo_scalarWith.mpr h))

end

structure Register.Suits (r : Register) (type : DataType) : Prop where
  ne_zero : r ≠ .zero
  ne_scratch : r ≠ .scratch
  isVector : r.isVector = type.isVector

variable {target : Target}

theorem Register.Suits.fraction (h : p.register.Suits p.type) : p.fraction ≠ .scratch := by
  obtain ⟨r, type, swizzle⟩ := p
  cases r with
  | scalar n =>
    have hnext : ∀ n : Fin 32, Register.scalar n ≠ .zero → Register.scalar n ≠ .scratch →
        (Register.scalar n).next?.getD (.scalar n) ≠ .scratch := by decide
    exact hnext n h.ne_zero h.ne_scratch
  | vector n =>
    unfold Place.fraction Register.next? Register.ofIndex?
    dsimp only
    split <;> simp [Register.scratch]

theorem Register.Suits.fractionOperand (h : p.register.Suits p.type) : p.fractionOperand.1 ≠ .scratch := by
  unfold Place.fractionOperand
  split
  · exact h.fraction
  · decide

structure Place.Open (W : Register → Prop) (p : Place) : Prop where
  suits : p.register.Suits p.type
  register : MayWrite W p.register
  fraction : p.isWide → MayWrite W p.fraction

/-- Every variable that can be seen is in a register that suits it. -/
def ScopeStack.IsProper (σ : ScopeStack) : Prop := ∀ ⦃name v⦄, σ.top.get? name = some v → v.register.Suits v.type

/-- A variable is in a register that suits it, and an address may be named. -/
def Source.Fits (l : Limits) : Source → Prop
  | .variable p => p.register.Suits p.type
  | .address name => l.cells name
  | .constant _ => True

theorem ScopeStack.variableNamed_eq_ok {name v} : σ.variableNamed name = .ok v ↔ σ.top.get? name = some v := by
  rw [variableNamed, mapError_eq_ok, lookup]
  cases σ.top.get? name <;> simp

section
variable (hσ : σ.IsProper)
include hσ

theorem ScopeStack.IsProper.variableNamed (name : String) :
    Yields (σ.variableNamed name) fun v => v.register.Suits v.type := fun _ hv => hσ (variableNamed_eq_ok.mp hv)

theorem ScopeStack.IsProper.source {o : Operand} (ho : o.KeepsTo l) : Yields (o.source σ) (Source.Fits l) := by
  unfold Operand.source
  split
  · refine .bind (hσ.variableNamed _) fun v hv => ?_
    split
    · exact .throw
    · exact .ok hv
  · split
    · exact .error
    · exact .ok trivial
  next name hname => exact .ok (ho name hname)

end

theorem Source.Fits.orient {left right : Source} (hleft : left.Fits l) (hright : right.Fits l)
    (op : CompareOp) : (orient left op right).1.Fits l ∧ (orient left op right).2.2.Fits l := by
  unfold Microcode.orient
  split
  · exact ⟨hright, hleft⟩
  · exact ⟨hleft, hright⟩

/-! ### Constants and scalar values -/

/-- The code brings a value into the register.  If that is the scratch register, it is ready. -/
structure Brings (l : Limits) (W : Register → Prop) (r : Register) (code : List Instruction) : Prop where
  computes : Computes l W false code
  ready : r = .scratch → readies code

section
variable {ready : Bool} {d s : Register}

theorem ready_zero : Register.zero = .scratch → ready := fun h => absurd h (by decide)

theorem ready_self (d : Register) : d = .scratch → (ready || d = .scratch) = true := fun h => by simp [h]

theorem computes_number {last : Arg} (hd : MayWrite W d) (hs : s = .scratch → ready) (ho : o.kind = .alu)
    (hlast : last.register? = none) (h : last.KeepsTo l o) : Computes l W ready [.scalarWith o [d, s] last] :=
  (computes_scalarWith ho hlast h).mpr ⟨⟨hd, by simpa using hs⟩, trivial⟩

theorem computes_loadWord (hd : MayWrite W d) (value : UInt32) : Computes l W ready (loadWord d value) := by
  have hhigh : (value >>> 16).toNat ≤ 65535 := by
    have := value.toNat_lt
    show value.toNat >>> 16 ≤ 65535
    omega
  have hlow : (value &&& 0xFFFF).toNat ≤ 65535 := by exact Nat.and_le_right
  have hlui (code : List Instruction) (h : Computes l W (ready || d = .scratch) code) :
      Computes l W ready (.scalarWith .lui [d] (.hex (value >>> 16)) :: code) := by
    have hkeeps : (Arg.hex (value >>> 16)).KeepsTo l .lui := l.numbers_unsigned rfl hhigh
    exact (computes_scalarWith rfl rfl hkeeps).mpr ⟨⟨hd, nofun⟩, h⟩
  unfold loadWord
  split
  · simp +decide [hd]
  split
  next hfits => exact computes_number hd ready_zero rfl rfl (l.numbers_signed rfl hfits)
  split
  next hsmall => exact computes_number hd ready_zero rfl rfl (l.numbers_unsigned rfl (UInt32.le_iff_toNat_le.mp hsmall))
  split
  · exact hlui [] trivial
  · exact hlui _ (computes_number hd (ready_self d) rfl rfl (l.numbers_unsigned rfl hlow))

@[simp] theorem readies_loadWord (d : Register) (value : UInt32) :
    readies (loadWord d value) = decide (d = .scratch) := by
  unfold loadWord
  repeat' split
  all_goals simp (disch := decide) [scalar, scalarWith, fills_alu]

theorem computes_loadConstant (hd : MayWrite W d) (value : Int64) : Computes l W ready (loadConstant d value) :=
  computes_loadWord hd _

@[simp] theorem readies_loadConstant (d : Register) (value : Int64) :
    readies (loadConstant d value) = decide (d = .scratch) := readies_loadWord d _

theorem Source.Fits.scalar {s : Source} (hs : s.Fits l) (hw : MayWrite W offered) :
    Yields (s.scalar offered) fun r => Brings l W r.1 r.2 := by
  unfold Source.scalar
  split
  · have hp : Register.Suits _ _ := hs
    split
    · exact .ok ⟨computes_nil, fun h => absurd h hp.ne_scratch⟩
    · split
      · refine .ok ⟨⟨(computes_of_assigns rfl ?_).mpr ?_, trivial⟩, ?_⟩
        · simp [Arg.KeepsTo]
        · simpa [hp.ne_scratch] using hw
        · rintro rfl
          rfl
      · exact .error
  · exact .skip fun v => .ok ⟨computes_loadConstant hw v, by simp⟩
  next name =>
    refine .ok ⟨(computes_address (l.of_cells hs)).mpr ⟨hw, trivial⟩, ?_⟩
    rintro rfl
    rfl

theorem BinaryOp.scalarOpcode_alu (op : BinaryOp) (signed : Bool) :
    Yields (op.scalarOpcode signed) fun o => o.kind = .alu := by
  cases op
  case shr => cases signed <;> exact .ok rfl
  all_goals first | exact .ok rfl | exact .error

@[simp] theorem lessThan_alu (signed : Bool) : (lessThan signed).kind = .alu := by cases signed <;> rfl

theorem lessThanConstant_alu (signed : Bool) :
    (lessThanConstant signed).kind = .alu ∧ (lessThanConstant signed).field? = some .signed := by
  cases signed <;> exact ⟨rfl, rfl⟩

section
variable (hd : MayWrite W d) (hs : s = .scratch → ready)
include hd

theorem computes_throughScratch (ho : o.kind = .alu) (v : Int64) :
    Computes l W ready (loadConstant .scratch v ++ [.scalar o [d, s, .scratch]]) := by
  simp [computes_loadConstant, ho, hd]

include hs

theorem computes_copyScalar : Computes l W ready (copyScalar d s) := by
  unfold copyScalar
  split
  · trivial
  · simpa +decide [hd] using hs

theorem computes_addConstant (op : BinaryOp) (v : Int64) : Computes l W ready (addConstant d s op v) := by
  unfold addConstant
  generalize (if op = .sub then -v else v) = add
  dsimp only
  split
  · exact computes_copyScalar hd hs
  split
  next hfits => exact computes_number hd hs rfl rfl (l.numbers_signed rfl hfits)
  · exact computes_throughScratch hd (by cases op <;> rfl) v

theorem computes_bitsConstant {register : Opcode} (hi : immediate.kind = .alu)
    (hf : immediate.field? = some .unsigned) (hr : register.kind = .alu) (v : Int64) :
    Computes l W ready (bitsConstant d s immediate register v) := by
  unfold bitsConstant
  split
  next hfits => exact computes_number hd hs hi rfl (l.numbers_lowWord hf hfits)
  · exact computes_throughScratch hd hr v

theorem computes_shiftConstant (ho : o.kind = .alu) (h : l.numbers o amount.toInt) :
    Computes l W ready (shiftConstant d s o amount) := by
  unfold shiftConstant
  split
  · exact computes_copyScalar hd hs
  · exact computes_number hd hs ho rfl h

theorem computes_constantStep (signed : Bool) (op : BinaryOp) (v : Int64)
    (h : op = .mul ∨ op = .div → ∀ k, log2? v = some k → l.Shift k.toInt) :
    Yields (constantStep d s signed op v) (Computes l W ready) := by
  have halu : (if signed then sra else .srl).kind = .alu := by cases signed <;> rfl
  have hright {k : Int} (hk : l.Shift k) : l.numbers (if signed then .sra else .srl) k := by
    cases signed with
    | true => exact hk.2.2
    | false => exact hk.2.1
  have hshift (hv : 0 ≤ v ∧ v < 32) : l.Shift v.toInt := by
    have hv : 0 ≤ v.toInt ∧ v.toInt < 32 := by simpa [le_iff_toInt_le, lt_iff_toInt_lt] using hv
    have htakes : NumberField.shift.Takes v.toInt := ⟨hv.1, by show v.toInt ≤ 31; omega, Int.one_dvd _⟩
    exact ⟨l.numbers_of_field rfl htakes, l.numbers_of_field rfl htakes, l.numbers_of_field rfl htakes⟩
  unfold constantStep
  cases op with
  | add | sub => exact .ok (computes_addConstant hd hs _ v)
  | mul =>
    dsimp only
    split
    · exact .ok (computes_loadConstant hd 0)
    · split
      next k hk => exact .ok (computes_shiftConstant hd hs rfl (h (.inl rfl) k hk).1)
      · exact .error
  | div =>
    dsimp only
    split
    · exact .error
    · split
      next k hk => exact .ok (computes_shiftConstant hd hs halu (hright (h (.inr rfl) k hk)))
      · exact .error
  | mod =>
    dsimp only
    split
    · exact .ok (computes_bitsConstant hd hs rfl rfl rfl _)
    · exact .error
  | and | or | xor => exact .ok (computes_bitsConstant hd hs rfl rfl rfl v)
  | nor =>
    refine .ok (computes_ite.mpr ⟨fun _ => ?_, fun _ => computes_throughScratch hd rfl v⟩)
    simpa +decide [hd] using hs
  | shl =>
    dsimp only
    split
    next hv => exact .ok (computes_number hd hs rfl rfl (hshift hv).1)
    · exact .error
  | shr =>
    dsimp only
    split
    next hv => exact .ok (computes_number hd hs halu rfl (hright (hshift hv)))
    · exact .error
  | mulAdd => exact .error

theorem computes_testZero (isZero : Bool) : Computes l W ready (testZero d s isZero) := by
  unfold testZero
  split
  · exact computes_number hd hs rfl rfl (l.of_takes (by decide) : l.numbers .sltiu (1 : Int64).toInt)
  · simpa +decide [hd] using hs

theorem UnaryOp.computes_scalarStep (op : UnaryOp) : Computes l W ready [op.scalarStep d s] := by
  cases op with
  | neg | not => simpa +decide [UnaryOp.scalarStep, hd] using hs
  | logicalNot => exact computes_testZero hd hs true

variable {right : Except Fault (Register × List Instruction)}

theorem computes_differenceFrom (constant : Option Int64) (hright : Yields right fun r => Brings l W r.1 r.2) :
    Yields (differenceFrom d s constant right) fun r =>
      ∀ isZero, Computes l W ready (r.2 ++ testZero d r.1 isZero) := by
  have htest {ready : Bool} (isZero : Bool) : Computes l W (ready || d = .scratch) (testZero d d isZero) :=
    computes_testZero hd (ready_self d) isZero
  unfold differenceFrom
  split
  · exact .ok (computes_testZero hd hs)
  next v _ hv =>
    have hfits := (filter_eq_some_iff.mp hv).2
    have hkeeps : (Arg.hex (lowWord v)).KeepsTo l .xori := l.numbers_lowWord rfl hfits
    exact .ok fun isZero => (computes_scalarWith rfl rfl hkeeps).mpr ⟨⟨hd, by simpa using hs⟩, htest isZero⟩
  · refine .bind hright fun r hr => .ok fun isZero => ?_
    simp +decide [hr.computes.anywhere, hd, htest]
    exact ⟨fun h => .inl (hs h), fun h => .inr (hr.ready h)⟩

theorem computes_lessThanOperand (signed : Bool) (constant : Option Int64)
    (hright : Yields right fun r => Brings l W r.1 r.2) :
    Yields (lessThanOperand signed d s constant right) (Computes l W ready) := by
  obtain ⟨halu, hfield⟩ := lessThanConstant_alu signed
  unfold lessThanOperand
  split
  next v hv => exact .ok (computes_number hd hs halu rfl (l.numbers_signed hfield (filter_eq_some_iff.mp hv).2))
  · refine .bind hright fun r hr => .ok ?_
    simp [hr.computes.anywhere, hd]
    exact ⟨fun h => .inl (hs h), fun h => .inr (hr.ready h)⟩

end
variable {c : Comparison}

section
variable (hσ : σ.IsProper) {target : Target} (hd : target.place.Open W)
include hσ hd
variable {left : Operand}

theorem computes_scalarBinary (op : BinaryOp) {right : Operand} (hleft : left.KeepsTo l)
    (hright : right.KeepsTo l) : Yields (scalarBinary σ target op left right) (Computes l W false) := by
  refine .bind (hσ.source hleft) fun s hs => .bind (hσ.source hright) fun t ht => .skip fun _ => .skip fun _ => ?_
  have hoffered (c : Prop) [Decidable c] : MayWrite W (if c then .scratch else target.place.register) := by
    split
    · exact mayWrite_scratch
    · exact hd.register
  refine .bind (hs.scalar (hoffered _)) fun ⟨ls, leftCode⟩ hls => ?_
  dsimp only
  split
  · exact .throw
  · refine .bind (ht.scalar (mayWrite_scratch (W := W))) fun ⟨rs, rightCode⟩ hrs => ?_
    refine .bind (op.scalarOpcode_alu _) fun opcode hopcode => .ok ?_
    simp [hls.computes, hrs.computes.anywhere, hopcode, hd.register]
    exact ⟨fun h => .inl (hls.ready h), fun h => .inr (hrs.ready h)⟩

theorem computes_scalarWithConstant (op : BinaryOp) (hleft : left.KeepsTo l) (right : Constant)
    (h : op = .mul ∨ op = .div → ∀ v, right.toInt? = some v → ∀ k, log2? v = some k → l.Shift k.toInt) :
    Yields (scalarWithConstant σ target op left right) (Computes l W false) := by
  have hwhole : Yields right.whole fun v => right.toInt? = some v := by
    unfold Constant.whole
    split
    next v hv => exact .ok hv
    · exact .error
  refine .bind hwhole fun v hv => .bind (hσ.source hleft) fun s hs => .skip fun _ => ?_
  split
  · exact .ok ((computes_address (l.of_cells hs)).mpr ⟨hd.register, trivial⟩)
  · exact .ok ((computes_address (l.of_cells hs)).mpr ⟨hd.register, trivial⟩)
  · refine .bind (hs.scalar hd.register) fun ⟨ls, code⟩ hcode => ?_
    refine .bind (computes_constantStep hd.register hcode.ready _ op v fun hop => h hop v hv) fun step hstep => .ok ?_
    exact computes_append.mpr ⟨hcode.computes, hstep⟩

theorem computes_scalarTest (hc : c.All (Operand.KeepsTo l)) : Yields (scalarTest σ target c) (Computes l W false) := by
  refine .bind (hσ.source hc.1) fun left hleft => .bind (hσ.source hc.2) fun right hright => ?_
  rcases horiented : orient left c.op right with ⟨s, op, t⟩
  obtain ⟨hs, ht⟩ := horiented ▸ hleft.orient hright c.op
  refine .bind (hs.scalar (mayWrite_scratch (W := W))) fun ⟨ls, leftCode⟩ hls => .skip fun constant => ?_
  have hoffered : MayWrite W (if ls = .scratch then target.place.register else .scratch) := by
    split
    · exact hd.register
    · exact mayWrite_scratch
  have hright := ht.scalar hoffered
  have hflip {ready : Bool} (flip : Bool) : Computes l W ready (flipTruth target.place.register flip) := by
    unfold flipTruth
    split
    · exact computes_number hd.register (fun h => absurd h hd.suits.ne_scratch) rfl rfl
        (l.of_takes (by decide) : l.numbers .xori (1 : Int64).toInt)
    · trivial
  cases op with
  | eq | ne =>
    refine .bind (computes_differenceFrom hd.register hls.ready constant hright) fun r hr => .ok ?_
    rw [append_assoc]
    exact computes_append.mpr ⟨hls.computes, hr _⟩
  | lt | ge =>
    refine .bind (computes_lessThanOperand hd.register hls.ready _ constant hright) fun code hcode => .ok ?_
    simp [hls.computes, hcode, hflip]
  | gt | le =>
    refine .bind hright fun r hr => .ok ?_
    simp [hls.computes, hr.computes.anywhere, hd.register, hflip]
    exact ⟨fun h => .inr (hr.ready h), fun h => .inl (hls.ready h)⟩

theorem computes_scalarCopy {o : Operand} (ho : o.KeepsTo l) : Yields (scalarCopy σ target o) (Computes l W false) := by
  refine .bind (hσ.source ho) fun s hs => .bind (hs.scalar hd.register) fun ⟨r, code⟩ hcode => .ok ?_
  exact computes_append.mpr ⟨hcode.computes, computes_copyScalar hd.register hcode.ready⟩

theorem computes_scalarValue {e : Expr} (he : e.All (Operand.KeepsTo l))
    (hshift : ∀ op left c, e = .withConstant op left c → op = .mul ∨ op = .div → ∀ v, c.toInt? = some v →
      ∀ k, log2? v = some k → l.Shift k.toInt) : Yields (scalarValue σ target e) (Computes l W false) := by
  cases e with
  | constant c => exact .skip fun v => .ok (computes_loadConstant hd.register v)
  | copy o => exact computes_scalarCopy hσ hd he
  | unary op o =>
    refine .bind (hσ.source he) fun s hs => ?_
    split
    · exact .skip fun v => .ok (computes_loadConstant hd.register _)
    · refine .bind (hs.scalar hd.register) fun ⟨r, code⟩ hcode => .ok ?_
      exact computes_append.mpr ⟨hcode.computes, op.computes_scalarStep hd.register hcode.ready⟩
  | binary op left right => exact computes_scalarBinary hσ hd op he.1 he.2
  | withConstant op left c => exact computes_scalarWithConstant hσ hd op he c (hshift op left c rfl)
  | test c => exact computes_scalarTest hσ hd he
  | choose c yes no | call name args swizzle | flat parts => exact .error

end
variable {target : String} (htarget : l.names target)
include htarget

theorem withSlots_branchRegisters (signed : Bool) (left : Register) (op : CompareOp) (right : Register) :
    WithSlots l W (branchRegisters signed left op right target) := by
  have hcompare (a b : Register) : Computes l W true [.scalar (lessThan signed) [.scratch, a, b]] := by simp
  cases op with
  | eq | ne => exact computes_nil.branchOn rfl htarget
  | lt | ge => exact (hcompare left right).branchOn rfl htarget
  | gt | le => exact (hcompare right left).branchOn rfl htarget

omit htarget in
theorem computes_testBelow (signed : Bool) (left : Register) (bound : Int64) :
    Computes l W true (testBelow signed left bound) := by
  obtain ⟨halu, hfield⟩ := lessThanConstant_alu signed
  unfold testBelow
  dsimp only
  split
  next hfits => exact computes_number mayWrite_scratch (fun _ => rfl) halu rfl (l.numbers_signed hfield hfits)
  · simp [computes_loadWord]

theorem withSlots_branchConstant (signed : Bool) (left : Register) (op : CompareOp) (value : Int64) :
    WithSlots l W (branchConstant signed left op value target) := by
  have hequal {opcode : Opcode} (ho : (opcode.isBranch && opcode != .jal)) :
      WithSlots l W (if value = 0 then branchOn opcode left .zero target
        else loadConstant .scratch value ++ branchOn opcode left .scratch target) := by
    split
    · exact computes_nil.branchOn ho htarget
    · exact (computes_loadConstant mayWrite_scratch value).branchOn ho htarget
  cases op with
  | eq | ne => exact hequal rfl
  | lt | ge | le | gt => exact (computes_testBelow signed left _).branchOn rfl htarget

theorem withSlots_branchIf (hσ : σ.IsProper) (hc : c.All (Operand.KeepsTo l)) :
    Yields (branchIf σ c target) (WithSlots l W) := by
  refine .bind (hσ.source hc.1) fun left hleft => .bind (hσ.source hc.2) fun right hright => ?_
  rcases horiented : orient left c.op right with ⟨p | a | name, op, s⟩
  all_goals obtain ⟨-, hs⟩ := horiented ▸ hleft.orient hright c.op
  · dsimp only
    split
    · exact .throw
    · rcases s with q | b | name
      · dsimp only
        split
        · exact .throw
        · exact .ok (withSlots_branchRegisters htarget _ _ _ _)
      · dsimp only
        split
        · exact .error
        · exact .ok (withSlots_branchConstant htarget _ _ _ _)
      · have haddress : Computes l W true [.address .scratch name 0] :=
          (computes_address (l.of_cells hs)).mpr ⟨mayWrite_scratch, trivial⟩
        exact .ok (haddress.withSlots.append (withSlots_branchRegisters htarget _ _ _ _))
  · rcases s with q | b | name
    · exact .error
    · refine .ok ?_
      split
      · exact withSlots_jump rfl htarget
      · have hnil : Computes l W true [] := computes_nil
        exact hnil.withSlots
    · exact .error
  · exact .error

end

/-! ### Vector values -/

abbrev Fills (W : Register → Prop) (code : List Instruction) : Prop := ∀ l ready, Computes l W ready code

structure PreparesVector (r : Place × List Instruction) : Prop where
  suits : r.1.register.Suits r.1.type
  fills : ∀ W, Fills W r.2

section

theorem computes_fillLanes (hr : MayWrite W r) (pattern : UInt16) (lane : Option (Fin 8)) :
    Fills W (fillLanes r pattern lane) := by
  intro l ready
  unfold fillLanes
  split <;> split <;> simp +decide [hr, computes_loadWord]

theorem preparesVector_broadcastConstant (c : Constant) (type : DataType) :
    Yields (broadcastConstant c type) PreparesVector := by
  refine .skip fun patterns => ?_
  dsimp only
  split
  · exact .throw
  · split
    · exact .ok ⟨⟨by decide, by decide, rfl⟩, fun _ _ _ => computes_nil⟩
    · have hsuits : Register.scratchVector.Suits .vec16 := ⟨by decide, by decide, rfl⟩
      exact .ok ⟨hsuits, fun _ _ _ => by simp [computes_loadWord]⟩

section
variable (hd : d.Open W)
include hd

theorem computes_vectorConstant (c : Constant) : Yields (vectorConstant d c) (Fills W) := by
  have hfill (lane : Option (Fin 8)) : Yields (fillConstant d c lane) (Fills W) := by
    refine .skip fun patterns => .ok fun l ready => ?_
    exact computes_append.mpr ⟨computes_fillLanes hd.register _ _ l ready,
      computes_ite.mpr ⟨fun h => computes_fillLanes (hd.fraction h) _ _ l _, fun _ => computes_nil⟩⟩
  unfold vectorConstant
  split
  · exact hfill none
  · exact hfill _
  · exact .error

theorem computes_scalarToLane {source} (hs : source ≠ .scratch) : Yields (scalarToLane d source) (Fills W) := by
  unfold scalarToLane
  split
  · exact .error
  · exact .ok fun l ready => by
      simp +decide +contextual [hd.register, hd.fraction, hd.suits.ne_scratch, hd.suits.fraction, hs]

variable (hx : x.register.Suits x.type)
include hx

theorem computes_laneToLane : Yields (laneToLane d x) (Fills W) := by
  unfold laneToLane
  split
  · exact .ok fun l ready => by simp +decide +contextual [hd.register, hd.fraction, hx.ne_scratch, hx.fractionOperand]
  · exact .error

theorem computes_copyLanes : Fills W (copyLanes d x) := by
  intro l ready
  simp +decide +contextual [copyLanes, hd.register, hd.fraction, hx.ne_scratch, hx.fraction]

theorem computes_vectorUnary (op : UnaryOp) : Yields (vectorUnary d op x) (Fills W) := by
  cases op with
  | logicalNot => exact .error
  | neg | not =>
    exact .ok fun l ready => by simp +decide +contextual [hd.register, hd.fraction, hx.ne_scratch, hx.fractionOperand]

variable (hy : y.register.Suits y.type)
include hy

theorem computes_bothHalves (hf : onFractions.assigns)
    (hi : onIntegers.assigns) : Fills W (bothHalves onFractions onIntegers d x y) := by
  intro l ready
  simp +contextual [bothHalves, hf, hi, hd.register, hd.fraction, hx.ne_scratch, hx.fraction, hy.ne_scratch,
    hy.fractionOperand]

theorem computes_product (accumulate : Bool) : Fills W (product accumulate d x y) := by
  intro l ready
  cases accumulate <;>
    simp +decide +contextual [product, hd.register, hd.fraction, hx.ne_scratch, hx.fraction, hy.ne_scratch, hy.fraction]

theorem computes_vectorStep (op : BinaryOp) : Yields (vectorStep d op x y) (Fills W) := by
  cases op with
  | mul | mulAdd => exact .ok (computes_product hd hx hy _)
  | div | mod | shl | shr => exact .error
  | _ => exact .ok (computes_bothHalves hd hx hy rfl rfl)

theorem computes_mergeLanes : Yields (mergeLanes d x y) (Fills W) := by
  have hfraction := hy.fractionOperand
  unfold mergeLanes
  generalize y.fractionOperand = operand at hfraction ⊢
  split
  · exact .error
  · exact .ok fun l ready => by simp +decide +contextual [hd.register, hd.fraction, hx.ne_scratch, hx.fractionOperand,
      hy.ne_scratch, hfraction]

omit hd in
theorem orderOperands_suits (op : CompareOp) : Yields (orderOperands op x y) fun t =>
    t.1.assigns ∧ t.2.1.register.Suits t.2.1.type ∧ t.2.2.register.Suits t.2.2.type := by
  have hturned {opcode : Opcode} (ho : opcode.assigns) :
      Yields (if y.swizzle.isSome then .error (.vector (.rightSwizzled op))
        else .ok (opcode, y, x) : Except Fault (Opcode × Place × Place)) fun t =>
          t.1.assigns ∧ t.2.1.register.Suits t.2.1.type ∧ t.2.2.register.Suits t.2.2.type := by
    split
    · exact .error
    · exact .ok ⟨ho, hy, hx⟩
  cases op with
  | gt | le => exact hturned rfl
  | _ => exact .ok ⟨rfl, hx, hy⟩

end

section
variable (hσ : σ.IsProper)
include hσ

theorem preparesVector_vectorOperand (o : Operand) (type : DataType) :
    Yields (vectorOperand σ o type) PreparesVector := by
  refine .bind (hσ.source o.keepsTo_none) fun s hs => ?_
  split
  · split
    · exact .ok ⟨hs, fun _ _ _ => computes_nil⟩
    · exact .error
  · exact preparesVector_broadcastConstant _ _
  · exact .error

theorem preparesVector_leftOperand (o : Operand) (type : DataType) : Yields (leftOperand σ o type) PreparesVector := by
  refine .bind (preparesVector_vectorOperand hσ o type) fun r hr => ?_
  dsimp only
  split
  · exact .throw
  · exact .ok hr

theorem computes_comparedPlaces (d : Place) (c : Comparison) :
    Yields (comparedPlaces σ d c) fun t => (t.1.assigns ∧ t.2.1.register.Suits t.2.1.type ∧
      t.2.2.1.register.Suits t.2.2.1.type) ∧ ∀ W, Fills W t.2.2.2 := by
  refine .bind (preparesVector_leftOperand hσ c.left d.type) fun x hx => ?_
  refine .bind (preparesVector_vectorOperand hσ c.right d.type) fun y hy => ?_
  refine .bind (orderOperands_suits hx.suits hy.suits c.op) fun t ht => .ok ⟨ht, fun W l ready => ?_⟩
  exact computes_append.mpr ⟨hx.fills _ l ready, hy.fills _ l _⟩

variable (hd : d.Open W)
include hd

theorem computes_vectorTest (c : Comparison) : Yields (vectorTest σ d c) (Fills W) := by
  refine .bind (computes_comparedPlaces hσ d c) fun t ⟨⟨ho, hx, hy⟩, hcode⟩ => ?_
  have hfraction := hy.fractionOperand
  dsimp only
  generalize t.2.2.1.fractionOperand = operand at hfraction ⊢
  exact .ok fun l ready => by simp +decide +contextual [ho, hcode, hd.register, hd.fraction, hx.ne_scratch,
    hx.fractionOperand, hy.ne_scratch, hfraction]

theorem computes_vectorChoice (c : Comparison) (yes no : Operand) : Yields (vectorChoice σ d c yes no) (Fills W) := by
  refine .bind (computes_comparedPlaces hσ d c) fun t ⟨⟨ho, ha, hb⟩, hcode⟩ => ?_
  refine .bind (preparesVector_vectorOperand hσ yes d.type) fun x hx => ?_
  refine .bind (preparesVector_vectorOperand hσ no d.type) fun y hy => ?_
  refine .bind (computes_mergeLanes hd hx.suits hy.suits) fun merge hmerge => .ok fun l ready => ?_
  simp [ho, hcode, ha.ne_scratch, hb.ne_scratch, hx.fills, hy.fills, hmerge]

theorem computes_vectorCopy (o : Operand) : Yields (vectorCopy σ d o) (Fills W) := by
  refine .bind (hσ.source o.keepsTo_none) fun s hs => ?_
  split
  · exact computes_vectorConstant hd _
  · exact .error
  next s =>
    split
    · exact computes_scalarToLane hd hs.ne_scratch
    · split
      · exact computes_laneToLane hd hs
      · exact .ok (computes_copyLanes hd hs)

theorem computes_vectorValue (e : Expr) : Yields (vectorValue σ ⟨name, d⟩ e) (Fills W) := by
  unfold vectorValue
  dsimp only
  split
  · exact .throw
  · cases e with
    | constant c => exact computes_vectorConstant hd c
    | copy o => exact computes_vectorCopy hσ hd o
    | unary op o =>
      refine .bind (preparesVector_vectorOperand hσ o _) fun s hs => ?_
      split
      · exact .throw
      · refine .bind (computes_vectorUnary hd hs.suits op) fun step hstep => .ok fun l ready => ?_
        exact computes_append.mpr ⟨hs.fills _ l ready, hstep l _⟩
    | binary op left right =>
      refine .bind (preparesVector_leftOperand hσ left _) fun x hx => ?_
      refine .bind (preparesVector_vectorOperand hσ right _) fun y hy => .skip fun _ => ?_
      refine .bind (computes_vectorStep hd hx.suits hy.suits op) fun step hstep => .ok fun l ready => ?_
      simp [hx.fills, hy.fills, hstep]
    | withConstant op left right =>
      refine .bind (preparesVector_leftOperand hσ left _) fun x hx => .skip fun _ => ?_
      refine .bind (preparesVector_broadcastConstant right _) fun y hy => ?_
      refine .bind (computes_vectorStep hd hx.suits hy.suits op) fun step hstep => .ok fun l ready => ?_
      simp [hx.fills, hy.fills, hstep]
    | test c => exact computes_vectorTest hσ hd c
    | choose c yes no => exact computes_vectorChoice hσ hd c yes no
    | call name args swizzle | flat parts => exact .error

end
end

/-! ### Builtins -/

namespace Builtin

variable {ready : Bool}

/-- The register that an access starts from is not the scratch register, and its label may be named. -/
def Base.Fits (l : Limits) : Base → Prop
  | .register r => r ≠ .scratch
  | .label name => l.cells name

theorem mem_operandAt (b : Builtin) (args : List CallArg) (i : Nat) :
    Yields (b.operandAt args i) fun o => .operand o ∈ args := by
  unfold operandAt
  split
  next o ho => exact .ok (mem_of_getElem? ho)
  · exact .error
  · exact .error

theorem keepsTo_operandAt (b : Builtin) (hargs : ∀ a ∈ args, a.All (Operand.KeepsTo l)) (i : Nat) :
    Yields (b.operandAt args i) (Operand.KeepsTo l) :=
  (b.mem_operandAt args i).mono fun o ho => hargs (.operand o) ho

theorem fits_baseAt (b : Builtin) (hσ : σ.IsProper) (hargs : ∀ a ∈ args, a.All (Operand.KeepsTo l)) (i : Nat) :
    Yields (b.baseAt σ args i) (Base.Fits l) := by
  refine .bind (b.keepsTo_operandAt hargs i) fun o ho => .bind (hσ.source ho) fun s hs => ?_
  split
  · have hp : Register.Suits _ _ := hs
    split
    · exact .error
    · exact .ok hp.ne_scratch
  · exact .ok hs
  · exact .error

theorem suits_variableAt (b : Builtin) (hσ : σ.IsProper) (args : List CallArg) (i : Nat) :
    Yields (b.variableAt σ args i) fun p => p.register.Suits p.type := by
  refine .skip fun o => .bind (hσ.source o.keepsTo_none) fun s hs => ?_
  split
  · exact .ok hs
  · exact .error

theorem suits_vectorAt (b : Builtin) (hσ : σ.IsProper) (args : List CallArg) (i : Nat) :
    Yields (b.vectorAt σ args i) fun p => p.register.Suits p.type := by
  refine .bind (b.suits_variableAt hσ args i) fun p hp => ?_
  split
  · exact .throw
  · exact .ok hp

variable {base : Base}

theorem Base.Fits.vectorBase (h : base.Fits l) : Brings l W base.vectorBase.1 base.vectorBase.2 := by
  cases base with
  | register r => exact ⟨computes_nil, fun hr => absurd hr h⟩
  | label name => exact ⟨(computes_address (l.of_cells h)).mpr ⟨mayWrite_scratch, trivial⟩, fun _ => rfl⟩

variable {offset : Int64}
variable {arg : Register → Arg}

theorem takes_of_checkOffset (b : Builtin) (hsize : 0 < size.toInt ∧ size.toInt ≤ 16)
    (h : b.checkOffset offset size = .ok ()) : (NumberField.scaled size.toInt).Takes offset.toInt := by
  unfold checkOffset at h
  split at h
  · cases h
  next hmultiple =>
    split at h
    next hrange =>
      have hscale {k : Int64} (hk : -64 ≤ k.toInt ∧ k.toInt ≤ 64) : (k * size).toInt = k.toInt * size.toInt := by
        have hlow : -1024 ≤ k.toInt * size.toInt := by
          have := Int.mul_le_mul_of_nonneg_right hk.1 (Int.le_of_lt hsize.1)
          omega
        have hhigh : k.toInt * size.toInt ≤ 1024 := by
          have := Int.mul_le_mul_of_nonneg_right hk.2 (Int.le_of_lt hsize.1)
          omega
        rw [toInt_mul, Int.bmod_eq_of_le (by omega) (by omega)]
      have hleast : -64 * size.toInt ≤ offset.toInt := by
        have := le_iff_toInt_le.mp hrange.1
        rwa [hscale (by decide)] at this
      have hmost : offset.toInt < 64 * size.toInt := by
        have := lt_iff_toInt_lt.mp hrange.2
        rwa [hscale (by decide)] at this
      have hdvd : size.toInt ∣ offset.toInt := by
        have hzero := congrArg toInt (Decidable.not_not.mp hmultiple)
        rw [toInt_mod] at hzero
        exact Int.dvd_of_tmod_eq_zero hzero
      refine ⟨hleast, ?_, hdvd⟩
      -- An offset below the end of the range is at least one step below it.
      obtain ⟨k, hk⟩ := hdvd
      have hlt : size.toInt * k < size.toInt * 64 := by omega
      have hle : k ≤ 63 := by
        have := Int.lt_of_mul_lt_mul_left hlt (Int.le_of_lt hsize.1)
        omega
      have := Int.mul_le_mul_of_nonneg_left hle (Int.le_of_lt hsize.1)
      show offset.toInt ≤ 63 * size.toInt
      omega
    · cases h

/-- A vector access to the register, from any base that is ready, computes. -/
def Accesses (l : Limits) (W : Register → Prop) (opcode : Opcode) (register : Arg) : Prop :=
  ∀ {ready offset base}, l.numbers opcode offset.toInt → (base = .scratch → ready = true) →
    (vectorAccess opcode register offset base).Computes l W ready

section
variable {selector : Option Selector}

theorem accesses_load (ho : opcode.assigns) (hw : MayWrite W register) :
    Accesses l W opcode (.lanes register selector) := by
  intro ready offset base hoffset hbase
  refine (computes_of_assigns ho ?_).mpr ?_
  · simpa [Arg.KeepsTo] using hoffset
  · simpa using And.intro hw hbase

variable (hne : register ≠ .scratch)
include hne

theorem accesses_store (ho : opcode.isStore) : Accesses l W opcode (.lanes register selector) := by
  intro ready offset base hoffset hbase
  refine computes_of_isStore ho ?_ ?_
  · simpa [Arg.KeepsTo] using hoffset
  · simpa [hne] using hbase

theorem accesses_row (hrows : ∀ first n : Fin 32, register = .vector first → first ≤ n → n.val < first.val + 8 →
    W (.vector n)) : Accesses l W .ltv (.lanes register selector) := by
  intro ready offset base hoffset hbase
  refine ⟨?_, rfl, fun r hr => ?_, fun a ha => ?_⟩
  · simpa [vectorAccess, keepsTo_iff, Arg.KeepsTo] using hoffset
  · cases register with
    | scalar n => cases hr
    | vector first =>
      obtain ⟨n, hn, rfl⟩ := mem_map.mp hr
      have hbounds := of_decide_eq_true (mem_filter.mp hn).2
      exact .inr (.inr (hrows first n rfl hbounds.1 hbounds.2))
  · revert a
    simpa [vectorAccess, sources, assigns, hne] using hbase

end

theorem computes_accessAt (b : Builtin) {register : Arg} (hregister : Accesses l W opcode register)
    (hbase : base.Fits l) (offset : Int64) (hsize : 0 < size.toInt ∧ size.toInt ≤ 16)
    (hfield : opcode.field? = some (.scaled size.toInt)) :
    Yields (b.accessAt opcode register base offset size) (Computes l W false) := by
  refine .known fun _ hcheck => .ok ?_
  have hoffset := l.numbers_of_field hfield (b.takes_of_checkOffset hsize hcheck)
  have hbring := hbase.vectorBase (W := W)
  exact computes_append.mpr ⟨hbring.computes, hregister hoffset hbring.ready, trivial⟩

theorem computes_accessWhole (b : Builtin) (hfield : opcode.field? = some (.scaled 16))
    (hregister : Accesses l W opcode (.vec p.register))
    (hfraction : p.isWide = true → Accesses l W opcode (.vec p.fraction)) (hbase : base.Fits l)
    (offset : Int64) : Yields (b.accessWhole opcode p base offset) (Computes l W false) := by
  have hcheck (offset : Int64) : Yields (b.checkOffset offset 16) fun _ => l.numbers opcode offset.toInt :=
    fun _ hchecked => l.numbers_of_field hfield (b.takes_of_checkOffset (by decide) hchecked)
  have hbring := hbase.vectorBase (W := W)
  refine .bind (hcheck offset) fun _ hoffset => ?_
  dsimp only
  split
  next hwide =>
    refine .bind (hcheck (offset + 16)) fun _ hnext => .ok (computes_append.mpr ⟨hbring.computes,
      hregister hoffset hbring.ready, ?_, trivial⟩)
    exact hfraction hwide hnext fun h => by simp [hbring.ready h]
  · exact .ok (computes_append.mpr ⟨hbring.computes, hregister hoffset hbring.ready, trivial⟩)

/-- The offset of a scalar from a register, at the position behind the register's, is allowed. -/
def Reaches (l : Limits) (σ : ScopeStack) (b : Builtin) (args : List CallArg) (i : Nat) : Prop :=
  ∀ r offset, b.baseAt σ args i = .ok (.register r) → b.wholeAt args (i + 1) 0 = .ok offset → l.Offset offset.toInt

theorem loadOpcode_isScalarLoad (type : DataType) : (loadOpcode type).isScalarLoad := by cases type <;> rfl

theorem storeOpcode_isScalarStore (type : DataType) : (storeOpcode type).isScalarStore := by cases type <;> rfl

theorem Base.Fits.cell (h : base.Fits l) (offset : Int64) : (base.cell offset).register? ≠ some .scratch := by
  cases base with
  | register r => exact fun heq => h (some.inj heq)
  | label name => exact fun heq => absurd (some.inj heq) (by decide)

theorem computes_scalarAccess {b : Builtin} {i : Nat} (hreach : b.Reaches l σ args i) (hbase : base.Fits l)
    (hat : b.baseAt σ args i = .ok base) (hoffset : b.wholeAt args (i + 1) 0 = .ok offset)
    (ho : o.isScalarLoad ∨ o.isScalarStore) (hne : r ≠ .scratch)
    (hw : o.isScalarLoad → MayWrite W r) :
    Computes l W ready [.scalarWith o [r] (base.cell offset)] := by
  have hkeeps : ∀ a ∈ [.reg r, base.cell offset], a.KeepsTo l o := by
    show (scalarWith o [r] (base.cell offset)).KeepsTo l
    refine keepsTo_scalarWith.mpr ?_
    cases base with
    | register s => exact hreach s offset hat hoffset o ho
    | label name => exact hbase
  refine ⟨?_, trivial⟩
  rcases ho with ho | ho
  · have hassigns : o.assigns := by
      cases o <;> first | rfl | cases ho
    exact (computes_of_assigns hassigns hkeeps).mpr (by simpa [hbase.cell offset] using hw ho)
  · exact computes_of_isStore (by simp [isStore, ho]) hkeeps (by simp [hne, hbase.cell offset])

section
variable (hσ : σ.IsProper)
include hσ

theorem computes_selectLanes (hd : target.place.Open W) (args : List CallArg) (swizzle : Option Swizzle) :
    Yields (selectLanes σ target args swizzle) (Fills W) := by
  refine .skip fun _ => .skip fun _ => ?_
  dsimp only
  split
  · exact .throw
  · refine .bind (select.suits_vectorAt hσ args 0) fun x hx => .skip fun o => ?_
    refine .bind (hσ.source o.keepsTo_none) fun s hs => ?_
    have hmerge (y : Place × List Instruction) (hy : PreparesVector y) :
        Yields (do let merge ← mergeLanes target.place x y.1; pure (y.2 ++ merge)) (Fills W) :=
      .bind (computes_mergeLanes hd hx hy.suits) fun merge hm => .ok fun l ready =>
        computes_append.mpr ⟨hy.fills _ l ready, hm l _⟩
    split
    · split
      · exact hmerge _ ⟨hs, fun _ _ _ => computes_nil⟩
      · exact .throw
    · exact .bind (preparesVector_broadcastConstant _ _) hmerge
    · exact .throw

theorem computes_reciprocal (b : Builtin) (hd : target.place.Open W) (args : List CallArg)
    (swizzle : Option Swizzle) : Yields (b.reciprocal σ target args swizzle) (Fills W) := by
  refine .skip fun _ => ?_
  dsimp only
  split
  · exact .throw
  next htype =>
    have hfraction : MayWrite W target.place.fraction := hd.fraction (by simpa [Place.isWide] using htype)
    refine .bind (b.suits_vectorAt hσ args 0) fun s hs => ?_
    -- The opcodes are those of the reciprocal or of the reciprocal square root.
    have hcode (lanes : List (Fin 8)) : Fills W (lanes.flatMap (reciprocalSteps
        (if b = invertHalfSqrt then (vrsqh, vrsql) else (.vrcph, .vrcpl)).1
        (if b = invertHalfSqrt then (vrsqh, vrsql) else (.vrcph, .vrcpl)).2 target.place
        (if s.isWide then (s.register, s.fraction) else (Register.zeroVector, s.register)).1
        (if s.isWide then (s.register, s.fraction) else (Register.zeroVector, s.register)).2)) := by
      intro l ready
      induction lanes generalizing ready with
      | nil => trivial
      | cons lane lanes ih =>
        rw [flatMap_cons, computes_append]
        refine ⟨?_, ih _⟩
        split <;> split <;> simp +decide [reciprocalSteps, hd.register, hfraction, hs.ne_scratch, hs.fraction]
    split
    all_goals
      refine .skip fun lanes => .ok fun l ready => computes_append.mpr ⟨hcode lanes l ready, ?_⟩
      simp +decide [hd.register, hfraction, hd.suits.ne_scratch, hd.suits.fraction]

end

theorem fills_exchange (ho : o.assigns) (harg : ∀ r, (arg r).register? = some r) {x y}
    (hx : x ≠ .scratch) (hy : y ≠ .scratch) (hwx : MayWrite W x) (hwy : MayWrite W y)
    (hkeeps : ∀ l r, (arg r).KeepsTo l o) : Fills W (exchange o arg x y) := by
  intro l ready
  have hstep {ready : Bool} {a b c : Register} (ha : MayWrite W a) (hb : b ≠ .scratch) (hc : c ≠ .scratch) :
      (mk o [arg a, arg b, arg c] {}).Computes l W ready :=
    (computes_of_assigns ho (by simp [hkeeps])).mpr (by simpa [harg, hb, hc] using ha)
  exact ⟨hstep hwx hx hy, hstep hwy hx hy, hstep hwx hx hy, trivial⟩

theorem computes_swapVariables (hσ : σ.IsProper) (args : List CallArg)
    (h : ∀ i p, swap.variableAt σ args i = .ok p → MayWrite W p.register ∧ (p.isWide → MayWrite W p.fraction)) :
    Yields (swapVariables σ args) (Fills W) := by
  refine .skip fun _ => .known fun x hx => .known fun y hy => ?_
  have hxs := swap.suits_variableAt hσ args 0 x hx
  have hys := swap.suits_variableAt hσ args 1 y hy
  have hwx := h 0 x hx
  have hwy := h 1 y hy
  dsimp only
  split
  · exact .throw
  next hsame =>
    split
    · exact .ok fun _ _ => computes_nil
    · split
      · exact .ok (fills_exchange rfl (fun _ => rfl) hxs.ne_scratch hys.ne_scratch hwx.1 hwy.1 fun _ _ => by trivial)
      · refine .ok fun l ready => computes_append.mpr ⟨fills_exchange rfl (fun _ => rfl) hxs.ne_scratch hys.ne_scratch
          hwx.1 hwy.1 (fun _ _ => by trivial) l ready, computes_ite.mpr ⟨fun hwide => ?_, fun _ => trivial⟩⟩
        have htype : x.type = y.type := by simpa using fun h => hsame (.inl h)
        have hwide' : y.isWide := by simpa [Place.isWide, htype] using hwide
        exact fills_exchange rfl (fun _ => rfl) hxs.fraction hys.fraction (hwx.2 hwide) (hwy.2 hwide')
          (fun _ _ => by trivial) l _

theorem withSlots_stop (hhandler : l.names assertHandler) (args : List CallArg) :
    Yields (stop args) (WithSlots l W) := by
  refine .skip fun _ => .skip fun code => ?_
  split
  · exact .throw
  next hfits =>
    have hkeeps : (Arg.hex (lowWord code)).KeepsTo l .lui := l.numbers_lowWord rfl (by simpa using hfits)
    have hcode : Computes l W true [.scalarWith .lui [.scratch] (.hex (lowWord code))] :=
      (computes_scalarWith rfl rfl hkeeps).mpr ⟨⟨mayWrite_scratch, nofun⟩, trivial⟩
    exact .ok (hcode.withSlots.append (withSlots_jump rfl hhandler))

section
variable (hσ : σ.IsProper) (hargs : ∀ a ∈ args, a.All (Operand.KeepsTo l))
include hσ hargs

theorem computes_loadValue (hd : d.Open W) (hreach : d.isVector = false → load.Reaches l σ args 0)
    (swizzle : Option Swizzle) : Yields (loadValue σ d args swizzle) (Computes l W false) := by
  refine .skip fun _ => .skip fun _ => .known fun base hat => .known fun offset hoffset => ?_
  have hbase := load.fits_baseAt hσ hargs 0 base hat
  split
  next hscalar =>
    have hreach := hreach (by simpa using hscalar)
    exact .ok (computes_scalarAccess hreach hbase hat hoffset (.inl (loadOpcode_isScalarLoad d.type))
      hd.suits.ne_scratch fun _ => hd.register)
  · split
    · exact computes_accessWhole _ rfl (accesses_load rfl hd.register)
        (fun h => accesses_load rfl (hd.fraction h)) hbase _
    · split
      · exact .throw
      · exact computes_accessAt _ (accesses_load rfl hd.register) hbase _ (by decide) rfl
    · exact .error

def StoreReaches (l : Limits) (σ : ScopeStack) (args : List CallArg) : Prop :=
  ∀ o p, store.operandAt args 0 = .ok o → o.source σ = .ok (.variable p) → p.isVector = false → store.Reaches l σ args 1

theorem computes_storeValue (hreach : StoreReaches l σ args) : Yields (storeValue σ args) (Computes l W false) := by
  refine .skip fun _ => .known fun o ho => .known fun s hs => ?_
  have hfits := hσ.source (store.keepsTo_operandAt hargs 0 o ho) s hs
  split
  next p =>
    refine .known fun base hat => .known fun offset hoffset => ?_
    have hbase := store.fits_baseAt hσ hargs 1 base hat
    have hstore : (storeOpcode p.type).isScalarLoad = false := by cases p.type <;> rfl
    split
    next hscalar =>
      have hreach := hreach o p ho hs (by simpa using hscalar)
      exact .ok (computes_scalarAccess hreach hbase hat hoffset (.inr (storeOpcode_isScalarStore p.type))
        hfits.ne_scratch fun h => nomatch hstore.symm.trans h)
    · split
      · exact computes_accessWhole _ rfl (accesses_store hfits.ne_scratch rfl)
          (fun _ => accesses_store hfits.fraction rfl) hbase _
      · split
        · exact .throw
        · exact computes_accessAt _ (accesses_store hfits.ne_scratch rfl) hbase _ (by decide) rfl
      · exact .error
  · exact .error

theorem computes_loadBytes (b : Builtin) (ho : opcode.assigns)
    (hfield : opcode.field? = some (.scaled 8)) (hd : d.Open W) (swizzle : Option Swizzle) :
    Yields (b.loadBytes opcode σ d args swizzle) (Computes l W false) := by
  refine .skip fun _ => .skip fun _ => ?_
  split
  · exact .throw
  · refine .bind (b.fits_baseAt hσ hargs 0) fun base hbase => .skip fun offset => ?_
    exact computes_accessAt b (accesses_load ho hd.register) hbase _ (by decide) hfield

theorem computes_storeBytes (b : Builtin) (ho : opcode.isStore) (hfield : opcode.field? = some (.scaled 8)) :
    Yields (b.storeBytes opcode σ args) (Computes l W false) := by
  refine .skip fun _ => .bind (b.suits_vectorAt hσ args 0) fun p hp => ?_
  split
  · exact .throw
  · refine .bind (b.fits_baseAt hσ hargs 1) fun base hbase => .skip fun offset => ?_
    exact computes_accessAt b (accesses_store hp.ne_scratch ho) hbase _ (by decide) hfield

theorem computes_loadRow (hd : d.register ≠ .scratch)
    (hrows : ∀ first n : Fin 32, d.register = .vector first → first ≤ n → n.val < first.val + 8 → W (.vector n))
    (swizzle : Option Swizzle) : Yields (loadRow σ d args swizzle) (Computes l W false) := by
  refine .skip fun _ => .skip fun _ => .skip fun _ => .skip fun row => ?_
  refine .bind (loadTransposed.fits_baseAt hσ hargs 1) fun base hbase => .skip fun offset => ?_
  exact computes_accessAt _ (accesses_row hd hrows) hbase _ (by decide) rfl

theorem computes_storeRow : Yields (storeRow σ args) (Computes l W false) := by
  refine .skip fun _ => .bind (storeTransposed.suits_vectorAt hσ args 0) fun p hp => .skip fun _ => .skip fun row => ?_
  refine .bind (storeTransposed.fits_baseAt hσ hargs 2) fun base hbase => .skip fun offset => ?_
  exact computes_accessAt _ (accesses_store hp.ne_scratch rfl) hbase _ (by decide) rfl

omit hσ hargs in
theorem scalars_of_loadRow {swizzle} (h : loadRow σ d args swizzle = .ok code) (o : Operand)
    (name : String) (w : Variable) (ho : .operand o ∈ args) (hname : o.name? = some name)
    (hw : σ.variableNamed name = .ok w) : w.type.isVector = false := by
  obtain ⟨_, _, harity, -, h⟩ := bind₂_eq_ok.mp h
  obtain ⟨_, row, -, hrow, h⟩ := bind₂_eq_ok.mp h
  obtain ⟨base, offset, hbase, hoffset, -⟩ := bind₂_eq_ok.mp h
  obtain ⟨i, hi⟩ := mem_iff_getElem?.mp ho
  have hlt := (List.getElem?_eq_some_iff.mp hi).1
  have hat : loadTransposed.operandAt args i = .ok o := by
    unfold operandAt
    rw [hi]
  obtain ⟨atom, lanes⟩ := o
  cases atom with
  | constant | address => cases hname
  | «variable» x =>
    cases hname
    -- Numbers are asked for in front of the address and behind it.
    have hwhole {default v : Int64} : loadTransposed.wholeAt args i default ≠ .ok v := by
      rw [wholeAt, if_neg (Nat.not_le.mpr hlt), hat]
      intro h
      cases h
    rcases i with _ | _ | _ | i
    · unfold rowAt at hrow
      split at hrow
      · exact absurd ‹_› hwhole
      · cases hrow
    · obtain ⟨o, ho, hbase⟩ := bind_eq_ok.mp hbase
      cases hat.symm.trans ho
      obtain ⟨s, hs, hbase⟩ := bind_eq_ok.mp hbase
      obtain ⟨v, hv, hs⟩ := bind_eq_ok.mp hs
      cases hw.symm.trans hv
      split at hs
      · cases hs
      · cases hs
        dsimp only at hbase
        split at hbase
        · cases hbase
        next hvector => exact Bool.eq_false_iff.mpr hvector
    · exact absurd hoffset hwhole
    · simp [checkArity] at harity
      omega

theorem withSlots_run (b : Builtin) (hhandler : l.names assertHandler) (hreach : b = store → StoreReaches l σ args)
    (hswap : b = swap → ∀ i p, swap.variableAt σ args i = .ok p →
      MayWrite W p.register ∧ (p.isWide → MayWrite W p.fraction)) :
    Yields (b.run σ args) (WithSlots l W) := by
  cases b with
  | store => exact (computes_storeValue hσ hargs (hreach rfl)).mono fun _ => Computes.withSlots
  | storeUnsigned | storeSigned => exact (computes_storeBytes hσ hargs _ rfl rfl).mono fun _ => Computes.withSlots
  | storeTransposed => exact (computes_storeRow hσ hargs).mono fun _ => Computes.withSlots
  | swap => exact (computes_swapVariables hσ args (hswap rfl)).mono fun _ h => (h l true).withSlots
  | assertion => exact withSlots_stop hhandler args
  | _ => exact .error

theorem computes_value (b : Builtin) (hd : target.place.Open W)
    (hreach : b = load → target.place.isVector = false → load.Reaches l σ args 0)
    (hrows : b = loadTransposed → ∀ first n : Fin 32, target.place.register = .vector first → first ≤ n →
      n.val < first.val + 8 → W (.vector n))
    (swizzle : Option Swizzle) : Yields (b.value σ target args swizzle) (Computes l W false) := by
  cases b with
  | load => exact computes_loadValue hσ hargs hd (hreach rfl) swizzle
  | loadUnsigned | loadSigned => exact computes_loadBytes hσ hargs _ rfl rfl hd swizzle
  | loadTransposed => exact computes_loadRow hσ hargs hd.suits.ne_scratch (hrows rfl) swizzle
  | select => exact (computes_selectLanes hσ hd args swizzle).mono fun _ h => h l false
  | invert | invertHalf | invertHalfSqrt => exact (computes_reciprocal hσ _ hd args swizzle).mono fun _ h => h l false
  | _ => exact .error

end
end Builtin

section
variable (hσ : σ.IsProper) (hargs : ∀ a ∈ args, a.All (Operand.KeepsTo l))

theorem Source.Fits.moveArgument (hW : ∀ r, W r) {s : Source} (hs : s.Fits l) (register : Register) (type : DataType) :
    Yields (moveArgument register type s) (Computes l W false) := by
  have hw (r : Register) : MayWrite W r := .inr (.inr (hW r))
  unfold Microcode.moveArgument
  split
  · have hp : Register.Suits _ _ := hs
    dsimp only
    split
    · exact .throw
    · split
      · exact .ok computes_nil
      · split
        · exact .ok (by simp +decide [hw, hp.ne_scratch])
        · exact .ok (by simp +decide [hw, hp.ne_scratch, hp.fraction])
  · split
    · exact .error
    · split
      · exact .ok (computes_loadConstant (hw register) _)
      · exact .error
  · split
    · exact .error
    · exact .ok ((computes_address (l.of_cells hs)).mpr ⟨hw register, trivial⟩)

include hσ in
theorem computes_passArgument (hW : ∀ r, W r) (routine : String) (p : Parameter) (position : Nat) {arg : CallArg}
    (harg : arg.All (Operand.KeepsTo l)) :
    Yields (passArgument σ routine p position arg) (Computes l W false) := by
  unfold passArgument
  dsimp only
  split
  all_goals
    refine .skip fun register => ?_
    split
    · exact .bind (hσ.source harg) fun s hs => hs.moveArgument hW register p.type
    · exact .error

include hσ hargs

theorem computes_passArguments (hW : ∀ r, W r) (routine : String) (position : Nat) (params : List Parameter) :
    Yields (passArguments σ routine position params args) (Computes l W false) := by
  induction params generalizing position args with
  | nil => exact .ok computes_nil
  | cons p params ih =>
    cases args with
    | nil => exact .ok computes_nil
    | cons a args =>
      obtain ⟨ha, hargs⟩ := forall_mem_cons.mp hargs
      refine .bind (computes_passArgument hσ hW routine p position ha) fun first hfirst => ?_
      exact .bind (ih hargs (position + 1)) fun rest hrest =>
        .ok (computes_append.mpr ⟨hfirst, hrest.anywhere⟩)

theorem withSlots_callFunction (hW : ∀ r, W r) (hroutine : l.names routine)
    (params : List Parameter) : Yields (callFunction σ routine params args) (WithSlots l W) := by
  unfold callFunction
  split
  · exact .throw
  · exact .bind (computes_passArguments hσ hargs hW routine 0 params) fun moves hmoves =>
      .ok (hmoves.withSlots.append (withSlots_withSlot (forall_mem_singleton.mpr hroutine)
        fun r _ => .inr (.inr (hW r))))

theorem computes_callValue (signatures : Signatures) (hd : target.place.Open W) (name : String)
    (hreach : name = Builtin.load.name → target.place.isVector = false → Builtin.load.Reaches l σ args 0)
    (hrows : name = Builtin.loadTransposed.name → ∀ first n : Fin 32, target.place.register = .vector first → first ≤ n →
      n.val < first.val + 8 → W (.vector n))
    (swizzle : Option Swizzle) :
    Yields (callValue σ signatures target name args swizzle) (Computes l W false) := by
  unfold callValue
  split
  · exact .error
  · split
    next b hb =>
      have hfound := find?_some hb
      obtain rfl : b.name = name := beq_iff_eq.mp hfound
      exact Builtin.computes_value hσ hargs b hd (fun hload => hreach (congrArg Builtin.name hload))
        (fun hrow => hrows (congrArg Builtin.name hrow)) swizzle
    · split <;> exact .error

end
end Microcode
