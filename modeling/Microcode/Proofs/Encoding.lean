import Microcode.Proofs.Occurrence

/-!
Which instructions can be encoded.

The number in an instruction has to fit the field that the machine has for it.  Where selection looks at a
constant, it does.
-/

namespace Microcode

open List Instruction Except Opcode Builtin

/-! ### Fields and what goes beyond them -/

def Arg.number? : Arg → Option Int
  | .imm v => some v.toInt
  | .hex v => some v.toNat
  | .mem offset none _ => some offset.toInt
  | _ => none

def Instruction.IsEncodable (i : Instruction) : Prop := ∀ a ∈ i.args, ∀ v ∈ a.number?, i.opcode.Takes v

instance (i : Instruction) : Decidable i.IsEncodable :=
  inferInstanceAs (Decidable (∀ a ∈ i.args, ∀ v ∈ a.number?, i.opcode.Takes v))

def Limits.encodable : Limits where
  names _ := True
  cells _ := True
  numbers := Opcode.Takes
  of_cells _ := trivial
  of_takes h := h

/-- A number beyond its field: a shift that leaves nothing of a word, or an offset of a scalar. -/
def Opcode.Strays (o : Opcode) (v : Int) : Prop :=
  (o = .sll ∨ o = .srl ∨ o = .sra) ∧ 32 ≤ v ∧ v ≤ 62 ∨ o.isScalarLoad ∨ o.isScalarStore

def Limits.selected : Limits where
  names _ := True
  cells _ := True
  numbers o v := o.Takes v ∨ o.Strays v
  of_cells _ := trivial
  of_takes h := .inl h

variable {o : Opcode}
variable {l : Limits} {i : Instruction} {op : BinaryOp} {args : List CallArg} {a : Action} {f : Frame}

theorem Arg.keepsTo_iff_number (hnames : ∀ name, l.names name) (hcells : ∀ name, l.cells name) {a : Arg} :
    a.KeepsTo l o ↔ ∀ v ∈ a.number?, l.numbers o v := by
  unfold Arg.KeepsTo Arg.number?
  split <;> simp [hnames, hcells]

theorem Instruction.keepsTo_encodable : i.KeepsTo .encodable ↔ i.IsEncodable :=
  forall₂_congr fun _ _ => Arg.keepsTo_iff_number (fun _ => trivial) fun _ => trivial

theorem Instruction.keepsTo_selected :
    i.KeepsTo .selected ↔ ∀ a ∈ i.args, ∀ v ∈ a.number?, i.opcode.Takes v ∨ i.opcode.Strays v :=
  forall₂_congr fun _ _ => Arg.keepsTo_iff_number (fun _ => trivial) fun _ => trivial

theorem Opcode.takes_shift (o : Opcode) {k : Int} (h : o = .sll ∨ o = .srl ∨ o = .sra) :
    o.Takes k ↔ 0 ≤ k ∧ k ≤ 31 := by
  rcases h with rfl | rfl | rfl <;>
    simp [Opcode.Takes, field?, NumberField.Takes, NumberField.shift]

variable {v : Int}

theorem Opcode.takes_access (h : o.isScalarLoad ∨ o.isScalarStore) : o.Takes v ↔ -32768 ≤ v ∧ v ≤ 32767 := by
  simp [Opcode.Takes, o.field?_of_isScalarAccess h, NumberField.Takes, NumberField.signed]

theorem Limits.encodable_shift {k : Int} : Limits.encodable.Shift k ↔ 0 ≤ k ∧ k ≤ 31 := by
  have htakes {o : Opcode} (ho : o = .sll ∨ o = .srl ∨ o = .sra) := o.takes_shift (k := k) ho
  exact ⟨fun h => (htakes (.inl rfl)).mp h.1, fun h => ⟨(htakes (.inl rfl)).mpr h,
    (htakes (.inr (.inl rfl))).mpr h, (htakes (.inr (.inr rfl))).mpr h⟩⟩

theorem Limits.encodable_offset : Limits.encodable.Offset v ↔ -32768 ≤ v ∧ v ≤ 32767 :=
  ⟨fun h => (takes_access (.inl rfl)).mp (h .lw (.inl rfl)), fun h _ ho => (takes_access ho).mpr h⟩

theorem Limits.selected_shift {k : Nat} (h : k ≤ 62) : Limits.selected.Shift k := by
  have hnumber {o : Opcode} (ho : o = .sll ∨ o = .srl ∨ o = .sra) : Limits.selected.numbers o k := by
    by_cases hwide : k ≤ 31
    · exact .inl ((o.takes_shift ho).mpr (by omega))
    · exact .inr (.inl ⟨ho, by omega, by omega⟩)
  exact ⟨hnumber (.inl rfl), hnumber (.inr (.inl rfl)), hnumber (.inr (.inr rfl))⟩

theorem Limits.selected_offset (v : Int) : Limits.selected.Offset v := fun _ ho => .inr (.inr ho)

theorem Instruction.takes_of_scalarWith {registers} {last : Arg}
    (h : (scalarWith o registers last).KeepsTo .encodable) (hlast : last.number? = some v) :
    o.Takes v :=
  (Arg.keepsTo_iff_number (fun _ => trivial) fun _ => trivial).mp (keepsTo_scalarWith.mp h) v hlast

variable {k : Int64}

theorem shift_of_shiftConstant {d s} (ho : o = .sll ∨ o = .srl ∨ o = .sra)
    (h : Limits.encodable.Admit (shiftConstant d s o k)) : Limits.encodable.Shift k.toInt := by
  rw [Limits.encodable_shift]
  unfold shiftConstant at h
  split at h
  next hzero =>
    rw [hzero]
    decide
  · exact (o.takes_shift ho).mp (takes_of_scalarWith (Limits.admit_cons.mp h).1 rfl)

variable {code : List Instruction}

theorem shift_of_constantStep {d s} {signed : Bool} {v : Int64}
    (hcode : constantStep d s signed op v = .ok code) (hop : op = .mul ∨ op = .div) (hk : log2? v = some k)
    (h : Limits.encodable.Admit code) : Limits.encodable.Shift k.toInt := by
  have hv : v ≠ 0 := by
    rintro rfl
    cases hk
  have hright : (if signed then sra else .srl) = .sll ∨ (if signed then sra else .srl) = .srl ∨
      (if signed then sra else .srl) = .sra := by
    cases signed <;> simp
  rcases hop with rfl | rfl
  · simp only [constantStep, hk, if_neg hv] at hcode
    cases hcode
    exact shift_of_shiftConstant (.inl rfl) h
  · simp only [constantStep, hk, if_neg hv] at hcode
    cases hcode
    exact shift_of_shiftConstant hright h

variable {σ : ScopeStack}

theorem shift_of_scalarWithConstant {target : Target} {left c} {v : Int64}
    (hcode : scalarWithConstant σ target op left c = .ok code) (hop : op = .mul ∨ op = .div)
    (hv : c.toInt? = some v) (hk : log2? v = some k) (h : Limits.encodable.Admit code) :
    Limits.encodable.Shift k.toInt := by
  obtain ⟨w, hw, hcode⟩ := bind_eq_ok.mp hcode
  obtain rfl : v = w := by
    rw [Constant.whole, hv] at hw
    exact ok.inj hw
  obtain ⟨l, -, -, -, hcode⟩ := bind₂_eq_ok.mp hcode
  split at hcode
  · rcases hop with hop | hop <;> cases hop
  · rcases hop with hop | hop <;> cases hop
  · obtain ⟨⟨s, front⟩, step, -, hstep, hcode⟩ := bind₂_eq_ok.mp hcode
    cases hcode
    exact shift_of_constantStep hstep hop hk (Limits.admit_append.mp h).2

theorem reaches_of_loadValue {d : Place} {swizzle}
    (hcode : loadValue σ d args swizzle = .ok code) (hscalar : d.isVector = false)
    (h : Limits.encodable.Admit code) : load.Reaches .encodable σ args 0 := by
  intro r offset hbase hoffset
  obtain ⟨-, -, -, -, hcode⟩ := bind₂_eq_ok.mp hcode
  obtain ⟨base, offset', hbase', hoffset', hcode⟩ := bind₂_eq_ok.mp hcode
  cases hbase.symm.trans hbase'
  cases hoffset.symm.trans hoffset'
  rw [hscalar] at hcode
  cases hcode
  rw [Limits.encodable_offset, ← takes_access (.inl (loadOpcode_isScalarLoad d.type))]
  exact takes_of_scalarWith (Limits.admit_cons.mp h).1 rfl

theorem reaches_of_storeValue (hcode : storeValue σ args = .ok code) (h : Limits.encodable.Admit code) :
    Builtin.StoreReaches .encodable σ args := by
  intro o p ho hp hscalar r offset hbase hoffset
  obtain ⟨-, o', -, ho', hcode⟩ := bind₂_eq_ok.mp hcode
  cases ho.symm.trans ho'
  obtain ⟨s, hs, hcode⟩ := bind_eq_ok.mp hcode
  cases hp.symm.trans hs
  obtain ⟨base, offset', hbase', hoffset', hcode⟩ := bind₂_eq_ok.mp hcode
  cases hbase.symm.trans hbase'
  cases hoffset.symm.trans hoffset'
  rw [hscalar] at hcode
  cases hcode
  rw [Limits.encodable_offset, ← takes_access (.inr (storeOpcode_isScalarStore p.type))]
  exact takes_of_scalarWith (Limits.admit_cons.mp h).1 rfl

theorem Action.Selects.reaches (hcode : a.Selects f σ code) (h : Limits.encodable.Admit code) :
    a.Reaches .encodable σ := by
  cases hcode with
  | @assign a v _ hallowed hcode =>
    intro w hw hscalar
    cases hallowed.target.symm.trans hw
    have hcode := hcode fun _ => true
    cases hvalue : a.value with
    | withConstant op o c =>
      intro hop v hv k hk
      rw [Assignment.code_scalar hallowed.target _ _ hscalar (by simp [hvalue]) (by simp [hvalue]), hvalue] at hcode
      exact shift_of_scalarWithConstant hcode hop hv hk h
    | call name args swizzle =>
      rintro rfl
      rw [Assignment.code_call hallowed.target _ _ hvalue] at hcode
      rw [callValue, if_neg (fun hname => hname.2 rfl)] at hcode
      exact reaches_of_loadValue hcode hscalar h
    | _ => trivial
  | @builtin name args b _ hname hcode =>
    rintro rfl
    obtain rfl : store = b := Option.some.inj hname
    exact reaches_of_storeValue hcode h
  | function hname =>
    rintro rfl
    cases hname
  | _ => trivial

theorem Occurs.reaches {τ} {piece : Piece} {x : Item} (hx : Occurs σ piece τ x)
    (ha : x = .action a) {n m : Nat} {lines} (h : Translated f σ n piece lines m)
    (hlines : Limits.encodable.AdmitLines lines) : a.Reaches .encodable τ := by
  induction hx generalizing f n m lines with
  | @action σ tag a' =>
    obtain rfl := Item.action.inj ha
    cases h with
    | declaration hdeclaration =>
      cases a' with
      | assign _ | call _ _ => cases hdeclaration
      | _ => trivial
    | label | asm => trivial
    | selected hcode => exact hcode.reaches (Limits.admitLines_stamped.mp hlines)
    | choose _ _ hvalue =>
      intro v _ _
      rw [hvalue]
      trivial
  | first _ ih =>
    cases h with
    | cons _ hfirst hrest =>
      simp only [Limits.admitLines_append] at hlines
      exact ih ha hfirst hlines.1.2
  | rest _ ih =>
    cases h with
    | cons _ hfirst hrest =>
      simp only [Limits.admitLines_append] at hlines
      exact ih ha hrest hlines.2
  | block _ ih =>
    cases h with
    | block hbody => exact ih ha hbody hlines
  | branch | whileLoop | loopUntil => cases ha
  | yes _ ih =>
    cases h with
    | branch _ hyes =>
      simp only [Limits.admitLines_append] at hlines
      exact ih ha hyes hlines.1.2
    | branchElse _ hyes _ =>
      simp only [Limits.admitLines_append, append_assoc] at hlines
      exact ih ha hyes hlines.2.1
  | no _ ih =>
    cases h with
    | branchElse _ _ hno =>
      simp only [Limits.admitLines_append, Limits.admitLines_label, append_assoc, cons_append] at hlines
      exact ih ha hno hlines.2.2.2.1
  | round _ ih =>
    cases h with
    | whileLoop _ hbody =>
      simp only [Limits.admitLines_append, Limits.admitLines_label, append_assoc, cons_append] at hlines
      exact ih ha hbody hlines.2.1
  | loop _ ih =>
    cases h with
    | loop hbody | loopUntil _ hbody =>
      simp only [Limits.admitLines_append, Limits.admitLines_label, append_assoc, cons_append] at hlines
      exact ih ha hbody hlines.1

theorem Routine.Translated.admit_numbers (hnames : ∀ name, l.names name) (hcells : ∀ name, l.cells name)
    {o} {signatures : Signatures} {r : Routine} {body} {first last : Nat}
    {code : Code} (h : r.Translated o signatures body first code last)
    (hactions : ∀ τ a, Occurs (r.scopes body) (.all (withoutAliases body)) τ (.action a) → a.Reaches l τ) :
    l.AdmitLines code.lines := by
  have hoperand (o : Operand) : o.KeepsTo l := fun name _ => hcells name
  have haccepts := h.accepts (fun name _ => hnames name) (fun name _ => hnames name) (hnames _) (hnames _)
  refine (haccepts fun τ x hx => ?_).admits
  cases x with
  | action a => exact ⟨a.all_of_forall hoperand, hactions τ a hx⟩
  | condition c => exact ⟨hoperand c.left, hoperand c.right⟩

/-- Nowhere in the program is a scalar multiplied or divided by a power of two that is no word, or found at an
offset from a register that needs more than 16 bits. -/
def Program.FitsFields (p : Program) : Prop := ∀ r ∈ p.routines, ∀ body, r.body = some body → ∀ τ a,
    Occurs (r.scopes body) (.all (withoutAliases body)) τ (.action a) → a.Reaches .encodable τ

theorem Action.reaches_selected (σ : ScopeStack) (a : Action) : a.Reaches .selected σ := by
  cases a with
  | assign a =>
    intro v _ _
    cases a.value with
    | withConstant op o c =>
      intro _ v _ k hk
      obtain ⟨n, hn, hkn, -⟩ := exists_of_log2? hk
      rw [hkn]
      exact Limits.selected_shift hn
    | call name args swizzle => exact fun _ r offset _ _ => Limits.selected_offset _
    | _ => trivial
  | call name args => exact fun _ o p _ _ _ r offset _ _ => Limits.selected_offset _
  | _ => trivial

theorem Program.Translated.encodable_iff {o} {p : Program} {codes : List Code} {made : Nat}
    (h : p.Translated o codes made) :
    (∀ c ∈ codes, Limits.encodable.AdmitLines c.lines) ↔ p.FitsFields := by
  constructor
  · intro hcodes r hr body hbody τ a ha
    obtain ⟨c, hc, first, last, htranslated⟩ := h.routines.exists_code hr hbody
    obtain ⟨lines, leave, hlines, -, heq⟩ := htranslated.lines
    have hadmits := hcodes c hc
    rw [heq, Limits.admitLines_append] at hadmits
    exact ha.reaches rfl hlines hadmits.1
  · intro hfits c hc
    obtain ⟨r, hr, body, hbody, first, last, htranslated⟩ := h.routines.exists_routine hc
    exact htranslated.admit_numbers (fun _ => trivial) (fun _ => trivial) (hfits r hr body hbody)

/-- **Which instructions can be encoded.**  The code of a program can be encoded exactly if the numbers that
selection takes over unchecked are in their fields.  Every other number is always in its field: one that is
not is the amount of a shift, between 32 and 62, or the offset of a scalar load or store. -/
theorem Program.lower_encodable {p : Program} {o : Options} {codes : List Code} {warnings : List Warning}
    (h : p.lower o = .ok (codes, warnings)) :
    ((∀ c ∈ codes, ∀ i, .op i ∈ c.lines → i.IsEncodable) ↔ p.FitsFields) ∧
      ∀ c ∈ codes, ∀ i, .op i ∈ c.lines → ∀ a ∈ i.args, ∀ v ∈ a.number?,
        i.opcode.Takes v ∨ i.opcode.Strays v := by
  obtain ⟨made, hmade⟩ := Program.translated_of_lower h
  constructor
  · rw [← hmade.encodable_iff]
    simp only [Limits.AdmitLines, Instruction.keepsTo_encodable]
  · intro c hc i hi
    obtain ⟨r, hr, body, hbody, first, last, htranslated⟩ := hmade.routines.exists_routine hc
    have hadmits := htranslated.admit_numbers (l := .selected) (fun _ => trivial) (fun _ => trivial)
      fun τ a _ => a.reaches_selected τ
    exact Instruction.keepsTo_selected.mp (hadmits i hi)

def Program.widening : Program where
  routines := [⟨.function, "f", [], some [.action ⟨1, []⟩ (.declare ⟨"a", .u32, none, false⟩),
       .action ⟨1, []⟩ (.declare ⟨"b", .u32, none, false⟩),
       .action ⟨1, []⟩ (.assign ⟨"a", none, none, .withConstant .mul (.ofName "b") (.int 4294967296), false⟩),
       .action ⟨1, []⟩ (.assign ⟨"a", none, none,
         .call "load" [.operand (.ofName "b"), .operand (.ofConstant (.int 65536))] none, false⟩)],
      [], 1⟩]

def Program.wideningCode : Code where
  name := "f"
  command := none
  argSize := 0
  align := none
  lines := [.op ⟨.sll, [.reg (.scalar 8), .reg (.scalar 9), .imm 32], ⟨1, none⟩⟩,
     .op ⟨.lw, [.reg (.scalar 8), .mem 65536 none (.scalar 9)], ⟨1, none⟩⟩,
     .op ⟨.jr, [.reg .returnAddress], ⟨1, none⟩⟩,
     .op ⟨.nop, [], ⟨1, none⟩⟩]

theorem Program.widening_not_fitsFields :
    Program.widening.lower {} = .ok ([Program.wideningCode], []) ∧ ¬Program.widening.FitsFields ∧
      ∀ i, .op i ∈ Program.wideningCode.lines → ∀ a ∈ i.args, ∀ v ∈ a.number?,
        i.opcode.Takes v ∨ i.opcode.Strays v := by
  have hlower : Program.widening.lower {} = .ok ([Program.wideningCode], []) := rfl
  obtain ⟨hiff, hnumbers⟩ := Program.lower_encodable hlower
  refine ⟨hlower, fun hfits => ?_, hnumbers _ List.mem_cons_self⟩
  have hencodable := hiff.mpr hfits _ List.mem_cons_self _ List.mem_cons_self
  exact absurd hencodable (by decide)

end Microcode
