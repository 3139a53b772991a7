import Microcode.Proofs.Address
import Microcode.Proofs.Word

/-!
What selected instructions name, and the numbers that they hold.

An instruction has at most one field for a number, and the field takes the multiples of a step in a range.
-/

namespace Microcode

open Instruction List

/-- A field of an instruction: it takes the multiples of a step in a range. -/
structure NumberField where
  least : Int
  most : Int
  step : Int := 1
deriving DecidableEq

def NumberField.Takes (f : NumberField) (v : Int) : Prop := f.least ≤ v ∧ v ≤ f.most ∧ f.step ∣ v

instance (f : NumberField) (v : Int) : Decidable (f.Takes v) := inferInstanceAs (Decidable (_ ∧ _ ∧ _))

def NumberField.signed : NumberField := ⟨-32768, 32767, 1⟩

def NumberField.unsigned : NumberField := ⟨0, 65535, 1⟩

def NumberField.shift : NumberField := ⟨0, 31, 1⟩

/-- A field of 7 bits with a sign, in units of the size of an access. -/
def NumberField.scaled (size : Int) : NumberField := ⟨-64 * size, 63 * size, size⟩

def Opcode.field? : Opcode → Option NumberField
  | .addiu | .slti | .sltiu => some .signed
  | .andi | .ori | .xori | .lui => some .unsigned
  | .sll | .srl | .sra => some .shift
  | .lb | .lbu | .lh | .lhu | .lw | .sb | .sh | .sw => some .signed
  | .lbv | .sbv => some (.scaled 1)
  | .lsv | .ssv => some (.scaled 2)
  | .llv | .slv => some (.scaled 4)
  | .ldv | .lpv | .luv | .sdv | .spv | .suv => some (.scaled 8)
  | .lqv | .lrv | .ltv | .sqv | .srv | .stv => some (.scaled 16)
  | _ => none

theorem Opcode.field?_of_isScalarAccess (o : Opcode) : o.isScalarLoad ∨ o.isScalarStore → o.field? = some .signed := by
  cases o <;> decide

def Opcode.Takes (o : Opcode) (v : Int) : Prop := ∃ f ∈ o.field?, f.Takes v

instance (o : Opcode) (v : Int) : Decidable (o.Takes v) := inferInstanceAs (Decidable (∃ f ∈ o.field?, f.Takes v))

/-! ### Limits -/

/-- The symbols that an instruction may name, those of them that it may find in memory, and the numbers that
it may hold: all that its field takes, and maybe more. -/
structure Limits where
  names : String → Prop
  cells : String → Prop
  numbers : Opcode → Int → Prop
  of_cells : ∀ {name}, cells name → names name
  of_takes : ∀ {o v}, o.Takes v → numbers o v

/-- The argument of an instruction names an allowed symbol or holds an allowed number, if any. -/
def Arg.KeepsTo (l : Limits) (o : Opcode) : Arg → Prop
  | .label name | .low name _ => l.names name
  | .mem _ (some name) _ => l.cells name
  | .mem offset none _ => l.numbers o offset.toInt
  | .imm v => l.numbers o v.toInt
  | .hex v => l.numbers o v.toNat
  | .reg _ | .lanes .. => True

def Instruction.KeepsTo (l : Limits) (i : Instruction) : Prop := ∀ a ∈ i.args, a.KeepsTo l i.opcode

def Limits.Admit (l : Limits) (code : List Instruction) : Prop := ∀ i ∈ code, i.KeepsTo l

def Limits.Shift (l : Limits) (amount : Int) : Prop :=
  l.numbers .sll amount ∧ l.numbers .srl amount ∧ l.numbers .sra amount

/-- The offset of a scalar in memory from a register is allowed. -/
def Limits.Offset (l : Limits) (offset : Int) : Prop := ∀ o, o.isScalarLoad ∨ o.isScalarStore → l.numbers o offset

section
variable {l : Limits} {code rest : List Instruction} {i : Instruction}

@[simp] theorem Limits.admit_nil : l.Admit [] := fun _ h => absurd h not_mem_nil

@[simp] theorem Limits.admit_cons : l.Admit (i :: code) ↔ i.KeepsTo l ∧ l.Admit code := forall_mem_cons

@[simp] theorem Limits.admit_append : l.Admit (code ++ rest) ↔ l.Admit code ∧ l.Admit rest := forall_mem_append

variable {o : Opcode} {v : Int64}

theorem Instruction.keepsTo_iff {args p} : (mk o args p).KeepsTo l ↔ ∀ a ∈ args, a.KeepsTo l o := Iff.rfl

@[simp] theorem Instruction.keepsTo_scalar (o : Opcode) (registers : List Register) :
    (scalar o registers).KeepsTo l := by
  intro a ha
  obtain ⟨r, -, rfl⟩ := mem_map.mp ha
  simp [Arg.KeepsTo]

@[simp] theorem Instruction.keepsTo_scalarWith {registers} {last : Arg} :
    (scalarWith o registers last).KeepsTo l ↔ last.KeepsTo l o := by
  have hregisters : ∀ a ∈ registers.map Arg.reg, a.KeepsTo l o := keepsTo_scalar o registers
  rw [scalarWith, keepsTo_iff, forall_mem_append, forall_mem_singleton]
  exact and_iff_right hregisters

@[simp] theorem Instruction.keepsTo_nop : nop.KeepsTo l := by simp [nop, keepsTo_iff]

theorem Limits.numbers_of_field (l : Limits) {f} (hf : o.field? = some f) {v : Int} (h : f.Takes v) : l.numbers o v :=
  l.of_takes ⟨f, hf, h⟩

theorem Limits.numbers_signed (l : Limits) (hf : o.field? = some .signed) (h : fitsSigned v) : l.numbers o v.toInt :=
  l.numbers_of_field hf ⟨(fitsSigned_iff.mp h).1, (fitsSigned_iff.mp h).2, Int.one_dvd _⟩

theorem Limits.numbers_unsigned (l : Limits) (hf : o.field? = some .unsigned) {v : UInt32}
    (h : v.toNat ≤ 65535) : l.numbers o v.toNat :=
  l.numbers_of_field hf ⟨Int.natCast_nonneg _, by show (v.toNat : Int) ≤ 65535; omega, Int.one_dvd _⟩

theorem Limits.numbers_lowWord (l : Limits) (hf : o.field? = some .unsigned) (h : fitsUnsigned v) :
    l.numbers o (lowWord v).toNat := by
  have hbounds := fitsUnsigned_iff.mp h
  have hword := toNat_lowWord v
  exact l.numbers_unsigned hf (by omega)

end

def Operand.KeepsTo (l : Limits) (o : Operand) : Prop := ∀ name, o.atom = .address name → l.cells name

def Limits.none : Limits := ⟨fun _ => True, fun _ => True, fun _ _ => True, fun _ => trivial, fun _ => trivial⟩

theorem Operand.keepsTo_none (o : Operand) : o.KeepsTo .none := fun _ _ => trivial

end Microcode
