import Microcode.Proofs.Execution
import Microcode.Peephole.Merge

/-!
What the names in an instruction matter for.

Instructions that are the same up to the names in them (`SameUpTo`) read and write the
same locations, compare the same operands and decide alike, and a branch that is turned round decides the other way.
-/

namespace Microcode

open List

def Arg.mapSymbols (f : String → String) : Arg → Arg
  | label l => label (f l)
  | low l o => low (f l) o
  | a => a

namespace Instruction

def mapSymbols (f : String → String) (i : Instruction) : Instruction := { i with args := i.args.map (Arg.mapSymbols f) }

/-- The same instruction, if names that `f` does not tell apart are the same. -/
def SameUpTo (f : String → String) (i j : Instruction) : Prop := i.mapSymbols f = j.mapSymbols f

def SameShape (i j : Instruction) : Prop := SameUpTo (fun _ => "") i j

end Instruction

/-! ### Registers -/

theorem Arg.locations_mapSymbols (f : String → String) (whole : Bool) (a : Arg) :
    (a.mapSymbols f).locations whole = a.locations whole := by
  cases a <;> rfl

theorem Arg.scalar?_mapSymbols (f : String → String) (a : Arg) : (a.mapSymbols f).scalar? = a.scalar? := by
  cases a <;> rfl

namespace Instruction

variable (f : String → String) (i : Instruction)

@[simp] theorem mapSymbols_opcode : (i.mapSymbols f).opcode = i.opcode := rfl

theorem mapSymbols_getElem? (n : Nat) : (i.mapSymbols f).args[n]? = i.args[n]?.map (Arg.mapSymbols f) := getElem?_map

theorem mapSymbols_mapSymbols (g : String → String) : (i.mapSymbols f).mapSymbols g = i.mapSymbols (g ∘ f) := by
  have harg (a : Arg) : (a.mapSymbols f).mapSymbols g = a.mapSymbols (g ∘ f) := by cases a <;> rfl
  simp only [mapSymbols, map_map, mk.injEq, true_and, and_true]
  exact map_congr_left fun a _ => harg a

@[simp] theorem wholeAt_mapSymbols (n : Nat) : (i.mapSymbols f).wholeAt n = i.wholeAt n := by
  unfold wholeAt
  rw [mapSymbols_getElem?]
  cases i.args[n]? with
  | none => rfl
  | some a => exact a.locations_mapSymbols f true

@[simp] theorem lanesAt_mapSymbols (n : Nat) : (i.mapSymbols f).lanesAt n = i.lanesAt n := by
  unfold lanesAt
  rw [mapSymbols_getElem?]
  cases i.args[n]? with
  | none => rfl
  | some a => exact a.locations_mapSymbols f false

@[simp] theorem transposedAt_mapSymbols (n : Nat) : (i.mapSymbols f).transposedAt n = i.transposedAt n := by
  unfold transposedAt
  rw [mapSymbols_getElem?]
  cases i.args[n]? with
  | none => rfl
  | some a => cases a <;> rfl

@[simp] theorem accessed_mapSymbols : (i.mapSymbols f).accessed = i.accessed := by
  unfold accessed
  simp only [mapSymbols_opcode, transposedAt_mapSymbols, lanesAt_mapSymbols, wholeAt_mapSymbols]

theorem flatMap_locations_mapSymbols : ((i.mapSymbols f).args.drop 1).flatMap (Arg.locations true)
      = (i.args.drop 1).flatMap (Arg.locations true) := by
  show ((i.args.map (Arg.mapSymbols f)).drop 1).flatMap (Arg.locations true) = _
  rw [← map_drop, flatMap_map]
  simp only [Arg.locations_mapSymbols]

theorem reads_mapSymbols : (i.mapSymbols f).reads = i.reads := by
  unfold reads
  simp only [mapSymbols_opcode, wholeAt_mapSymbols, lanesAt_mapSymbols, accessed_mapSymbols,
    flatMap_locations_mapSymbols]

theorem writes_mapSymbols : (i.mapSymbols f).writes = i.writes := by
  unfold writes
  simp only [mapSymbols_opcode, wholeAt_mapSymbols, lanesAt_mapSymbols, accessed_mapSymbols]

namespace SameUpTo

variable {f i} {j : Instruction}

theorem refl (f : String → String) (i : Instruction) : SameUpTo f i i := rfl

theorem trans {k} (h : SameUpTo f i j) (h' : SameUpTo f j k) : SameUpTo f i k := Eq.trans h h'

theorem shape (h : SameUpTo f i j) : SameShape i j := by
  have hconst : (fun _ => "") ∘ f = fun _ => "" := rfl
  unfold SameShape SameUpTo
  rw [← hconst, ← mapSymbols_mapSymbols, ← mapSymbols_mapSymbols, h]

theorem opcode (h : SameUpTo f i j) : i.opcode = j.opcode := by rw [← i.mapSymbols_opcode f, h, j.mapSymbols_opcode f]

theorem isBranch (h : SameUpTo f i j) : i.isBranch = j.isBranch := congrArg Opcode.isBranch h.opcode

theorem isNop (h : SameUpTo f i j) : i.isNop = j.isNop := by
  unfold Instruction.isNop
  rw [h.opcode]

theorem reads (h : SameUpTo f i j) : i.reads = j.reads := by rw [← i.reads_mapSymbols f, h, j.reads_mapSymbols f]

theorem writes (h : SameUpTo f i j) : i.writes = j.writes := by rw [← i.writes_mapSymbols f, h, j.writes_mapSymbols f]

end SameUpTo
end Instruction
variable {Value Memory : Type} {i j : Instruction} {o o' : Opcode}

namespace Machine

variable (M : Machine Value Memory) {s : MachineState Value Memory}

theorem operand?_mapSymbols (f : String → String) (i : Instruction) (n : Nat)
    (s : MachineState Value Memory) : operand? (i.mapSymbols f) n s = operand? i n s := by
  unfold operand?
  rw [Instruction.mapSymbols_getElem?]
  cases i.args[n]? with
  | none => rfl
  | some a => rw [Option.map_some, Option.bind_some, Option.bind_some, Arg.scalar?_mapSymbols]

theorem operand?_shape (h : i.SameShape j) (n : Nat) (s : MachineState Value Memory) :
    operand? i n s = operand? j n s := by
  rw [← operand?_mapSymbols (fun _ => "") i, h, operand?_mapSymbols]

theorem operand_shape (h : i.SameShape j) (n : Nat) (s : MachineState Value Memory) :
    M.operand i n s = M.operand j n s := by
  unfold operand
  rw [operand?_shape h]

theorem takes_shape (h : i.SameShape j) (s : MachineState Value Memory) : M.takes i s = M.takes j s := by
  unfold takes
  simp only [Instruction.SameUpTo.opcode h, M.operand_shape h]

theorem takes_negated (h : i.opcode.negated? = some o)
    (s : MachineState Value Memory) : M.takes { i with opcode := o } s = !M.takes i s := by
  have hop (n : Nat) : M.operand { i with opcode := o } n s = M.operand i n s := rfl
  unfold takes
  simp only [hop]
  unfold Opcode.negated? at h
  split at h <;> rename_i ho
  case h_7 => simp at h
  all_goals
    cases h
    rw [ho]
  · rfl
  · rw [bne, Bool.not_not]
  · rw [← decide_not, decide_eq_decide]
    exact Int.not_le.symm
  · rw [← decide_not, decide_eq_decide]
    exact Int.not_lt.symm
  · rw [← decide_not, decide_eq_decide]
    exact Int.not_lt.symm
  · rw [← decide_not, decide_eq_decide]
    exact Int.not_le.symm

end Machine

namespace Instruction

variable {x y : String}

theorem target?_eq_some : i.target? = some y ↔ i.isBranch ∧ i.args.getLast? = some (.label y) := by
  unfold target?
  constructor
  · intro h
    split at h
    case isFalse => simp at h
    case isTrue hb =>
      obtain ⟨a, ha, hl⟩ := Option.bind_eq_some_iff.mp h
      refine ⟨hb, ?_⟩
      cases a with
      | label l => rw [ha, Option.some.inj hl]
      | _ => exact absurd hl (by simp [Arg.label?])
  · rintro ⟨hb, hl⟩
    rw [if_pos hb, hl]
    rfl

theorem target?_mapSymbols (f : String → String) (i : Instruction) : (i.mapSymbols f).target? = i.target?.map f := by
  have hlabel (a : Arg) : (a.mapSymbols f).label? = a.label?.map f := by cases a <;> rfl
  show (if i.isBranch then (i.args.map (Arg.mapSymbols f)).getLast?.bind Arg.label? else none) = _
  unfold target?
  split
  · rw [getLast?_map]
    cases i.args.getLast? with
    | none => rfl
    | some a => exact hlabel a
  · rfl

theorem withTarget_eq (h : i.target? = some y) (x : String) :
    i.withTarget x = { i with args := i.args.dropLast ++ [.label x] } := by
  unfold withTarget
  rw [(target?_eq_some.mp h).2]

theorem args_eq (h : i.target? = some y) : i.args.dropLast ++ [.label y] = i.args := by
  obtain ⟨init, hinit⟩ := getLast?_eq_some_iff.mp (target?_eq_some.mp h).2
  rw [hinit, dropLast_concat]

theorem withTarget_self (h : i.target? = some y) : i.withTarget y = i := by rw [withTarget_eq h, args_eq h]

theorem target?_withTarget (h : i.target? = some y) (x : String) : (i.withTarget x).target? = some x := by
  rw [withTarget_eq h, target?_eq_some]
  exact ⟨(target?_eq_some.mp h).1, getLast?_concat⟩

theorem withTarget_shape (h : i.target? = some y) (x : String) : (i.withTarget x).SameShape i := by
  rw [withTarget_eq h]
  unfold SameShape SameUpTo mapSymbols
  rw [← args_eq h, dropLast_concat, map_append, map_append]
  rfl

theorem isBranch_of_isConditional (h : i.opcode.isConditional) : i.isBranch := by
  unfold Instruction.isBranch Opcode.isBranch
  unfold Opcode.isConditional at h
  rw [h, Bool.true_or]

theorem isSome_negated? (o : Opcode) : o.negated?.isSome = o.isConditional := by cases o <;> rfl

theorem isConditional_of_negated? (h : o.negated? = some o') : o.isConditional := by
  rw [← isSome_negated?, h, Option.isSome_some]

theorem negated?_isConditional (h : o.negated? = some o') : o'.isConditional := by
  unfold Opcode.negated? at h
  split at h
  case h_7 => simp at h
  all_goals
    rw [← Option.some.inj h]
    rfl

theorem turned?_isSome (h : i.opcode.isConditional) (x : String) : ∃ j, i.turned? x = some j := by
  rw [← isSome_negated?] at h
  obtain ⟨o, ho⟩ := Option.isSome_iff_exists.mp h
  unfold turned?
  rw [ho]
  exact ⟨_, rfl⟩

structure Turns (i j : Instruction) (x : String) : Prop where
  negated : i.opcode.negated? = some j.opcode
  shape : j.SameShape { i with opcode := j.opcode }
  target : j.target? = some x

theorem turns_of_turned? (h : i.turned? x = some j) (hy : i.target? = some y) : Turns i j x := by
  obtain ⟨o, ho, rfl⟩ := Option.map_eq_some_iff.mp h
  have hbranch : ({ i with opcode := o } : Instruction).isBranch :=
    isBranch_of_isConditional (negated?_isConditional ho)
  have htarget : ({ i with opcode := o } : Instruction).target? = some y :=
    target?_eq_some.mpr ⟨hbranch, (target?_eq_some.mp hy).2⟩
  have hshape := withTarget_shape htarget x
  have hopcode : (({ i with opcode := o } : Instruction).withTarget x).opcode = o := SameUpTo.opcode hshape
  refine ⟨?_, ?_, target?_withTarget htarget x⟩
  · rw [hopcode]
    exact ho
  · rw [hopcode]
    exact hshape

namespace Turns

theorem isConditional (h : Turns i j x) : j.opcode.isConditional := negated?_isConditional h.negated

theorem isBranch (h : Turns i j x) : j.isBranch := isBranch_of_isConditional h.isConditional

theorem reads (h : Turns i j x) : j.reads = i.reads := by
  have hnegated := h.negated
  rw [SameUpTo.reads h.shape]
  generalize j.opcode = o at hnegated ⊢
  unfold Opcode.negated? at hnegated
  unfold Instruction.reads
  split at hnegated <;> rename_i ho
  case h_7 => simp at hnegated
  all_goals
    rw [← Option.some.inj hnegated, ho]
    rfl

theorem takes (M : Machine Value Memory) (h : Turns i j x)
    (s : MachineState Value Memory) : M.takes j s = !M.takes i s := by
  rw [M.takes_shape h.shape, M.takes_negated h.negated]

end Turns
end Instruction
end Microcode
