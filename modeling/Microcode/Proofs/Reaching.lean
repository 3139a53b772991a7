import Microcode.Proofs.ControlFlow

/-!
Where the lines of structured statements take control.

`Reaches` says that a run gets from one point to another in some number of steps.  For each kind of lines
that lowering puts around blocks there is one lemma: instructions in a row, a jump, a return and a test.
-/

namespace Microcode

open CompareOp Instruction Location

variable {Value Memory : Type} {s t : MachineState Value Memory} {code : List Instruction} {a : Fin 32}

open Machine MachineState

/-- What a machine has to do right for comparisons and for the scratch register. -/
structure Machine.Lawful {Value Memory : Type} (M : Machine Value Memory) : Prop where
  exec_provenance : ∀ i p, M.exec { i with provenance := p } = M.exec i
  overwrites : ∀ i s t, i.isBranch = false → scratch ∉ i.reads → scratch ∈ i.writes →
    AgreeBut .scratch s t → M.exec i s = M.exec i t
  lessThan : ∀ signed a b s,
    M.word ((M.exec (.scalar (lessThan signed) [.scratch, .scalar a, .scalar b]) s).registers .scratch)
      = if wordNumber signed (M.word (s.registers (.scalar a)))
          < wordNumber signed (M.word (s.registers (.scalar b))) then 1 else 0

section
variable (M : Machine Value Memory)

/-- States that differ at most in the scratch register, with a zero in the register for it. -/
structure Machine.Alike (s t : MachineState Value Memory) : Prop where
  agree : AgreeBut .scratch s t
  zero : M.word (t.registers (.scalar 0)) = 0

variable {M} {u : MachineState Value Memory} {i : Instruction}

theorem Machine.exec_zero (hi : i.isBranch = false) (s : MachineState Value Memory) :
    (M.exec i s).registers (.scalar 0) = s.registers (.scalar 0) :=
  M.frame i s _ hi (i.effect_writes_constant rfl)

theorem Machine.execAll_zero (h : Straight code) (s : MachineState Value Memory) :
    (M.execAll code s).registers (.scalar 0) = s.registers (.scalar 0) := by
  induction code generalizing s with
  | nil => rfl
  | cons i code ih =>
    rw [straight_cons] at h
    exact (ih h.2 (M.exec i s)).trans (M.exec_zero h.1 s)

namespace Machine.Alike

theorem registers (h : M.Alike s t) (ha : a ≠ 1) : s.registers (.scalar a) = t.registers (.scalar a) :=
  h.agree.registers _ fun heq => ha (scalar.inj heq)

theorem wordOf (h : M.Alike s t) {v} (hv : v.register = .scalar a) (ha : a ≠ 1) :
    M.wordOf v s = M.word (t.registers (.scalar a)) := by
  rw [Machine.wordOf, hv]
  exact congrArg M.word (h.registers ha)

theorem exec_right (h : M.Alike s t) (hi : i.isBranch = false) (hwrites : ∀ l ∈ i.writes, l = .scratch)
    (hmemory : i.effect.memory ≠ .store) : M.Alike s (M.exec i t) where
  agree := by
    refine h.agree.trans ⟨fun l hl => ?_, (M.frameMemory i t hi hmemory).symm⟩
    exact (M.exec_frame hi (fun hw => hl (hwrites l hw)) t).symm
  zero := by rw [exec_zero hi, h.zero]

theorem execAll (hM : M.Lawful) (h : M.Alike s t) (hcode : IsComputation code) :
    M.Alike (M.execAll code s) (M.execAll code t) := by
  refine ⟨?_, by rw [execAll_zero hcode.straight, h.zero]⟩
  obtain ⟨hstraight, hignores⟩ := hcode
  replace h := h.agree
  induction code generalizing s t with
  | nil => exact h
  | cons i code ih =>
    rw [straight_cons] at hstraight
    obtain ⟨hread, hwrite⟩ := hignores
    show AgreeBut .scratch (M.execAll code (M.exec i s)) (M.execAll code (M.exec i t))
    rcases M.exec_but hstraight.1 rfl hread (fun hw => hM.overwrites i s t hstraight.1 hread hw h) h with
      heq | ⟨hagree, hw⟩
    · -- Behind the first write to it the register holds the same, so nothing differs any more.
      rw [heq]
      exact .refl _ _
    · exact ih hstraight.2 (hwrite.resolve_left hw) hagree

end Machine.Alike
end

section
variable (M : Machine Value Memory) (body : List Line)

def Machine.Reaches (c d : Control Value Memory) : Prop := ∃ n, (M.run body n c).2 = d

def Machine.LeavesIn (n : Nat) (c : Control Value Memory) : Prop := ∃ e t, (M.run body n c).2 = .left e t

variable {M body} {c d e : Control Value Memory}

theorem Machine.Reaches.refl (c : Control Value Memory) : M.Reaches body c c := ⟨0, rfl⟩

theorem Machine.Reaches.trans (h : M.Reaches body c d) (h' : M.Reaches body d e) : M.Reaches body c e := by
  obtain ⟨m, hm⟩ := h
  obtain ⟨n, hn⟩ := h'
  refine ⟨m + n, ?_⟩
  rw [run_add, hm]
  exact hn

theorem Machine.reaches_step (c : Control Value Memory) : M.Reaches body c (M.step body c).2 :=
  ⟨1, congrArg Prod.snd (M.run_one body c)⟩

variable {n : Nat}

theorem Machine.not_leavesIn_zero (k : List Line) (s : MachineState Value Memory) :
    ¬ M.LeavesIn body 0 (.running k s) := by
  rintro ⟨e, t, hleft⟩
  cases hleft

theorem Machine.LeavesIn.step (h : M.LeavesIn body (n + 1) c) : M.LeavesIn body n (M.step body c).2 := h

theorem Machine.Reaches.left_inj {x y}
    (h : M.Reaches body c (.left x s)) (h' : M.Reaches body c (.left y t)) : x = y ∧ s = t := by
  obtain ⟨m, hm⟩ := h
  obtain ⟨n, hn⟩ := h'
  have hleft : Control.left x s = .left y t := by
    rw [← hm, ← hn, ← M.run_of_left body hm (Nat.le_max_left m n), ← M.run_of_left body hn (Nat.le_max_right m n)]
  exact ⟨(Control.left.inj hleft).1, (Control.left.inj hleft).2⟩

theorem Machine.LeavesIn.of_reaches (h : M.LeavesIn body n c) (hd : M.Reaches body c d) : M.LeavesIn body n d := by
  obtain ⟨e, t, h⟩ := h
  obtain ⟨m, rfl⟩ := hd
  refine ⟨e, t, ?_⟩
  have hrun : (M.run body (m + n) c).2 = .left e t := by
    rw [M.run_of_left body h (Nat.le_add_left n m)]
    exact h
  rw [run_add] at hrun
  exact hrun

end

/-! ### The lines one by one -/

section
variable {M : Machine Value Memory} {body : List Line} {k : List Line}
 

theorem Machine.reaches_comments {comment} (h : ∀ l ∈ comment, l.isComment) :
    M.Reaches body (.running (comment ++ k) s) (.running k s) := by
  induction comment with
  | nil => exact .refl _
  | cons l comment ih =>
    obtain ⟨hl, hcomment⟩ := List.forall_mem_cons.mp h
    cases l with
    | comment c => exact .trans (reaches_step _) (ih hcomment)
    | _ => cases hl

theorem Machine.reaches_straight (hM : M.Lawful) (h : Straight code) (p : Provenance) :
    M.Reaches body (.running (stamped p code ++ k) s) (.running k (M.execAll code s)) := by
  induction code generalizing s with
  | nil => exact .refl _
  | cons i code ih =>
    rw [straight_cons] at h
    have hstep := M.step_plain body (stamped p code ++ k) s (i := { i with provenance := p }) h.1
    rw [hM.exec_provenance] at hstep
    exact .trans ⟨1, congrArg Prod.snd ((M.run_one body _).trans hstep)⟩ (ih h.2)

theorem Machine.reaches_emptySlot (i slot : Instruction) (hi : i.isBranch)
    (hjal : i.opcode ≠ .jal) (hslot : slot.isNop) :
    M.Reaches body (.running (.op i :: .op slot :: k) s)
      (if M.takes i s then (M.transfer body i (operand? i 0 s) k s).2 else .running k s) := by
  have hstep := M.step_branch body k s hi (isBranch_of_isNop hslot)
  rw [Machine.branch, M.exec_nop hslot, linked] at hstep
  refine ⟨1, (congrArg Prod.snd ((M.run_one body _).trans hstep)).trans ?_⟩
  split <;> rfl

theorem Machine.reaches_branch {o : Opcode} (hbranch : o.isBranch) (hjr : o ≠ .jr)
    (hjal : o ≠ .jal) (registers : List Register) (name : String) (p : Provenance) :
    M.Reaches body (.running (stamped p (withSlot (.scalarWith o registers (.label name))) ++ k) s)
      (if M.takes ⟨o, registers.map .reg ++ [.label name], p⟩ s then goto body name s
        else .running k s) := by
  have htransfer (address : Option Value) : (M.transfer body ⟨o, registers.map .reg ++ [.label name], p⟩ address k s).2
        = goto body name s := by
    have htarget : target? ⟨o, registers.map .reg ++ [.label name], p⟩ = some name := by
      simp [target?, isBranch, hbranch, Arg.label?]
    simp only [transfer, if_neg hjr, htarget, goto]
    cases locate name body with
    | some there => rfl
    | none => simp only [leave, if_neg hjal]
  rw [← htransfer]
  exact reaches_emptySlot _ ⟨.nop, [], p⟩ hbranch hjal rfl

theorem Machine.reaches_jump (p : Provenance) (name : String) :
    M.Reaches body (.running (stamped p (jump .j name) ++ k) s) (goto body name s) :=
  M.reaches_branch (o := .j) rfl (by decide) (by decide) [] name p

variable {name : String}

theorem Machine.goto_of_suffix (hd : (labels body).Nodup) (h : .label name :: k <:+ body)
    (t : MachineState Value Memory) : goto body name t = .running (.label name :: k) t := by
  rw [goto, locate_of_suffix hd h]

theorem Machine.reaches_goto (hd : (labels body).Nodup) (h : .label name :: k <:+ body) :
    M.Reaches body (.running (.label name :: k) s) (goto body name s) := by
  rw [goto_of_suffix hd h]
  exact .refl _

theorem Machine.reaches_label (hd : (labels body).Nodup)
    (h : .label name :: k <:+ body) : M.Reaches body (goto body name s) (.running k s) := by
  rw [goto_of_suffix hd h]
  exact reaches_step _

def returnTo (body : List Line) (isCommand : Bool) (s : MachineState Value Memory) : Control Value Memory :=
  if isCommand then goto body dispatchLoop s
  else .left (.address (some (s.registers .returnAddress))) s

theorem Machine.reaches_return (p : Provenance) (isCommand : Bool) :
    M.Reaches body (.running (stamped p (returnCode isCommand) ++ k) s) (returnTo body isCommand s) := by
  cases isCommand with
  | true => exact reaches_jump p dispatchLoop
  | false =>
    have hjal : Opcode.jr ≠ .jal := by decide
    exact reaches_emptySlot ⟨.jr, [.reg .returnAddress], p⟩ ⟨.nop, [], p⟩ rfl hjal rfl

theorem returnTo_eq (h : dispatchLoop ∉ labels body) (isCommand : Bool) :
    returnTo body isCommand s = .left (if isCommand then .symbol dispatchLoop
      else .address (some (s.registers .returnAddress))) s := by
  cases isCommand with
  | false => rfl
  | true =>
    show goto body dispatchLoop s = _
    rw [goto, locate_eq_none.mpr h]
    rfl

theorem Machine.reaches_beq (a b : Fin 32) (target : String) (p : Provenance) :
    M.Reaches body (.running (stamped p (branchOn .beq (.scalar a) (.scalar b) target) ++ k) s)
      (if M.word (s.registers (.scalar a)) == M.word (s.registers (.scalar b)) then goto body target s
        else .running k s) :=
  M.reaches_branch (o := .beq) rfl (by decide) (by decide) [.scalar a, .scalar b] target p

theorem Machine.reaches_bne (a b : Fin 32) (target : String) (p : Provenance) :
    M.Reaches body (.running (stamped p (branchOn .bne (.scalar a) (.scalar b) target) ++ k) s)
      (if M.word (s.registers (.scalar a)) != M.word (s.registers (.scalar b)) then goto body target s
        else .running k s) :=
  M.reaches_branch (o := .bne) rfl (by decide) (by decide) [.scalar a, .scalar b] target p

theorem wordNumber_inj {signed : Bool} {v w} : wordNumber signed v = wordNumber signed w ↔ v = w := by
  cases signed with
  | true => exact BitVec.toInt_inj
  | false => exact Int.ofNat_inj.trans BitVec.toNat_inj

theorem CompareOp.onNumbers_negate (op : CompareOp) (a b : Int) : op.negate.onNumbers a b = !op.onNumbers a b := by
  cases op <;> simp only [negate, onNumbers, ← decide_not, decide_eq_decide] <;> omega

theorem Machine.reaches_order (hM : M.Lawful) (h : M.Alike s t) (signed : Bool) (a b : Fin 32)
    (less : Bool) (target : String) (p : Provenance) :
    ∃ u, M.Alike s u ∧ M.Reaches body (.running (stamped p (.scalar (lessThan signed) [.scratch, .scalar a, .scalar b]
        :: branchOn (if less then .bne else .beq) .scratch .zero target) ++ k) t)
      (if decide (wordNumber signed (M.word (t.registers (.scalar a)))
          < wordNumber signed (M.word (t.registers (.scalar b)))) = less then goto body target u
        else .running k u) := by
  let i : Instruction := .scalar (lessThan signed) [.scratch, .scalar a, .scalar b]
  have hbranch : i.isBranch = false := by cases signed <;> rfl
  have hwrites : i.writes = [.scratch] := by cases signed <;> rfl
  have hmemory : (lessThan signed).memoryUse ≠ .store := by cases signed <;> decide
  have halike := h.exec_right hbranch (by simp [hwrites]) hmemory
  have hscratch : M.word ((M.exec i t).registers (.scalar 1)) = if _ then _ else _ := hM.lessThan signed a b t
  have hfirst (o : Opcode) : M.Reaches body (.running (stamped p (i :: branchOn o .scratch .zero target) ++ k) t)
      (.running (stamped p (branchOn o (.scalar 1) (.scalar 0) target) ++ k) (M.exec i t)) :=
    reaches_straight hM (straight_cons.mpr ⟨hbranch, straight_nil⟩) p
  have hbne : M.Reaches body _ _ := M.reaches_bne (k := k) (s := M.exec i t) 1 0 target p
  have hbeq : M.Reaches body _ _ := M.reaches_beq (k := k) (s := M.exec i t) 1 0 target p
  rw [hscratch, halike.zero] at hbne hbeq
  refine ⟨M.exec i t, halike, (hfirst _).trans ?_⟩
  cases less with
  | true => split at hbne <;> simpa [*] using hbne
  | false => split at hbeq <;> simpa [*] using hbeq

section
variable {σ : ScopeStack} {c : Comparison} {target : String} {lines : List Line}

/-- **Tests.**  The lines of a test go to the label if the comparison holds, and on if it does not. -/
theorem IsTest.reaches (htest : IsTest σ c target lines) (hM : M.Lawful) (h : M.Alike s t)
    (body k : List Line) : ∃ u, M.Alike s u ∧ M.Reaches body (.running (lines ++ k) t)
      (if c.holds M σ s then goto body target u else .running k u) := by
  obtain @⟨l, r, a, b, p, hleft, hright, ha, hb, ha', hb'⟩ := htest
  have hholds : c.holds M σ s = c.op.onNumbers (wordNumber l.type.isSigned (M.word (t.registers (.scalar a))))
      (wordNumber l.type.isSigned (M.word (t.registers (.scalar b)))) := by
    simp only [Comparison.holds, hleft, hright, h.wordOf ha ha', h.wordOf hb hb']
  rw [hholds]
  cases c.op with
  | eq =>
    refine ⟨t, h, ?_⟩
    simpa [branchRegisters, onNumbers, wordNumber_inj] using M.reaches_beq a b target p
  | ne =>
    refine ⟨t, h, ?_⟩
    simpa [branchRegisters, onNumbers, wordNumber_inj] using M.reaches_bne a b target p
  | lt => simpa [branchRegisters, onNumbers] using reaches_order hM h l.type.isSigned a b true target p
  | ge => simpa [branchRegisters, onNumbers] using reaches_order hM h l.type.isSigned a b false target p
  | gt => simpa [branchRegisters, onNumbers] using reaches_order hM h l.type.isSigned b a true target p
  | le => simpa [branchRegisters, onNumbers] using reaches_order hM h l.type.isSigned b a false target p

theorem IsTest.reaches_skip (htest : IsTest σ c.negate target lines) (hM : M.Lawful)
    (hd : (Microcode.labels body).Nodup) (h : M.Alike s t) (k : List Line) {k'}
    (hplace : .label target :: k' <:+ body) :
    ∃ u, M.Alike s u ∧ M.Reaches body (.running (lines ++ k) t) (.running (if c.holds M σ s then k else k') u) := by
  obtain ⟨u, hu, hreaches⟩ := htest.reaches hM h body k
  refine ⟨u, hu, ?_⟩
  obtain @⟨l, r, a, b, p, hleft, hright, -, -, -, -⟩ := htest
  have hnegate : c.negate.holds M σ s = !c.holds M σ s := by
    replace hleft : c.left.variable? σ = some l := hleft
    replace hright : c.right.variable? σ = some r := hright
    simp only [Comparison.holds, Comparison.negate, hleft, hright, onNumbers_negate]
  rw [hnegate] at hreaches
  generalize c.holds M σ s = holds at hreaches ⊢
  cases holds with
  | true => exact hreaches
  | false => exact hreaches.trans (reaches_label hd hplace)

end
end
end Microcode
