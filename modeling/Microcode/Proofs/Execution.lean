import Microcode.Proofs.Interpretation

/-!
Executing a body of code with delay slots.

A `Machine` adds to an interpretation what branches need: the number that a register stands for, the return
address that a call leaves, what a function outside does before it returns, and what a text does.
-/

namespace Microcode

open List Instruction Option

variable {i : Instruction} {body there : List Line} {n m : Nat}

/-- How control leaves a body of code. -/
inductive Exit (Value : Type) where
  /-- Behind the last line. -/
  | bottom
  /-- To a symbol that is no label of the body. -/
  | symbol (name : String)
  /-- To the address that a register holds. -/
  | address (value : Option Value)
  /-- Into a function that does not return. -/
  | lost (name : String)
  /-- At a branch without an instruction in its slot, or without a target. -/
  | undefined

inductive Event (Value Memory : Type) where
  /-- An instruction that is no branch, in a slot or not. -/
  | executed (i : Instruction)
  /-- Control comes to a label. -/
  | label (name : String) (s : MachineState Value Memory)
  /-- A branch with its decision, and the state behind its slot. -/
  | branched (i : Instruction) (taken : Bool) (s : MachineState Value Memory)
  /-- A function outside is entered in a state. -/
  | called (name : String) (s : MachineState Value Memory)
  /-- A text, and the state behind it. -/
  | passed (text : String) (s : MachineState Value Memory)

inductive Control (Value Memory : Type) where
  /-- Before the first of some lines. -/
  | running (rest : List Line) (s : MachineState Value Memory)
  /-- Outside for good. -/
  | left (e : Exit Value) (s : MachineState Value Memory)

/-- What branches, calls and texts mean, beside the other instructions. -/
structure Machine (Value Memory : Type) extends Interpretation Value Memory where
  /-- The number that a branch compares. -/
  word : Value → BitVec 32
  /-- The return address that a call leaves. -/
  link : Instruction → Value
  /-- What a function outside does before it returns, if it does. -/
  callee : String → MachineState Value Memory → Option (MachineState Value Memory)
  /-- What a text does, and the label that it jumps to, if it does. -/
  text : String → MachineState Value Memory → MachineState Value Memory × Option String

def Arg.scalar? : Arg → Option (Fin 32)
  | .reg (.scalar r) => some r
  | _ => none

/-- The lines of a body from a label on; of two labels with the name the first counts. -/
def locate (name : String) : List Line → Option (List Line)
  | [] => none
  | l :: rest => if l = .label name then some (l :: rest) else locate name rest

theorem locate_suffix {name : String} (h : locate name body = some there) : there <:+ body := by
  induction body with
  | nil => simp [locate] at h
  | cons l rest ih =>
    unfold locate at h
    split at h
    · cases h
      exact suffix_refl _
    · exact (ih h).trans (suffix_cons l rest)

theorem locate_append (name : String) (front rest : List Line) : locate name (front ++ rest)
      = ((locate name front).map (· ++ rest)).or (locate name rest) := by
  induction front with
  | nil => rfl
  | cons l front ih =>
    simp only [cons_append, locate]
    split
    · rfl
    · exact ih

theorem locate_instructions (name : String) {lines} (h : ∀ l ∈ lines, l.isInstruction) : locate name lines = none := by
  induction lines with
  | nil => rfl
  | cons l rest ih =>
    have hl : l ≠ .label name := by
      rintro rfl
      exact Bool.noConfusion (h _ (.head _))
    rw [locate, if_neg hl]
    exact ih fun m hm => h m (.tail l hm)

/-- The lines behind the slot of the branch with a number. -/
def behind : Nat → List Line → Option (List Line)
  | _, [] => none
  | n, l :: rest =>
    if l.isBranch then
      match n with
      | 0 => some (rest.drop 1)
      | n + 1 => behind n rest
    else behind n rest

variable {l : Line}

theorem behind_plain (h : l.isBranch = false) (n : Nat) (rest : List Line) : behind n (l :: rest) = behind n rest := by
  cases n <;> simp [behind, h]

theorem behind_branch (h : l.isBranch) (rest : List Line) : behind 0 (l :: rest) = some (rest.drop 1) := by
  simp [behind, h]

theorem behind_branch_succ (h : l.isBranch) (n : Nat) (rest : List Line) :
    behind (n + 1) (l :: rest) = behind n rest := by
  simp [behind, h]

theorem behind_plain_append {front} (h : ∀ l ∈ front, l.isBranch = false) (n : Nat)
    (rest : List Line) : behind n (front ++ rest) = behind n rest := by
  induction front with
  | nil => rfl
  | cons l front ih =>
    rw [cons_append, behind_plain (h l (.head _))]
    exact ih fun m hm => h m (.tail l hm)

theorem behind_suffix (h : behind n body = some there) : there <:+ body := by
  induction body generalizing n with
  | nil => simp [behind] at h
  | cons l rest ih =>
    have hrest := suffix_cons l rest
    unfold behind at h
    split at h
    · cases n with
      | zero =>
        rw [← some.inj h]
        exact (drop_suffix 1 rest).trans hrest
      | succ n => exact (ih h).trans hrest
    · exact (ih h).trans hrest

namespace Machine

variable {Value Memory : Type} (M : Machine Value Memory)

def operand? (i : Instruction) (n : Nat) (s : MachineState Value Memory) : Option Value :=
  (i.args[n]?.bind Arg.scalar?).map fun r => s.registers (.scalar r)

/-- The number in the register that an argument names; an argument that names none is zero. -/
def operand (i : Instruction) (n : Nat) (s : MachineState Value Memory) : BitVec 32 :=
  ((operand? i n s).map M.word).getD 0

def takes (i : Instruction) (s : MachineState Value Memory) : Bool := match i.opcode with
  | .beq => M.operand i 0 s == M.operand i 1 s
  | .bne => M.operand i 0 s != M.operand i 1 s
  | .blez => (M.operand i 0 s).toInt ≤ 0
  | .bgtz => 0 < (M.operand i 0 s).toInt
  | .bltz => (M.operand i 0 s).toInt < 0
  | .bgez => 0 ≤ (M.operand i 0 s).toInt
  | .j | .jal | .jr => true
  | _ => false

/-- The state after a branch itself: a call leaves its return address. -/
def linked (i : Instruction) (s : MachineState Value Memory) : MachineState Value Memory :=
  if i.opcode = .jal then s.set .returnAddress (M.link i) else s

def goto (body : List Line) (name : String) (s : MachineState Value Memory) : Control Value Memory :=
  match locate name body with
  | some rest => .running rest s
  | none => .left (.symbol name) s

inductive Entry where
  | top
  | label (name : String)
  /-- Behind the slot of a branch, where a function that it calls comes back to. -/
  | behind (branch : Nat)

def enter (body : List Line) : Entry → MachineState Value Memory → Control Value Memory
  | .top, s => .running body s
  | .label name, s => goto body name s
  | .behind n, s =>
    match Microcode.behind n body with
    | some rest => .running rest s
    | none => .left .undefined s

/-- A jump or a call to a symbol outside.  A function that returns does so behind the slot. -/
def leave (i : Instruction) (name : String) (rest : List Line) (s : MachineState Value Memory) :
    List (Event Value Memory) × Control Value Memory :=
  if i.opcode = .jal then
    match M.callee name s with
    | some t => ([.called name s], .running rest t)
    | none => ([.called name s], .left (.lost name) s)
  else ([], .left (.symbol name) s)

/-- Where a branch that is taken goes, given the address in its register, the lines behind its slot and
the state there. -/
def transfer (body : List Line) (i : Instruction) (address : Option Value) (rest : List Line)
    (s : MachineState Value Memory) : List (Event Value Memory) × Control Value Memory :=
  if i.opcode = .jr then ([], .left (.address address) s)
  else
    match i.target? with
    | none => ([], .left .undefined s)
    | some name =>
      match locate name body with
      | some there => ([], .running there s)
      | none => M.leave i name rest s

def branch (body : List Line) (i slot : Instruction) (rest : List Line)
    (s : MachineState Value Memory) : List (Event Value Memory) × Control Value Memory :=
  let t := M.exec slot (M.linked i s)
  let events := [.executed slot, .branched i (M.takes i s) t]
  if M.takes i s then
    let moved := M.transfer body i (operand? i 0 s) rest t
    (events ++ moved.1, moved.2)
  else (events, .running rest t)

def step (body : List Line) : Control Value Memory → List (Event Value Memory) × Control Value Memory
  | .left e s => ([], .left e s)
  | .running [] s => ([], .left .bottom s)
  | .running (.label name :: rest) s => ([.label name s], .running rest s)
  | .running (.comment _ :: rest) s => ([], .running rest s)
  | .running (.raw text :: rest) s =>
    match M.text text s with
    | (t, none) => ([.passed text t], .running rest t)
    | (t, some name) => ([.passed text t], goto body name t)
  | .running (.op i :: rest) s =>
    if i.isBranch then
      match rest with
      | .op slot :: rest => if slot.isBranch then ([], .left .undefined s) else M.branch body i slot rest s
      | _ => ([], .left .undefined s)
    else ([.executed i], .running rest (M.exec i s))

def run (body : List Line) : Nat → Control Value Memory → List (Event Value Memory) × Control Value Memory
  | 0, c => ([], c)
  | n + 1, c =>
    let first := M.step body c
    let more := run body n first.2
    (first.1 ++ more.1, more.2)

section
variable (body rest : List Line) (s : MachineState Value Memory)

@[simp] theorem step_left (e : Exit Value) : M.step body (.left e s) = ([], .left e s) := rfl

@[simp] theorem step_label (name : String) :
    M.step body (.running (.label name :: rest) s) = ([.label name s], .running rest s) := rfl

@[simp] theorem step_comment (c : String) : M.step body (.running (.comment c :: rest) s) = ([], .running rest s) := rfl

theorem step_plain (h : i.isBranch = false) :
    M.step body (.running (.op i :: rest) s) = ([.executed i], .running rest (M.exec i s)) := by
  simp [step, h]

theorem step_branch {slot} (h : i.isBranch) (hslot : slot.isBranch = false) :
    M.step body (.running (.op i :: .op slot :: rest) s) = M.branch body i slot rest s := by
  simp [step, h, hslot]

theorem step_undefined (h : i.isBranch) (hslot : ∀ slot more, rest = .op slot :: more → slot.isBranch) :
    M.step body (.running (.op i :: rest) s) = ([], .left .undefined s) := by
  simp only [step, h, if_true]
  split
  next slot more => rw [if_pos (hslot slot more rfl)]
  · rfl

end

section
variable {s t : MachineState Value Memory}

theorem operand?_congr (h : ∀ l ∈ i.wholeAt n, s.registers l = t.registers l)
    (hconst : ∀ l, l.isConstant → s.registers l = t.registers l) :
    operand? i n s = operand? i n t := by
  unfold operand?
  cases hr : i.args[n]?.bind Arg.scalar? with
  | none => rfl
  | some r =>
    obtain ⟨a, ha, har⟩ := bind_eq_some_iff.mp hr
    have hreg : a = .reg (.scalar r) := by
      unfold Arg.scalar? at har
      split at har
      · rw [some.inj har]
      · simp at har
    rw [map_some]
    congr 1
    by_cases h0 : r = 0
    · exact hconst _ (by rw [h0]; rfl)
    · refine h _ ?_
      simp [wholeAt, ha, hreg, Arg.locations, Register.locations, h0]

theorem operand_congr (h : ∀ l ∈ i.wholeAt n, s.registers l = t.registers l)
    (hconst : ∀ l, l.isConstant → s.registers l = t.registers l) :
    M.operand i n s = M.operand i n t := by
  unfold operand
  rw [operand?_congr h hconst]

theorem takes_congr (h : ∀ l ∈ i.reads, s.registers l = t.registers l)
    (hconst : ∀ l, l.isConstant → s.registers l = t.registers l) :
    M.takes i s = M.takes i t := by
  have htwo (hreads : i.reads = i.wholeAt 0 ++ i.wholeAt 1) :
      M.operand i 0 s = M.operand i 0 t ∧ M.operand i 1 s = M.operand i 1 t := by
    rw [hreads] at h
    exact ⟨M.operand_congr (fun l hl => h l (mem_append_left _ hl)) hconst,
      M.operand_congr (fun l hl => h l (mem_append_right _ hl)) hconst⟩
  have hone (hreads : i.reads = i.wholeAt 0) : M.operand i 0 s = M.operand i 0 t := by
    rw [hreads] at h
    exact M.operand_congr h hconst
  unfold takes
  split <;> rename_i ho
  · obtain ⟨h0, h1⟩ := htwo (by unfold reads; rw [ho])
    rw [h0, h1]
  · obtain ⟨h0, h1⟩ := htwo (by unfold reads; rw [ho])
    rw [h0, h1]
  · rw [hone (by unfold reads; rw [ho])]
  · rw [hone (by unfold reads; rw [ho])]
  · rw [hone (by unfold reads; rw [ho])]
  · rw [hone (by unfold reads; rw [ho])]
  all_goals rfl

theorem operand?_congr_jr (ho : i.opcode = .jr) (h : ∀ l ∈ i.reads, s.registers l = t.registers l)
    (hconst : ∀ l, l.isConstant → s.registers l = t.registers l) :
    operand? i 0 s = operand? i 0 t := by
  have hreads : i.reads = i.wholeAt 0 := by unfold reads; rw [ho]
  rw [hreads] at h
  exact operand?_congr h hconst

theorem transfer_address (body : List Line) {a b} (h : i.opcode = .jr → a = b)
    (rest : List Line) : M.transfer body i a rest s = M.transfer body i b rest s := by
  unfold transfer
  split
  next ho => rw [h ho]
  · rfl

end

section
variable (body : List Line) (c : Control Value Memory)

@[simp] theorem run_zero : M.run body 0 c = ([], c) := rfl

theorem run_succ (n : Nat) (c : Control Value Memory) : M.run body (n + 1) c
      = ((M.step body c).1 ++ (M.run body n (M.step body c).2).1, (M.run body n (M.step body c).2).2) := rfl

theorem run_one : M.run body 1 c = M.step body c := by rw [run_succ, run_zero, append_nil]

theorem run_add (m n : Nat) (c : Control Value Memory) : M.run body (m + n) c
      = ((M.run body m c).1 ++ (M.run body n (M.run body m c).2).1, (M.run body n (M.run body m c).2).2) := by
  induction m generalizing c with
  | zero => simp
  | succ m ih =>
    rw [Nat.succ_add, run_succ, ih, run_succ]
    simp only [append_assoc]

@[simp] theorem run_left (n : Nat) (e : Exit Value) (s : MachineState Value Memory) :
    M.run body n (.left e s) = ([], .left e s) := by
  induction n with
  | zero => rfl
  | succ n ih => rw [run_succ, step_left, ih, append_nil]

theorem run_of_left {c e s} (h : (M.run body m c).2 = .left e s) (hmn : m ≤ n) : M.run body n c = M.run body m c := by
  obtain ⟨k, rfl⟩ := Nat.exists_eq_add_of_le hmn
  rw [run_add, h, run_left, append_nil, ← h]

theorem run_extends (hmn : m ≤ n) (c : Control Value Memory) : (M.run body m c).1 <+: (M.run body n c).1 := by
  obtain ⟨k, rfl⟩ := Nat.exists_eq_add_of_le hmn
  rw [run_add]
  exact ⟨_, rfl⟩

end
end Machine
end Microcode
