import Microcode.Proofs.Chain

/-!
Loads that change nothing.

The pass over loads keeps what it knows of the registers.  All of it is true wherever control comes by
(`Machine.Knows`), since nothing is known behind a label, a call or a text, and so a load is left out only where its
register holds the value already.
-/

namespace Microcode

open List Instruction Option Environment

def Loaded.text : Loaded → String
  | .word v => "0x" ++ String.ofList (Nat.toDigits 16 v.toNat)
  | .low name offset => "%lo(" ++ name ++ "+" ++ offset.toInt.repr ++ ")"

theorem toDigits_hex_injective {m n : Nat} (h : Nat.toDigits 16 m = Nat.toDigits 16 n) : m = n := by
  have hdigit : ∀ a < 16, ∀ b < 16, Nat.digitChar a = Nat.digitChar b → a = b := by decide
  have hlast (k : Nat) : (Nat.toDigits 16 k).getLast? = some (Nat.digitChar (k % 16)) := by
    rw [Nat.toDigits_eq_if (by decide)]
    split
    next hk => rw [Nat.mod_eq_of_lt hk, getLast?_singleton]
    · rw [getLast?_concat]
  have hfront (k : Nat) : (Nat.toDigits 16 k).dropLast = if k < 16 then [] else Nat.toDigits 16 (k / 16) := by
    rw [Nat.toDigits_eq_if (by decide)]
    split
    · rfl
    · rw [dropLast_concat]
  induction m using Nat.strongRecOn generalizing n with
  | ind m ih =>
    have hmod : m % 16 = n % 16 := by
      refine hdigit _ (Nat.mod_lt m (by decide)) _ (Nat.mod_lt n (by decide)) (some.inj ?_)
      rw [← hlast, ← hlast, h]
    have hdiv := congrArg dropLast h
    rw [hfront, hfront] at hdiv
    split at hdiv <;> split at hdiv
    · omega
    · exact absurd hdiv.symm Nat.toDigits_ne_nil
    · exact absurd hdiv Nat.toDigits_ne_nil
    · have := ih (m / 16) (by omega) hdiv
      omega

theorem plus_not_mem_repr (v : Int) : '+' ∉ v.repr.toList := by
  have hnat (n : Nat) : '+' ∉ n.repr.toList := by
    rw [Nat.repr_eq_ofList_toDigits, String.toList_ofList]
    intro h
    exact absurd (Nat.isDigit_of_mem_toDigits (by decide) (by decide) h) (by decide)
  rw [Int.repr_eq_if]
  split
  · exact hnat _
  · rw [String.toList_append, mem_append]
    exact not_or.mpr ⟨by decide, hnat _⟩

theorem append_cons_inj_of_not_mem {α : Type} {c : α} {a a' b b' : List α} (hb : c ∉ b) (hb' : c ∉ b')
    (h : a ++ c :: b = a' ++ c :: b') : a = a' ∧ b = b' := by
  rcases append_eq_append_iff.mp h with ⟨_ | ⟨x, front⟩, ha, hc⟩ | ⟨_ | ⟨x, front⟩, ha, hc⟩
  all_goals simp only [nil_append, cons_append, List.cons.injEq, true_and] at hc
  · exact ⟨by simpa using ha.symm, hc⟩
  · exact absurd (hc.2 ▸ mem_append_right front (.head _)) hb
  · exact ⟨by simpa using ha, hc.symm⟩
  · exact absurd (hc.2 ▸ mem_append_right front (.head _)) hb'

variable {v : Loaded} {m : Environment} {f : RegisterFile} {i : Instruction} {d : Fin 32}
  {p : Fin 32 × Loaded} {Value Memory : Type} {k : Location}

/-- Values that are known by one text are the same: in the text of an address the last sign is that of the offset. -/
theorem Loaded.text_injective {w : Loaded} (h : v.text = w.text) : v = w := by
  have htext := congrArg String.toList h
  cases v <;> cases w <;> simp only [text, String.toList_append, String.toList_ofList] at htext
  case word.word v w =>
    have hdigits := toDigits_hex_injective (append_cancel_left htext)
    rw [UInt32.toNat_inj.mp hdigits]
  case word.low => simp at htext
  case low.word => simp at htext
  case low.low name offset name' offset' =>
    have hplus (v : Int) : '+' ∉ v.repr.toList ++ [')'] := by simp [plus_not_mem_repr]
    obtain ⟨hname, hoffset⟩ := append_cons_inj_of_not_mem (a := name.toList) (hplus offset.toInt) (hplus offset'.toInt)
      (by simpa using htext)
    have hrepr := String.toList_inj.mp (append_cancel_right hoffset)
    rw [String.toList_inj.mp hname, Int64.toInt_inj.mp (Int.repr_inj.mp hrepr)]

/-! ### What a load means -/

def Loaded.value (m : Environment) : Loaded → BitVec 32
  | .word v => v.toBitVec
  | .low name offset => (m.address name + Microcode.word offset) &&& 0xFFFF#32

/-- The scalar register that an instruction sets to what it computes, and the word that it leaves there.  Arguments
behind those that it needs do not count. -/
def Environment.sets? (m : Environment) (f : RegisterFile) (i : Instruction) : Option (Fin 32 × BitVec 32) :=
  match i.args with
  | .reg (.scalar d) :: .reg s :: last :: _ => do
    let compute ← i.opcode.compute?
    let w ← m.operand? f last
    pure (d, compute (f.get s) w)
  | .reg (.scalar d) :: .hex v :: _ => if i.opcode = .lui then some (d, v.toBitVec <<< 16) else none
  | _ => none

theorem Environment.sets?_of_loaded? (h : i.loaded? = some (d, v)) : d ≠ 0 ∧ m.sets? f i = some (d, v.value m) := by
  unfold loaded? at h
  split at h
  next e args hargs =>
    split at h
    · cases h
    next he =>
      split at h <;> cases h <;> rename_i ho <;> refine ⟨he, ?_⟩ <;>
        simp [sets?, hargs, ho, Opcode.compute?, operand?, RegisterFile.operand?, RegisterFile.get, Loaded.value,
          word_eq_setWidth]
  · cases h

theorem Environment.sets?_of_lowHalf? {v : UInt32} (h : i.lowHalf? d = some v) :
    m.sets? f i = some (d, f.get (.scalar d) ||| v.toBitVec) := by
  unfold lowHalf? at h
  split at h
  next ho hargs =>
    split at h
    next hd =>
      obtain ⟨rfl, rfl⟩ := hd
      cases h
      simp [sets?, hargs, ho, Opcode.compute?, operand?, RegisterFile.operand?]
    · cases h
  · cases h

theorem Instruction.isBranch_of_loaded? (h : i.loaded? = some p) : i.isBranch = false := by
  unfold loaded? at h
  split at h
  · split at h
    · cases h
    · split at h <;> cases h <;> simp only [isBranch, *] <;> rfl
  · cases h

def Instruction.IsLoading (i : Instruction) : Prop := i.loaded?.isSome ∨ ∃ d, (i.lowHalf? d).isSome

theorem MachineState.set_set {v w : Value} (s : MachineState Value Memory) : (s.set k v).set k w = s.set k w :=
  (((set_agreeBut w).trans (set_agreeBut v)).trans (set_agreeBut w).symm).eq (by rw [set_same, set_same])

theorem MachineState.set_registers (s : MachineState Value Memory) :
    s.set k (s.registers k) = s := (set_agreeBut _).eq (set_same _)

namespace Machine

variable {Value Memory : Type} (M : Machine Value Memory) (m : Environment) (ofWord : BitVec 32 → Value)

/-- A machine that computes words as the scalar unit does. -/
structure ComputesWords : Prop where
  word : ∀ w, M.word (ofWord w) = w
  exec : ∀ {i s d w}, m.sets? (fun r => M.word (s.registers (.scalar r))) i = some (d, w) → d ≠ 0 →
    M.exec i s = s.set (.scalar d) (ofWord w)

variable {M m ofWord} (hM : M.ComputesWords m ofWord)
include hM
variable {lines : List Line} {d c : Control Value Memory} {t : MachineState Value Memory} {code : List Instruction}

theorem execAll_loadAt? {d : Fin 32} {two : Bool} (h : loadAt? lines = some (d, v, two)) :
    ∃ code rest, lines = code.map Line.op ++ rest ∧ code.length = (if two then 2 else 1) ∧
      (∀ i ∈ code, i.isBranch = false ∧ i.IsLoading) ∧
      ∀ s : MachineState Value Memory, M.execAll code s = s.set (.scalar d) (ofWord (v.value m)) := by
  unfold loadAt? at h
  split at h
  next i rest =>
    obtain ⟨⟨e, value⟩, hloaded, h⟩ := bind_eq_some_iff.mp h
    have he : e ≠ 0 := (sets?_of_loaded? (m := m) (f := 0) hloaded).1
    have hfirst (s : MachineState Value Memory) : M.exec i s = s.set (.scalar e) (ofWord (value.value m)) :=
      hM.exec (sets?_of_loaded? hloaded).2 he
    have hi : i.isBranch = false ∧ i.IsLoading := ⟨isBranch_of_loaded? hloaded, .inl (by rw [hloaded]; rfl)⟩
    dsimp only at h
    split at h
    next high next behind _ _ =>
      split at h
      next low hlow =>
        cases h
        have hnext : next.isBranch = false ∧ next.IsLoading := ⟨isBranch_of_lowHalf? hlow, .inr ⟨d, by rw [hlow]; rfl⟩⟩
        refine ⟨[i, next], behind, rfl, rfl, by simp [hi, hnext], fun s => ?_⟩
        show M.exec next (M.exec i s) = _
        rw [hfirst, hM.exec (sets?_of_lowHalf? hlow) he]
        have hhigh : M.word ((s.set (.scalar d) (ofWord (Loaded.value m (.word high)))).registers (.scalar d))
            = high.toBitVec := by
          rw [MachineState.set_same, hM.word]
          rfl
        simp only [RegisterFile.get, he, if_false, hhigh, MachineState.set_set]
        rfl
      · cases h
        exact ⟨[i], _, rfl, rfl, by simpa using hi, hfirst⟩
    · cases h
      exact ⟨[i], _, rfl, rfl, by simpa using hi, hfirst⟩
  · cases h

omit hM

variable (M m ofWord)

def Knows (known : Known) (s : MachineState Value Memory) : Prop :=
  ∀ p ∈ known, s.registers (.scalar p.1) = ofWord (p.2.value m)

variable {M m ofWord} {known : Known} {s : MachineState Value Memory}

theorem Knows.insert (h : Knows m ofWord known s) (d : Fin 32) (v : Loaded) :
    Knows m ofWord (known.insert d v) (s.set (.scalar d) (ofWord (v.value m))) := by
  intro p hp
  rcases mem_cons.mp hp with rfl | hp
  · exact MachineState.set_same _
  · obtain ⟨hp, hne⟩ := mem_filter.mp hp
    have hne : Location.scalar p.1 ≠ .scalar d := fun heq => (of_decide_eq_true hne) (Location.scalar.inj heq)
    exact ((MachineState.set_agreeBut _).registers _ hne).trans (h p hp)

theorem Knows.after (h : Knows m ofWord known s) (hi : i.isBranch = false) :
    Knows m ofWord (known.after i) (M.exec i s) := by
  intro p hp
  obtain ⟨hp, hwrites⟩ := mem_filter.mp hp
  exact (M.frame i s _ hi (by simpa using hwrites)).trans (h p hp)

theorem Knows.set_lookup (h : Knows m ofWord known s) {d : Fin 32} (hd : known.lookup d = some v) :
    s.set (.scalar d) (ofWord (v.value m)) = s := by
  rw [← h (d, v) (mem_of_lookup hd)]
  exact s.set_registers

include hM in
/-- What the pass does at an instruction that is no branch: it leaves a load out that changes nothing, or it keeps an
instruction or two. -/
theorem dropLoads_plain (hi : i.isBranch = false) (known : Known) (inSlot : Bool) (lines : List Line) :
    ∃ code rest, .op i :: lines = code.map Line.op ++ rest ∧ code ≠ [] ∧ Straight code ∧
      ((inSlot = false ∧ (dropLoads known inSlot (.op i :: lines)).lines = (dropLoads known false rest).lines ∧
          (∀ j ∈ code, j.IsLoading) ∧
          ∀ s : MachineState Value Memory, Knows m ofWord known s → M.execAll code s = s) ∨
        ∃ known',
          (dropLoads known inSlot (.op i :: lines)).lines = code.map Line.op ++ (dropLoads known' false rest).lines ∧
          ∀ s : MachineState Value Memory, Knows m ofWord known s → Knows m ofWord known' (M.execAll code s)) := by
  cases hload : loadAt? (.op i :: lines) with
  | none =>
    have hdrops : (dropLoads known inSlot (.op i :: lines)).lines
        = .op i :: (dropLoads (known.after i) false lines).lines := by simp [dropLoads, hi, hload]
    exact ⟨[i], lines, rfl, by simp, by simpa [Straight] using hi, .inr ⟨_, hdrops, fun s h => h.after hi⟩⟩
  | some load =>
    obtain ⟨d, v, two⟩ := load
    obtain ⟨code, rest, hcode, hlength, hplain, hexec⟩ := execAll_loadAt? hM hload
    have hdrops : (dropLoads known inSlot (.op i :: lines)).lines
        = if !i.isPinned && !inSlot && known.lookup d = some v then (dropLoads known inSlot rest).lines
          else code.map .op ++ (dropLoads (known.insert d v) false rest).lines := by
      cases two with
      | true =>
        obtain ⟨first, next, rfl⟩ := length_eq_two.mp hlength
        obtain ⟨rfl, rfl⟩ : i = first ∧ lines = .op next :: rest := by simpa using hcode
        rw [dropLoads.eq_def]
        simp only [hi, hload, Bool.false_eq_true, if_false]
        split <;> rfl
      | false =>
        obtain ⟨first, rfl⟩ := length_eq_one_iff.mp hlength
        obtain ⟨rfl, rfl⟩ : i = first ∧ lines = rest := by simpa using hcode
        rw [dropLoads.eq_def]
        simp only [hi, hload, Bool.false_eq_true, if_false]
        split <;> rfl
    refine ⟨code, rest, hcode, ?_, fun j hj => (hplain j hj).1, ?_⟩
    · rintro rfl
      cases two <;> cases hlength
    · rw [hdrops]
      split
      next hdrop =>
        simp only [Bool.and_eq_true, Bool.not_eq_true', decide_eq_true_eq] at hdrop
        refine .inl ⟨hdrop.1.2, by rw [hdrop.1.2], fun j hj => (hplain j hj).2, fun s h => ?_⟩
        rw [hexec]
        exact h.set_lookup hdrop.2
      · refine .inr ⟨_, rfl, fun s h => ?_⟩
        rw [hexec]
        exact h.insert d v

theorem dropLoads_branch (hi : i.isBranch) (known : Known) (inSlot : Bool) (lines : List Line) :
    (dropLoads known inSlot (.op i :: lines)).lines = .op i :: (dropLoads [] true lines).lines := by
  rw [dropLoads.eq_def]
  simp only [hi, if_true]

theorem dropLoads_nop (hi : i.isNop) (inSlot : Bool) (lines : List Line) :
    (dropLoads [] inSlot (.op i :: lines)).lines = .op i :: (dropLoads [] false lines).lines := by
  have ho : i.opcode = .nop := by simpa [isNop] using hi
  have hloaded : i.loaded? = none := by
    unfold loaded?
    split
    · split
      · rfl
      · rw [ho]
    · rfl
  rw [dropLoads.eq_def]
  simp [isBranch_of_isNop hi, loadAt?, hloaded, Known.after]

/-! ### Where control is in the two bodies -/

theorem locate_ops (name : String) (code : List Instruction) (rest : List Line) :
    locate name (code.map Line.op ++ rest) = locate name rest := by
  rw [locate_append, locate_instructions name (by simp [Line.isInstruction])]
  rfl

include hM in
theorem locate_dropLoads (name : String) (known : Known) (inSlot : Bool) (lines : List Line) :
    locate name (dropLoads known inSlot lines).lines
      = (locate name lines).map fun rest => (dropLoads [] false rest).lines := by
  induction hn : lines.length using Nat.strongRecOn generalizing known inSlot lines with
  | ind n ih =>
    subst hn
    cases lines with
    | nil => rfl
    | cons l lines =>
      cases l with
      | op i =>
        by_cases hi : i.isBranch
        · rw [dropLoads_branch hi]
          exact ih _ (Nat.lt_succ_self _) _ _ _ rfl
        · obtain ⟨code, rest, hcode, hne, -, hdrops⟩ := dropLoads_plain hM (eq_false_of_ne_true hi) known inSlot lines
          have hlt : rest.length < (Line.op i :: lines).length := by
            rw [hcode, length_append, length_map]
            exact Nat.lt_add_of_pos_left (length_pos_iff.mpr hne)
          rcases hdrops with ⟨-, hdrops, -⟩ | ⟨known', hdrops, -⟩
          · rw [hdrops, hcode, locate_ops, ih _ hlt _ _ _ rfl]
          · rw [hdrops, hcode, locate_ops, locate_ops, ih _ hlt _ _ _ rfl]
      | _ =>
        have hrest := ih _ (Nat.lt_succ_self _) [] false lines rfl
        simp only [dropLoads, locate]
        split
        · rfl
        · exact hrest

def CallsIdle (lines : List Line) : Prop := ∀ i slot, [Line.op i, .op slot] <:+: lines → i.opcode = .jal → slot.isNop

variable (M m ofWord)

/-- Some lines of a body and what is left of them when nothing is known before. -/
def Fresh (old a b : List Line) : Prop := a = (dropLoads [] false b).lines ∧ b <:+ old

/-- Control is at the same instructions that are kept, with the same lines behind them but for loads that are left out,
in a state behind the instructions in which all that is known holds. -/
inductive Abides (old : List Line) : Control Value Memory → Control Value Memory → Prop
  | running {code known rest s}
      (hcode : Straight code) (hsuffix : code.map Line.op ++ rest <:+ old)
      (hknown : Knows m ofWord known (M.execAll code s)) :
      Abides old (.running (code.map Line.op ++ (dropLoads known false rest).lines) s)
        (.running (code.map Line.op ++ rest) s)
  | left (e : Exit Value) (s : MachineState Value Memory) : Abides old (.left e s) (.left e s)

variable {M m ofWord} {old a b : List Line}

theorem Fresh.abides (h : Fresh old a b) (s : MachineState Value Memory) :
    Abides M m ofWord old (.running a s) (.running b s) := by
  obtain ⟨rfl, hb⟩ := h
  have hstraight : Straight [] := by simp [Straight]
  have hknown : Knows m ofWord [] (M.execAll [] s) := by simp [Knows]
  exact .running hstraight hb hknown

theorem Matches.abides (h : Matches (Fresh old) c d) : Abides M m ofWord old c d := by
  cases h with
  | running h s => exact h.abides s
  | left e s => exact .left e s

theorem Abides.left_iff (h : Abides M m ofWord old c d) {e} : c = .left e t ↔ d = .left e t := by
  cases h with
  | running => simp
  | left => exact Iff.rfl

include hM in
theorem fresh_labels (old : List Line) (name : String) :
    Option.Rel (Fresh old) (locate name (dedupeImmediates old).lines) (locate name old) := by
  rw [dedupeImmediates, locate_dropLoads hM]
  cases hthere : locate name old with
  | none => exact .none
  | some there => exact .some ⟨rfl, locate_suffix hthere⟩

theorem transfer_rest (hi : i.opcode ≠ .jal) (body rest : List Line) (address : Option Value)
    (s : MachineState Value Memory) : M.transfer body i address rest s = M.transfer body i address [] s := by
  simp only [transfer, leave, hi, if_false]

include hM in
theorem branch_abides {slot} (hcall : i.opcode = .jal → Fresh old a b)
    (hfall : Abides M m ofWord old (.running a (M.exec slot (M.linked i s))) (.running b (M.exec slot (M.linked i s)))) :
    (M.branch (dedupeImmediates old).lines i slot a s).1 = (M.branch old i slot b s).1 ∧
      Abides M m ofWord old (M.branch (dedupeImmediates old).lines i slot a s).2 (M.branch old i slot b s).2 := by
  have hlabels := fresh_labels hM old
  by_cases ho : i.opcode = .jal
  · obtain ⟨hevents, hmatch⟩ := M.branch_matches hlabels (hcall ho) i slot s
    exact ⟨hevents, hmatch.abides⟩
  · unfold branch
    dsimp only
    split
    · obtain ⟨hevents, hmatch⟩ := M.transfer_matches hlabels (a := []) (b := []) ⟨rfl, nil_suffix⟩ i
        (operand? i 0 s) (M.exec slot (M.linked i s))
      rw [transfer_rest ho _ a, transfer_rest ho _ b]
      exact ⟨by rw [hevents], hmatch.abides⟩
    · exact ⟨rfl, hfall⟩

/-- The second run does what the first does, and executes some loads more. -/
def Spared (new old : List (Event Value Memory)) : Prop :=
  Padded (fun e => ∃ i : Instruction, i.IsLoading ∧ e = .executed i) old new

theorem Spared.insert (hcode : ∀ i ∈ code, i.IsLoading) {new old : List (Event Value Memory)}
    (h : Spared new old) : Spared new (code.map Event.executed ++ old) := by
  induction code with
  | nil => exact h
  | cons i code ih =>
    obtain ⟨hi, hcode⟩ := forall_mem_cons.mp hcode
    exact Padded.insert ⟨i, hi, rfl⟩ (ih hcode)

theorem run_ops (body : List Line) (hcode : Straight code) (rest : List Line) (s : MachineState Value Memory) :
    M.run body code.length (.running (code.map Line.op ++ rest) s)
      = (code.map Event.executed, .running rest (M.execAll code s)) := by
  induction code generalizing s with
  | nil => rfl
  | cons i code ih =>
    obtain ⟨hi, hcode⟩ := forall_mem_cons.mp hcode
    rw [map_cons, cons_append, length_cons, run_succ, M.step_plain _ _ _ hi, ih hcode]
    rfl

variable (M m ofWord) in
/-- A step of the shorter body is one of the longer body behind the loads that are left out there. -/
def Advances (old : List Line) (c d : Control Value Memory) : Prop :=
  ∃ k, Spared (M.step (dedupeImmediates old).lines c).1 (M.run old (k + 1) d).1 ∧
    Abides M m ofWord old (M.step (dedupeImmediates old).lines c).2 (M.run old (k + 1) d).2

theorem advances_of_step {x y} (hc : M.step (dedupeImmediates old).lines c = x) (hd : M.step old d = y)
    (h : x.1 = y.1 ∧ Abides M m ofWord old x.2 y.2) : Advances M m ofWord old c d := by
  refine ⟨0, ?_⟩
  rw [run_one, hc, hd, h.1]
  exact ⟨.refl _ _, h.2⟩

theorem advances_keep {first rest} (hcode : Straight (first :: code))
    (hsuffix : (first :: code).map Line.op ++ rest <:+ old)
    (hknown : Knows m ofWord known (M.execAll (first :: code) s)) :
    Advances M m ofWord old (.running ((first :: code).map Line.op ++ (dropLoads known false rest).lines) s)
      (.running ((first :: code).map Line.op ++ rest) s) := by
  obtain ⟨hfirst, hcode⟩ := forall_mem_cons.mp hcode
  exact advances_of_step (M.step_plain _ _ s hfirst) (M.step_plain _ _ s hfirst)
    ⟨rfl, .running hcode ((suffix_cons _ _).trans hsuffix) hknown⟩

include hM

theorem advances_branch (hcalls : CallsIdle old) (hi : i.isBranch) (hsuffix : .op i :: lines <:+ old)
    (s : MachineState Value Memory) :
    Advances M m ofWord old (.running (.op i :: (dropLoads [] true lines).lines) s) (.running (.op i :: lines) s) := by
  have hundefined {a b : List Line} (ha : ∀ slot more, a = .op slot :: more → slot.isBranch)
      (hb : ∀ slot more, b = .op slot :: more → slot.isBranch) :
      Advances M m ofWord old (.running (.op i :: a) s) (.running (.op i :: b) s) :=
    advances_of_step (M.step_undefined _ _ _ hi ha) (M.step_undefined _ _ _ hi hb) ⟨rfl, .left _ s⟩
  cases lines with
  | nil => exact hundefined (by simp [dropLoads]) (by simp)
  | cons l rest =>
    cases l with
    | op slot =>
      by_cases hslot : slot.isBranch
      · rw [dropLoads_branch hslot]
        exact hundefined (by simp [hslot]) (by simp [hslot])
      · have hslot : slot.isBranch = false := eq_false_of_ne_true hslot
        obtain ⟨code, behind, hcode, hne, hstraight, ⟨hoff, -⟩ | ⟨known, hdrops, hknown⟩⟩ :=
          dropLoads_plain hM hslot [] true rest
        · cases hoff
        obtain ⟨first, code, rfl⟩ := exists_cons_of_ne_nil hne
        obtain ⟨rfl, rfl⟩ : slot = first ∧ rest = code.map Line.op ++ behind := by simpa using hcode
        have hbehind := (suffix_cons _ _).trans ((suffix_cons _ _).trans hsuffix)
        have hcall (ho : i.opcode = .jal) :
            Fresh old (code.map Line.op ++ (dropLoads known false behind).lines) (code.map Line.op ++ behind) := by
          have hnop := hcalls i slot (IsInfix.trans ⟨[], _, rfl⟩ hsuffix.isInfix) ho
          rw [dropLoads_nop hnop] at hdrops
          exact ⟨(List.cons.inj hdrops).2.symm, hbehind⟩
        rw [hdrops]
        refine advances_of_step (M.step_branch _ _ _ hi hslot) (M.step_branch _ _ _ hi hslot) (branch_abides hM hcall ?_)
        exact .running (forall_mem_cons.mp hstraight).2 hbehind (hknown (M.linked i s) (by simp [Knows]))
    | _ => exact hundefined (by simp [dropLoads]) (by simp)

theorem advances_dropLoads (hcalls : CallsIdle old) (hsuffix : lines <:+ old) (hknown : Knows m ofWord known s) :
    Advances M m ofWord old (.running (dropLoads known false lines).lines s) (.running lines s) := by
  induction hn : lines.length using Nat.strongRecOn generalizing lines with
  | ind n ih =>
    subst hn
    cases lines with
    | nil => exact advances_of_step rfl rfl ⟨rfl, .left _ s⟩
    | cons l lines =>
      have hother (hl : l.isBranch = false)
          (hdrops : (dropLoads known false (l :: lines)).lines = l :: (dropLoads [] false lines).lines) :
          Advances M m ofWord old (.running (dropLoads known false (l :: lines)).lines s) (.running (l :: lines) s) := by
        obtain ⟨hevents, hmatch⟩ := M.step_matches (fresh_labels hM old) (l := l)
          ⟨rfl, (suffix_cons l lines).trans hsuffix⟩ (fun h => absurd (hl.symm.trans h) (by simp)) s
        rw [hdrops]
        exact advances_of_step rfl rfl ⟨hevents, hmatch.abides⟩
      cases l with
      | op i =>
        by_cases hi : i.isBranch
        · rw [dropLoads_branch hi]
          exact advances_branch hM hcalls hi hsuffix s
        · obtain ⟨code, rest, hcode, hne, hstraight, hdrops⟩ :=
            dropLoads_plain hM (eq_false_of_ne_true hi) known false lines
          obtain ⟨first, code, rfl⟩ := exists_cons_of_ne_nil hne
          rw [hcode] at hsuffix ih hdrops ⊢
          rcases hdrops with ⟨-, hdrops, hloading, hsame⟩ | ⟨known', hdrops, hknown'⟩
          · -- The load takes the longer body some steps and changes nothing.
            obtain ⟨k, hseen, habides⟩ := ih _ (by simp) ((suffix_append _ _).trans hsuffix) rfl
            have hrun := run_ops (M := M) old hstraight rest s
            rw [hsame s hknown] at hrun
            refine ⟨(first :: code).length + k, ?_⟩
            rw [hdrops, Nat.add_assoc, run_add, hrun]
            exact ⟨hseen.insert hloading, habides⟩
          · rw [hdrops]
            exact advances_keep hstraight hsuffix (hknown' s hknown)
      | _ => exact hother rfl rfl

theorem abides_simulation (hcalls : CallsIdle old) :
    M.Simulation Spared (Abides M m ofWord old) (dedupeImmediates old).lines old where
  nil := .nil
  append h h' := Padded.append h h'
  left h := by
    cases h
    exact ⟨_, _, rfl⟩
  step h := by
    rename_i rest s d
    generalize hc : Control.running rest s = c at h
    cases h with
    | left => cases hc
    | running hcode hsuffix hknown =>
      rename_i code known _ _
      cases code with
      | nil => exact advances_dropLoads hM hcalls hsuffix hknown
      | cons first code => exact advances_keep hcode hsuffix hknown

end Machine

namespace Environment

variable (m : Environment)
variable {compute : BitVec 32 → BitVec 32 → BitVec 32}

theorem reads_of_compute? (h : i.opcode.compute? = some compute) :
    i.reads = (i.args.drop 1).flatMap (Arg.locations true) ∧ i.writes = i.wholeAt 0 := by
  unfold Opcode.compute? at h
  split at h <;> cases h <;> rename_i ho <;> unfold reads writes <;> rw [ho] <;> exact ⟨rfl, rfl⟩

theorem sets?_congr {g} (h : ∀ r, .scalar r ∈ i.reads → f r = g r) : m.sets? f i = m.sets? g i := by
  unfold sets?
  split
  next d s last rest hargs =>
    cases hcompute : i.opcode.compute? with
    | none => rfl
    | some compute =>
      have hget (r : Register) (hr : .reg r ∈ i.args.drop 1) : f.get r = g.get r := by
        cases r with
        | vector => rfl
        | scalar k =>
          by_cases hk : k = 0
          · simp [RegisterFile.get, hk]
          · simp only [RegisterFile.get, hk, if_false]
            refine h k ?_
            rw [(reads_of_compute? hcompute).1]
            exact mem_flatMap.mpr ⟨_, hr, by simp [Arg.locations, Register.locations, hk]⟩
      have hlast : m.operand? f last = m.operand? g last := by
        cases last with
        | reg r => exact congrArg some (hget r (by simp [hargs]))
        | _ => rfl
      rw [hlast, hget s (by simp [hargs])]
  · rfl
  · rfl

def result (i : Instruction) (s : MachineState (BitVec 32) Unit) : BitVec 32 :=
  ((m.sets? (fun r => s.registers (.scalar r)) i).map Prod.snd).getD 0

/-- The machine whose values are words and that computes as the scalar unit does.  It has no memory. -/
def machine : Machine (BitVec 32) Unit where
  exec i s := { s with registers := fun l =>
    if i.effect.writes.contains l then m.result i s else s.registers l }
  frame i s l _ hl := if_neg (by rw [hl]; decide)
  frameMemory _ _ _ _ := rfl
  agree := by
    intro i s t _ h _
    refine ⟨fun l hl => ?_, fun _ => rfl⟩
    simp only [hl, if_true, result]
    rw [m.sets?_congr fun r hr => h (.scalar r) (by simp [Effect.dependsOn, effect_reads_contains.mpr hr])]
  word w := w
  link _ := 0
  callee := fun _ s => some s
  text := fun _ s => (s, none)

theorem writes_of_sets? {d : Fin 32} {w} (hd : d ≠ 0) (h : m.sets? f i = some (d, w)) : i.writes = [.scalar d] := by
  have hwhole {args : List Arg} (hargs : i.args = .reg (.scalar d) :: args) : i.wholeAt 0 = [.scalar d] := by
    simp [wholeAt, hargs, Arg.locations, Register.locations, hd]
  unfold sets? at h
  split at h
  next hargs =>
    simp only [bind_eq_bind, bind_eq_some_iff] at h
    obtain ⟨compute, hcompute, w, -, h⟩ := h
    cases h
    rw [(reads_of_compute? hcompute).2, hwhole hargs]
  next hargs =>
    split at h <;> cases h
    rename_i ho
    rw [← hwhole hargs]
    unfold writes
    rw [ho]
    rfl
  · cases h

theorem machine_computesWords : m.machine.ComputesWords m id where
  word _ := rfl
  exec := by
    intro i s d w h hd
    have hresult : m.result i s = w := by
      exact congrArg (fun o => (Option.map Prod.snd o).getD 0) h
    refine MachineState.ext ?_ rfl
    funext l
    have hl : i.effect.writes.contains l ↔ l = .scalar d := by
      rw [effect_writes_contains, m.writes_of_sets? hd h, mem_singleton]
    show (if i.effect.writes.contains l then m.result i s else s.registers l) = if l = .scalar d then w else s.registers l
    simp only [hl, hresult]

def blank : Environment := ⟨fun _ => 0, fun _ _ => 0⟩

end Environment

namespace Machine

/-- **Loads are left out only where they change nothing.**  Let calls have an instruction without effect in their
slots.  From the top or a label, in every state, the two bodies are executed through the same lines with the same
registers and memory, but for loads that only the longer one executes, and control leaves them in the same way.  The
lines of a load leave in its register the value that it is known by, and nothing else; values known by one text are the
same. -/
theorem dedupeImmediates_follows {Value Memory : Type} {M : Machine Value Memory} {m : Environment}
    {ofWord : BitVec 32 → Value} (hM : M.ComputesWords m ofWord) {lines : List Line} (hcalls : CallsIdle lines) :
    (∀ (e : Entry) (s : MachineState Value Memory), (∀ n, e ≠ .behind n) →
      M.Follows Spared (Abides M m ofWord lines) (dedupeImmediates lines).lines lines
          (enter (dedupeImmediates lines).lines e s) (enter lines e s) ∧
        ∀ x t, (∃ n, (M.run (dedupeImmediates lines).lines n (enter (dedupeImmediates lines).lines e s)).2 = .left x t) ↔
          ∃ n, (M.run lines n (enter lines e s)).2 = .left x t) ∧
      (∀ k d v two, loadAt? (lines.drop k) = some (d, v, two) →
        ∃ code rest, lines.drop k = code.map Line.op ++ rest ∧ code.length = (if two then 2 else 1) ∧
          ∀ s : MachineState Value Memory, M.execAll code s = s.set (.scalar d) (ofWord (v.value m))) ∧
      ∀ v w : Loaded, v.text = w.text → v.value m = w.value m := by
  refine ⟨fun e s he => ?_, fun k d v two h => ?_, fun v w h => by rw [Loaded.text_injective h]⟩
  · have hentry : Abides M m ofWord lines (enter (dedupeImmediates lines).lines e s) (enter lines e s) := by
      cases e with
      | top => exact Fresh.abides ⟨rfl, List.suffix_refl _⟩ s
      | label name => exact (goto_matches (fresh_labels hM lines) name s).abides
      | behind n => exact absurd rfl (he n)
    have hfollows := (abides_simulation hM hcalls).follows hentry
    refine ⟨hfollows, fun x t => ⟨fun ⟨n, hn⟩ => ?_, fun ⟨n, hn⟩ => ⟨n, ?_⟩⟩⟩
    · obtain ⟨k, -, hmeets⟩ := hfollows.left_old hn
      exact ⟨k, hmeets.left_iff.mp rfl⟩
    · exact (hfollows.left_new hn).2.left_iff.mpr rfl
  · obtain ⟨code, rest, hcode, hlength, -, hexec⟩ := execAll_loadAt? hM h
    exact ⟨code, rest, hcode, hlength, hexec⟩

def repeatedLoads : List Line :=
  [.op (.scalarWith .addiu [.scalar 8, .zero] (.imm 5)), .op (.scalarWith .ori [.scalar 8, .zero] (.hex 5)),
   .op ⟨.jal, [.label "g"], {}⟩, .op .nop,
   .op (.scalarWith .lui [.scalar 9] (.hex 1)), .op (.scalarWith .ori [.scalar 9, .scalar 9] (.hex 2)),
   .op (.scalarWith .lui [.scalar 9] (.hex 1)), .op (.scalarWith .ori [.scalar 9, .scalar 9] (.hex 2))]

theorem repeatedLoads_callsIdle : CallsIdle repeatedLoads := by
  intro i slot h ho
  simp only [repeatedLoads, infix_cons_iff, cons_prefix_cons, Line.op.injEq] at h
  rcases h with h | h | h | h | h | h | h | h <;> simp_all [isNop, nop, scalarWith]

theorem dedupeImmediates_follows_repeatedLoads :
    (dedupeImmediates repeatedLoads).count = 2 ∧ CallsIdle repeatedLoads ∧
      Environment.blank.machine.Follows Spared (Abides Environment.blank.machine .blank id repeatedLoads)
        (dedupeImmediates repeatedLoads).lines repeatedLoads
        (.running (dedupeImmediates repeatedLoads).lines ⟨fun _ => 0, ()⟩) (.running repeatedLoads ⟨fun _ => 0, ()⟩) :=
  ⟨by decide +kernel, repeatedLoads_callsIdle, ((dedupeImmediates_follows (Environment.machine_computesWords _)
    repeatedLoads_callsIdle).1 .top ⟨fun _ => 0, ()⟩ (by simp)).1⟩

end Machine
end Microcode
