import Microcode.Proofs.Limits
import Microcode.Proofs.Slot

/-!
Instructions in a row, and the scratch register between them.

Most instructions write the register that is their first argument and read the others.
-/

namespace Microcode

open List Instruction Arg Opcode

/-! ### The registers of an instruction -/

def Arg.register? : Arg → Option Register
  | .reg r | .lanes r _ | .mem _ _ r => some r
  | _ => none

@[simp] theorem Arg.register?_reg (r : Register) : (reg r).register? = some r := rfl

@[simp] theorem Arg.register?_vec (r : Register) : (vec r).register? = some r := rfl

@[simp] theorem Arg.register?_lane (r : Register) (n : Fin 8) : (lane r n).register? = some r := rfl

@[simp] theorem Arg.register?_lanes (r : Register) (s : Option Selector) : (lanes r s).register? = some r := rfl

@[simp] theorem Arg.register?_imm (v : Int64) : (imm v).register? = none := rfl

@[simp] theorem Arg.register?_hex (v : UInt32) : (hex v).register? = none := rfl

@[simp] theorem Arg.register?_low (name : String) (offset : Int64) : (low name offset).register? = none := rfl

def Location.register? : Location → Option Register
  | .scalar r => some (.scalar r)
  | .lane r _ => some (.vector r)
  | _ => none

variable {x : Location} {r : Register} {a : Arg} {o : Opcode}

theorem Register.register?_of_mem_locations {lanes} (h : x ∈ r.locations lanes) : x.register? = some r := by
  unfold locations at h
  split at h
  · split at h
    · cases h
    · rw [mem_singleton.mp h]
      rfl
  · split at h
    · cases h
    · obtain ⟨lane, -, rfl⟩ := mem_map.mp h
      rfl

theorem Arg.register?_of_mem_locations {whole : Bool} (h : x ∈ a.locations whole) : x.register? = a.register? := by
  unfold locations at h
  split at h <;>
    first
    | exact Register.register?_of_mem_locations h
    | cases h

/-- The instruction writes its first argument, as far as it writes registers. -/
def Opcode.assigns (o : Opcode) : Bool := !(o.isBranch || o.isStore || [.mtc2, .ctc2, .ltv, .nop, .vnop].contains o)

theorem Opcode.isBranch_of_assigns (h : o.assigns) : o.isBranch = false := by
  unfold assigns at h
  cases hb : o.isBranch with
  | false => rfl
  | true => simp [hb] at h

theorem Opcode.not_assigns_of_kind (h : o.kind = .scalarStore ∨ o.kind = .vectorStore) : o.assigns = false := by
  rcases h with h | h <;> simp [assigns, isStore, isScalarStore, isVectorStore, h]

namespace Instruction

variable {i : Instruction}

def sources (i : Instruction) : List Arg := if i.opcode.assigns then i.args.drop 1 else i.args

def targets (i : Instruction) : List Register := if i.opcode.assigns then (i.args.take 1).filterMap register?
  else
    match i.opcode, i.args with
    | .jal, _ => [.returnAddress]
    | .mtc2, _ :: a :: _ => a.register?.toList
    | .ltv, .lanes (.vector first) _ :: _ =>
      ((finRange 32).filter fun r => first ≤ r ∧ r.val < first.val + 8).map .vector
    | _, _ => []

def fills (i : Instruction) : Bool :=
  (i.opcode.kind == .alu || i.opcode == .mfc2) && i.args.head? == some (.reg .scratch)

variable {n : Nat}

theorem register?_of_mem_at (h : x ∈ i.wholeAt n ∨ x ∈ i.lanesAt n) :
    ∃ a, i.args[n]? = some a ∧ a.register? = x.register? := by
  unfold wholeAt lanesAt at h
  cases ha : i.args[n]? with
  | none => simp [ha] at h
  | some a =>
    simp only [ha] at h
    exact ⟨a, rfl, (h.elim register?_of_mem_locations register?_of_mem_locations).symm⟩

theorem register?_of_mem_transposedAt (h : x ∈ i.transposedAt 0) :
    ∃ first selector rest r, i.args = .lanes (.vector first) selector :: rest ∧ first ≤ r ∧
      r.val < first.val + 8 ∧ x.register? = some (.vector r) := by
  obtain ⟨o, args, p⟩ := i
  unfold transposedAt at h
  split at h
  next first selector hfirst =>
    obtain ⟨r, hr, hx⟩ := mem_flatMap.mp h
    have hbounds := of_decide_eq_true (mem_filter.mp hr).2
    cases args with
    | nil => cases hfirst
    | cons a rest =>
      cases hfirst
      exact ⟨first, selector, rest, r, rfl, hbounds.1, hbounds.2, Register.register?_of_mem_locations hx⟩
  · cases h

theorem register?_flagsRead : ∀ x ∈ o.flagsRead, x.register? = none := by cases o <;> decide

theorem register?_flagsWritten : ∀ x ∈ o.flagsWritten, x.register? = none := by cases o <;> decide

theorem register?_of_mem_accessed (h : x ∈ i.accessed) : (∃ a, i.args[0]? = some a ∧ a.register? = x.register?) ∨
      (i.opcode = .ltv ∨ i.opcode = .stv) ∧ x ∈ i.transposedAt 0 := by
  unfold accessed at h
  split at h <;> rename_i heq
  · exact .inr ⟨.inl heq, h⟩
  · exact .inr ⟨.inr heq, h⟩
  · exact .inl (register?_of_mem_at (.inr h))
  · exact .inl (register?_of_mem_at (.inr h))
  · exact .inl (register?_of_mem_at (.inl h))

theorem mem_args_of_mem_sources (h : a ∈ i.sources) : a ∈ i.args := by
  unfold sources at h
  split at h
  · exact mem_of_mem_drop h
  · exact h

theorem mem_sources_of_succ (h : i.args[n + 1]? = some a) : a ∈ i.sources := by
  unfold sources
  split
  · rw [Nat.add_comm, ← getElem?_drop] at h
    exact mem_of_getElem? h
  · exact mem_of_getElem? h

theorem mem_sources_of_not_assigns (ho : i.opcode.assigns = false) (h : i.args[n]? = some a) : a ∈ i.sources := by
  simp only [sources, ho]
  exact mem_of_getElem? h

theorem scratch_mem_reads (h : .scratch ∈ i.reads) : ∃ a ∈ i.sources, a.register? = some .scratch := by
  have hlater {n : Nat} (h : .scratch ∈ i.wholeAt (n + 1) ∨ .scratch ∈ i.lanesAt (n + 1)) :
      ∃ a ∈ i.sources, a.register? = some .scratch := by
    obtain ⟨a, ha, hr⟩ := register?_of_mem_at h
    exact ⟨a, mem_sources_of_succ ha, hr⟩
  have hany {n : Nat} (ho : i.opcode.assigns = false) (h : .scratch ∈ i.wholeAt n) :
      ∃ a ∈ i.sources, a.register? = some .scratch := by
    obtain ⟨a, ha, hr⟩ := register?_of_mem_at (.inl h)
    exact ⟨a, mem_sources_of_not_assigns ho ha, hr⟩
  have hcompute (h : .scratch ∈ i.wholeAt 1 ++ i.lanesAt 2 ++ i.opcode.flagsRead
      ++ if i.opcode.accumulates then [.accumulator] else []) : ∃ a ∈ i.sources, a.register? = some .scratch := by
    simp only [mem_append, or_assoc] at h
    rcases h with h | h | h | h
    · exact hlater (.inl h)
    · exact hlater (.inr h)
    · exact nomatch register?_flagsRead _ h
    · split at h <;> cases h
      contradiction
  unfold reads at h
  split at h <;> rename_i heq
  case h_18 =>
    split at h <;> rename_i hkind
    · exact hlater (.inl h)
    · have ho := not_assigns_of_kind (.inl hkind)
      exact (mem_append.mp h).elim (hany ho) (hany ho)
    · exact hlater (.inl h)
    · have ho := not_assigns_of_kind (.inr hkind)
      rcases mem_append.mp h with h | h
      · rcases register?_of_mem_accessed h with ⟨a, ha, hr⟩ | ⟨-, h⟩
        · exact ⟨a, mem_sources_of_not_assigns ho ha, hr⟩
        · obtain ⟨_, _, _, _, -, -, -, hx⟩ := register?_of_mem_transposedAt h
          cases hx
      · exact hany ho h
    · exact hlater (.inr ((mem_cons.mp h).resolve_left (by decide)))
    · exact hcompute h
    · exact hcompute h
    · obtain ⟨a, ha, hx⟩ := mem_flatMap.mp h
      obtain ⟨n, hn⟩ := mem_iff_getElem?.mp ha
      rw [getElem?_drop, Nat.add_comm] at hn
      exact ⟨a, mem_sources_of_succ hn, (register?_of_mem_locations hx).symm⟩
  all_goals
    first
    | exact absurd h (by decide)
    | exact hany (by rw [heq]; rfl) h
    | exact (mem_append.mp h).elim (hany (by rw [heq]; rfl)) (hany (by rw [heq]; rfl))
    | exact hlater (.inr h)

theorem mem_targets (h : x ∈ i.writes) (hr : x.register? = some r) : r ∈ i.targets := by
  have hfirst (ho : i.opcode.assigns) (h : ∃ a, i.args[0]? = some a ∧ a.register? = x.register?) : r ∈ i.targets := by
    obtain ⟨o, args, p⟩ := i
    obtain ⟨a, ha, hx⟩ := h
    cases args with
    | nil => cases ha
    | cons b rest =>
      cases ha
      simp only [targets, ho]
      exact mem_filterMap.mpr ⟨a, mem_singleton.mpr rfl, hx.trans hr⟩
  have hinner {y : Location} (hy : y.register? = none) : x ≠ y := by
    rintro rfl
    exact nomatch hy.symm.trans hr
  have hcompute (ho : i.opcode.assigns)
      (h : x ∈ Location.accumulator :: i.wholeAt 0 ++ i.opcode.flagsWritten) : r ∈ i.targets := by
    simp only [mem_append, mem_cons] at h
    rcases h with (h | h) | h
    · exact absurd h (hinner rfl)
    · exact hfirst ho (register?_of_mem_at (.inl h))
    · exact nomatch (register?_flagsWritten _ h).symm.trans hr
  by_cases ho : i.opcode.assigns
  · unfold writes at h
    split at h <;> rename_i heq
    case h_14 => exact hfirst ho (register?_of_mem_at (.inr ((mem_cons.mp h).resolve_left (hinner rfl))))
    case h_15 =>
      split at h <;> rename_i hkind
      · cases h
      · cases h
      · rcases register?_of_mem_accessed h with h | ⟨heq | heq, -⟩
        · exact hfirst ho h
        · exact absurd ho (by rw [heq]; decide)
        · exact absurd ho (by rw [heq]; decide)
      · simp only [mem_cons] at h
        rcases h with h | h | h
        · exact absurd h (hinner rfl)
        · exact absurd h (hinner rfl)
        · exact hfirst ho (register?_of_mem_at (.inr h))
      · exact hcompute ho h
      · exact hcompute ho h
      · exact hfirst ho (register?_of_mem_at (.inl h))
    all_goals exact absurd ho (by rw [heq]; decide)
  · -- What is left are branches, stores, moves into the vector unit and the load of a transposed row.
    simp only [assigns, Bool.not_eq_true', Bool.not_eq_false, Bool.or_eq_true, contains_iff_mem,
      mem_cons, not_mem_nil, or_false] at ho
    obtain ⟨o, args, p⟩ := i
    rcases ho with (ho | ho) | rfl | rfl | rfl | rfl | rfl
    · rw [writes_of_isBranch ho] at h
      split at h
      next heq =>
        cases heq
        obtain rfl := mem_singleton.mp h
        exact Option.some.inj hr ▸ mem_singleton.mpr rfl
      · cases h
    · have hnone : (⟨o, args, p⟩ : Instruction).writes = [] := by
        cases o <;> first | rfl | cases ho
      exact nomatch hnone ▸ h
    · obtain ⟨a, ha, hx⟩ := register?_of_mem_at (i := ⟨.mtc2, args, p⟩) (.inr h)
      rcases args with _ | ⟨b, _ | ⟨c, args⟩⟩
      · cases ha
      · cases ha
      · cases ha
        exact Option.mem_toList.mpr (hx.trans hr)
    · simp only [writes, Location.flags, mem_cons, not_mem_nil, or_false] at h
      rcases h with h | h | h <;> exact absurd h (hinner rfl)
    · obtain ⟨first, selector, rest, n, rfl, hle, hlt, hx⟩ := register?_of_mem_transposedAt (i := ⟨.ltv, args, p⟩) h
      cases hr.symm.trans hx
      exact mem_map.mpr ⟨n, mem_filter.mpr ⟨mem_finRange n, decide_eq_true ⟨hle, hlt⟩⟩, rfl⟩
    · cases h
    · cases h

theorem scratch_mem_writes (h : i.fills) : .scratch ∈ i.writes := by
  simp only [fills, Bool.and_eq_true, Bool.or_eq_true, beq_iff_eq, head?_eq_getElem?] at h
  have hfirst : .scratch ∈ i.wholeAt 0 := by
    unfold wholeAt
    rw [h.2]
    decide
  unfold writes
  split <;> rename_i heq
  case h_15 =>
    rcases h.1 with hkind | heq
    · rw [hkind]
      exact hfirst
    · rw [heq]
      exact hfirst
  all_goals exact absurd h.1 (by rw [heq]; decide)

end Instruction

/-! ### Code in a row -/

/-- The register is one that may be written, or a scratch register. -/
def MayWrite (W : Register → Prop) (r : Register) : Prop := r = .scratch ∨ r = .scratchVector ∨ W r

/-- The instruction keeps to the limits and is no branch, writes only what it may and reads the scratch register
only if it is ready. -/
structure Instruction.Computes (l : Limits) (W : Register → Prop) (ready : Bool) (i : Instruction) : Prop where
  keepsTo : i.KeepsTo l
  straight : i.isBranch = false
  writes : ∀ r ∈ i.targets, MayWrite W r
  reads : ∀ a ∈ i.sources, a.register? = some .scratch → ready

/-- Every instruction of the code computes, the scratch register being ready behind one that fills it. -/
def Computes (l : Limits) (W : Register → Prop) : Bool → List Instruction → Prop
  | _, [] => True
  | ready, i :: code => i.Computes l W ready ∧ Computes l W (ready || i.fills) code

def Straight (code : List Instruction) : Prop := ∀ i ∈ code, i.isBranch = false

def IgnoresScratch : List Instruction → Prop
  | [] => True
  | i :: rest => .scratch ∉ i.reads ∧ (.scratch ∈ i.writes ∨ IgnoresScratch rest)

def readies (code : List Instruction) : Bool := code.any fills

section
variable {l : Limits} {W : Register → Prop} {ready : Bool} {i : Instruction} {code rest : List Instruction}

@[simp] theorem mayWrite_scratch : MayWrite W .scratch := .inl rfl

@[simp] theorem mayWrite_scratchVector : MayWrite W .scratchVector := .inr (.inl rfl)

@[simp] theorem readies_nil : readies [] = false := rfl

@[simp] theorem readies_cons : readies (i :: code) = (i.fills || readies code) := rfl

@[simp] theorem readies_append : readies (code ++ rest) = (readies code || readies rest) := any_append

@[simp] theorem computes_nil : Computes l W ready [] := trivial

@[simp] theorem computes_append :
    Computes l W ready (code ++ rest) ↔ Computes l W ready code ∧ Computes l W (ready || readies code) rest := by
  induction code generalizing ready with
  | nil => simp
  | cons i code ih => simp [Computes, ih, and_assoc, Bool.or_assoc]

@[simp] theorem computes_ite {c : Prop} [Decidable c] : Computes l W ready (if c then code else rest) ↔
      (c → Computes l W ready code) ∧ (¬c → Computes l W ready rest) := by
  split <;> simp [*]

theorem Computes.mono {early : Bool} (h : Computes l W ready code) (hready : ready → early) :
    Computes l W early code := by
  induction code generalizing ready early with
  | nil => trivial
  | cons i code ih =>
    refine ⟨⟨h.1.keepsTo, h.1.straight, h.1.writes, fun a ha hr => hready (h.1.reads a ha hr)⟩, ih h.2 ?_⟩
    intro hor
    rw [Bool.or_eq_true] at hor ⊢
    exact hor.imp_left hready

theorem Computes.anywhere (h : Computes l W false code) : Computes l W ready code := h.mono nofun

theorem Computes.forall_mem (h : Computes l W ready code) : ∀ i ∈ code, i.Computes l W true := by
  induction code generalizing ready with
  | nil => exact fun _ h => absurd h not_mem_nil
  | cons i code ih => exact forall_mem_cons.mpr ⟨⟨h.1.keepsTo, h.1.straight, h.1.writes, fun _ _ _ => rfl⟩, ih h.2⟩

theorem Computes.admits (h : Computes l W ready code) : l.Admit code := fun i hi => (h.forall_mem i hi).keepsTo

theorem Computes.straight (h : Computes l W ready code) : Straight code := fun i hi => (h.forall_mem i hi).straight

theorem Computes.ignoresScratch (h : Computes l W false code) : IgnoresScratch code := by
  induction code with
  | nil => trivial
  | cons i code ih =>
    refine ⟨fun hread => ?_, ?_⟩
    · obtain ⟨a, ha, hr⟩ := scratch_mem_reads hread
      exact nomatch h.1.reads a ha hr
    · cases hfills : i.fills with
      | true => exact .inl (scratch_mem_writes hfills)
      | false => exact .inr (ih (by simpa [Computes, hfills] using h.2))

@[simp] theorem straight_nil : Straight [] := fun _ h => absurd h not_mem_nil

@[simp] theorem straight_cons : Straight (i :: code) ↔ i.isBranch = false ∧ Straight code := forall_mem_cons

variable {d s t : Register}

theorem Opcode.assigns_of_alu {o : Opcode} (h : o.kind = .alu) : o.assigns := by cases o <;> first | rfl | cases h

variable {args : List Arg} {p : Provenance} {registers : List Register} {selector : Option Selector} {n : Fin 8}

theorem Instruction.computes_of_assigns (ho : o.assigns) (hkeeps : ∀ b ∈ a :: args, b.KeepsTo l o) :
    (mk o (a :: args) p).Computes l W ready ↔
      (∀ r, a.register? = some r → MayWrite W r) ∧ ∀ b ∈ args, b.register? = some .scratch → ready := by
  have hsources : (mk o (a :: args) p).sources = args := if_pos ho
  have htargets (r : Register) : r ∈ (mk o (a :: args) p).targets ↔ a.register? = some r := by
    rw [show (mk o (a :: args) p).targets = [a].filterMap register? from if_pos ho]
    simp
  constructor
  · rintro ⟨-, -, hwrites, hreads⟩
    exact ⟨fun r hr => hwrites r ((htargets r).mpr hr), hsources ▸ hreads⟩
  · rintro ⟨hwrites, hreads⟩
    exact ⟨hkeeps, isBranch_of_assigns ho, fun r hr => hwrites r ((htargets r).mp hr),
      fun b hb => hreads b (hsources ▸ hb)⟩

theorem Instruction.computes_of_isStore (ho : o.isStore) (hkeeps : ∀ b ∈ args, b.KeepsTo l o)
    (hreads : ∀ b ∈ args, b.register? = some .scratch → ready) :
    (mk o args p).Computes l W ready where
  keepsTo := hkeeps
  straight := by
    cases o <;> first | rfl | cases ho
  writes := by
    have htargets : (mk o args p).targets = [] := by cases o <;> first | rfl | cases ho
    simp [htargets]
  reads b hb := hreads b (mem_args_of_mem_sources hb)

theorem Instruction.fills_alu (ho : o.kind = .alu) :
    (mk o (.reg d :: args) p).fills = decide (d = .scratch) := by
  rw [Bool.eq_iff_iff]
  simp [fills, ho]

theorem computes_alu (ho : o.kind = .alu) (hkeeps : ∀ b ∈ args, b.KeepsTo l o) :
    Computes l W ready (⟨o, .reg d :: args, p⟩ :: code) ↔
      (MayWrite W d ∧ ∀ b ∈ args, b.register? = some .scratch → ready) ∧ Computes l W (ready || d = .scratch) code := by
  have hall : ∀ b ∈ .reg d :: args, b.KeepsTo l o := forall_mem_cons.mpr ⟨trivial, hkeeps⟩
  rw [Computes, fills_alu ho, computes_of_assigns (assigns_of_alu ho) hall]
  simp

@[simp] theorem computes_scalar (ho : o.kind = .alu) : Computes l W ready (.scalar o (d :: registers) :: code) ↔
      (MayWrite W d ∧ ∀ r ∈ registers, r = .scratch → ready) ∧ Computes l W (ready || d = .scratch) code := by
  have hall : ∀ b ∈ registers.map reg, b.KeepsTo l o := keepsTo_scalar o registers
  rw [scalar, map_cons, computes_alu ho hall]
  simp

theorem computes_scalarWith {last : Arg} (ho : o.kind = .alu) (hlast : last.register? = none)
    (hkeeps : last.KeepsTo l o) : Computes l W ready (.scalarWith o (d :: registers) last :: code) ↔
      (MayWrite W d ∧ ∀ r ∈ registers, r = .scratch → ready) ∧ Computes l W (ready || d = .scratch) code := by
  have hwith : (scalarWith o registers last).KeepsTo l := keepsTo_scalarWith.mpr hkeeps
  have hall : ∀ b ∈ registers.map reg ++ [last], b.KeepsTo l o := hwith
  rw [scalarWith, map_cons, cons_append, computes_alu ho hall]
  simp [or_imp, forall_and, hlast]

theorem computes_address {name : String} {offset : Int64} (hname : l.names name) :
    Computes l W ready (.address d name offset :: code) ↔ MayWrite W d ∧ Computes l W (ready || d = .scratch) code := by
  have hkeeps : (low name offset).KeepsTo l .ori := hname
  rw [address, computes_scalarWith rfl rfl hkeeps]
  simp +decide

@[simp] theorem computes_vector (ho : o.assigns) : Computes l W ready (.vector o d s t selector :: code) ↔
      (MayWrite W d ∧ (s = .scratch → ready) ∧ (t = .scratch → ready)) ∧
        Computes l W ready code := by
  have hfills : (vector o d s t selector).fills = false := by simp [vector, fills, vec]
  rw [Computes, hfills, vector, computes_of_assigns ho (by simp [vec, Arg.KeepsTo])]
  simp

@[simp] theorem computes_laneMove {m : Fin 8} (ho : o.assigns) : Computes l W ready (.laneMove o d n s m :: code) ↔
      (MayWrite W d ∧ (s = .scratch → ready)) ∧ Computes l W ready code := by
  have hfills : (laneMove o d n s m).fills = false := by simp [laneMove, fills, lane]
  rw [Computes, hfills, laneMove, computes_of_assigns ho (by simp [lane, Arg.KeepsTo])]
  simp

@[simp] theorem computes_toLane : Computes l W ready (.toLane s d n :: code) ↔
      (MayWrite W d ∧ (s = .scratch ∨ d = .scratch → ready)) ∧ Computes l W ready code := by
  have hinstruction : (toLane s d n).Computes l W ready ↔
      MayWrite W d ∧ (s = .scratch ∨ d = .scratch → ready) := by
    constructor
    · intro h
      exact ⟨h.writes d (mem_singleton.mpr rfl), fun hor => hor.elim
        (fun hs => h.reads (.reg s) (.head _) (congrArg some hs))
        fun hd => h.reads (.lane d n) (.tail _ (.head _)) (congrArg some hd)⟩
    · intro h
      refine ⟨by simp [toLane, keepsTo_iff, lane, Arg.KeepsTo], rfl, fun r hr => ?_,
        forall_mem_cons.mpr ⟨fun hs => h.2 (.inl (Option.some.inj hs)), forall_mem_cons.mpr
          ⟨fun hd => h.2 (.inr (Option.some.inj hd)), nofun⟩⟩⟩
      rw [mem_singleton.mp hr]
      exact h.1
  have hfills : (toLane s d n).fills = false := rfl
  rw [Computes, hinstruction, hfills, Bool.or_false]

end
end Microcode
