import Microcode.Proofs.Occurrence

/-!
Statements that set one lane.

Copies, constants and loads into a lane, and reciprocals of a lane, leave the other lanes of all vectors alone.  Only
the full reciprocal does not: the half that the machine computes is doubled in all lanes at once.
-/

namespace Microcode

open List Instruction

/-- An instruction sets only lanes that are allowed. -/
def Instruction.SetsWithin (W : Register → Fin 8 → Prop) (i : Instruction) : Prop :=
  ∀ r n, Location.lane r n ∈ i.writes → W (.vector r) n

abbrev SetWithin (W : Register → Fin 8 → Prop) (code : List Instruction) : Prop := ∀ i ∈ code, i.SetsWithin W

variable {W : Register → Fin 8 → Prop} {i : Instruction} {l : Fin 8}

section

variable {d s : Register} {m : Fin 8} {o : Opcode}

theorem Instruction.setsWithin_of_targets (h : ∀ r, .vector r ∈ i.targets → ∀ n, W (.vector r) n) : i.SetsWithin W :=
  fun r n hwrites => h r (mem_targets hwrites rfl) n

theorem Register.eq_of_lane_mem_locations {lanes : List (Fin 8)} {r : Fin 32} {n : Fin 8}
    (h : Location.lane r n ∈ d.locations lanes) : d = .vector r ∧ n ∈ lanes := by
  cases d <;> simp only [Register.locations] at h <;> split at h <;> simp_all

/-- An instruction with one lane in its place for what it writes. -/
theorem Instruction.setsWithin_of_writes (front : List Location) (h : W d l)
    (hwrites : i.writes = front ++ d.locations (Selector.lane l).lanes) (hfront : ∀ r n, Location.lane r n ∉ front) :
    i.SetsWithin W := by
  intro r n hmem
  rw [hwrites] at hmem
  obtain ⟨rfl, hn⟩ := Register.eq_of_lane_mem_locations ((mem_append.mp hmem).resolve_left (hfront r n))
  obtain rfl : n = l := by simpa [Selector.lanes, Selector.covers] using hn
  exact h

theorem setsWithin_laneMove (ho : o = .vmov ∨ o.kind = .reciprocal) (h : W d l) :
    (Instruction.laneMove o d l s m).SetsWithin W := by
  rcases ho with rfl | ho
  · exact setsWithin_of_writes [.accumulator] h rfl (by simp)
  · refine setsWithin_of_writes [.divider, .accumulator] h ?_ (by simp)
    cases o with
    | vrcp | vrcpl | vrcph | vrsq | vrsql | vrsqh => rfl
    | _ => cases ho

theorem setsWithin_toLane (h : W d l) : (Instruction.toLane s d l).SetsWithin W :=
  setsWithin_of_writes [] h rfl (by simp)

theorem setWithin_loadWord (w : UInt32) : SetWithin W (loadWord .scratch w) := by
  have htargets : ∀ i ∈ loadWord .scratch w, i.targets = [.scratch] := by
    unfold loadWord
    repeat' split
    iterate 4
      · exact forall_mem_singleton.mpr rfl
    · exact forall_mem_cons.mpr ⟨rfl, forall_mem_singleton.mpr rfl⟩
  refine fun i hi => setsWithin_of_targets fun r hr => ?_
  rw [htargets i hi] at hr
  cases mem_singleton.mp hr

theorem setWithin_fillLanes (h : W d l) (pattern : UInt16) : SetWithin W (fillLanes d pattern (some l)) := by
  unfold fillLanes
  dsimp only
  split
  · exact forall_mem_singleton.mpr (setsWithin_laneMove (.inl rfl) h)
  · exact forall_mem_append.mpr ⟨setWithin_loadWord _, forall_mem_singleton.mpr (setsWithin_toLane h)⟩

end

section

variable {σ : ScopeStack} {d : Place} (hfraction : d.isWide → W d.fraction l)

include hfraction

theorem setWithin_halves {first second : List Instruction} (hfirst : SetWithin W first)
    (hsecond : W d.fraction l → SetWithin W second) : SetWithin W (first ++ if d.isWide then second else []) := by
  refine forall_mem_append.mpr ⟨hfirst, ?_⟩
  split
  next hwide => exact hsecond (hfraction hwide)
  · exact forall_mem_nil _

variable (hregister : W d.register l) (hl : d.swizzle = some (.lane l))

include hregister hl

theorem setWithin_vectorConstant (c : Constant) : Yields (vectorConstant d c) (SetWithin W) := by
  unfold vectorConstant
  rw [hl]
  exact .skip fun _ => .ok (setWithin_halves hfraction (setWithin_fillLanes hregister _) (setWithin_fillLanes · _))

theorem setWithin_vectorCopy (o : Operand) : Yields (vectorCopy σ d o) (SetWithin W) := by
  have hlane : d.lane? = some l := by rw [Place.lane?, hl]
  have hmoves {i j : Instruction} (hi : i.SetsWithin W) (hj : W d.fraction l → j.SetsWithin W) :
      SetWithin W (i :: if d.isWide then [j] else []) :=
    setWithin_halves hfraction (forall_mem_singleton.mpr hi) fun h => forall_mem_singleton.mpr (hj h)
  refine .skip fun source => ?_
  cases source with
  | constant c => exact setWithin_vectorConstant hfraction hregister hl c
  | address name => exact .error
  | «variable» s =>
    dsimp only
    split
    · rw [scalarToLane, hlane]
      exact .ok (hmoves (setsWithin_toLane hregister) setsWithin_toLane)
    split
    · rw [laneToLane, hlane]
      cases s.lane? with
      | none => exact .error
      | some m => exact .ok (hmoves (setsWithin_laneMove (.inl rfl) hregister) (setsWithin_laneMove (.inl rfl)))
    next hnone => exact absurd (by rw [hl]; rfl) hnone

theorem setWithin_vectorValue (name : String) (e : Expr) : Yields (vectorValue σ ⟨name, d⟩ e) (SetWithin W) := by
  unfold vectorValue
  dsimp only
  split
  · exact .throw
  next hfits =>
    rw [hl] at hfits
    cases e with
    | constant c => exact setWithin_vectorConstant hfraction hregister hl c
    | copy o => exact setWithin_vectorCopy hfraction hregister hl o
    | _ => exact absurd rfl hfits

omit hfraction in
theorem setWithin_loadValue (hvector : d.isVector) (args : List CallArg) (z : Option Swizzle) :
    Yields (Builtin.loadValue σ d args z) (SetWithin W) := by
  refine .skip fun _ => .skip fun _ => .skip fun base => .skip fun offset => ?_
  rw [hvector, hl]
  dsimp only
  split
  · contradiction
  split
  · exact .throw
  · refine .skip fun _ => .ok (forall_mem_append.mpr ⟨?_, forall_mem_singleton.mpr ?_⟩)
    · cases base with
      | register r => exact forall_mem_nil _
      | label name =>
        refine forall_mem_singleton.mpr (setsWithin_of_targets fun r hr => ?_)
        cases mem_singleton.mp hr
    · exact setsWithin_of_writes [] hregister rfl (by simp)

end

/-! ### Reciprocals -/

/-- The only lane that an assignment is to set: the one that it is to, or that it takes the reciprocal of. -/
def Assignment.lane? (a : Assignment) : Option (Fin 8) :=
  match a.swizzle, a.value with
  | some (.lane l), _ => some l
  | none, .call name args swizzle =>
    if (Builtin.ofName? name).any ([Builtin.invert, .invertHalf, .invertHalfSqrt].contains ·) then
      match args, swizzle with
      | _, some (.lane l) | [.operand ⟨_, some (.lane l)⟩], none => some l
      | _, _ => none
    else none
  | _, _ => none

def Assignment.Doubles (a : Assignment) : Prop :=
  ∃ name args swizzle, a.value = .call name args swizzle ∧ Builtin.ofName? name = some .invert

section

variable {σ : ScopeStack} {target : Target} {b : Builtin} {args : List CallArg} {atom : Atom} {s : Place}

theorem Builtin.swizzle_of_vectorAt {z : Option Swizzle} (h : b.vectorAt σ [.operand ⟨atom, z⟩] 0 = .ok s) :
    s.swizzle = z := by
  obtain ⟨p, hp, hs⟩ := bind_eq_ok.mp h
  obtain ⟨o, ho, hsource⟩ := Builtin.exists_of_variableAt hp
  cases mem_singleton.mp ho
  obtain ⟨-, v, -, -, rfl⟩ := Operand.exists_of_source hsource
  split at hs <;> cases hs
  rfl

/-- The reciprocal of one lane, of the argument or of the result, sets no other lane until it is doubled. -/
theorem Builtin.setWithin_reciprocal {z : Option Swizzle}
    (hW : ∀ n, n = l ∨ b = .invert → W target.place.register n ∧ (target.place.isWide → W target.place.fraction n))
    (hl : z = some (.lane l) ∨ z = none ∧ ∃ atom, args = [.operand ⟨atom, some (.lane l)⟩]) :
    Yields (b.reciprocal σ target args z) (SetWithin W) := by
  refine .skip fun _ => ?_
  dsimp only
  split
  · exact .throw
  rename_i htype
  have hwide : target.place.isWide := beq_iff_eq.mpr (Decidable.not_not.mp htype)
  have hcode {high low : Opcode} (hhigh : high.kind = .reciprocal) (hlow : low.kind = .reciprocal) (x y : Register) :
      SetWithin W ([l].flatMap (reciprocalSteps high low target.place x y) ++ if b = .invert then
        [.vector .vaddc target.place.fraction target.place.fraction target.place.fraction none,
          .vector .vadd target.place.register target.place.register target.place.register none] else []) := by
    obtain ⟨hregister, hfraction⟩ := hW l (.inl rfl)
    rw [flatMap_singleton]
    refine forall_mem_append.mpr ⟨?_, ?_⟩
    · simp [reciprocalSteps, setsWithin_laneMove, hhigh, hlow, hregister, hfraction hwide]
    · split
      next hb =>
        refine forall_mem_cons.mpr ⟨?_, forall_mem_singleton.mpr ?_⟩ <;>
          refine setsWithin_of_targets fun r hr n => ?_ <;> rw [mem_singleton.mp hr]
        · exact (hW n (.inr hb)).2 hwide
        · exact (hW n (.inr hb)).1
      · exact forall_mem_nil _
  refine .known fun s hs => ?_
  rcases hl with rfl | ⟨rfl, atom, rfl⟩
  · cases s.swizzle with
    | none => exact .ok (hcode (by split <;> rfl) (by split <;> rfl) _ _)
    | some z => exact .throw
  · rw [Builtin.swizzle_of_vectorAt hs]
    exact .ok (hcode (by split <;> rfl) (by split <;> rfl) _ _)

end

/-! ### Assignments -/

theorem Assignment.setWithin_code {a : Assignment} {σ : ScopeStack} (hl : a.lane? = some l) {v : Variable}
    (hallowed : a.IsAllowed σ v) (signatures : Signatures) (holds : Comparison → Bool) :
    Yields (a.code σ signatures holds) (SetWithin fun r n => r ∈ v.registers ∧ (n = l ∨ a.Doubles)) := by
  let d := Place.ofVariable v a.swizzle
  have hW (n : Fin 8) (hn : n = l ∨ a.Doubles) : (d.register ∈ v.registers ∧ (n = l ∨ a.Doubles))
      ∧ (d.isWide → d.fraction ∈ v.registers ∧ (n = l ∨ a.Doubles)) :=
    ⟨⟨v.register_mem_registers, hn⟩, fun hwide => ⟨v.fraction_mem_registers (beq_iff_eq.mp hwide), hn⟩⟩
  obtain ⟨hregister, hfraction⟩ := hW l (.inl rfl)
  unfold Assignment.lane? at hl
  split at hl
  · rename_i n hswizzle
    cases hl
    have hvector := hallowed.lanes (by rw [hswizzle]; rfl)
    by_cases hcall : ∃ name args z, a.value = .call name args z
    · obtain ⟨name, args, z, hvalue⟩ := hcall
      rw [a.code_call hallowed.target signatures holds hvalue]
      unfold callValue
      split
      · exact .error
      next hload =>
        obtain rfl : name = Builtin.load.name := by simpa [Place.ofVariable, hswizzle] using hload
        exact setWithin_loadValue (d := d) hregister hswizzle hvector args z
    · rw [a.code_vector hallowed.target signatures holds hvector (by simpa using hcall)]
      exact setWithin_vectorValue (d := d) hfraction hregister hswizzle _ _
  · rename_i name args z hnone hvalue
    split at hl
    · rename_i hreciprocal
      obtain ⟨b, hb, hreciprocal⟩ := (Option.any_eq_true _ _).mp hreciprocal
      have hcode : callValue σ signatures ⟨a.target, d⟩ name args z = b.reciprocal σ ⟨a.target, d⟩ args z := by
        rw [callValue, show d.swizzle = none from hnone, hb]
        cases b with
        | invert | invertHalf | invertHalfSqrt => rfl
        | _ => cases hreciprocal
      rw [a.code_call hallowed.target signatures holds hvalue, hcode]
      refine Builtin.setWithin_reciprocal (fun n hn => hW n (hn.imp_right fun h => ?_)) ?_
      · exact ⟨name, args, z, hvalue, h ▸ hb⟩
      · split at hl <;> cases hl
        · exact .inl rfl
        · exact .inr ⟨rfl, _, rfl⟩
    · cases hl
  · cases hl

/-- **Single lanes.**  The code for an assignment to one lane, for a load into one and for a reciprocal of one sets that
lane of its variable and no other lane of any vector; only the full reciprocal may set all lanes of the variable. -/
theorem lowerAssignment_sets_one_lane {f : Frame} {p q : Progress} (hp : p.scopes.IsProper) {a : Assignment}
    (hl : a.lane? = some l) {lines : List Line} (hlower : (lowerAssignment f a).run p = .ok (lines, q)) :
    ∃ v, p.scopes.variableNamed a.target = .ok v ∧ ∀ i, .op i ∈ lines → ∀ r n, Location.lane r n ∈ i.writes →
      .vector r ∈ v.registers ∧ (n = l ∨ a.Doubles) := by
  obtain ⟨htranslated, -, -⟩ := givesFrom_lowerAssignment hp ⟨0, []⟩ a hlower
  generalize q.session.labels = last at htranslated
  cases htranslated with
  | selected hcode =>
    cases hcode with
    | @assign _ v _ hallowed hcode =>
      refine ⟨v, hallowed.target, fun i hi => ?_⟩
      obtain ⟨made, hmade, ⟨⟩⟩ := mem_map.mp hi
      exact Assignment.setWithin_code hl hallowed _ (fun _ => true) _ (hcode _) made hmade
  | choose hallowed hscalar hvalue =>
    unfold Assignment.lane? at hl
    rw [hvalue] at hl
    split at hl
    next hlane => cases hscalar.symm.trans (hallowed.lanes (by rw [hlane]; rfl))
    · contradiction
    · cases hl
  | declaration h => cases h

def Progress.vectors : Progress where
  scopes := ((({} : ScopeStack).declare "a" ⟨.vector 2, .vec32, false⟩ false).2.declare "b"
    ⟨.vector 4, .vec16, false⟩ false).2

def Assignment.inverted (l : Fin 8) : Assignment :=
  ⟨"a", none, none, .call Builtin.invert.name [.operand (.ofName "b")] (some (.lane l)), false⟩

theorem firstInverted_sets_last : ∃ lines,
    (lowerAssignment ⟨"f", false, [], [], false, none, none⟩ (.inverted 0)).run .vectors = .ok (lines, .vectors)
    ∧ (Assignment.inverted 0).lane? = some 0 ∧ (∃ i, .op i ∈ lines ∧ Location.lane 2 7 ∈ i.writes)
    ∧ ∀ i, .op i ∈ lines → Location.lane 4 0 ∉ i.writes := by
  have hproper : Progress.vectors.scopes.IsProper :=
    (ScopeStack.isProper_empty.declare (v := ⟨.vector 2, .vec32, false⟩) ⟨by decide, by decide, rfl⟩ "a" false).declare
      (v := ⟨.vector 4, .vec16, false⟩) ⟨by decide, by decide, rfl⟩ "b" false
  have hlower : (lowerAssignment ⟨"f", false, [], [], false, none, none⟩ (.inverted 0)).run .vectors
      = .ok (_, .vectors) := rfl
  obtain ⟨v, hv, hsets⟩ := lowerAssignment_sets_one_lane hproper (l := 0) rfl hlower
  cases hv
  refine ⟨_, hlower, rfl, ⟨_, .tail _ (.tail _ (.tail _ (.tail _ (.head _)))), by decide⟩, fun i hi hwrites => ?_⟩
  exact absurd (hsets i hi 4 0 hwrites).1 (by decide)

end Microcode
