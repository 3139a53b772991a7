import Microcode.Proofs.Branching
import Microcode.Proofs.Chain

/-!
Passing arguments.

The moves of a call are executed one after another, while a call means all of its arguments at once.  The two are the
same where no move changes a register that a later argument is read from (`Orderly`): then every parameter gets what its
argument was before the call.
-/

namespace Microcode

open List Place Selector

def Selector.origin : Option Selector → Fin 8 → Fin 8
  | none, k => k
  | some (.lane n), _ => n
  | some (.half n), k => ⟨k.val / 4 * 4 + n.val, by omega⟩
  | some (.quarter n), k => ⟨k.val / 2 * 2 + n.val, by omega⟩

def Place.registers (p : Place) : List Register := p.register :: if p.isWide then [p.fraction] else []

variable {code : List Instruction} {position : Nat}

namespace Environment

def move? (c : Environment × RegisterFile) (i : Instruction) : Option (Environment × RegisterFile) :=
  match i.opcode, i.args with
  | .vor, [.lanes d none, .lanes z none, .lanes s selector] =>
    some ({ c.1 with lane := fun r k =>
      if r = d then c.1.lane z k ||| c.1.lane s (origin selector k) else c.1.lane r k }, c.2)
  | _, _ => (c.1.exec? c.2 i).map fun f => (c.1, f)

def Spares (rs : List Register) (c d : Environment × RegisterFile) : Prop :=
  d.1.address = c.1.address ∧ ∀ r ∉ rs, d.2.get r = c.2.get r ∧ d.1.lane r = c.1.lane r

variable {c d e : Environment × RegisterFile} {rs ss : List Register}

theorem Spares.refl (rs : List Register) (c : Environment × RegisterFile) : Spares rs c c :=
  ⟨rfl, fun _ _ => ⟨rfl, rfl⟩⟩

theorem Spares.trans (h : Spares rs c d) (h' : Spares ss d e) : Spares (rs ++ ss) c e := by
  refine ⟨h'.1.trans h.1, fun r hr => ?_⟩
  obtain ⟨hrs, hss⟩ := not_or.mp (mt mem_append.mpr hr)
  exact ⟨(h'.2 r hss).1.trans (h.2 r hrs).1, (h'.2 r hss).2.trans (h.2 r hrs).2⟩

variable {m : Environment} {f g : RegisterFile}

theorem move?_of_exec? {i} (h : m.exec? f i = some g) : move? (m, f) i = some (m, g) := by
  unfold move?
  split
  next hargs => simp [exec?, Instruction.exec?, hargs] at h
  · simp [h]

theorem moves_of_run (h : m.run f code = some g) : code.foldlM move? (m, f) = some (m, g) :=
  foldlM_of_step (e := (m, ·)) move?_of_exec? h

theorem moves_set {p : Place} {w} (hp : p.register.HoldsWord) (h : m.run f code = some (f.set p.register w)) :
    ∃ d, code.foldlM move? (m, f) = some d ∧ d.1 = m ∧ d.2.get p.register = w ∧ Spares p.registers (m, f) d := by
  refine ⟨_, moves_of_run h, rfl, f.get_set_self hp, rfl, fun r hr => ⟨f.get_set_of_ne ?_, rfl⟩⟩
  rintro rfl
  exact hr (by simp [registers])

theorem move?_vor (hzero : ∀ k, c.1.lane .zeroVector k = 0) (target source : Register) (selector : Option Selector) :
    ∃ d, move? c (.vector .vor target .zeroVector source selector) = some d ∧
      (∀ k, d.1.lane target k = c.1.lane source (origin selector k)) ∧ Spares [target] c d := by
  refine ⟨_, rfl, fun k => ?_, rfl, fun r hr => ⟨rfl, ?_⟩⟩
  · simp [hzero]
  · funext k
    simp [mem_singleton.not.mp hr]

end Environment

/-! ### One argument -/

open Environment

def Source.registers : Source → List Register
  | .variable p => p.registers
  | _ => []

def Source.Arrives (c : Environment × RegisterFile) (p : Place) (d : Environment × RegisterFile) : Source → Prop
  | .variable q =>
    (p.isVector = false → d.2.get p.register = c.2.get q.register) ∧
      (p.isVector → ∀ k, d.1.lane p.register k = c.1.lane q.register (origin q.selector k)) ∧
      (p.isWide → q.isWide ∧ ∀ k, d.1.lane p.fraction k = c.1.lane q.fraction (origin q.selector k))
  | .constant x => ∃ v, x.toInt? = some v ∧ d.2.get p.register = word v
  | .address name => d.2.get p.register = c.1.address name &&& 0xFFFF#32

structure Place.IsFree (p : Place) : Prop where
  distinct : p.registers.Nodup
  changes : ∀ r ∈ p.registers, r ≠ .zero ∧ r ≠ .zeroVector

/-- Nothing but the registers of a place is in the way of a source: if it is there already all of its lanes are wanted,
and else its second half is not where the first is to go. -/
def Source.IsClear (p : Place) (s : Source) : Prop :=
  ∀ q, s = .variable q → if q.register = p.register then q.swizzle = none else p.isWide → q.fraction ≠ p.register

section
variable {c d e : Environment × RegisterFile} {rs : List Register} {p : Place} {s : Source}

theorem Source.Arrives.of_spares (h : s.Arrives d p e) (hspares : Spares rs c d) (hs : ∀ r ∈ rs, r ∉ s.registers) :
    s.Arrives c p e := by
  cases s with
  | constant x => exact h
  | address name =>
    dsimp only [Arrives] at h ⊢
    rw [← hspares.1]
    exact h
  | «variable» q =>
    have hq {r : Register} (hr : r ∈ q.registers) := hspares.2 r fun hmem => hs r hmem hr
    have hfirst := hq (.head _)
    dsimp only [Arrives] at h ⊢
    rw [hfirst.1, hfirst.2] at h
    refine ⟨h.1, h.2.1, fun hwide => ?_⟩
    obtain ⟨hq', hlane⟩ := h.2.2 hwide
    rw [(hq (by simp [Place.registers, hq'])).2] at hlane
    exact ⟨hq', hlane⟩

theorem Source.Arrives.mono (h : s.Arrives c p d) (hspares : Spares rs d e) (hp : ∀ r ∈ p.registers, r ∉ rs) :
    s.Arrives c p e := by
  have hfirst := hspares.2 _ (hp _ (.head _))
  cases s <;> dsimp only [Arrives] at h ⊢ <;> rw [hfirst.1]
  case constant | address => exact h
  case «variable» q =>
    rw [hfirst.2]
    refine ⟨h.1, h.2.1, fun hwide => ?_⟩
    rw [(hspares.2 _ (hp _ (by simp [Place.registers, hwide]))).2]
    exact h.2.2 hwide

theorem wide_of_registerCount {a b : DataType} (h : a.registerCount = b.registerCount) : (a == .vec32) = (b == .vec32) := by
  revert h
  cases a <;> cases b <;> decide

section
variable (hclass : p.register.isVector = p.isVector) (hfree : p.IsFree)
include hclass hfree

theorem Place.IsFree.holdsWord (hv : p.isVector = false) : p.register.HoldsWord :=
  ⟨hclass.trans hv, (hfree.changes p.register (.head _)).1⟩

theorem moveVariable_arrives {q : Place} (h : moveArgument p.register p.type (.variable q) = .ok code)
    (hclear : Source.IsClear p (.variable q)) (hzero : ∀ k, c.1.lane .zeroVector k = 0) :
    ∃ d, code.foldlM move? c = some d ∧ Source.Arrives c p d (.variable q) ∧ Spares p.registers c d := by
  dsimp only [moveArgument] at h
  split at h
  · cases h
  next hsame =>
    have hwide : q.isWide = p.isWide := wide_of_registerCount (Decidable.not_not.mp (not_or.mp hsame).2)
    have hclear := hclear q rfl
    split at h
    next hregister =>
      cases h
      rw [if_pos hregister] at hclear
      refine ⟨c, rfl, ⟨fun _ => by rw [hregister], fun _ k => ?_, fun hw => ⟨hwide.trans hw, fun k => ?_⟩⟩, .refl _ c⟩
      · simp [selector, hclear, hregister, origin]
      · simp [selector, hclear, hregister, origin, fraction]
    next hregister =>
      rw [if_neg hregister] at hclear
      split at h
      next hv =>
        cases h
        have hv : p.isVector = false := by simpa [isVector] using hv
        have hrun : c.2.run [.scalar .or [p.register, q.register, .zero]]
            = some (c.2.set p.register (c.2.get q.register)) := by
          rw [RegisterFile.run_scalar rfl]
          simp
        obtain ⟨d, hd, -, hget, hspares⟩ := moves_set (hfree.holdsWord hclass hv) (run_of_run (m := c.1) hrun)
        have hnarrow : p.isWide = false := by
          revert hv
          unfold isVector isWide
          cases p.type <;> decide
        exact ⟨d, hd, ⟨fun _ => hget, by simp [hv], by simp [hnarrow]⟩, hspares⟩
      next hv =>
        cases h
        have hv : p.isVector := by simpa [isVector] using hv
        obtain ⟨d, hd, hlane, hspares⟩ := move?_vor hzero p.register q.register q.selector
        rw [foldlM_cons, hd]
        split
        next hw =>
          have hw : p.isWide := hw
          obtain ⟨hdistinct, hchanges⟩ := hfree
          simp only [registers, hw, if_true] at hdistinct hchanges ⊢
          have hzero' : ∀ k, d.1.lane .zeroVector k = 0 := fun k => by
            rw [(hspares.2 _ (by simpa using (hchanges p.register (by simp)).2.symm)).2, hzero]
          obtain ⟨e, he, hlane', hspares'⟩ := move?_vor hzero' p.fraction q.fraction q.selector
          refine ⟨e, (Option.bind_some ..).trans ?_, ⟨by simp [hv], fun _ k => ?_, fun _ => ⟨hwide.trans hw, fun k => ?_⟩⟩,
            hspares.trans hspares'⟩
          · simpa [fraction] using he
          · rw [(hspares'.2 p.register (by simpa using hdistinct)).2, hlane]
          · rw [hlane', (hspares.2 q.fraction (by simpa using hclear hw)).2]
        next hw =>
          have hw : p.isWide = false := eq_false_of_ne_true hw
          exact ⟨d, rfl, ⟨by simp [hv], fun _ => hlane, by simp [hw]⟩, by simpa [registers, hw] using hspares⟩

theorem moveArgument_arrives (h : moveArgument p.register p.type s = .ok code) (hclear : s.IsClear p)
    (hzero : ∀ k, c.1.lane .zeroVector k = 0) :
    ∃ d, code.foldlM move? c = some d ∧ s.Arrives c p d ∧ Spares p.registers c d := by
  cases s with
  | «variable» q => exact moveVariable_arrives hclass hfree h hclear hzero
  | constant x =>
    dsimp only [moveArgument] at h
    split at h
    · cases h
    next hv =>
      split at h <;> cases h
      rename_i v hx
      have hword := hfree.holdsWord hclass (eq_false_of_ne_true hv)
      obtain ⟨d, hd, -, hget, hspares⟩ := moves_set hword (run_of_run (m := c.1) (c.2.run_loadConstant hword v))
      exact ⟨d, hd, ⟨v, hx, hget⟩, hspares⟩
  | address name =>
    dsimp only [moveArgument] at h
    split at h <;> cases h
    rename_i hv
    have hrun : c.1.run c.2 [.address p.register name 0]
        = some (c.2.set p.register (c.1.address name &&& 0xFFFF#32)) := by
      simp [run, Environment.exec?, Instruction.address, Instruction.scalarWith, Opcode.computeAny?, Opcode.compute?,
        Environment.operand?, word_eq_setWidth]
    obtain ⟨d, hd, -, hget, hspares⟩ := moves_set (hfree.holdsWord hclass (eq_false_of_ne_true hv)) hrun
    exact ⟨d, hd, hget, hspares⟩

end
end

def passing? (σ : ScopeStack) (position : Nat) (p : Parameter) (a : CallArg) : Option (Place × Source) :=
  match p.binding? position, a with
  | some b, .operand o => do
    let register ← (b.register p.type).toOption
    let s ← (o.source σ).toOption
    pure (⟨register, p.type, none⟩, s)
  | _, _ => none

def passings? (σ : ScopeStack) : Nat → List Parameter → List CallArg → Option (List (Place × Source))
  | position, p :: params, a :: args => do
    let first ← passing? σ position p a
    let rest ← passings? σ (position + 1) params args
    pure (first :: rest)
  | _, _, _ => some []

/-- The moves do not get into each other's way: the parameters have registers of their own, and none of them is read by
a later argument. -/
structure Orderly (xs : List (Place × Source)) : Prop where
  free : ∀ x ∈ xs, x.1.IsFree ∧ x.2.IsClear x.1
  apart : xs.Pairwise fun x y => ∀ r ∈ x.1.registers, r ∉ y.1.registers ∧ r ∉ y.2.registers

variable {σ : ScopeStack} {routine : String}

theorem exists_passing? {p a} (h : passArgument σ routine p position a = .ok code) :
    ∃ register s, passing? σ position p a = some (⟨register, p.type, none⟩, s) ∧ register.isVector = p.type.isVector ∧
      moveArgument register p.type s = .ok code := by
  unfold passArgument at h
  dsimp only at h
  split at h
  next b hb =>
    obtain ⟨register, hregister, h⟩ := bind_eq_ok.mp h
    split at h
    · obtain ⟨s, hs, h⟩ := bind_eq_ok.mp h
      refine ⟨register, s, ?_, b.register_isVector p.type _ hregister, h⟩
      simp [passing?, hb, hregister, hs, Except.toOption]
    · cases h
  · cases h

theorem passArguments_arrives {params args} (h : passArguments σ routine position params args = .ok code) :
    ∃ xs, passings? σ position params args = some xs ∧ (Orderly xs → ∀ c : Environment × RegisterFile,
      (∀ k, c.1.lane .zeroVector k = 0) → ∃ d, code.foldlM move? c = some d ∧
        (∀ x ∈ xs, x.2.Arrives c x.1 d) ∧ Spares (xs.flatMap (·.1.registers)) c d) := by
  fun_induction passArguments σ routine position params args generalizing code with
  | case1 position p params a args ih =>
    obtain ⟨first, rest, hfirst, hrest, h⟩ := bind₂_eq_ok.mp h
    cases h
    obtain ⟨register, s, hpassing, hclass, hmove⟩ := exists_passing? hfirst
    obtain ⟨xs, hxs, harrive⟩ := ih hrest
    refine ⟨(⟨register, p.type, none⟩, s) :: xs, by simp [passings?, hpassing, hxs], fun horderly c hzero => ?_⟩
    obtain ⟨⟨hfree, hclear⟩, hfrees⟩ := forall_mem_cons.mp horderly.free
    obtain ⟨hapart, haparts⟩ := pairwise_cons.mp horderly.apart
    obtain ⟨d, hd, hsource, hspares⟩ :=
      moveArgument_arrives (p := ⟨register, p.type, none⟩) hclass hfree hmove hclear hzero
    have hzero' : ∀ k, d.1.lane .zeroVector k = 0 := fun k => by
      rw [(hspares.2 _ fun hmem => (hfree.changes _ hmem).2 rfl).2, hzero]
    obtain ⟨e, he, hsources, hspares'⟩ := harrive ⟨hfrees, haparts⟩ d hzero'
    refine ⟨e, ?_, forall_mem_cons.mpr ⟨?_, fun x hx => ?_⟩, hspares.trans hspares'⟩
    · rw [foldlM_append, hd]
      exact he
    · refine hsource.mono hspares' fun r hr hmem => ?_
      obtain ⟨x, hx, hr'⟩ := mem_flatMap.mp hmem
      exact (hapart x hx r hr).1 hr'
    · exact (hsources x hx).of_spares hspares fun r hr => (hapart x hx r hr).2
  | case2 position params args hne =>
    cases h
    refine ⟨[], ?_, fun _ c _ => ⟨c, rfl, by simp, .refl _ c⟩⟩
    unfold passings?
    split
    · exact absurd rfl (hne _ _ _ _ rfl)
    · rfl

/-- **Arguments arrive.**  The code of a call is some moves and a jump.  If no parameter is in a register that another
is in or a later argument is read from, every parameter gets what its argument was before the first of the moves. -/
theorem callFunction_arrives {params : List Parameter} {args : List CallArg} {code : List Instruction}
    (h : callFunction σ routine params args = .ok code) :
    ∃ xs moves, passings? σ 0 params args = some xs ∧ code = moves ++ Instruction.jump .jal routine ∧
      (Orderly xs → ∀ c : Environment × RegisterFile, (∀ k, c.1.lane .zeroVector k = 0) →
        ∃ d, moves.foldlM move? c = some d ∧ ∀ x ∈ xs, x.2.Arrives c x.1 d) := by
  unfold callFunction at h
  dsimp only at h
  split at h
  · cases h
  · rename_i hlength
    obtain ⟨moves, hmoves, h⟩ := bind_eq_ok.mp h
    cases h
    obtain ⟨xs, hxs, harrive⟩ := passArguments_arrives hmoves
    refine ⟨xs, moves, hxs, rfl, fun horderly c hzero => ?_⟩
    obtain ⟨d, hd, harrives, -⟩ := harrive horderly c hzero
    exact ⟨d, hd, harrives⟩

theorem callFunction_arrives_apart : ∃ code moves,
    callFunction .single "g" [⟨"x", .u32, some (.index 8)⟩, ⟨"y", .u32, none⟩]
      [.operand (.ofName "a"), .operand ⟨.constant (.int 7), none⟩] = .ok code ∧
    code = moves ++ Instruction.jump .jal "g" ∧
    ∀ c : Environment × RegisterFile, (∀ k, c.1.lane .zeroVector k = 0) → ∃ d, moves.foldlM move? c = some d ∧
      d.2.get (.scalar 8) = c.2.get (.scalar 4) ∧ d.2.get (.scalar 5) = 7#32 := by
  have hcall : callFunction .single "g" [⟨"x", .u32, some (.index 8)⟩, ⟨"y", .u32, none⟩]
      [.operand (.ofName "a"), .operand ⟨.constant (.int 7), none⟩] = .ok _ := rfl
  obtain ⟨xs, moves, hxs, hcode, harrive⟩ := callFunction_arrives hcall
  cases hxs
  refine ⟨_, moves, rfl, hcode, fun c hzero => ?_⟩
  have horderly : Orderly [(⟨.scalar 8, .u32, none⟩, .variable ⟨.scalar 4, .u32, none⟩),
      (⟨.scalar 5, .u32, none⟩, .constant (.int 7))] := by
    refine ⟨?_, by simp [Place.registers, Place.isWide, Source.registers]⟩
    simp only [List.forall_mem_cons, List.not_mem_nil, false_implies, implies_true, and_true]
    exact ⟨⟨⟨by decide, by decide⟩, by rintro _ ⟨⟩; decide⟩, ⟨by decide, by decide⟩, by rintro _ ⟨⟩⟩
  obtain ⟨d, hd, harrives⟩ := harrive horderly c hzero
  obtain ⟨v, hv, hget⟩ := harrives _ (List.mem_cons_of_mem _ List.mem_cons_self)
  cases hv
  exact ⟨d, hd, (harrives _ List.mem_cons_self).1 rfl, hget⟩

end Microcode
