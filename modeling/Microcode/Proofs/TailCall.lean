import Microcode.Proofs.Peephole
import Microcode.Proofs.Slot

/-!
Calls that come last may be jumps.

A command is entered with the address of the dispatch loop for its return.  Where only calls that come last write the
return address, that is what it still is at each of them, and a function that is jumped to goes back there by itself.
-/

namespace Microcode

open List Instruction MachineState

/-- Something that a run does, whatever the return address is. -/
inductive Sight (Value Memory : Type) where
  | execution (i : Instruction)
  | decision (i : Instruction) (taken : Bool)
  | entry (name : String) (s : MachineState Value Memory)

/-- What counts of an event.  Of a jump or a call that is where it goes, unless that is the dispatch loop, and the
state but for the return address. -/
def Event.sight? {Value Memory : Type} (loop : Value) : Event Value Memory → Option (Sight Value Memory)
  | .executed i => if i.isNop then none else some (.execution i)
  | .branched i taken s =>
    if i.opcode = .j ∨ i.opcode = .jal then
      (i.target?.filter (· != dispatchLoop)).map fun name => .entry name (s.set .returnAddress loop)
    else some (.decision i taken)
  | _ => none

def sights {Value Memory : Type} (loop : Value) (events : List (Event Value Memory)) : List (Sight Value Memory) :=
  events.filterMap (Event.sight? loop)

/-- Control is at the dispatch loop, or in a function that goes there when it returns. -/
def Machine.Arrives {Value Memory : Type} (M : Machine Value Memory) (loop : Value) : Control Value Memory → Prop
  | .left (.symbol name) s => name = dispatchLoop ∨ (M.callee name s).isSome ∧ s.registers .returnAddress = loop
  | .left (.address value) _ => value = some loop
  | _ => False

/-- The first lines are the second with jumps for the calls, all of which come last. -/
inductive Jumped : List Line → List Line → Prop
  | nil : Jumped [] []
  | keep {l a b} (hl : l.writesReturn = false) (h : Jumped a b) : Jumped (l :: a) (l :: b)
  | tail {call slot jump jumpSlot a b} (hcall : isTailCall call slot jump jumpSlot)
      (h : Jumped a b) : Jumped (.op { call with opcode := .j } :: .op slot :: a)
        (.op call :: .op slot :: .op jump :: .op jumpSlot :: b)

variable {new old a b rest there : List Line} {l : Line} {i call slot jump jumpSlot : Instruction} {name : String}

theorem Line.writesReturn_of_jal (h : i.opcode = .jal) : (Line.op i).writesReturn := by
  have hwrites : Location.returnAddress ∈ i.writes := by simp [writes, h]
  exact effect_writes_contains.mpr hwrites

theorem opcode_of_isTailCall (h : isTailCall call slot jump jumpSlot) : call.opcode = .jal := by
  simp only [isTailCall, Bool.and_eq_true, beq_iff_eq] at h
  exact h.1.1.1.1.1

theorem Jumped.cons {more : Edited} (h : more.count ≤ rest.countP Line.writesReturn ∧
      (rest.countP Line.writesReturn = more.count → Jumped more.lines rest)) (l : Line) :
    more.count ≤ (l :: rest).countP Line.writesReturn ∧
      ((l :: rest).countP Line.writesReturn = more.count → Jumped (l :: more.lines) (l :: rest)) := by
  cases hl : l.writesReturn with
  | true =>
    rw [countP_cons_of_pos hl]
    exact ⟨by omega, fun heq => by omega⟩
  | false =>
    rw [countP_cons_of_neg (by simp [hl])]
    exact ⟨h.1, fun heq => .keep hl (h.2 heq)⟩

/-- If no more lines write the return address than calls were turned, each of those lines is one of these calls. -/
theorem jumpTailCalls_jumped (lines : List Line) : (jumpTailCalls lines).count ≤ lines.countP Line.writesReturn ∧
      (lines.countP Line.writesReturn = (jumpTailCalls lines).count → Jumped (jumpTailCalls lines).lines lines) := by
  fun_induction jumpTailCalls lines with
  | case1 call slot jump jumpSlot rest hcall more ih =>
    have hrest := (sublist_append_right [.op slot, .op jump, .op jumpSlot] rest).countP_le (p := Line.writesReturn)
    rw [countP_cons_of_pos (Line.writesReturn_of_jal (opcode_of_isTailCall hcall))]
    refine ⟨Nat.succ_le_succ (Nat.le_trans ih.1 hrest), fun heq => .tail hcall (ih.2 ?_)⟩
    exact Nat.le_antisymm (Nat.le_trans hrest (Nat.le_of_succ_le_succ (Nat.le_of_eq heq))) ih.1
  | case2 call slot jump jumpSlot rest hcall more ih => exact Jumped.cons ih _
  | case3 l rest hl more ih => exact Jumped.cons ih l
  | case4 => exact ⟨Nat.le_refl _, fun _ => .nil⟩

theorem Jumped.locate (h : Jumped a b) (hb : b <:+ old) (name : String) :
    Option.Rel (fun a b => Jumped a b ∧ b <:+ old) (locate name a) (locate name b) := by
  induction h with
  | nil => exact .none
  | @keep l a b hl h ih =>
    unfold Microcode.locate
    split
    · exact .some ⟨.keep hl h, hb⟩
    · exact ih ((suffix_cons l b).trans hb)
  | tail hcall h ih =>
    exact ih ((suffix_append [_, _, _, _] _).trans hb)

/-! ### The return address -/

namespace Machine

variable {Value Memory : Type} {M : Machine Value Memory} {loop : Value} {s t : MachineState Value Memory}

theorem transfer_state {address} (hjal : i.opcode ≠ .jal)
    (h : (M.transfer old i address rest s).2 = .running there t) : t = s := by
  simp only [transfer, leave, if_neg hjal] at h
  split at h
  · cases h
  · split at h
    · cases h
    · split at h <;> cases h
      rfl

theorem step_keeps_return (hl : l.writesReturn = false) (hraw : l.isRaw = false)
    (hslot : l.isBranch → rest.head?.any Line.isNop)
    (h : (M.step old (.running (l :: rest) s)).2 = .running there t) :
    t.registers .returnAddress = s.registers .returnAddress := by
  cases l with
  | label name | comment c =>
    cases h
    rfl
  | raw text => cases hraw
  | op i =>
    cases hi : i.isBranch with
    | false =>
      rw [M.step_plain _ _ _ hi] at h
      cases h
      exact M.frame i s _ hi hl
    | true =>
      obtain ⟨slot, more, rfl, hnop⟩ : ∃ slot more, rest = .op slot :: more ∧ slot.isNop := by
        have hhead := hslot hi
        match rest, hhead with
        | .op slot :: more, hnop => exact ⟨slot, more, rfl, hnop⟩
      have hjal : i.opcode ≠ .jal := fun hjal => by
        rw [Line.writesReturn_of_jal hjal] at hl
        cases hl
      rw [M.step_branch _ _ _ hi (isBranch_of_isNop hnop), branch, M.exec_nop hnop, linked] at h
      split at h
      · rw [transfer_state hjal h]
      · cases h
        rfl

/-- Control is at lines that come from each other, with the address of the dispatch loop for the return, or it has
left both bodies. -/
inductive Dispatched (M : Machine Value Memory) (loop : Value) (old : List Line) :
    Control Value Memory → Control Value Memory → Prop
  | running {a b : List Line} {s : MachineState Value Memory} (h : Jumped a b) (hb : b <:+ old)
      (hs : s.registers .returnAddress = loop) : Dispatched M loop old (.running a s) (.running b s)
  | left {e e' : Exit Value} {s t : MachineState Value Memory}
      (h : M.Arrives loop (.left e' t) → M.Arrives loop (.left e s)) : Dispatched M loop old (.left e s) (.left e' t)

theorem Dispatched.of_matches {c d} (h : Matches (fun a b => Jumped a b ∧ b <:+ old) c d)
    (hs : ∀ {a s}, c = .running a s → s.registers .returnAddress = loop) : M.Dispatched loop old c d := by
  cases h with
  | running h s => exact .running h.1 h.2 (hs rfl)
  | left e s => exact .left id

variable (hslots : SlotsAre Line.isNop old) (hraw : old.any Line.isRaw = false)
  (hlabels : ∀ name, Option.Rel (fun a b => Jumped a b ∧ b <:+ old) (locate name new) (locate name old))
include hslots hraw hlabels in
theorem step_keep (hl : l.writesReturn = false) (h : Jumped a b) (hb : l :: b <:+ old)
    (hs : s.registers .returnAddress = loop) :
    (M.step new (.running (l :: a) s)).1 = (M.step old (.running (l :: b) s)).1 ∧
      M.Dispatched loop old (M.step new (.running (l :: a) s)).2 (M.step old (.running (l :: b) s)).2 := by
  have hslot : l.isBranch → b.head?.any Line.isNop := by
    obtain ⟨front, rfl⟩ := hb
    exact hslots.drop.1
  have hbehind := (suffix_cons l b).trans hb
  have hplain : l.isRaw = false := by simpa using any_eq_false.mp hraw l (hb.subset (.head _))
  have hcommon (hbranch : l.isBranch) : ∃ x a' b', a = x :: a' ∧ b = x :: b' ∧ x.isNop ∧ Jumped a' b' ∧ b' <:+ old := by
    have hnop := hslot hbranch
    cases h with
    | nil => simp at hnop
    | @keep x a' b' hx h => exact ⟨x, a', b', rfl, rfl, hnop, h, (suffix_cons x b').trans hbehind⟩
    | @tail call slot jump jumpSlot a' b' hcall h =>
      have hjal : call.opcode = .jal := opcode_of_isTailCall hcall
      simp [Line.isNop, isNop, hjal] at hnop
  obtain ⟨hevents, hmatches⟩ := M.step_matches hlabels ⟨h, hbehind⟩ (fun hbranch => by
      obtain ⟨x, a', b', ha, hb, -, h⟩ := hcommon hbranch
      exact .inr ⟨x, a', b', ha, hb, h⟩) s
  refine ⟨hevents, .of_matches hmatches fun hrun => ?_⟩
  refine (step_keeps_return hl hplain (fun hbranch => ?_) hrun).trans hs
  obtain ⟨x, a', b', rfl, -, hnop, -⟩ := hcommon hbranch
  exact hnop

omit hslots hraw in
theorem step_call (hi : i.isBranch) (htakes : M.takes i s) (hslot : slot.isNop) (body rest : List Line) :
    M.step body (.running (.op i :: .op slot :: rest) s) = (.executed slot :: .branched i true (M.linked i s) ::
          (M.transfer body i (operand? i 0 s) rest (M.linked i s)).1,
        (M.transfer body i (operand? i 0 s) rest (M.linked i s)).2) := by
  rw [M.step_branch _ _ _ hi (isBranch_of_isNop hslot), branch, M.exec_nop hslot, htakes]
  rfl

theorem sights_nop (h : slot.isNop) (events : List (Event Value Memory)) :
    sights loop (.executed slot :: events) = sights loop events := by
  simp [sights, Event.sight?, h]

theorem sights_cons (e : Event Value Memory) (events : List (Event Value Memory)) :
    sights loop (e :: events) = sights loop [e] ++ sights loop events :=
  filterMap_append (l := [e])

theorem set_set (k : Location) (v w : Value) : (s.set k v).set k w = s.set k w := by
  refine AgreeBut.eq (k := k) ?_ ?_
  · exact ((set_agreeBut w).trans (set_agreeBut v)).trans (set_agreeBut w).symm
  · rw [set_same, set_same]

variable (houtside : callsOutside old) (hloop : dispatchLoop ∉ labels old)
  (hreturns : ∀ name s t, AgreeBut .returnAddress s t → (M.callee name s).isSome = (M.callee name t).isSome)
include hlabels houtside hloop hreturns in
theorem step_tail (hcall : isTailCall call slot jump jumpSlot) (hmem : .op call ∈ old)
    (hs : s.registers .returnAddress = loop) :
    ∃ k, sights loop (M.step new (.running (.op { call with opcode := .j } :: .op slot :: a) s)).1
          = sights loop (M.run old (k + 1) (.running (.op call :: .op slot :: .op jump :: .op jumpSlot :: b) s)).1 ∧
      M.Dispatched loop old (M.step new (.running (.op { call with opcode := .j } :: .op slot :: a) s)).2
        (M.run old (k + 1) (.running (.op call :: .op slot :: .op jump :: .op jumpSlot :: b) s)).2 := by
  simp only [isTailCall, Bool.and_eq_true, beq_iff_eq, Bool.not_eq_true'] at hcall
  obtain ⟨⟨⟨⟨⟨hjal, hslot⟩, hj⟩, hback⟩, hjumpSlot⟩, -⟩ := hcall
  have hbranch : call.isBranch := by rw [isBranch, hjal]; rfl
  have htakes : M.takes call s := by rw [takes, hjal]
  have htarget : ({ call with opcode := .j } : Instruction).target? = call.target? := by
    simp only [target?, hbranch]
    rfl
  have hnew := step_call (M := M) (s := s) (i := { call with opcode := .j }) rfl rfl hslot new a
  have hold := step_call hbranch htakes hslot old (.op jump :: .op jumpSlot :: b)
  rw [linked] at hnew
  rw [linked, if_pos hjal] at hold
  have hentry : Event.sight? loop (.branched { call with opcode := .j } true s)
      = Event.sight? loop (.branched call true (s.set .returnAddress (M.link call))) := by
    simp [Event.sight?, hjal, htarget, set_set]
  have hseen {more : List (Event Value Memory)} (hmore : sights loop more = []) :
      sights loop [.executed slot, .branched { call with opcode := .j } true s]
        = sights loop (.executed slot :: .branched call true (s.set .returnAddress (M.link call)) :: more) := by
    rw [sights_nop hslot, sights_nop hslot, sights_cons _ more, hmore, append_nil]
    simp only [sights, filterMap_cons, hentry]
  cases hx : call.target? with
  | none =>
    rw [transfer, htarget, hx] at hnew
    rw [transfer, if_neg (by simp [hjal]), hx] at hold
    refine ⟨0, ?_, ?_⟩
    · rw [run_one, hnew, hold]
      exact hseen rfl
    · rw [run_one, hnew, hold]
      exact .left id
  | some name =>
    have hold' : locate name old = none := by
      have hcall := all_eq_true.mp houtside _ hmem
      exact locate_eq_none.mpr (by simpa [hjal, hx] using hcall)
    have hnew' : locate name new = none := by
      have hrel := hlabels name
      rw [hold'] at hrel
      generalize locate name new = there at hrel
      cases hrel
      rfl
    rw [transfer, htarget, hx] at hnew
    rw [transfer, if_neg (by simp [hjal]), hx] at hold
    simp only [hnew', leave, reduceCtorEq, if_false] at hnew
    simp only [hold', leave, if_pos hjal] at hold
    cases hcallee : M.callee name (s.set .returnAddress (M.link call)) with
    | none =>
      rw [hcallee] at hold
      refine ⟨0, ?_, ?_⟩
      · rw [run_one, hnew, hold]
        exact hseen rfl
      · rw [run_one, hnew, hold]
        exact .left False.elim
    | some u =>
      -- The function has returned, and the jump behind the call goes to the dispatch loop.
      rw [hcallee] at hold
      have hjump := M.step_jump old b hj hjumpSlot hback u
      rw [goto, locate_eq_none.mpr hloop] at hjump
      refine ⟨1, ?_, ?_⟩
      · rw [run_succ, run_one, hnew, hold, hjump]
        refine hseen ?_
        simp [sights, Event.sight?, hjumpSlot, hj, hback]
      · rw [run_succ, run_one, hnew, hold, hjump]
        refine .left fun _ => .inr ⟨?_, hs⟩
        rw [← hreturns name _ s (set_agreeBut (M.link call)), hcallee]
        rfl

include hslots hraw hlabels houtside hloop hreturns in
theorem Simulation.of_jumped :
    M.Simulation (fun a b => sights loop a = sights loop b) (M.Dispatched loop old) new old where
  nil := rfl
  append := fun h h' => by
    simp only [sights, filterMap_append] at h h' ⊢
    rw [h, h']
  left := fun h => by
    cases h
    exact ⟨_, _, rfl⟩
  step := by
    intro rest s d h
    cases h with
    | running h hb hs =>
      cases h with
      | nil => exact ⟨0, rfl, .left id⟩
      | keep hl h =>
        obtain ⟨hevents, hmeets⟩ := step_keep (M := M) hslots hraw hlabels hl h hb hs
        refine ⟨0, ?_, ?_⟩
        · rw [run_one, hevents]
        · exact hmeets
      | tail hcall h => exact step_tail hlabels houtside hloop hreturns hcall (hb.subset (.head _)) hs

end Machine

/-- **Calls that come last may be jumps.**  If calls go to functions outside, and whether these return does not depend
on the return address, the run of a command with jumps for its last calls shows what the run before shows, and comes to
the dispatch loop where that one does. -/
theorem tailCalls_preserves {Value Memory : Type} (M : Machine Value Memory) {body : List Line}
    (hslots : SlotsAre Line.isNop body) (houtside : callsOutside body = true) (hloop : dispatchLoop ∉ labels body)
    (hreturns : ∀ name s t, MachineState.AgreeBut .returnAddress s t →
      (M.callee name s).isSome = (M.callee name t).isSome)
    (loop : Value) {s : MachineState Value Memory} (hs : s.registers .returnAddress = loop) :
    (∀ n, ∃ m, n ≤ m ∧ sights loop (M.run (tailCalls body).lines n (.running (tailCalls body).lines s)).1
        = sights loop (M.run body m (.running body s)).1) ∧
      ∀ m e t, (M.run body m (.running body s)).2 = .left e t →
        ∃ e' t', (M.run (tailCalls body).lines m (.running (tailCalls body).lines s)).2 = .left e' t' ∧
          sights loop (M.run (tailCalls body).lines m (.running (tailCalls body).lines s)).1
            = sights loop (M.run body m (.running body s)).1 ∧
          (M.Arrives loop (.left e t) → M.Arrives loop (.left e' t')) := by
  by_cases hother : (body.any Line.isRaw || body.countP Line.writesReturn ≠ (jumpTailCalls body).count) = true
  · have hsame : tailCalls body = ⟨body, 0⟩ := if_pos hother
    rw [hsame]
    exact ⟨fun n => ⟨n, Nat.le_refl n, rfl⟩, fun m e t h => ⟨e, t, h, rfl, id⟩⟩
  · have hturned : tailCalls body = jumpTailCalls body := if_neg hother
    rw [hturned]
    simp only [Bool.or_eq_true, decide_eq_true_eq, not_or, Bool.not_eq_true, Decidable.not_not] at hother
    have hjumped := (jumpTailCalls_jumped body).2 hother.2
    have hsimulation : M.Simulation (fun a b => sights loop a = sights loop b) (M.Dispatched loop body)
        (jumpTailCalls body).lines body :=
      .of_jumped hslots hother.1 (hjumped.locate (List.suffix_refl body)) houtside hloop hreturns
    have hfollows := hsimulation.follows (.running hjumped (List.suffix_refl body) hs)
    refine ⟨fun n => ?_, fun m e t hleft => ?_⟩
    · obtain ⟨m, hm, hseen, -⟩ := hfollows n
      exact ⟨m, hm, hseen⟩
    · obtain ⟨hseen, hmeets⟩ := hfollows.left_new hleft
      generalize (M.run (jumpTailCalls body).lines m (.running (jumpTailCalls body).lines s)).2 = c at hmeets ⊢
      cases hmeets with
      | left h => exact ⟨_, _, rfl, hseen, h⟩

def relayingCode : List Line := [.label "again", .instr .addiu [.reg (.scalar 8), .reg (.scalar 8), .imm 1],
   .instr .bgtz [.reg (.scalar 8), .label "again"], .nop,
   .instr .beq [.reg (.scalar 9), .reg .zero, .label "other"], .nop,
   .instr .jal [.label "first"], .nop, .instr .j [.label dispatchLoop], .nop,
   .label "other",
   .instr .jal [.label "second"], .nop, .instr .j [.label dispatchLoop], .nop]

theorem relayingCode_tailCalls_preserves :
    (tailCalls relayingCode).count = 2 ∧ SlotsAre Line.isNop relayingCode ∧ callsOutside relayingCode = true ∧
      dispatchLoop ∉ labels relayingCode ∧
      ∀ n, ∃ m, n ≤ m ∧
        sights (.initial .returnAddress) ((Symbol.machine id).run (tailCalls relayingCode).lines n
            (.running (tailCalls relayingCode).lines Symbol.start)).1
          = sights (.initial .returnAddress) ((Symbol.machine id).run relayingCode m
              (.running relayingCode Symbol.start)).1 := by
  have hslots : SlotsAre Line.isNop relayingCode := by
    simp only [relayingCode, SlotsAre]
    decide
  have houtside : callsOutside relayingCode = true := by decide
  have hloop : dispatchLoop ∉ labels relayingCode := by decide
  exact ⟨by decide, hslots, houtside, hloop,
    (tailCalls_preserves (Symbol.machine id) hslots houtside hloop (fun _ _ _ _ => rfl) (.initial .returnAddress)
      (s := Symbol.start) rfl).1⟩

/-- A call of a function in the body, which compares the address that it returns to. -/
def comparingCode : List Line := [.instr .jal [.label "inner"], .nop, .instr .j [.label dispatchLoop], .nop,
   .label "inner",
   .instr .beq [.reg .returnAddress, .reg (.scalar 4), .label "done"], .nop,
   .instr .addiu [.reg (.scalar 8), .reg .zero, .imm 1],
   .label "done",
   .instr .jr [.reg .returnAddress], .nop]

/-- Where a call stays in the body, what is executed there may depend on the address that it leaves. -/
theorem comparingCode_tailCalls_differs :
    (labels comparingCode).Nodup ∧ SlotsAre Line.isNop comparingCode ∧ dispatchLoop ∉ labels comparingCode ∧
      (let old := (Symbol.machine id).run comparingCode 6 (.running comparingCode Symbol.start)
       let new := (Symbol.machine id).run (tailCalls comparingCode).lines 6
        (.running (tailCalls comparingCode).lines Symbol.start)
       (∃ t, old.2 = .left (.address ((Symbol.machine id).link ⟨.jal, [.label "inner"], {}⟩)) t) ∧
        (Symbol.machine id).Arrives (.initial .returnAddress) new.2 ∧
        (sights (.initial .returnAddress) old.1).length = 4 ∧ (sights (.initial .returnAddress) new.1).length = 3) :=
  ⟨by decide, by simp only [comparingCode, SlotsAre]; decide, by decide, ⟨_, rfl⟩, rfl, rfl, rfl⟩

end Microcode
