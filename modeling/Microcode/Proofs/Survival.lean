import Microcode.Proofs.Definition
import Microcode.Proofs.Lowering
import Microcode.Proofs.Thinning

/-!
Barriers in the optimized code.

Each pass spares the pinned instructions that it has to: those that are reached, as long as that can be told
from the labels, and then those that are live by the lines before them (`Stage.needs`, `Stage.leaves`).
-/

namespace Microcode

variable {lines out old new mid body front front' : List Line}
  {Lost Live Live' Mid : List Line → List Line → Prop} {way way' : Nat → Option Nat} {rounds n : Nat}
  {ε α β : Type}

open List Line Code

variable {codes : List Code}

/-- The instruction at a position may be executed: control comes to it, or to the branch whose slot it is
in. -/
def Executed (body : List Line) (i : Nat) : Prop := Reached body (body.drop i) ∨
    ∃ b branch, i = b + 1 ∧ body[b]? = some branch ∧ branch.isBranch ∧ Reached body (body.drop b)

/-! ### One pass -/

/-- Lines and what a pass makes of them, with their positions: of the barred lines that are `Live` all are
still there and `Live'`, except those that are `Lost`.  A place is given by the lines before it and the lines
from it on. -/
structure Spares (Lost Live Live' : List Line → List Line → Prop) (way : Nat → Option Nat)
    (old new : List Line) : Prop extends Tracks way old new where
  spared : ∀ {i : Nat} {l : Line}, old[i]? = some l → l.isBarred → Live (old.take i) (old.drop i) →
    (∃ k, way i = some k ∧ Live' (new.take k) (new.drop k)) ∨ Lost (old.take i) (old.drop i)

theorem Thins.exists_tracks (h : Thins Lost Live Live' front front' old new) :
    ∃ way, Tracks way old new ∧ ∀ {i : Nat} {l : Line}, old[i]? = some l → l.isBarred →
      Live (front ++ old.take i) (old.drop i) → (∃ k, way i = some k ∧ Live' (front' ++ new.take k) (new.drop k)) ∨
          Lost (front ++ old.take i) (old.drop i) := by
  induction h with
  | nil => exact ⟨_, .nil, fun hl => absurd hl (by simp)⟩
  | @keep front front' old new l l' hstems hlive _ ih =>
    obtain ⟨way, htracks, hspared⟩ := ih
    refine ⟨keepFirst way, htracks.keep hstems, fun {i m} hm hbarred hplace => ?_⟩
    cases i with
    | zero =>
      obtain rfl : l = m := by simpa using hm
      exact .inl ⟨0, rfl, by simpa using hlive hbarred (by simpa using hplace)⟩
    | succ i =>
      rcases hspared hm hbarred (by simpa using hplace) with ⟨k, hk, hlive⟩ | hlost
      · exact .inl ⟨k + 1, by simp [keepFirst, hk], by simpa using hlive⟩
      · exact .inr (by simpa using hlost)
  | @drop front front' old new l hlost _ ih =>
    obtain ⟨way, htracks, hspared⟩ := ih
    refine ⟨dropFirst way, htracks.drop, fun {i m} hm hbarred hplace => ?_⟩
    cases i with
    | zero =>
      obtain rfl : l = m := by simpa using hm
      exact .inr (by simpa using hlost hbarred (by simpa using hplace))
    | succ i =>
      rcases hspared hm hbarred (by simpa using hplace) with hkept | hlost
      · exact .inl hkept
      · exact .inr (by simpa using hlost)
  | @add front front' old new l' hfiller _ ih =>
    obtain ⟨way, htracks, hspared⟩ := ih
    refine ⟨addFirst way, htracks.add hfiller, fun {i m} hm hbarred hplace => ?_⟩
    rcases hspared hm hbarred hplace with ⟨k, hk, hlive⟩ | hlost
    · exact .inl ⟨k + 1, by simp [addFirst, hk], by simpa using hlive⟩
    · exact .inr hlost

theorem Thins.spares (h : Thins Lost Live Live' [] [] old new) : ∃ way, Spares Lost Live Live' way old new := by
  obtain ⟨way, htracks, hspared⟩ := h.exists_tracks
  exact ⟨way, htracks, hspared⟩

theorem Arranges.spares (h : Arranges old new) : ∃ way, Spares Nowhere Anywhere Anywhere way old new := by
  obtain ⟨way, htracks, hkept⟩ := h
  refine ⟨way, htracks, fun hl hbarred _ => .inl ?_⟩
  obtain ⟨k, hk⟩ := hkept hl hbarred
  exact ⟨k, hk, trivial⟩

namespace Spares

theorem weaken (h : Spares Nowhere Live Live' way old new) : Spares Lost Live Live' way old new :=
  ⟨h.toTracks, fun hl hbarred hlive => .inl ((h.spared hl hbarred hlive).resolve_right id)⟩

theorem trans (h : Spares Nowhere Live Mid way old mid) (h' : Spares Nowhere Mid Live' way' mid new) :
    Spares Nowhere Live Live' (fun i => (way i).bind way') old new := by
  refine ⟨h.toTracks.trans h'.toTracks, fun hl hbarred hlive => .inl ?_⟩
  obtain ⟨m, hm, hmid⟩ := (h.spared hl hbarred hlive).resolve_right id
  obtain ⟨_, l', heq, hl', hstems⟩ := h.stems hm
  cases hl.symm.trans heq
  obtain ⟨k, hk, hlive'⟩ := (h'.spared hl' (hstems.isBarred hbarred) hmid).resolve_right id
  exact ⟨k, by simp [hm, hk], hlive'⟩

end Spares

inductive Liveness where
  | reached
  | flow
  | anywhere
deriving DecidableEq, Repr

def Liveness.Holds (body : List Line) : Liveness → List Line → List Line → Prop
  | reached => fun _ => Reached body
  | flow => InFlow
  | anywhere => Anywhere

namespace Stage

def needs : Stage → Liveness
  | stripComments | mergeJumps => .reached
  | reorder | fillDelaySlots => .anywhere
  | _ => .flow

def leaves : Stage → Liveness
  | stripComments => .reached
  | cutDeadTail | reorder | fillDelaySlots => .anywhere
  | _ => .flow

/-- **Each pass** spares the pinned instructions that are live, except those whose barrier it overlooks. -/
theorem apply_spares (stage : Stage) (rounds : Nat) (isCommand : Bool)
    (hs : SlotsAre isStraight lines) (hout : stage.apply rounds isCommand lines = .ok out) :
    ∃ way, Spares stage.Overlooks (stage.needs.Holds lines) (stage.leaves.Holds out) way lines out := by
  cases stage with
  | stripComments =>
    cases hout
    obtain ⟨way, hto⟩ := (stripComments_thins hs).spares
    exact ⟨way, hto.weaken⟩
  | mergeJumps =>
    obtain ⟨e, he, rfl⟩ := map_eq_ok.mp hout
    obtain ⟨way, hto⟩ := ((mergesJumps_of_ok he).thins hs (.start lines)).spares
    exact ⟨way, hto.weaken⟩
  | mergeAsserts =>
    obtain ⟨e, he, rfl⟩ := map_eq_ok.mp hout
    exact ((mergesAsserts_of_ok he).thins (.inl rfl)).spares
  | collapseJumps =>
    cases hout
    have hmap : SlotsAre isStraight (lines.map (·.followHops (hops lines))) :=
      hs.map (fun l => (followHops_cases (hops lines) l).1) fun l => (followHops_cases (hops lines) l).2
    obtain ⟨way, hto⟩ := (followHops_thins lines).spares
    obtain ⟨way', hto'⟩ := ((dropUnreached_cuts (.code false) _ [] [] hmap (by simp) rfl (by simp)).thins (.inl rfl)
      fun h _ => h.thins).spares
    exact ⟨_, (hto.trans hto').weaken⟩
  | dedupeLabels =>
    cases hout
    obtain ⟨way, hto⟩ := (dedupeLabels_thins lines).spares
    exact ⟨way, hto.weaken⟩
  | dedupeImmediates =>
    cases hout
    exact (dedupeImmediates_thins lines).spares
  | foldReciprocals =>
    cases hout
    obtain ⟨way, hto⟩ := (foldReciprocals_thins lines).spares
    exact ⟨way, hto.weaken⟩
  | tailCalls =>
    cases hout
    exact (tailCalls_thins lines).spares
  | cutDeadTail =>
    cases hout
    obtain ⟨way, hto⟩ := ((cutDeadTail_cuts lines [] [] hs fun _ => rfl).thins (.inl rfl) fun h _ => h.thins).spares
    exact ⟨way, hto.toTracks, fun hl hbarred hlive => .inl ((hto.spared hl hbarred hlive).resolve_right id |>.imp
      fun _ hk => ⟨hk.1, trivial⟩)⟩
  | reorder =>
    cases hout
    obtain ⟨way, hto⟩ := (reorder_arranges rounds lines).spares
    exact ⟨way, hto.weaken⟩
  | fillDelaySlots =>
    cases hout
    obtain ⟨way, hto⟩ := (fillDelaySlots_arranges lines).spares
    exact ⟨way, hto.weaken⟩

end Stage

/-- On its way through some passes the line at a position comes to one that overlooks its barrier. -/
inductive Overlooked (rounds : Nat) (isCommand : Bool) : List Stage → List Line → Nat → Prop
  | here {stage stages lines i}
      (h : stage.Overlooks (lines.take i) (lines.drop i)) :
      Overlooked rounds isCommand (stage :: stages) lines i
  | later {stage stages lines mid way i k}
      (happly : stage.apply rounds isCommand lines = .ok mid) (htracks : Tracks way lines mid)
      (hk : way i = some k) (h : Overlooked rounds isCommand stages mid k) :
      Overlooked rounds isCommand (stage :: stages) lines i

/-- What a pass leaves to be spared is what the next one has to spare. -/
def Joined : Liveness → List Stage → Prop
  | _, [] => True
  | level, stage :: rest => stage.needs = level ∧ Joined stage.leaves rest

theorem joined_all (isCommand : Bool) : Joined .reached (Stage.all isCommand) := by
  cases isCommand <;> simp [Stage.all, Joined, Stage.needs, Stage.leaves]

theorem foldlM_apply_spares {stages level} (hjoined : Joined level stages)
    {isCommand : Bool} (hs : SlotsAre isStraight lines)
    (hout : stages.foldlM (fun lines stage => stage.apply rounds isCommand lines) lines = .ok out) :
    ∃ way, Tracks way lines out ∧ ∀ {i : Nat} {l : Line}, lines[i]? = some l → l.isBarred →
      level.Holds lines (lines.take i) (lines.drop i) →
        (∃ k, way i = some k) ∨ Overlooked rounds isCommand stages lines i := by
  induction stages generalizing level lines with
  | nil =>
    obtain rfl : lines = out := Except.ok.inj hout
    exact ⟨_, .refl lines, fun {i} _ hl _ _ => .inl ⟨i, by simp [hl]⟩⟩
  | cons stage stages ih =>
    obtain ⟨rfl, hjoined⟩ := hjoined
    obtain ⟨mid, hmid, hout⟩ := bind_eq_ok.mp hout
    obtain ⟨_, heq, hs'⟩ := stage.apply_slots rounds isCommand hs
    cases hmid.symm.trans heq
    obtain ⟨way, hspares⟩ := stage.apply_spares rounds isCommand hs hmid
    obtain ⟨way', htracks, hkept⟩ := ih hjoined hs' hout
    refine ⟨_, hspares.toTracks.trans htracks, fun hl hbarred hlive => ?_⟩
    rcases hspares.spared hl hbarred hlive with ⟨m, hm, hlive'⟩ | hlost
    · obtain ⟨_, l', heq, hl', hstems⟩ := hspares.stems hm
      cases hl.symm.trans heq
      rcases hkept hl' (hstems.isBarred hbarred) hlive' with ⟨k, hk⟩ | hover
      · exact .inl ⟨k, by simp [hm, hk]⟩
      · exact .inr (.later hmid hspares.toTracks hm hover)
    · exact .inr (.here hlost)

theorem Executed.reached {i : Nat} {l : Line} (hs : SlotsAre isNop body)
    (hl : body[i]? = some l) (hbarred : l.isBarred) (h : Executed body i) :
    Reached body (body.drop i) := by
  rcases h with h | ⟨b, branch, rfl, hb, hbranch, -⟩
  · exact h
  · have hslot := slotsAre_iff.mp hs b branch hb hbranch
    rw [hl] at hslot
    obtain ⟨j, rfl, hnop⟩ := eq_op_of_isNop (show l.isNop from hslot)
    rw [isBarred_of_isNop hnop] at hbarred
    cases hbarred

/-- **All passes together** keep the barred instructions of a body that may be executed, each on its side of
all other lines, unless a pass overlooks a barrier. -/
theorem optimizeLines_tracks (rounds : Nat) (isCommand : Bool) (hs : SlotsAre isNop lines) :
    ∃ out way, optimizeLines rounds isCommand lines = .ok out ∧ Tracks way lines out ∧
      ∀ {i : Nat} {l : Line}, lines[i]? = some l → l.isBarred → Executed lines i →
        (∃ k, way i = some k) ∨ Overlooked rounds isCommand (Stage.all isCommand) lines i := by
  obtain ⟨out, hout, -⟩ := optimizeLines_slots rounds isCommand hs.straight
  rw [optimizeLines_eq] at hout
  obtain ⟨mid, hmid, hcheck⟩ := bind_eq_ok.mp hout
  obtain ⟨-, -, rfl⟩ := map_eq_ok.mp hcheck
  obtain ⟨way, htracks, hkept⟩ := foldlM_apply_spares (joined_all isCommand) hs.straight hmid
  rw [← optimizeLines_eq] at hout
  exact ⟨mid, way, hout, htracks, fun hl hbarred h => hkept hl hbarred (h.reached hs hl hbarred)⟩

/-- What comes of a routine whose body has become some lines: its code has these lines, or, where they are
only a jump, it needs no code and its entry points at the target. -/
inductive Code.Emerges (c : Code) (body : List Line) : Code → Prop
  | code : c.Emerges body { c with lines := body }
  | entry {jump slot target} (hbody : body = [.op jump, .op slot])
      (hjump : jump.opcode = .j) (hslot : slot.isNop) (htarget : jump.target? = some target) :
      c.Emerges body { c with aliasOf := some target, lines := [] }

theorem Code.Emerges.lines_eq {c d : Code} (h : c.Emerges body d) (hd : d.aliasOf = none) : d.lines = body := by
  cases h with
  | code => rfl
  | entry => cases hd

theorem Code.forwarded_emerges (hnames : (codes.map name).Nodup) {c : Code}
    (hc : { c with lines := body } ∈ codes) :
    c.Emerges body (forwarded (forwards codes).reverse { c with lines := body }) := by
  generalize hd : forwarded (forwards codes).reverse { c with lines := body } = d
  cases (hd ▸ forwarded_becomes hnames hc : Code.Becomes codes { c with lines := body } d) with
  | entry h =>
    obtain ⟨jump, slot, hlines, hjump, hslot, htarget⟩ := h.lines
    exact .entry hlines hjump hslot htarget
  | code _ => exact .code

theorem TranslatedRoutines.map_name {o signatures} {m : Nat} {routines}
    (h : TranslatedRoutines o signatures n routines codes m) :
    codes.map name = definedNames routines := by
  induction h with
  | nil => rfl
  | declared hbody _ ih => simp [definedNames, hbody, ih]
  | defined hbody hfirst _ ih => simp [definedNames, hbody, ih, hfirst.name]

theorem forall₂_of_mapM {f : α → Except ε β} {list : List α} {results : List β}
    (h : list.mapM f = .ok results) : Forall₂ (fun a b => f a = .ok b) list results :=
  mapM_induction h .nil fun _ _ _ _ hb => .cons hb

/-- **Barriers hold, but for what is overlooked.**  Whatever program is lowered and whatever the options, each
routine comes out with a body in which its lines can be followed: every instruction with a barrier that has
an effect and may be executed is still there with its barrier, and none of the other lines that are left has
changed sides with it; nothing is new but what fills the slot of a merged branch.  Only where the passes are
made, an instruction may be left out because one of them has overlooked its barrier, and a body that is only
a jump may become an entry in the command table. -/
theorem optimizeAll_keeps_barred {p q : Program} (hplain : p.plain = .ok q) {o : Options} {codes : List Code}
    {warnings : List Warning} (hlower : q.lower o = .ok (codes, warnings)) (settings : Options) :
    ∃ out, optimizeAll settings codes = .ok out ∧ List.Forall₂ (fun c d => ∃ body way,
      c.Emerges body d ∧ Tracks way c.lines body ∧
        ∀ i l, c.lines[i]? = some l → l.isBarred = true → Executed c.lines i →
          (∃ k, way i = some k) ∨ settings.optimize = true ∧
            Overlooked settings.scheduleRounds c.isCommand (Stage.all c.isCommand) c.lines i) codes out := by
  have hslots := (Program.lower_of_isPlain o (Program.isPlain_of_plain hplain)).2 codes warnings hlower
  obtain ⟨made, hmade⟩ := Program.translated_of_lower hlower
  have hnames : (codes.map Code.name).Nodup := hmade.routines.map_name ▸ hmade.nodup_defined
  unfold optimizeAll
  cases hoptimize : settings.optimize with
  | false =>
    refine ⟨codes, rfl, List.forall₂_same.mpr fun c _ => ?_⟩
    exact ⟨c.lines, _, .code, .refl c.lines, fun i l hl _ _ => .inl ⟨i, by simp [hl]⟩⟩
  | true =>
    obtain ⟨optimized, hoptimized⟩ := mapM_optimize_of_slots settings.scheduleRounds
      fun c hc => (hslots c hc).straight
    have hnames' : (optimized.map Code.name).Nodup := by
      rw [map_of_mapM (fun c => (c.optimize_spec _).mono fun _ hd => hd.1) hoptimized]
      exact hnames
    obtain ⟨hlength, hzip⟩ := List.forall₂_iff_zip.mp (forall₂_of_mapM hoptimized)
    rw [hoptimized]
    refine ⟨aliasCommands optimized, rfl, ?_⟩
    rw [aliasCommands, List.forall₂_map_right_iff, List.forall₂_iff_zip]
    refine ⟨hlength, fun {c d} hmem => ?_⟩
    obtain ⟨hc, hd⟩ := List.of_mem_zip hmem
    obtain ⟨body, way, hbody, htracks, hkept⟩ :=
      optimizeLines_tracks settings.scheduleRounds c.isCommand (hslots c hc)
    have hd' := hzip hmem
    rw [Code.optimize, hbody] at hd'
    obtain rfl := Except.ok.inj hd'
    refine ⟨body, way, Code.forwarded_emerges hnames' hd, htracks, fun i l hl hbarred h => ?_⟩
    exact (hkept hl hbarred h).imp_right fun hover => ⟨rfl, hover⟩

def assertingSource : String := "function f(u32 a)\x7bif(a==5)\x7b@Barrier(\"x\") assert(3);\x7d\x7d"

def assertingCode : Code where
  name := "f"
  command := none
  argSize := 0
  align := none
  lines := [.op ⟨.addiu, [.reg .scratch, .reg .zero, .imm 5], ⟨1, none⟩⟩,
     .op ⟨.bne, [.reg (.scalar 4), .reg .scratch, .label "LABEL_0001"], ⟨1, none⟩⟩,
     .op ⟨.nop, [], ⟨1, none⟩⟩,
     .op ⟨.lui, [.reg .scratch, .hex 3], ⟨1, some "x"⟩⟩,
     .op ⟨.j, [.label assertHandler], ⟨1, some "x"⟩⟩,
     .op ⟨.nop, [], ⟨1, some "x"⟩⟩,
     .label "LABEL_0001",
     .op ⟨.jr, [.reg .returnAddress], ⟨1, none⟩⟩,
     .op ⟨.nop, [], ⟨1, none⟩⟩]

def assertingBody : List Line := [.op ⟨.addiu, [.reg .scratch, .reg .zero, .imm 5], ⟨1, none⟩⟩,
   .op ⟨.beq, [.reg (.scalar 4), .reg .scratch, .label assertHandler], ⟨1, none⟩⟩,
   .op ⟨.lui, [.reg .scratch, .hex 3], ⟨1, some "x"⟩⟩,
   .label "LABEL_0001",
   .op ⟨.jr, [.reg .returnAddress], ⟨1, none⟩⟩,
   .op ⟨.nop, [], ⟨1, none⟩⟩]

/-- The jump of the assertion may be executed, and its barrier is overlooked. -/
theorem assertingCode_overlooks_jump :
    (∃ p q warnings, Program.ofSource assertingSource {} .refuse = .ok p ∧ p.plain = .ok q ∧
      q.lower {} = .ok ([assertingCode], warnings)) ∧
    optimizeAll {} [assertingCode] = .ok [{ assertingCode with lines := assertingBody }] ∧
      (∃ l, assertingCode.lines[4]? = some l ∧ l.isBarred = true ∧ Executed assertingCode.lines 4) ∧
      Overlooked (Options.scheduleRounds {}) false (Stage.all false) assertingCode.lines 4 := by
  have hcodes : ((Program.ofSource assertingSource {} .refuse >>= fun p => p.plain >>= fun q =>
      (q.lower {}).map Prod.fst).toOption) = some [assertingCode] := by decide +kernel
  obtain ⟨p, hp, hcodes⟩ := bind_eq_ok.mp (ok_of_toOption hcodes)
  obtain ⟨q, hq, hcodes⟩ := bind_eq_ok.mp hcodes
  obtain ⟨⟨codes, warnings⟩, hlower, hfirst⟩ := map_eq_ok.mp hcodes
  obtain rfl : codes = [assertingCode] := hfirst
  have hout : (optimizeAll {} [assertingCode]).toOption = some [{ assertingCode with lines := assertingBody }] := by
    decide +kernel
  have hexecuted : Executed assertingCode.lines 4 := .inl (.next rfl (.stay rfl rfl (.next rfl .entry)))
  refine ⟨⟨p, q, warnings, hp, hq, hlower⟩, ok_of_toOption hout, ⟨_, rfl, rfl, hexecuted⟩, ?_⟩
  obtain ⟨out, hout', hpairs⟩ := optimizeAll_keeps_barred hq hlower {}
  obtain rfl := Except.ok.inj (hout'.symm.trans (ok_of_toOption hout))
  cases hpairs with
  | cons hfirst _ =>
    obtain ⟨body, way, hemerges, htracks, hkept⟩ := hfirst
    rcases hkept 4 _ rfl rfl hexecuted with ⟨k, hk⟩ | ⟨-, hover⟩
    · -- A jump with the barrier would be left, but only the load has it.
      obtain ⟨_, l, hjump, hl, hstems⟩ := htracks.stems hk
      obtain rfl := Option.some.inj hjump
      rw [← hemerges.lines_eq rfl] at hl
      have honly : ∀ l ∈ assertingBody, l.isBarred = true → l.opcode? = some .lui := by decide
      have hload := honly l (List.mem_of_getElem? hl) (hstems.isBarred rfl)
      obtain ⟨i, rfl⟩ := hstems.eq_op
      have hopcode : i.opcode = .j := Instruction.SameUpTo.opcode (hstems.shape rfl)
      rw [Line.opcode?, Line.instruction?, Option.map_some, hopcode] at hload
      cases hload
    · exact hover

end Microcode
