import Microcode.Proofs.Scope
import Microcode.Proofs.Selection
import Microcode.Proofs.Structured

/-!
The lines that statements become.

`Translated` describes them, one rule for each statement: which instructions are selected in which scopes, where the
tests, jumps and labels stand around the lines of the blocks, and which label is made from which number.
-/

namespace Microcode

open List Instruction ScopeStack Statement Option Assignment Bool Text Microcode.Frame Prod Variable Progress

def stamped (p : Provenance) (code : List Instruction) : List Line := code.map fun i => .op { i with provenance := p }

@[simp] theorem labels_stamped (p : Provenance) (code : List Instruction) : labels (stamped p code) = [] := by
  refine labels_instructions fun l hl => ?_
  obtain ⟨i, -, rfl⟩ := mem_map.mp hl
  rfl

theorem stamped_append (p : Provenance) (code rest : List Instruction) :
    stamped p (code ++ rest) = stamped p code ++ stamped p rest := map_append

def returnCode (isCommand : Bool) : List Instruction := if isCommand then jump .j dispatchLoop
  else withSlot (.scalar .jr [.returnAddress])

/-! ### Labels -/

def labelName (n : Nat) : String := "LABEL_" ++ decimalPadded 4 (n + 1)

theorem ofDigitChars_zeros (k : Nat) (digits : List Char) :
    Nat.ofDigitChars 10 (replicate k '0' ++ digits) 0 = Nat.ofDigitChars 10 digits 0 := by
  induction k with
  | zero => rfl
  | succ k ih => exact ih

theorem decimalPadded_inj {width m n : Nat} (h : decimalPadded width m = decimalPadded width n) : m = n := by
  have hdigits (n : Nat) : Nat.ofDigitChars 10 (decimalPadded width n).toList 0 = n := by
    simp [decimalPadded, padLeft, String.toList_append, ofDigitChars_zeros]
  rw [← hdigits m, h, hdigits]

theorem labelName_inj {m n : Nat} (h : labelName m = labelName n) : m = n := by
  have htext := congrArg String.toList h
  simp only [labelName, String.toList_append] at htext
  exact Nat.succ.inj (decimalPadded_inj (String.toList_inj.mp (append_cancel_left htext)))

theorem labelName_ne_dispatchLoop (n : Nat) : labelName n ≠ dispatchLoop := by
  intro h
  have hhead := congrArg head? (congrArg String.toList h)
  simp [labelName, dispatchLoop, String.toList_append] at hhead

@[simp] theorem labels_nil : labels [] = [] := rfl

def labelsFrom (first last : Nat) : List String := (range' first (last - first)).map labelName

theorem labelsFrom_self (n : Nat) : labelsFrom n n = [] := by simp [labelsFrom]

variable {last : Nat}

theorem labelsFrom_append {first mid : Nat} (h : first ≤ mid) (h' : mid ≤ last) :
    labelsFrom first mid ++ labelsFrom mid last = labelsFrom first last := by
  have hrange := range'_append_1 (s := first) (m := mid - first) (n := last - mid)
  rw [show first + (mid - first) = mid by omega, show mid - first + (last - mid) = last - first by omega] at hrange
  rw [labelsFrom, labelsFrom, labelsFrom, ← map_append, hrange]

@[simp] theorem mem_labelsFrom {first : Nat} {name : String} :
    name ∈ labelsFrom first last ↔ ∃ n, first ≤ n ∧ n < last ∧ labelName n = name := by
  simp only [labelsFrom, List.mem_map, mem_range'_1]
  refine exists_congr fun n => ⟨fun ⟨h, hname⟩ => ?_, fun ⟨h, h', hname⟩ => ?_⟩
  · exact ⟨h.1, by omega, hname⟩
  · exact ⟨⟨h, by omega⟩, hname⟩

theorem nodup_labelsFrom (first last : Nat) : (labelsFrom first last).Nodup :=
  List.Pairwise.map labelName (fun _ _ hne heq => hne (labelName_inj heq)) nodup_range'

/-- The labels among some lines are the names given and those made from the numbers of a range. -/
structure Labelled (names : List String) (first last : Nat) (lines : List Line) : Prop where
  le : first ≤ last
  perm : (labels lines).Perm (names ++ labelsFrom first last)

namespace Labelled

variable {names more : List String} {first mid last : Nat} {lines lines' : List Line}

theorem of_count (hle : first ≤ last)
    (h : ∀ name, (labels lines).count name = names.count name + (labelsFrom first last).count name) :
    Labelled names first last lines := by
  refine ⟨hle, perm_iff_count.mpr fun name => ?_⟩
  rw [h, count_append]

theorem count (h : Labelled names first last lines) (name : String) :
    (labels lines).count name = names.count name + (labelsFrom first last).count name := by
  rw [h.perm.count_eq, count_append]

theorem none (h : labels lines = []) (n : Nat) : Labelled [] n n lines :=
  .of_count (Nat.le_refl n) fun name => by simp [h, labelsFrom_self]

theorem append (h : Labelled names first mid lines) (h' : Labelled more mid last lines') :
    Labelled (names ++ more) first last (lines ++ lines') := by
  refine .of_count (Nat.le_trans h.le h'.le) fun name => ?_
  have hcount := h.count name
  have hcount' := h'.count name
  rw [← labelsFrom_append h.le h'.le]
  simp only [labels_append, count_append]
  omega

theorem add (made : Nat) (h : Labelled names (first + made) last lines) (hlabels : ∀ name, (labels lines').count name
      = (labels lines).count name + ((range' first made).map labelName).count name) :
    Labelled names first last lines' := by
  refine .of_count (Nat.le_trans (Nat.le_add_right first made) h.le) fun name => ?_
  have hcount := h.count name
  have hmade : labelsFrom first (first + made) = (range' first made).map labelName := by
    rw [labelsFrom, Nat.add_sub_cancel_left]
  rw [← labelsFrom_append (Nat.le_add_right first made) h.le, count_append, hmade, hlabels]
  omega

theorem nodup (h : Labelled [] first last lines) : (labels lines).Nodup :=
  h.perm.nodup_iff.mpr (nodup_labelsFrom first last)

theorem dispatchLoop_notMem (h : Labelled [] first last lines) : dispatchLoop ∉ labels lines := by
  intro hmem
  obtain ⟨n, -, -, hn⟩ := mem_labelsFrom.mp (h.perm.mem_iff.mp hmem)
  exact labelName_ne_dispatchLoop n hn

end Labelled

/-! ### The description -/

def Frame.marked (f : Frame) : List Marker → Frame
  | [] => f
  | ⟨.barrier, some (.string name)⟩ :: rest => { f with barrier := some name }.marked rest
  | _ :: rest => f.marked rest

theorem Frame.marked_eq (f : Frame) (markers : List Marker) :
    f.marked markers = { f with barrier := (f.marked markers).barrier } := by
  fun_induction marked f markers with
  | case1 f => rfl
  | case2 f name rest ih => rw [ih]
  | case3 f _ rest _ ih => exact ih

def Frame.comment (f : Frame) (s : Statement) : List Line :=
  if f.comments && !s.isBlock then [.comment ("L" ++ numeral s.line)] else []

theorem Frame.isComment_of_mem_comment (f : Frame) (s : Statement) : ∀ l ∈ f.comment s, l.isComment := by
  unfold comment
  split <;> simp [Line.isComment]

@[simp] theorem Frame.labels_comment (f : Frame) (s : Statement) : Microcode.labels (f.comment s) = [] := by
  unfold comment
  split <;> rfl

structure Assignment.IsAllowed (σ : ScopeStack) (a : Assignment) (v : Variable) : Prop where
  target : σ.variableNamed a.target = .ok v
  plain : a.op = none
  notConst : v.isConst → a.isInit
  lanes : a.swizzle.isSome → v.type.isVector

inductive Action.Selects (f : Frame) (σ : ScopeStack) : Action → List Instruction → Prop
  | assign {a v code} (hallowed : a.IsAllowed σ v)
      (hcode : ∀ holds, a.code σ f.signatures holds = .ok code) : Selects f σ (.assign a) code
  | builtin {name args b code} (hname : Builtin.ofName? name = some b) (hcode : b.run σ args = .ok code) :
      Selects f σ (.call name args) code
  | function {name args params code} (hname : Builtin.ofName? name = none)
      (hfunction : f.signatures.lookup name = some ⟨.function, params⟩)
      (hcode : callFunction σ name params args = .ok code) : Selects f σ (.call name args) code
  | gotoLabel {name} (hname : f.labels.contains name) :
      Selects f σ (.goto name) (jump .j (f.localLabel name))
  | gotoRoutine {name} (hlabel : f.labels.contains name = false)
      (hname : (f.signatures.lookup name).isSome) :
      Selects f σ (.goto name) (jump .j name)
  | breakLoop {exits} (hexits : f.innermost = some exits) :
      Selects f σ .breakLoop (jump .j exits.done)
  | continueLoop {exits} (hexits : f.innermost = some exits) :
      Selects f σ .continueLoop (jump .j exits.next)
  | exit : Selects f σ .exit (returnCode f.isCommand)

def Action.isDeclaration : Action → Bool
  | .declare _ | .declareAlias .. | .undefine _ => true
  | _ => false

/-- The lines that a piece of a body becomes in a frame and scopes.  Labels were made from the numbers below
the first; behind the piece they are made from those below the second. -/
inductive Translated : Frame → ScopeStack → Nat → Piece → List Line → Nat → Prop
  | nil {f σ n} (hσ : σ.IsProper) : Translated f σ n (.all []) [] n
  | cons {f σ n first rest lines m more k} (hσ : σ.IsProper)
      (hfirst : Translated (f.marked first.tag.markers) σ n (.one first) lines m)
      (hrest : Translated f (first.after σ) m (.all rest) more k) :
      Translated f σ n (.all (first :: rest)) (f.comment first ++ lines ++ more) k
  | block {f σ n tag body lines m} (hbody : Translated f (σ.enter body) n (.all (withoutAliases body)) lines m) :
      Translated f σ n (.one (.block tag body)) lines m
  | branch {f σ n tag c yes test line lines m} (htest : branchIf σ c.negate (labelName n) = .ok test)
      (hyes : Translated f (σ.enter yes) (n + 1) (.all (withoutAliases yes)) lines m) :
      Translated f σ n (.one (.branch tag c yes none))
        (stamped ⟨line, f.barrier⟩ test ++ lines ++ [.label (labelName n)]) m
  | branchElse {f σ n tag c yes no test line yesLines m line' noLines k}
      (htest : branchIf σ c.negate (labelName n) = .ok test)
      (hyes : Translated f (σ.enter yes) (n + 2) (.all (withoutAliases yes)) yesLines m)
      (hno : Translated f (σ.enter no) m (.all (withoutAliases no)) noLines k) :
      Translated f σ n (.one (.branch tag c yes (some no))) (stamped ⟨line, f.barrier⟩ test ++ yesLines
          ++ stamped ⟨line', f.barrier⟩ (jump .j (labelName (n + 1)))
          ++ .label (labelName n) :: noLines ++ [.label (labelName (n + 1))]) k
  | whileLoop {f σ n tag c body test line lines line' m} (htest : branchIf σ c.negate (labelName (n + 1)) = .ok test)
      (hbody : Translated { f with innermost := some ⟨labelName n, labelName (n + 1)⟩ } (σ.enter body) (n + 2)
        (.all (withoutAliases body)) lines m) :
      Translated f σ n (.one (.whileLoop tag c body)) (.label (labelName n) :: stamped ⟨line, f.barrier⟩ test ++ lines
          ++ stamped ⟨line', f.barrier⟩ (jump .j (labelName n)) ++ [.label (labelName (n + 1))]) m
  | loop {f σ n tag body lines line m}
      (hbody : Translated { f with innermost := some ⟨labelName n, labelName (n + 1)⟩ } (σ.enter body) (n + 2)
        (.all (withoutAliases body)) lines m) :
      Translated f σ n (.one (.loop tag body none))
        (.label (labelName n) :: lines ++ stamped ⟨line, f.barrier⟩ (jump .j (labelName n))
          ++ [.label (labelName (n + 1))]) m
  | loopUntil {f σ n tag c body lines test line m} (htest : branchIf σ c (labelName n) = .ok test)
      (hbody : Translated { f with innermost := some ⟨labelName (n + 1), labelName (n + 2)⟩ } (σ.enter body)
        (n + 3) (.all (withoutAliases body)) lines m) :
      Translated f σ n (.one (.loop tag body (some c)))
        (.label (labelName n) :: lines ++ .label (labelName (n + 1)) :: stamped ⟨line, f.barrier⟩ test
          ++ [.label (labelName (n + 2))]) m
  | declaration {f σ n tag a} (ha : a.isDeclaration) : Translated f σ n (.one (.action tag a)) [] n
  | label {f σ n tag name} : Translated f σ n (.one (.action tag (.label name))) [.label (f.localLabel name)] n
  | asm {f σ n tag text} : Translated f σ n (.one (.action tag (.asm text))) [.raw text] n
  | selected {f σ n tag a code line} (hcode : a.Selects f σ code) :
      Translated f σ n (.one (.action tag a)) (stamped ⟨line, f.barrier⟩ code) n
  | choose {f σ n tag a v c yes no test yesCode noCode line} (hallowed : a.IsAllowed σ v)
      (hscalar : v.type.isVector = false) (hvalue : a.value = .choose c yes no)
      (htest : branchIf σ c.negate (labelName n) = .ok test)
      (hyes : scalarCopy σ ⟨a.target, .ofVariable v a.swizzle⟩ yes = .ok yesCode)
      (hno : scalarCopy σ ⟨a.target, .ofVariable v a.swizzle⟩ no = .ok noCode) :
      Translated f σ n (.one (.action tag (.assign a)))
        (stamped ⟨line, f.barrier⟩ (test ++ yesCode ++ jump .j (labelName (n + 1)))
          ++ .label (labelName n) :: stamped ⟨line, f.barrier⟩ noCode ++ [.label (labelName (n + 1))]) (n + 2)

variable {α β : Type} {yes no : Operand} {p q : Progress} {name : String} {o : Options} {lines : List Line}
  {seen names earlier : List String}
variable {σ : ScopeStack} {v : Variable} {a : Assignment} {c : Comparison}

def Piece.labels : Piece → List String
  | .one s => s.labels
  | .all body => labelsOf body

theorem labelsOf_withoutAliases (body : List Statement) : labelsOf (withoutAliases body) = labelsOf body := by
  induction body with
  | nil => rfl
  | cons s rest ih =>
    unfold withoutAliases
    split
    next halias =>
      have hs : s.labels = [] := by
        unfold alias? at halias
        split at halias
        · rfl
        · cases halias
      rw [ih, labelsOf, hs, nil_append]
    · rfl

variable {P : Action → Prop} {C : Comparison → Prop} {bound : List (Statement × String × Variable)}
  {body : List Statement}

theorem everyIn_withoutAliases (h : everyIn P C body) : everyIn P C (withoutAliases body) := by
  induction body with
  | nil => exact h
  | cons s rest ih =>
    unfold withoutAliases
    split
    · exact ih h.2
    · exact h

theorem Translated.proper {f : Frame} {n m : Nat} (h : Translated f σ n (.all body) lines m) : σ.IsProper := by
  cases h <;> assumption

theorem Action.Selects.labels {f : Frame} {a : Action} {code}
    (h : a.Selects f σ code) (tag : Tag) : (action tag a).labels = [] := by
  cases h <;> rfl

theorem Translated.labelled {f : Frame} {n m : Nat} {piece : Piece}
    (h : Translated f σ n piece lines m) : Labelled (piece.labels.map f.localLabel) n m lines := by
  induction h with
  | nil | asm => exact .none rfl _
  | @cons f σ n first rest lines m more k _ _ _ ih ih' =>
    have hlocal : (f.marked first.tag.markers).localLabel = f.localLabel := by
      rw [f.marked_eq]
      rfl
    rw [hlocal] at ih
    have hcomment := (Labelled.none (f.labels_comment first) n).append ih
    have hall := hcomment.append ih'
    rwa [nil_append, ← map_append] at hall
  | block _ ih =>
    rw [Piece.labels, labelsOf_withoutAliases] at ih
    exact ih
  | branch htest hyes ih =>
    rw [Piece.labels, labelsOf_withoutAliases] at ih
    exact ih.add 1 fun name => by simp
  | @branchElse f σ n tag c yes no test line yesLines m line' noLines k htest hyes hno ih ih' =>
    rw [Piece.labels, labelsOf_withoutAliases] at ih ih'
    have hboth := ih.append ih'
    rw [← map_append] at hboth
    refine hboth.add 2 fun name => ?_
    simp [range'_succ, count_cons]
    omega
  | whileLoop htest hbody ih | loop hbody ih =>
    rw [Piece.labels, labelsOf_withoutAliases] at ih
    refine ih.add 2 fun name => ?_
    simp [range'_succ, count_cons]
    omega
  | loopUntil htest hbody ih =>
    rw [Piece.labels, labelsOf_withoutAliases] at ih
    refine ih.add 3 fun name => ?_
    simp [range'_succ, count_cons, Nat.add_assoc]
  | @declaration _ _ _ tag a ha =>
    have hlabels : (Statement.action tag a).labels = [] := by cases a <;> first | rfl | cases ha
    rw [Piece.labels, hlabels]
    exact .none rfl _
  | label => exact .of_count (Nat.le_refl _) fun name => by simp [Piece.labels, Statement.labels, labelsFrom_self]
  | selected hcode =>
    rw [Piece.labels, hcode.labels]
    exact .none (labels_stamped _ _) _
  | @choose _ _ n =>
    have hnone : Labelled [] (n + 2) (n + 2) [] := .none rfl _
    refine hnone.add 2 fun name => ?_
    simp [range'_succ, count_cons]

section
variable {type : DataType}

theorem ScopeStack.IsProper.declare (hσ : σ.IsProper) (hv : v.register.Suits v.type) (name : String)
    (shares : Bool) : (σ.declare name v shares).2.IsProper := by
  intro other w hw
  have hunbind (h : (σ.top.unbind name).get? other = some w) : w.register.Suits w.type := by
    rw [Scope.get?_unbind] at h
    split at h
    · cases h
    · exact hσ h
  change (σ.top.declare name v shares).2.get? other = some w at hw
  rcases σ.top.declare_cases name v shares with ⟨-, h⟩ | ⟨-, h⟩ | ⟨-, e, h⟩
  · rw [h] at hw
    exact hσ hw
  · rw [h, Scope.get?_bind] at hw
    split at hw
    · rw [← some.inj hw]
      exact hv
    · exact hunbind hw
  · rw [h] at hw
    exact hunbind hw

theorem ScopeStack.IsProper.undefine (hσ : σ.IsProper) (name : String) : (σ.undefine name).2.IsProper := by
  intro other w hw
  change (σ.top.undefine name).2.get? other = some w at hw
  have hreplaces := Scope.replaces_undefine σ.top name
  by_cases hother : other = name
  · subst hother
    have htaken := (hreplaces.self w hw).2
    unfold registers Register.span at htaken
    split at htaken <;> cases htaken
  · rw [hreplaces.others other hother] at hw
    exact hσ hw

theorem ScopeStack.IsProper.push (hσ : σ.IsProper) : σ.push.IsProper := fun _ _ h => hσ h

theorem ScopeStack.IsProper.aliasOf (hσ : σ.IsProper) (target : String) (type : Option DataType) :
    Yields (σ.aliasOf target type) fun v => v.register.Suits v.type := by
  refine .bind (hσ.variableNamed target) fun v hv => ?_
  dsimp only
  split
  · exact .throw
  next hsame =>
    have hvector : (type.getD v.type).isVector = v.type.isVector := Decidable.byContradiction fun h => hsame (.inl h)
    exact .ok ⟨hv.ne_zero, hv.ne_scratch, hv.isVector.trans hvector.symm⟩

theorem Binding.register_isVector (b : Binding) (type : DataType) :
    Yields (b.register type) fun r => r.isVector = type.isVector := by
  have hchecked (r : Register) : Yields (do
      if r.isVector ≠ type.isVector then throw (.register (.wrongClass r type))
      if type = .vec32 ∧ r.next?.isNone then throw (.register (.noSecondHalf r))
      pure r : Except Fault Register) fun r => r.isVector = type.isVector := by
    dsimp only
    split
    · exact .throw
    next hclass =>
      split
      · exact .throw
      · exact .ok (Decidable.not_not.mp hclass)
  unfold Binding.register
  cases b with
  | named name | index number =>
    dsimp only
    split
    · exact hchecked _
    · exact .throw

theorem ScopeStack.allocate_isVector (σ : ScopeStack) (name : String) (type : DataType) :
    Yields (σ.allocate name type) fun r => r.isVector = type.isVector := by
  have hpool : ∀ r ∈ pool type, r.isVector = type.isVector := by cases type <;> decide
  unfold allocate
  split
  next hfind => exact .ok (hpool _ (mem_of_find?_eq_some hfind))
  · exact .error

theorem ScopeStack.newVariable_isVector (σ : ScopeStack) (name : String) (type : DataType)
    (binding : Option Binding) (isConst : Bool) :
    Yields (σ.newVariable name type binding isConst) fun v => v.register.isVector = v.type.isVector := by
  cases binding with
  | some b => exact .bind (b.register_isVector type) fun r hr => .ok hr
  | none =>
    refine .bind (P := fun r => r.isVector = type.isVector) ?_ fun r hr => .ok hr
    exact fun r hr => σ.allocate_isVector name type r (mapError_eq_ok.mp hr)

end

/-! ### What steps of lowering do -/

def Progress.labelled (p : Progress) : Progress :=
  { p with session := { p.session with labels := p.session.labels + 1 } }

namespace GivesFrom

open Lower

variable {f : α → Lower β} {P : α → Progress → Prop} {Q : β → Progress → Prop}
variable {fault : Fault} {x : Except Fault α}

theorem fail : GivesFrom (fail fault : Lower α) p P := by
  intro a q h
  cases h

theorem failed : GivesFrom (Lower.fail fault >>= f) p Q := bind (P := fun _ _ => False) fail fun _ _ h => h.elim

theorem step {m : Lower α} (h : GivesFrom m p fun a q => GivesFrom (f a) q Q) : GivesFrom (m >>= f) p Q :=
  bind h fun _ _ h => h

theorem thrown {e} : GivesFrom ((throw e : Lower α) >>= f) p Q := by
  intro b q h
  cases h

theorem scopes {f} (h : GivesFrom (f p.scopes) p Q) : GivesFrom (scopes >>= f) p Q := h

theorem get {f : Progress → Lower β} (h : GivesFrom (f p) p Q) : GivesFrom (get >>= f) p Q := h

variable {g : Session → Session}

theorem modifySession {f} (h : GivesFrom (f ()) { p with session := g p.session } Q) :
    GivesFrom (modifySession g >>= f) p Q := h

variable {g : Progress → Progress}

theorem modify {f : PUnit → Lower β} (h : GivesFrom (f ()) (g p) Q) : GivesFrom (modify g >>= f) p Q := h

variable {g : ScopeStack → ScopeStack}

theorem modifyScopes {f} (h : GivesFrom (f ()) { p with scopes := g p.scopes } Q) :
    GivesFrom (modifyScopes g >>= f) p Q := h

theorem checked (h : ∀ a, x = .ok a → GivesFrom (f a) p Q) : GivesFrom (checked x >>= f) p Q := by
  cases x with
  | ok a => exact h a rfl
  | error fault => exact failed

theorem freshLabel {f} (h : GivesFrom (f (labelName p.session.labels)) p.labelled Q) :
    GivesFrom (freshLabel >>= f) p Q := by
  intro b q hb
  exact h hb

variable {g : ScopeStack → Except ScopeError Unit × ScopeStack}

theorem changeScopes :
    GivesFrom (changeScopes g) p fun _ q => g p.scopes = (.ok (), q.scopes) ∧ q.session = p.session := by
  refine .get ?_
  split
  next hg =>
    intro a q hq
    cases hq
    exact ⟨hg, rfl⟩
  · exact fail

theorem emit {frame : Frame} {code f} (h : GivesFrom (f (stamped ⟨p.session.site.line, frame.barrier⟩ code)) p Q) :
    GivesFrom (emit frame code >>= f) p Q := h

theorem emitChecked {frame : Frame} {code Q}
    (h : ∀ selected, code p.scopes = .ok selected → Q (stamped ⟨p.session.site.line, frame.barrier⟩ selected) p) :
    GivesFrom (emitChecked frame code) p Q := by
  refine scopes (checked fun selected hselected lines q hemit => ?_)
  cases hemit
  exact h selected hselected

end GivesFrom

/-- From one point of lowering to another the scopes became others and no label was made. -/
structure Progress.Moves (p : Progress) (σ : ScopeStack) (q : Progress) : Prop where
  scopes : q.scopes = σ
  proper : σ.IsProper
  labels : q.session.labels = p.session.labels

section

open Lower

variable (hp : p.scopes.IsProper)
include hp

theorem Progress.moves_declare {shares : Bool}
    (hv : v.register.Suits v.type) (h : p.scopes.declare name v shares = (.ok (), q.scopes))
    (hlabels : q.session.labels = p.session.labels) :
    p.Moves (p.scopes.withName name (.ok v) shares) q where
  scopes := by rw [withName, h]
  proper := hp.declare hv name shares
  labels := hlabels

theorem givesFrom_checkReserved (registers : List Register) : GivesFrom (checkReserved registers) p fun _ q =>
      p.Moves p.scopes q ∧ ∀ r ∈ registers, r ≠ .zero ∧ r ≠ .scratch := by
  induction registers generalizing p with
  | nil => exact .pure ⟨⟨rfl, hp, rfl⟩, fun _ h => absurd h not_mem_nil⟩
  | cons r rest ih =>
    have hrest {p' : Progress} (hscopes : p'.scopes = p.scopes)
        (hlabels : p'.session.labels = p.session.labels) (hr : r ≠ .zero ∧ r ≠ .scratch) :
        GivesFrom (checkReserved rest) p' fun _ q =>
          p.Moves p.scopes q ∧ ∀ r' ∈ r :: rest, r' ≠ .zero ∧ r' ≠ .scratch := by
      refine (ih (hscopes ▸ hp)).mono fun _ q ⟨hmoves, hrest⟩ => ⟨⟨?_, hp, ?_⟩, ?_⟩
      · rw [hmoves.scopes, hscopes]
      · rw [hmoves.labels, hlabels]
      · exact forall_mem_cons.mpr ⟨hr, hrest⟩
    have hreturn {p' : Progress} (hscopes : p'.scopes = p.scopes)
        (hlabels : p'.session.labels = p.session.labels) (hr : r ≠ .zero ∧ r ≠ .scratch) : GivesFrom (do
        if r = .returnAddress then modifySession (·.warn (.callRegister r))
        checkReserved rest) p' fun _ q =>
          p.Moves p.scopes q ∧ ∀ r' ∈ r :: rest, r' ≠ .zero ∧ r' ≠ .scratch := by
      split
      · exact .modifySession (hrest hscopes hlabels hr)
      · exact hrest hscopes hlabels hr
    unfold checkReserved
    dsimp only
    split
    · exact .failed
    next hreserved =>
      have hr : r ≠ .zero ∧ r ≠ .scratch := by constructor <;> rintro rfl <;> exact hreserved (by decide)
      split
      · exact .modifySession (hreturn rfl rfl hr)
      · exact hreturn rfl rfl hr

theorem givesFrom_declareVariable (name : String) (type : DataType) (binding : Option Binding)
    (isConst : Bool) : GivesFrom (declareVariable name type binding isConst) p fun _ q =>
      p.Moves (p.scopes.withVariable name type binding isConst) q := by
  have hdeclare (r : Register)
      (hr : p.scopes.newVariable name type binding isConst = .ok ⟨r, type, isConst⟩) : GivesFrom (do
      checkReserved (mk r type isConst).registers
      changeScopes (·.declare name ⟨r, type, isConst⟩ false)) p fun _ q =>
        p.Moves (p.scopes.withVariable name type binding isConst) q := by
    refine .bind (givesFrom_checkReserved hp _) fun _ q ⟨hmoves, hreserved⟩ => ?_
    refine GivesFrom.changeScopes.mono fun _ q' ⟨hchange, hsession⟩ => ?_
    rw [hmoves.scopes] at hchange
    obtain ⟨hzero, hscratch⟩ := hreserved r (mk r type isConst).register_mem_registers
    have hsuits : r.Suits type := ⟨hzero, hscratch, p.scopes.newVariable_isVector name type binding isConst _ hr⟩
    rw [withVariable, hr]
    exact moves_declare hp hsuits hchange (by rw [hsession, hmoves.labels])
  unfold declareVariable
  split
  · refine .checked fun r hr => hdeclare r ?_
    rw [newVariable, hr]
    rfl
  · refine .scopes (.checked fun r hr => hdeclare r ?_)
    rw [newVariable, hr]
    rfl

theorem givesFrom_lowerAlias (name target : String) (type : Option DataType) :
    GivesFrom (lowerAlias name target type) p fun _ q =>
      p.Moves (p.scopes.withName name (p.scopes.aliasOf target type) true) q := by
  refine .scopes (.checked fun v hv => GivesFrom.changeScopes.mono fun _ q ⟨hchange, hsession⟩ => ?_)
  rw [hv]
  exact moves_declare hp (hp.aliasOf target type v hv) hchange (congrArg Session.labels hsession)

theorem givesFrom_undefine (name : String) :
    GivesFrom (changeScopes (·.undefine name)) p fun _ q => p.Moves (p.scopes.undefine name).2 q := by
  refine GivesFrom.changeScopes.mono fun _ q ⟨hchange, hsession⟩ => ?_
  exact ⟨by rw [hchange], hp.undefine name, congrArg Session.labels hsession⟩

theorem givesFrom_lookUpAliases (body : List Statement) :
    GivesFrom (lookUpAliases body) p fun bound q => p.Moves p.scopes q ∧
      (∀ b ∈ bound, b.2.2.register.Suits b.2.2.type) ∧
      bound.map (fun b => (b.2.1, Except.ok b.2.2))
        = (leadingAliases body).map fun a => (a.1, p.scopes.aliasOf a.2.1 a.2.2) := by
  induction body generalizing p with
  | nil => exact .pure ⟨⟨rfl, hp, rfl⟩, fun _ h => absurd h not_mem_nil, rfl⟩
  | cons s rest ih =>
    unfold lookUpAliases leadingAliases
    cases s.alias? with
    | none => exact .pure ⟨⟨rfl, hp, rfl⟩, fun _ h => absurd h not_mem_nil, rfl⟩
    | some a =>
      refine .modifySession (.scopes (.checked fun v hv => ?_))
      refine .bind (ih hp) fun bound q ⟨hmoves, hsuits, hbound⟩ => .pure ⟨?_, ?_, ?_⟩
      · exact ⟨hmoves.scopes, hp, hmoves.labels⟩
      · exact forall_mem_cons.mpr ⟨hp.aliasOf a.2.1 a.2.2 v hv, hsuits⟩
      · rw [map_cons, map_cons, hbound, hv]

theorem givesFrom_declareAliases (hbound : ∀ b ∈ bound, b.2.2.register.Suits b.2.2.type) :
    GivesFrom (declareAliases bound) p fun _ q =>
      p.Moves (bound.foldl (fun σ b => σ.withName b.2.1 (.ok b.2.2) true) p.scopes) q := by
  induction bound generalizing p with
  | nil => exact .pure ⟨rfl, hp, rfl⟩
  | cons b rest ih =>
    obtain ⟨hb, hrest⟩ := forall_mem_cons.mp hbound
    refine .modifySession (.bind GivesFrom.changeScopes fun _ q ⟨hchange, hsession⟩ => ?_)
    have hmoves : p.Moves (p.scopes.withName b.2.1 (.ok b.2.2) true) q :=
      moves_declare hp hb hchange (by rw [hsession]; rfl)
    refine (ih (hmoves.scopes ▸ hmoves.proper) hrest).mono fun _ q' h => ⟨?_, ?_, ?_⟩
    · rw [h.scopes, hmoves.scopes]
      rfl
    · rw [foldl_cons, ← hmoves.scopes]
      exact h.proper
    · rw [h.labels, hmoves.labels]

end

section

theorem ScopeStack.withName_outer (σ : ScopeStack) (name : String) (v : Except Fault Variable)
    (shares : Bool) : (σ.withName name v shares).outer = σ.outer := by
  cases v <;> rfl

theorem ScopeStack.enter_outer (σ : ScopeStack) (body : List Statement) : (σ.enter body).outer = σ.top :: σ.outer := by
  have hfold (aliases : List (String × String × Option DataType)) (τ : ScopeStack) :
      (aliases.foldl (fun inner a => inner.withName a.1 (σ.push.aliasOf a.2.1 a.2.2) true) τ).outer = τ.outer := by
    induction aliases generalizing τ with
    | nil => rfl
    | cons a rest ih =>
      rw [foldl_cons, ih]
      exact τ.withName_outer _ _ _
  exact hfold (leadingAliases body) σ.push

theorem Statement.after_outer (σ : ScopeStack) (s : Statement) : (s.after σ).outer = σ.outer := by
  cases s with
  | action tag a =>
    cases a with
    | declare d | declareAlias name target type => exact σ.withName_outer _ _ _
    | _ => rfl
  | _ => rfl

theorem foldl_withName
    (hbound : bound.map (fun b => (b.2.1, Except.ok b.2.2))
      = (leadingAliases body).map fun a => (a.1, σ.push.aliasOf a.2.1 a.2.2)) :
    bound.foldl (fun τ b => τ.withName b.2.1 (.ok b.2.2) true) σ.push = σ.enter body := by
  have hfold := congrArg (foldl (fun inner a => inner.withName a.1 a.2 true) σ.push) hbound
  rw [foldl_map, foldl_map] at hfold
  exact hfold

variable {Q : List Line → Progress → Prop}

theorem givesFrom_inScope (hp : p.scopes.IsProper) {rest}
    (h : ∀ q, p.Moves (p.scopes.enter body) q → GivesFrom rest q fun lines q' =>
      q'.scopes.outer = q.scopes.outer ∧ Q lines { q' with scopes := p.scopes }) :
    GivesFrom (inScope body rest) p Q := by
  refine .modifyScopes ?_
  refine .bind (givesFrom_lookUpAliases (p := { p with scopes := p.scopes.push }) hp.push body) ?_
  intro bound q ⟨hmoves, hsuits, hbound⟩
  refine .bind (givesFrom_declareAliases (hmoves.scopes ▸ hmoves.proper) hsuits) fun _ q' hmoves' => ?_
  rw [hmoves.scopes, foldl_withName hbound] at hmoves'
  have hblock : p.Moves (p.scopes.enter body) q' := ⟨hmoves'.scopes, hmoves'.proper, hmoves'.labels.trans hmoves.labels⟩
  refine .bind (h q' hblock) fun lines q'' ⟨houter, hlines⟩ => .modifyScopes (.pure ?_)
  rw [hblock.scopes, enter_outer] at houter
  have hpop : q''.scopes.pop = p.scopes := by rw [pop, houter]
  rw [hpop]
  exact hlines

end

section

open Lower

section
variable (hv : σ.variableNamed a.target = .ok v) (signatures : Signatures) (holds : Comparison → Bool)
include hv

theorem Assignment.code_call {args swizzle} (hvalue : a.value = .call name args swizzle) : a.code σ signatures holds
      = callValue σ signatures ⟨a.target, .ofVariable v a.swizzle⟩ name args swizzle := by
  simp only [code, hv, hvalue]
  rfl

theorem Assignment.code_vector (hvector : v.type.isVector)
    (hvalue : ∀ name args swizzle, a.value ≠ .call name args swizzle) : a.code σ signatures holds
      = vectorValue σ ⟨a.target, .ofVariable v a.swizzle⟩ a.value := by
  rw [code, hv]
  cases heq : a.value with
  | call name args swizzle => exact absurd heq (hvalue _ _ _)
  | _ => exact if_pos hvector

theorem Assignment.code_choose (hscalar : v.type.isVector = false)
    (hvalue : a.value = .choose c yes no) : a.code σ signatures holds
      = scalarCopy σ ⟨a.target, .ofVariable v a.swizzle⟩ (if holds c then yes else no) := by
  simp only [code, hv, hvalue]
  exact if_neg (by simp [hscalar])

theorem Assignment.code_scalar (hscalar : v.type.isVector = false)
    (hcall : ∀ name args swizzle, a.value ≠ .call name args swizzle)
    (hchoose : ∀ c yes no, a.value ≠ .choose c yes no) : a.code σ signatures holds
      = scalarValue σ ⟨a.target, .ofVariable v a.swizzle⟩ a.value := by
  rw [code, hv]
  cases hvalue : a.value with
  | call name args swizzle => exact absurd hvalue (hcall _ _ _)
  | choose c yes no => exact absurd hvalue (hchoose _ _ _)
  | _ => exact if_neg (by simp [hscalar])

end

theorem emitReturn_eq (f : Frame) : emitReturn f = emit f (returnCode f.isCommand) := by
  unfold emitReturn returnCode
  split <;> rfl


structure Frame.Translates (f : Frame) (piece : Piece) (after : ScopeStack) (p : Progress)
    (lines : List Line) (q : Progress) : Prop where
  translated : Translated f p.scopes p.session.labels piece lines q.session.labels
  scopes : q.scopes = after
  proper : after.IsProper

variable {f : Frame} (hp : p.scopes.IsProper)
include hp

theorem givesFrom_lowerChoice (tag : Tag) (ha : a.IsAllowed p.scopes v)
    (hscalar : v.type.isVector = false)
    (hvalue : a.value = .choose c yes no) : GivesFrom (do
      let otherwise ← freshLabel
      let done ← freshLabel
      let choice ← checked
        (scalarChoice (← scopes) ⟨a.target, .ofVariable v a.swizzle⟩ c yes no otherwise)
      let first ← emit f (choice.test ++ choice.yes ++ jump .j done)
      let second ← emit f choice.no
      pure (first ++ .label otherwise :: second ++ [.label done])) p fun lines q =>
        f.Translates (.one (.action tag (.assign a))) p.scopes p lines q := by
  refine .freshLabel (.freshLabel (.scopes (.checked fun choice hchoice => ?_)))
  obtain ⟨test, yesCode, htest, hyes, hchoice⟩ := bind₂_eq_ok.mp hchoice
  obtain ⟨noCode, hno, hchoice⟩ := bind_eq_ok.mp hchoice
  cases hchoice
  exact .emit (.emit (.pure ⟨.choose ha hscalar hvalue htest hyes hno, rfl, hp⟩))

theorem givesFrom_lowerAssignment (tag : Tag) (a : Assignment) :
    GivesFrom (lowerAssignment f a) p fun lines q =>
      f.Translates (.one (.action tag (.assign a))) p.scopes p lines q := by
  unfold lowerAssignment
  dsimp only
  split
  · exact .thrown
  next hop =>
    refine .scopes (.checked fun v hv => ?_)
    split
    · exact .failed
    next hconst =>
      split
      · exact .failed
      next hlanes =>
        have ha : a.IsAllowed p.scopes v := {
          target := hv
          plain := by simpa using hop
          notConst := by simpa using hconst
          lanes := by simpa using hlanes }
        have hemit {select : ScopeStack → Except Fault (List Instruction)}
            (h : ∀ holds, a.code p.scopes f.signatures holds = select p.scopes) :
            GivesFrom (emitChecked f select) p fun lines q =>
              f.Translates (.one (.action tag (.assign a))) p.scopes p lines q := by
          refine .emitChecked fun code hcode => ?_
          exact ⟨.selected (.assign ha fun holds => (h holds).trans hcode), rfl, hp⟩
        cases hvalue : a.value with
        | call name args swizzle => exact hemit fun holds => a.code_call hv f.signatures holds hvalue
        | flat parts =>
          intro lines q h
          cases h
        | choose c yes no =>
          dsimp only
          split <;> rename_i hvector
          · refine hemit fun holds => ?_
            rw [a.code_vector hv f.signatures holds hvector (by simp [hvalue]), hvalue]
          · rw [not_eq_true] at hvector
            exact givesFrom_lowerChoice hp tag ha hvector hvalue
        | _ =>
          dsimp only
          split <;> rename_i hvector
          · refine hemit fun holds => ?_
            rw [a.code_vector hv f.signatures holds hvector (by simp [hvalue]), hvalue]
          · rw [not_eq_true] at hvector
            refine hemit fun holds => ?_
            rw [a.code_scalar hv f.signatures holds hvector (by simp [hvalue]) (by simp [hvalue]), hvalue]

theorem givesFrom_lowerAction (tag : Tag) (a : Action) : GivesFrom (lowerAction f a) p fun lines q =>
      f.Translates (.one (.action tag a)) (a.after p.scopes) p lines q := by
  have hquiet {σ : ScopeStack} (ha : a.isDeclaration) {m : Lower Unit} (hm : GivesFrom m p fun _ q => p.Moves σ q) :
      GivesFrom (do m; pure []) p fun lines q => f.Translates (.one (.action tag a)) σ p lines q := by
    refine .bind hm fun _ q hmoves => .pure ⟨?_, hmoves.scopes, hmoves.proper⟩
    rw [hmoves.labels]
    exact .declaration ha
  have hemit {code : List Instruction} (hcode : a.Selects f p.scopes code) :
      GivesFrom (emit f code) p fun lines q => f.Translates (.one (.action tag a)) p.scopes p lines q := by
    intro lines q h
    cases h
    exact ⟨.selected hcode, rfl, hp⟩
  have hcall {select : ScopeStack → Except Fault (List Instruction)}
      (h : ∀ code, select p.scopes = .ok code → a.Selects f p.scopes code) :
      GivesFrom (emitChecked f select) p fun lines q =>
        f.Translates (.one (.action tag a)) p.scopes p lines q := by
    refine .emitChecked fun code hcode => ?_
    exact ⟨.selected (h code hcode), rfl, hp⟩
  cases a with
  | declare d => exact hquiet rfl (givesFrom_declareVariable hp d.name d.type d.register d.isConst)
  | declareAlias name target type => exact hquiet rfl (givesFrom_lowerAlias hp name target type)
  | undefine name => exact hquiet rfl (givesFrom_undefine hp name)
  | assign a => exact givesFrom_lowerAssignment hp tag a
  | call name args =>
    show GivesFrom (lowerCall f name args) p _
    unfold lowerCall
    split
    next b hb => exact hcall fun code hcode => .builtin hb hcode
    next hb =>
      split
      · exact .fail
      · exact .fail
      · intro lines q h
        cases h
      next params hfunction => exact hcall fun code hcode => .function hb hfunction hcode
  | goto name =>
    unfold lowerAction
    dsimp only
    split
    next hlabel => exact hemit (.gotoLabel hlabel)
    next hlabel =>
      split
      next hname => exact hemit (.gotoRoutine (eq_false_iff.mpr hlabel) hname)
      · exact .fail
  | label name => exact .pure ⟨.label, rfl, hp⟩
  | breakLoop =>
    unfold lowerAction
    dsimp only
    split
    next exits hexits => exact hemit (.breakLoop hexits)
    · exact .fail
  | continueLoop =>
    unfold lowerAction
    dsimp only
    split
    next exits hexits => exact hemit (.continueLoop hexits)
    · exact .fail
  | exit =>
    show GivesFrom (emitReturn f) p _
    rw [emitReturn_eq]
    exact hemit .exit
  | asm text => exact .pure ⟨.asm, rfl, hp⟩
  | declareInit d value | declareMany names type register isConst =>
    intro lines q h
    cases h

end

theorem Frame.givesFrom_annotated (f : Frame) (isBranch : Bool) (markers : List Marker) (p : Progress) :
    GivesFrom (f.annotated isBranch markers) p fun g q => g = f.marked markers ∧ p = q := by
  fun_induction annotated f isBranch markers with
  | case1 f => exact .pure ⟨rfl, rfl⟩
  | case2 f name rest ih | case4 f rest h ih => exact ih
  | case3 | case5 | case6 => exact .fail

def Frame.TranslatesStatement (f : Frame) (s : Statement) (p : Progress) (lines : List Line) (q : Progress) : Prop :=
  ∃ code, lines = f.comment s ++ code ∧ (f.marked s.tag.markers).Translates (.one s) (s.after p.scopes) p code q

structure Frame.TranslatesBlock (f : Frame) (body : List Statement) (p : Progress) (lines : List Line)
    (q : Progress) : Prop where
  translated : Translated f (p.scopes.enter body) p.session.labels (.all (withoutAliases body)) lines
    q.session.labels
  scopes : q.scopes = p.scopes

section

open Lower

variable (hp : p.scopes.IsProper)
include hp

theorem givesFrom_enter {f : Frame} {s rest} (h : ∀ q, q.scopes.IsProper →
      GivesFrom (rest (f.marked s.tag.markers, f.comment s)) q (f.TranslatesStatement s q)) :
    GivesFrom (f.enter s >>= rest) p (f.TranslatesStatement s p) := by
  have henter : GivesFrom (f.enter s) p fun r q =>
      r = (f.marked s.tag.markers, f.comment s) ∧ p.Moves p.scopes q := by
    refine .modifySession (.bind (f.givesFrom_annotated _ _ _) fun g q ⟨hg, hq⟩ => .pure ⟨?_, ?_⟩)
    · rw [hg]
      rfl
    · rw [← hq]
      exact ⟨rfl, hp, rfl⟩
  refine .bind henter fun _ q ⟨hr, hmoves⟩ => ?_
  subst hr
  refine (h q (hmoves.scopes ▸ hp)).mono fun lines q' ⟨code, hlines, htranslates⟩ => ⟨code, hlines, ?_⟩
  rw [← hmoves.scopes]
  refine ⟨?_, htranslates.scopes, htranslates.proper⟩
  rw [← hmoves.scopes, ← hmoves.labels]
  exact htranslates.translated

theorem givesFrom_block {f : Frame}
    (h : ∀ q, q.scopes.IsProper → GivesFrom (lowerStatements f true body) q fun lines q' =>
      f.Translates (.all (withoutAliases body)) q'.scopes q lines q' ∧ q'.scopes.outer = q.scopes.outer) :
    GivesFrom (inScope body (lowerStatements f true body)) p (f.TranslatesBlock body p) := by
  refine givesFrom_inScope hp fun q hmoves => ?_
  refine (h q (hmoves.scopes ▸ hmoves.proper)).mono fun lines q' ⟨htranslates, houter⟩ => ⟨houter, ?_, rfl⟩
  rw [← hmoves.scopes, ← hmoves.labels]
  exact htranslates.translated

end

mutual

theorem Statement.givesFrom_lower : ∀ {s : Statement} {f : Frame} {p : Progress},
    p.scopes.IsProper → GivesFrom (s.lower f) p (f.TranslatesStatement s p)
  | .block tag body, f, p, hp => by
    refine givesFrom_enter hp fun q hq => ?_
    refine .bind (givesFrom_block hq fun _ => givesFrom_lowerStatements true) fun lines q' hbody => .pure ?_
    exact ⟨lines, rfl, .block hbody.translated, hbody.scopes, hq⟩
  | .branch tag c yes none, f, p, hp => by
    refine givesFrom_enter hp fun q hq => .freshLabel (.step (.emitChecked fun code htest => ?_))
    refine .bind (givesFrom_block (p := q.labelled) hq fun _ => givesFrom_lowerStatements true)
      fun lines q' hyes => .pure ?_
    exact ⟨_, by simp only [append_assoc]; rfl, .branch htest hyes.translated, hyes.scopes, hq⟩
  | .branch tag c yes (some no), f, p, hp => by
    refine givesFrom_enter hp fun q hq => .freshLabel (.freshLabel (.step (.emitChecked fun code htest => ?_)))
    refine .bind (givesFrom_block (p := q.labelled.labelled) hq fun _ => givesFrom_lowerStatements true)
      fun yesLines q' hyes => .emit ?_
    have hscopes : q'.scopes = q.scopes := hyes.scopes
    refine .bind (givesFrom_block (hscopes ▸ hq) fun _ => givesFrom_lowerStatements true)
      fun noLines q'' hno => .pure ?_
    have hno' := hno.translated
    rw [hscopes] at hno'
    exact ⟨_, by simp only [append_assoc]; rfl, .branchElse htest hyes.translated hno', hno.scopes.trans hscopes, hq⟩
  | .whileLoop tag c body, f, p, hp => by
    refine givesFrom_enter hp fun q hq => .freshLabel (.freshLabel (.step (.emitChecked fun code htest => ?_)))
    refine .bind (givesFrom_block (p := q.labelled.labelled) hq fun _ => givesFrom_lowerStatements true)
      fun lines q' hbody => .emit (.pure ?_)
    exact ⟨_, by simp only [append_assoc]; rfl, .whileLoop htest hbody.translated, hbody.scopes, hq⟩
  | .loop tag body none, f, p, hp => by
    refine givesFrom_enter hp fun q hq => .freshLabel (.freshLabel ?_)
    refine .bind (givesFrom_block (p := q.labelled.labelled) hq fun _ => givesFrom_lowerStatements true)
      fun lines q' hbody => .emit (.pure ?_)
    exact ⟨_, by simp only [append_assoc]; rfl, .loop hbody.translated, hbody.scopes, hq⟩
  | .loop tag body (some c), f, p, hp => by
    refine givesFrom_enter hp fun q hq => .freshLabel (.freshLabel (.freshLabel ?_))
    refine .bind (givesFrom_block (p := q.labelled.labelled.labelled) hq fun _ => givesFrom_lowerStatements true)
      fun lines q' hbody => .step (.emitChecked fun code htest => .pure ?_)
    rw [hbody.scopes] at htest
    exact ⟨_, by simp only [append_assoc]; rfl, .loopUntil htest hbody.translated, hbody.scopes, hq⟩
  | .action tag a, f, p, hp => by
    refine givesFrom_enter hp fun q hq => ?_
    exact .bind (givesFrom_lowerAction hq tag a) fun code q' hcode => .pure ⟨code, rfl, hcode⟩

theorem givesFrom_lowerStatements : ∀ (atStart : Bool) {body : List Statement} {f : Frame} {p : Progress},
    p.scopes.IsProper → GivesFrom (lowerStatements f atStart body) p fun lines q =>
      f.Translates (.all (if atStart then withoutAliases body else body)) q.scopes p lines q ∧
        q.scopes.outer = p.scopes.outer
  | atStart, [], f, p, hp => by
    refine .pure ⟨⟨?_, rfl, hp⟩, rfl⟩
    cases atStart <;> exact .nil hp
  | atStart, s :: rest, f, p, hp => by
    unfold lowerStatements
    split
    next hskip =>
      obtain ⟨rfl, halias⟩ := and_eq_true_iff.mp hskip
      rw [withoutAliases, if_pos halias]
      exact givesFrom_lowerStatements true hp
    next hskip =>
      have hrest : (if atStart then withoutAliases (s :: rest) else s :: rest) = s :: rest := by
        cases atStart with
        | false => rfl
        | true => exact (if_pos rfl).trans (if_neg hskip)
      rw [hrest]
      refine .bind (s.givesFrom_lower hp) fun _ q ⟨lines, hlines, hfirst⟩ => ?_
      have hq : q.scopes.IsProper := hfirst.scopes ▸ hfirst.proper
      refine .bind (givesFrom_lowerStatements false hq) fun more q' ⟨hmore, houter⟩ => .pure ?_
      subst hlines
      refine ⟨⟨?_, rfl, hmore.proper⟩, ?_⟩
      · exact .cons hp hfirst.translated (hfirst.scopes ▸ hmore.translated)
      · rw [houter, hfirst.scopes, after_outer]

end

def Routine.neverEnds (r : Routine) : Bool := r.markers.any (·.kind == .noReturn)

theorem readMarkers_noReturn (l : Layout) (markers : List Marker) : Yields (readMarkers l markers) fun l' =>
      l'.noReturn = (l.noReturn || markers.any (·.kind == .noReturn)) := by
  induction markers generalizing l with
  | nil => exact .ok (by simp)
  | cons m rest ih =>
    obtain ⟨kind, value⟩ := m
    cases kind with
    | align =>
      have halign : (MarkerKind.align == .noReturn) = false := rfl
      rcases value with - | ⟨n⟩ | _
      · exact .error
      · show Yields (if 0 < n && isPowerOfTwo n.toNatClampNeg then
          readMarkers { l with align := some (lowWord n).toNat } rest else .error .alignArgument) _
        split
        · simpa [halign] using ih { l with align := some (lowWord n).toNat }
        · exact .error
      · exact .error
    | noReturn =>
      cases value with
      | none =>
        show Yields (readMarkers { l with noReturn := true } rest) _
        simpa using ih { l with noReturn := true }
      | some _ => exact .error
    | barrier | unlikely => exact .error

def Routine.frame (r : Routine) (o : Options) (signatures : Signatures) (body : List Statement) : Frame :=
  ⟨r.name, r.command?.isSome, labelsOf body, signatures, o.sourceComments, none, none⟩

def Routine.scopes (r : Routine) (body : List Statement) : ScopeStack := (withParameters {} 0 r.params).enter body

/-- The lines behind a body: a return, unless the end of the body is never reached. -/
inductive Routine.Leaves (r : Routine) (body : List Statement) : List Line → Prop
  | closed (h : (endsWithExit body || r.neverEnds)) : Routine.Leaves r body []
  | returns (line : Nat) (h : (endsWithExit body || r.neverEnds) = false) :
      Routine.Leaves r body (stamped ⟨line, none⟩ (returnCode r.command?.isSome))

structure Routine.Translated (o : Options) (signatures : Signatures) (r : Routine) (body : List Statement)
    (first : Nat) (code : Code) (last : Nat) : Prop where
  name : code.name = r.name
  command : code.command = r.command?
  notAliased : code.aliasOf = none
  nodup_labels : (labelsOf body).Nodup
  lines : ∃ lines leave, Microcode.Translated (r.frame o signatures body) (r.scopes body) first
    (.all (withoutAliases body)) lines last ∧ r.Leaves body leave ∧ code.lines = lines ++ leave

/-- The codes that routines become, in order; those without a body become nothing. -/
inductive TranslatedRoutines (o : Options) (signatures : Signatures) : Nat → List Routine → List Code → Nat → Prop
  | nil {n} : TranslatedRoutines o signatures n [] [] n
  | declared {n r rest codes m} (hbody : r.body = none) (hrest : TranslatedRoutines o signatures n rest codes m) :
      TranslatedRoutines o signatures n (r :: rest) codes m
  | defined {n r rest body code m codes k} (hbody : r.body = some body)
      (hfirst : r.Translated o signatures body n code m)
      (hrest : TranslatedRoutines o signatures m rest codes k) :
      TranslatedRoutines o signatures n (r :: rest) (code :: codes) k

theorem Routine.Translated.labelled {signatures} {r : Routine}
    {first : Nat} {code : Code} (h : r.Translated o signatures body first code last) :
    Labelled ((labelsOf body).map (r.frame o signatures body).localLabel) first last code.lines := by
  obtain ⟨lines, leave, hlines, hleave, heq⟩ := h.lines
  have hnone : labels leave = [] := by cases hleave <;> simp
  have hlabelled := hlines.labelled
  rw [Piece.labels, labelsOf_withoutAliases] at hlabelled
  refine ⟨hlabelled.le, ?_⟩
  rw [heq, labels_append, hnone, append_nil]
  exact hlabelled.perm

section

open Lower

variable {signatures : Signatures} {n m : Nat} {routines : List Routine} {codes : List Code}

theorem TranslatedRoutines.exists_routine (h : TranslatedRoutines o signatures n routines codes m) {code : Code}
    (hcode : code ∈ codes) : ∃ r ∈ routines, ∃ body, r.body = some body ∧
      ∃ first last, r.Translated o signatures body first code last := by
  induction h with
  | nil => cases hcode
  | declared _ _ ih =>
    obtain ⟨r, hr, hrest⟩ := ih hcode
    exact ⟨r, .tail _ hr, hrest⟩
  | @defined n r _ body _ m _ _ hbody hfirst _ ih =>
    rcases mem_cons.mp hcode with rfl | hcode
    · exact ⟨r, .head _, body, hbody, n, m, hfirst⟩
    · obtain ⟨r, hr, hrest⟩ := ih hcode
      exact ⟨r, .tail _ hr, hrest⟩

theorem TranslatedRoutines.exists_code (h : TranslatedRoutines o signatures n routines codes m) {r}
    (hr : r ∈ routines) {body} (hbody : r.body = some body) :
    ∃ code ∈ codes, ∃ first last, r.Translated o signatures body first code last := by
  induction h with
  | nil => cases hr
  | declared hnone _ ih =>
    rcases mem_cons.mp hr with rfl | hr
    · exact absurd (hnone.symm.trans hbody) (by simp)
    · exact ih hr
  | @defined n _ _ _ code m _ _ hbody' hfirst _ ih =>
    rcases mem_cons.mp hr with rfl | hr
    · cases hbody.symm.trans hbody'
      exact ⟨code, .head _, n, m, hfirst⟩
    · obtain ⟨code, hcode, hrest⟩ := ih hr
      exact ⟨code, .tail _ hcode, hrest⟩

theorem ScopeStack.isProper_empty : IsProper {} := by
  intro name v h
  cases h

theorem givesFrom_declareParameters (hp : p.scopes.IsProper) (position : Nat) (params : List Parameter) :
    GivesFrom (declareParameters position params) p fun _ q =>
      p.Moves (p.scopes.withParameters position params) q := by
  induction params generalizing p position with
  | nil => exact .pure ⟨rfl, hp, rfl⟩
  | cons parameter rest ih =>
    unfold declareParameters
    split
    · exact .failed
    next b hb =>
      refine .bind (givesFrom_declareVariable hp _ _ _ _) fun _ q hmoves => ?_
      refine (ih (hmoves.scopes ▸ hmoves.proper) (position + 1)).mono fun _ q' hmoves' => ?_
      rw [hmoves.scopes] at hmoves'
      rw [withParameters, hb]
      exact ⟨hmoves'.scopes, hmoves'.proper, hmoves'.labels.trans hmoves.labels⟩

theorem nodup_of_firstRepeated (h : firstRepeated seen names = none) : names.Nodup ∧ ∀ name ∈ names, name ∉ seen := by
  fun_induction firstRepeated seen names with
  | case1 => exact ⟨nodup_nil, fun _ h => absurd h not_mem_nil⟩
  | case2 => cases h
  | case3 seen name rest hname ih =>
    obtain ⟨hnodup, hrest⟩ := ih h
    refine ⟨nodup_cons.mpr ⟨fun hmem => hrest name hmem (.head _), hnodup⟩, ?_⟩
    refine forall_mem_cons.mpr ⟨by simpa using hname, fun other hother hseen => ?_⟩
    exact hrest other hother (.tail name hseen)

theorem givesFrom_routine (o : Options) (signatures : Signatures) (r : Routine) (body : List Statement) (p : Progress) :
    GivesFrom (lowerRoutine o signatures r body) p fun code q =>
      r.Translated o signatures body p.session.labels code q.session.labels := by
  refine .modify (.checked fun layout hlayout => ?_)
  have hends : layout.noReturn = r.neverEnds := by
    have h := readMarkers_noReturn {} r.markers layout (mapError_eq_ok.mp hlayout)
    exact h.trans (false_or _)
  dsimp only
  split
  · exact .failed
  · refine .bind (givesFrom_declareParameters isProper_empty 0 r.params) fun _ q hmoves => ?_
    split
    · exact .failed
    next hrepeated =>
      have hnodup := (nodup_of_firstRepeated (eq_none_iff_forall_ne_some.mpr hrepeated)).1
      have hblock : GivesFrom (lowerBlock (r.frame o signatures body) body) q
          ((r.frame o signatures body).TranslatesBlock body q) :=
        givesFrom_block (hmoves.scopes ▸ hmoves.proper) fun _ => givesFrom_lowerStatements true
      refine .bind hblock fun lines q' hbody => ?_
      have htranslated := hbody.translated
      rw [hmoves.scopes, hmoves.labels] at htranslated
      rw [hends]
      split
      next hclosed => exact .pure ⟨rfl, rfl, rfl, hnodup, lines, [], htranslated, .closed hclosed, rfl⟩
      next hopen =>
        rw [emitReturn_eq]
        refine .emit (.pure ?_)
        exact ⟨rfl, rfl, rfl, hnodup, lines, _, htranslated, .returns _ (eq_false_iff.mpr hopen), rfl⟩

theorem givesFrom_routines (o : Options) (signatures : Signatures) (routines : List Routine)
    (p : Progress) : GivesFrom (lowerRoutines o signatures routines) p fun codes q =>
      TranslatedRoutines o signatures p.session.labels routines codes q.session.labels := by
  induction routines generalizing p with
  | nil => exact .pure .nil
  | cons r rest ih =>
    unfold lowerRoutines
    split
    next hbody => exact (ih p).mono fun codes q hrest => .declared hbody hrest
    next body hbody =>
      refine .bind (givesFrom_routine o signatures r body p) fun code q hfirst => ?_
      exact .bind (ih q) fun codes q' hrest => .pure (.defined hbody hfirst hrest)

def definedNames (routines : List Routine) : List String := (routines.filter (·.body.isSome)).map Routine.name

def Routine.defined? (r : Routine) : Option (Nat × String) := if r.body.isSome then r.command?.map (·, r.name) else none

def definedCommands (routines : List Routine) : List (Nat × String) := routines.filterMap Routine.defined?

/-- The codes that a program becomes, and how many labels are made for them. -/
structure Program.Translated (o : Options) (p : Program) (codes : List Code) (made : Nat) : Prop where
  nodup_state : (p.state.map StateVariable.name).Nodup
  nodup_defined : (definedNames p.routines).Nodup
  routines : TranslatedRoutines o (signaturesOf p.routines) 0 p.routines codes made

theorem StateVariable.notMem_of_fault? {v : StateVariable} (h : v.fault? earlier = none) : v.name ∉ earlier := by
  intro hmem
  simp [StateVariable.fault?, hmem] at h

theorem givesFrom_checkState (declared : List StateVariable) (p : Progress) :
    GivesFrom (checkState declared) p fun _ q => q.session.labels = p.session.labels ∧
      (declared.map StateVariable.name).Nodup ∧ ∀ v ∈ declared, v.name ∉ p.session.state := by
  induction declared generalizing p with
  | nil => exact .pure ⟨rfl, nodup_nil, fun _ h => absurd h not_mem_nil⟩
  | cons v rest ih =>
    refine .modifySession (.get ?_)
    split
    · exact .failed
    next hfault =>
      refine .modifySession ((ih _).mono fun _ q ⟨hlabels, hnodup, hfresh⟩ => ⟨hlabels, ?_, ?_⟩)
      · refine nodup_cons.mpr ⟨fun hmem => ?_, hnodup⟩
        obtain ⟨w, hw, hname⟩ := mem_map.mp hmem
        exact hfresh w hw (hname ▸ mem_cons_self)
      · refine forall_mem_cons.mpr ⟨v.notMem_of_fault? hfault, fun w hw hmem => ?_⟩
        exact hfresh w hw (mem_cons_of_mem v.name hmem)

theorem lookup_eq_none_iff_notMem {table : List (Nat × α)} {n : Nat} :
    table.lookup n = none ↔ n ∉ table.map fst := by
  rw [lookup_eq_none_iff, List.mem_map]
  exact ⟨fun h ⟨e, he, heq⟩ => bne_iff_ne.mp (h e he) heq.symm,
    fun h e he => bne_iff_ne.mpr fun heq => h ⟨e, he, heq.symm⟩⟩

/-- Routines agree with one another and with those of the names and the commands given, and all their commands are
found. -/
structure SideBySide (routines : List Routine) (defined : List String) (commands found : List (Nat × String)) :
    Prop where
  nodup : (definedNames routines).Nodup
  fresh : ∀ name ∈ definedNames routines, name ∉ defined
  eq : found = (definedCommands routines).reverse ++ commands
  indices : (commands.map fst).Nodup → (found.map fst).Nodup

theorem givesFrom_checkRoutines (routines : List Routine) (defined : List String)
    (commands : List (Nat × String)) (p : Progress) :
    GivesFrom (checkRoutines routines defined commands) p fun found q =>
      q.session.labels = p.session.labels ∧ SideBySide routines defined commands found := by
  induction routines generalizing p defined commands with
  | nil => exact .pure ⟨rfl, nodup_nil, fun _ h => absurd h not_mem_nil, rfl, id⟩
  | cons r rest ih =>
    refine .modifySession ?_
    have hmore (hbody : r.body.isSome) (hname : r.name ∉ defined) (added : List (Nat × String))
        (hadded : definedCommands (r :: rest) = added ++ definedCommands rest)
        (hindices : (commands.map fst).Nodup → ((added.reverse ++ commands).map fst).Nodup) (p' : Progress)
        (hp' : p'.session.labels = p.session.labels) :
        GivesFrom (checkRoutines rest (r.name :: defined) (added.reverse ++ commands)) p' fun found q =>
          q.session.labels = p.session.labels ∧ SideBySide (r :: rest) defined commands found := by
      have hnames : definedNames (r :: rest) = r.name :: definedNames rest := by simp [definedNames, hbody]
      refine (ih _ _ _).mono fun found q ⟨hlabels, h⟩ => ⟨hlabels.trans hp', ?_, ?_, ?_, fun hnodup => ?_⟩
      · rw [hnames]
        exact nodup_cons.mpr ⟨fun hmem => h.fresh _ hmem (.head _), h.nodup⟩
      · rw [hnames]
        refine forall_mem_cons.mpr ⟨hname, fun name hmem hdefined => ?_⟩
        exact h.fresh name hmem (.tail _ hdefined)
      · rw [h.eq, hadded, reverse_append, append_assoc]
      · exact h.indices (hindices hnodup)
    split
    next hbody =>
      refine (ih _ _ _).mono fun found q ⟨hlabels, h⟩ => ⟨hlabels, ?_, ?_, ?_, h.indices⟩
      · simpa [definedNames, hbody] using h.nodup
      · simpa [definedNames, hbody] using h.fresh
      · simpa [definedCommands, Routine.defined?, hbody] using h.eq
    next body kind hbody =>
      dsimp only
      split
      · exact .failed
      next hdefined =>
        have hname : r.name ∉ defined := by simpa using hdefined
        have hbody' : r.body.isSome = true := by simp [hbody]
        split
        next index hkind =>
          split
          · exact .fail
          next hfree =>
            refine hmore hbody' hname [(index, r.name)] ?_ (fun h => ?_) _ rfl
            · simp [definedCommands, Routine.defined?, hbody, Routine.command?, hkind]
            · exact nodup_cons.mpr ⟨lookup_eq_none_iff_notMem.mp hfree, h⟩
        next hkind =>
          refine hmore hbody' hname [] ?_ id _ rfl
          have hnone : r.command? = none := by
            unfold Routine.command?
            split
            next index hindex => exact absurd hindex (hkind index)
            · rfl
          simp [definedCommands, Routine.defined?, hnone]

def IsGap (table : List (Nat × String)) (n : Nat) : Prop := n ∉ table.map fst ∧ ∃ m ∈ table.map fst, n < m

theorem givesFrom_warnUnused (commands : List (Nat × String)) (p : Progress) :
    GivesFrom (warnUnused commands) p fun _ q => q.session.labels = p.session.labels ∧ ∀ w, w ∈ q.session.warnings ↔
        w ∈ p.session.warnings ∨ ∃ n, w = ⟨"commands", 0, .unusedCommand n⟩ ∧ IsGap commands n := by
  have hwarn (indices : List Nat) (p : Progress) :
      GivesFrom (indices.forM fun i => modifySession (·.warn (.unusedCommand i))) p fun _ q =>
        q.session.labels = p.session.labels ∧ q.session.warnings = p.session.warnings ++
          indices.map fun i => ⟨p.session.site.routine, p.session.site.line, .unusedCommand i⟩ := by
    induction indices generalizing p with
    | nil => exact .pure ⟨rfl, (append_nil _).symm⟩
    | cons i rest ih =>
      refine .modifySession ((ih _).mono fun _ q ⟨hlabels, hwarnings⟩ => ⟨hlabels, ?_⟩)
      rw [hwarnings]
      exact append_assoc ..
  have hfree {n : Nat} : (commandAt n commands).isNone ↔ n ∉ commands.map fst :=
    isNone_iff_eq_none.trans lookup_eq_none_iff_notMem
  unfold warnUnused
  split
  next hnone => exact .pure ⟨rfl, fun w => by simp [IsGap, max?_eq_none_iff.mp hnone]⟩
  next last hlast =>
    obtain ⟨hmem, hmax⟩ := max?_eq_some_iff.mp hlast
    refine .modifySession ((hwarn _ _).mono fun _ q ⟨hlabels, hwarnings⟩ => ⟨hlabels, fun w => ?_⟩)
    rw [hwarnings, mem_append]
    refine or_congr_right ⟨fun hw => ?_, fun ⟨n, hw, hn, m, hm, hlt⟩ => ?_⟩
    · obtain ⟨n, hn, rfl⟩ := mem_map.mp hw
      obtain ⟨hlt, hn⟩ := mem_filter.mp hn
      exact ⟨n, rfl, hfree.mp hn, last, hmem, mem_range.mp hlt⟩
    · refine mem_map.mpr ⟨n, mem_filter.mpr ⟨?_, hfree.mpr hn⟩, hw.symm⟩
      exact mem_range.mpr (Nat.lt_of_lt_of_le hlt (hmax m hm))

/-- **Programs.**  What lowering gives is what the statements of the program become. -/
theorem Program.translated_of_lower {p : Program} {codes} {warnings : List Warning}
    (h : p.lower o = .ok (codes, warnings)) : ∃ made, p.Translated o codes made := by
  have hgives : GivesFrom (lowerProgram o p) {} fun codes q => p.Translated o codes q.session.labels := by
    refine .bind (givesFrom_checkState p.state {}) fun _ q ⟨hlabels, hstate, _⟩ => ?_
    refine .bind (givesFrom_checkRoutines p.routines [] [] q) fun commands q' ⟨hlabels', hchecked⟩ => ?_
    refine .bind (givesFrom_warnUnused commands q') fun _ q'' ⟨hlabels'', _⟩ => ?_
    refine (givesFrom_routines o (signaturesOf p.routines) p.routines q'').mono fun codes r hroutines => ?_
    rw [hlabels'', hlabels', hlabels] at hroutines
    exact ⟨hstate, hchecked.nodup, hroutines⟩
  obtain ⟨⟨codes', progress⟩, hrun, hresult⟩ := bind_eq_ok.mp h
  cases hresult
  exact ⟨progress.session.labels, hgives hrun⟩

end
end Microcode
