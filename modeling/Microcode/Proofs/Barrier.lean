import Microcode.Proofs.Origin

/-!
The barriers that instructions carry.

An annotation `@Barrier` is meant for all code of the statement that it stands in front of.  One statement loses its
annotations on the way: a call of a macro, whose expansion is a block of its own.
-/

namespace Microcode

open List

variable {s : Surroundings} {t : Statement} {path : List Statement} {lines : List Line} {f : Frame}

def Marker.barrier? : Marker → Option String
  | ⟨.barrier, some (.string name)⟩ => some name
  | _ => none

def lastBarrier? (markers : List Marker) : Option String := markers.reverse.findSome? Marker.barrier?

/-- The barrier that is nearest to the inside of nested statements, the innermost first. -/
def innermostBarrier? (path : List Statement) : Option String := path.findSome? fun s => lastBarrier? s.tag.markers

def Surroundings.expands (s : Surroundings) : Statement → Bool
  | .action _ (.call name _) => (s.template? name).isSome
  | _ => false

def Surroundings.withoutCalls (s : Surroundings) (path : List Statement) : List Statement :=
  path.filter fun st => !s.expands st

theorem lastBarrier?_cons (m : Marker) (rest : List Marker) :
    lastBarrier? (m :: rest) = (lastBarrier? rest).or m.barrier? := by
  simp [lastBarrier?, findSome?_append]

theorem Frame.barrier_marked (f : Frame) (markers : List Marker) :
    (f.marked markers).barrier = (lastBarrier? markers).or f.barrier := by
  fun_induction Frame.marked f markers with
  | case1 f => rfl
  | case2 f name rest ih =>
    rw [ih, lastBarrier?_cons]
    simp [Marker.barrier?]
  | case3 f m rest hm ih =>
    have hnone : m.barrier? = none := by
      unfold Marker.barrier?
      split
      next name => exact (hm name rfl).elim
      · rfl
    rw [ih, lastBarrier?_cons, hnone, Option.or_none]

section

theorem innermostBarrier?_cons :
    innermostBarrier? (t :: path) = (lastBarrier? t.tag.markers).or (innermostBarrier? path) := by
  rw [innermostBarrier?, findSome?_cons]
  cases lastBarrier? t.tag.markers <;> rfl

theorem Surroundings.withoutCalls_call (ht : s.expands t) : s.withoutCalls (t :: path) = s.withoutCalls path :=
  filter_cons_of_neg (by simpa using ht)

theorem Surroundings.withoutCalls_cons (ht : s.expands t = false) :
    s.withoutCalls (t :: path) = t :: s.withoutCalls path :=
  filter_cons_of_pos (by simpa using ht)

theorem innermostBarrier?_marked (hf : innermostBarrier? (s.withoutCalls path) = f.barrier) (ht : s.expands t = false) :
    innermostBarrier? (s.withoutCalls (t :: path)) = (f.marked t.tag.markers).barrier := by
  rw [f.barrier_marked, ← hf, s.withoutCalls_cons ht, innermostBarrier?_cons]

theorem innermostBarrier?_withoutCalls (h : ∀ t ∈ path, s.expands t → lastBarrier? t.tag.markers = none) :
    innermostBarrier? (s.withoutCalls path) = innermostBarrier? path := by
  induction path with
  | nil => rfl
  | cons t rest ih =>
    have hrest := ih fun u hu => h u (by simp [hu])
    by_cases ht : s.expands t
    · rw [s.withoutCalls_call ht, hrest, innermostBarrier?_cons, h t (by simp) ht, Option.none_or]
    · rw [s.withoutCalls_cons (by simpa using ht), innermostBarrier?_cons, innermostBarrier?_cons, hrest]

end

/-! ### Instructions -/

def CarryBarrier (barrier : Option String) (lines : List Line) : Prop :=
  ∀ i, .op i ∈ lines → i.provenance.barrier = barrier

section
variable {b : Option String}

theorem carryBarrier_append {rest} : CarryBarrier b (lines ++ rest) ↔ CarryBarrier b lines ∧ CarryBarrier b rest := by
  constructor
  · intro h
    exact ⟨fun i hi => h i (by simp [hi]), fun i hi => h i (by simp [hi])⟩
  · rintro ⟨h, h'⟩ i hi
    rcases mem_append.mp hi with hi | hi
    · exact h i hi
    · exact h' i hi

theorem carryBarrier_stamped (line : Nat) (code : List Instruction) : CarryBarrier b (stamped ⟨line, b⟩ code) := by
  intro i hi
  obtain ⟨j, -, hj⟩ := mem_map.mp hi
  rw [← Line.op.inj hj]

theorem carryBarrier_of_no_op (h : ∀ i, .op i ∉ lines) : CarryBarrier b lines := fun i hi => absurd hi (h i)

theorem carryBarrier_comment (f : Frame) (st : Statement) : CarryBarrier b (f.comment st) := by
  refine carryBarrier_of_no_op fun i hi => ?_
  simpa [Line.isComment] using f.isComment_of_mem_comment st _ hi

theorem carryBarrier_label (name : String) : CarryBarrier b [.label name] := carryBarrier_of_no_op (by simp)

theorem carryBarrier_cons_label (name : String) (h : CarryBarrier b lines) : CarryBarrier b (.label name :: lines) :=
  carryBarrier_append.mpr ⟨carryBarrier_label name, h⟩

end
variable {σ : ScopeStack} {n k : Nat}
variable {tag : Tag} {es : List Emission}

theorem Translated.carryBarrier_action {a : Action} (h : Translated f σ n (.one (.action tag a)) lines k) :
    CarryBarrier f.barrier lines := by
  cases h with
  | declaration | asm => exact carryBarrier_of_no_op (by simp)
  | label => exact carryBarrier_label _
  | selected => exact carryBarrier_stamped _ _
  | choose =>
    simp only [carryBarrier_append]
    refine ⟨⟨carryBarrier_stamped _ _, carryBarrier_cons_label _ (carryBarrier_stamped _ _)⟩, ?_⟩
    exact carryBarrier_label _

theorem Translated.carryBarrier_actions {actions : List Action}
    (h : Translated f σ n (.all (actions.map (.action tag))) lines k) :
    CarryBarrier (f.marked tag.markers).barrier lines := by
  induction actions generalizing σ n lines with
  | nil =>
    cases h
    exact carryBarrier_of_no_op (by simp)
  | cons a rest ih =>
    cases h with
    | cons _ hfirst hrest =>
      rw [carryBarrier_append, carryBarrier_append]
      exact ⟨⟨carryBarrier_comment f _, hfirst.carryBarrier_action⟩, ih hrest⟩

/-- The instructions that are emitted for a statement carry the innermost barrier around it. -/
def Emission.CarriesInnermost (s : Surroundings) (e : Emission) : Prop :=
  CarryBarrier (innermostBarrier? (s.withoutCalls e.path)) e.lines

theorem Emission.carriesInnermost_around {first last}
    (hf : innermostBarrier? (s.withoutCalls path) = f.barrier) (ht : s.expands t = false)
    (hfirst : CarryBarrier (f.marked t.tag.markers).barrier first)
    (hes : innermostBarrier? (s.withoutCalls (t :: path)) = (f.marked t.tag.markers).barrier →
      ∀ e ∈ es, e.CarriesInnermost s)
    (hlast : CarryBarrier (f.marked t.tag.markers).barrier last) :
    ∀ e ∈ ⟨t :: path, σ, first⟩ :: es ++ [⟨t :: path, σ, last⟩], e.CarriesInnermost s := by
  have hinner := innermostBarrier?_marked hf ht
  rw [← hinner] at hfirst hlast
  refine forall_mem_append.mpr ⟨forall_mem_cons.mpr ⟨hfirst, hes hinner⟩, ?_⟩
  exact forall_mem_singleton.mpr hlast

theorem Issued.carriesInnermost {d : Nat} {piece : Piece} (h : Issued s d path f σ n piece es k)
    (hf : innermostBarrier? (s.withoutCalls path) = f.barrier) : ∀ e ∈ es, e.CarriesInnermost s := by
  induction h with
  | nil => simp
  | cons hplain _ _ ih ih' =>
    intro e he
    rcases mem_append.mp he with he | he
    · exact ih hf e he
    · exact ih' hf e he
  | block _ ih => exact ih (innermostBarrier?_marked hf rfl)
  | branch line hst hg _ _ ih =>
    subst hst hg
    refine Emission.carriesInnermost_around hf rfl ?_ ih (carryBarrier_label _)
    exact carryBarrier_append.mpr ⟨carryBarrier_comment _ _, carryBarrier_stamped _ _⟩
  | branchElse line line' hst hg _ _ _ ih ih' =>
    subst hst hg
    refine Emission.carriesInnermost_around hf rfl ?_ (fun hinner => ?_) (carryBarrier_label _)
    · exact carryBarrier_append.mpr ⟨carryBarrier_comment _ _, carryBarrier_stamped _ _⟩
    · refine forall_mem_append.mpr ⟨ih hinner, forall_mem_cons.mpr ⟨?_, ih' hinner⟩⟩
      rw [Emission.CarriesInnermost, hinner, carryBarrier_append]
      exact ⟨carryBarrier_stamped _ _, carryBarrier_label _⟩
  | whileLoop line line' hst hg _ _ ih =>
    subst hst hg
    refine Emission.carriesInnermost_around hf rfl ?_ ih ?_
    all_goals rw [carryBarrier_append]
    · exact ⟨carryBarrier_comment _ _, carryBarrier_cons_label _ (carryBarrier_stamped _ _)⟩
    · exact ⟨carryBarrier_stamped _ _, carryBarrier_label _⟩
  | loop line hst hg _ ih =>
    subst hst hg
    refine Emission.carriesInnermost_around hf rfl ?_ ih ?_
    all_goals rw [carryBarrier_append]
    · exact ⟨carryBarrier_comment _ _, carryBarrier_label _⟩
    · exact ⟨carryBarrier_stamped _ _, carryBarrier_label _⟩
  | loopUntil line hst hg _ _ ih =>
    subst hst hg
    refine Emission.carriesInnermost_around hf rfl ?_ ih ?_
    all_goals rw [carryBarrier_append]
    · exact ⟨carryBarrier_comment _ _, carryBarrier_label _⟩
    · exact ⟨carryBarrier_cons_label _ (carryBarrier_stamped _ _), carryBarrier_label _⟩
  | expanded htemplate _ _ ih =>
    refine ih ?_
    rw [Surroundings.withoutCalls_call, hf]
    simp [Surroundings.expands, htemplate]
  | @action d path f σ n tag a out lines m htemplate hplain hlines =>
    have hexpands : s.expands (.action tag a) = false := by
      cases a with
      | call name args => simp [Surroundings.expands, htemplate name args rfl]
      | _ => rfl
    simp only [forall_mem_singleton]
    rw [Emission.CarriesInnermost, innermostBarrier?_marked hf hexpands]
    cases Statement.standsFor_of_plain hplain with
    | expanded hname => simp [htemplate _ _ rfl] at hname
    | @call _ _ name args =>
      have hcall : Translated f σ n (.all ([.call name (args.map (·.resolve s.state))].map (.action tag))) lines m :=
        hlines
      exact hcall.carryBarrier_actions
    | actions => exact hlines.carryBarrier_actions

/-- **Barriers.**  In the code of a program that was read, each instruction is emitted for a statement and
carries the innermost barrier of that statement and those around it, but for the annotations of calls of
macros, which are lost.  Where no such call has a barrier, it is the innermost of all.  The return at the end
of a routine carries none. -/
theorem Program.lower_barriers {tokens : List Token} {p q : Program} (hread : Program.ofTokens tokens = .ok p)
    (hplain : p.plain = .ok q) {o : Options} {codes : List Code} {warnings : List Warning}
    (hlower : q.lower o = .ok (codes, warnings)) {code : Code} (hcode : code ∈ codes) :
    ∃ r ∈ p.routines, ∃ body es leave, r.Emits p o body code es leave ∧
      (∀ e ∈ es, ∀ i, .op i ∈ e.lines →
        i.provenance.barrier = innermostBarrier? (p.surroundings.withoutCalls e.path) ∧
        ((∀ t ∈ e.path, p.surroundings.expands t = true → lastBarrier? t.tag.markers = none) →
          i.provenance.barrier = innermostBarrier? e.path)) ∧
      ∀ i, .op i ∈ leave → i.provenance.barrier = none := by
  obtain ⟨r, hr, body, es, leave, hemits⟩ := (Program.namesOnce_ofTokens hread).emits hplain hlower hcode
  obtain ⟨signatures, plain, first, last, hissued⟩ := hemits.issued
  refine ⟨r, hr, body, es, leave, hemits, fun e he i hi => ?_, ?_⟩
  · have hcarries := hissued.carriesInnermost rfl e he i hi
    exact ⟨hcarries, fun hcalls => hcarries.trans (innermostBarrier?_withoutCalls hcalls)⟩
  · rcases hemits.leaves with rfl | ⟨line, rfl⟩
    · simp
    · exact carryBarrier_stamped _ _

def turningTokens : List Token :=
  [.keyword .macroKw, .ident "m", .sign .lParen, .type .u32, .ident "x", .sign .rParen, .sign .lBrace,
    .ident "x", .sign .assign, .sign .tilde, .ident "x", .sign .semicolon, .sign .rBrace,
    .keyword .functionKw, .ident "f", .sign .lParen, .type .u32, .ident "a", .sign .rParen, .sign .lBrace,
    .sign .atSign, .ident "Barrier", .sign .lParen, .string "outer", .sign .rParen, .sign .lBrace,
    .ident "m", .sign .lParen, .ident "a", .sign .rParen, .sign .semicolon,
    .sign .atSign, .ident "Barrier", .sign .lParen, .string "inner", .sign .rParen,
    .ident "m", .sign .lParen, .ident "a", .sign .rParen, .sign .semicolon, .sign .rBrace,
    .sign .rBrace, .eof].map fun kind => ⟨kind, .start, 0⟩

def Program.turning : Program where
  routines := [⟨.template, "m", [⟨"x", .u32, none⟩],
      some [.action ⟨1, []⟩ (.assign ⟨"x", none, none, .unary .not (.ofName "x"), false⟩)], [], 1⟩,
     ⟨.function, "f", [⟨"a", .u32, none⟩], some [.block ⟨1, [⟨.barrier, some (.string "outer")⟩]⟩
        [.action ⟨1, []⟩ (.call "m" [.operand (.ofName "a")]),
         .action ⟨1, [⟨.barrier, some (.string "inner")⟩]⟩ (.call "m" [.operand (.ofName "a")])]], [], 1⟩]

def Program.turningCode : Code where
  name := "f"
  command := none
  argSize := 0
  align := none
  lines := [.op ⟨.nor, [.reg (.scalar 4), .reg (.scalar 4), .reg .zero], ⟨1, some "outer"⟩⟩,
     .op ⟨.nor, [.reg (.scalar 4), .reg (.scalar 4), .reg .zero], ⟨1, some "outer"⟩⟩,
     .op ⟨.jr, [.reg .returnAddress], ⟨1, none⟩⟩,
     .op ⟨.nop, [], ⟨1, none⟩⟩]

theorem Program.turning_barriers : Program.ofTokens turningTokens = .ok Program.turning ∧
    ∃ q, Program.turning.plain = .ok q ∧ q.lower {} = .ok ([Program.turningCode], []) ∧
      ∃ r ∈ Program.turning.routines, ∃ body es leave, r.Emits Program.turning {} body Program.turningCode es leave ∧
        ∀ e ∈ es, ∀ i, .op i ∈ e.lines →
          i.provenance.barrier = innermostBarrier? (Program.turning.surroundings.withoutCalls e.path) := by
  have hread : Program.ofTokens turningTokens = .ok Program.turning := rfl
  have hcode : (Program.turning.plain >>= fun q => q.lower {}) = .ok ([Program.turningCode], []) := rfl
  obtain ⟨q, hplain, hlower⟩ := bind_eq_ok.mp hcode
  obtain ⟨r, hr, body, es, leave, hemits, hbarriers, -⟩ :=
    Program.lower_barriers hread hplain hlower List.mem_cons_self
  refine ⟨hread, q, hplain, hlower, r, hr, body, es, leave, hemits, fun e he i hi => ?_⟩
  exact (hbarriers e he i hi).1

end Microcode
