import Mathlib
import Straightline.Proofs.Tree.Lockstep

/-!
# Lines of a function are read apart from each other

A step that reads a part of a statement never takes the end of its line away, so
it goes the same way whatever stands behind the line and whatever was found
before it (`Stays`). What gives a broken statement up stops behind the end of
the line at the latest. So each line of a function has statements and errors of
its own (`ReadsLine`), and those of the function are what its lines yield one by
one (`function_eq_lines`), however broken the lines are.
-/

namespace Straightline.Parser

/-! ## Surroundings -/

/-- What surrounds a line: what was found before it, and what stands behind it. -/
structure Surroundings where
  errors : List ParseError
  body : List Stmt
  behind : List Scanned
  endPos : Position

/-- A parser of a line, put into its surroundings. The error of the first token
behind the line is recorded when the line is over. -/
def State.within (s : State) (c : Surroundings) : State where
  tokens := s.tokens ++ c.behind
  endPos := c.endPos
  errors :=
    c.errors ++ s.errors ++ if s.tokens = [] then State.errorsAhead c.behind else []
  body := c.body ++ s.body

/-- Whether the end of the line is still ahead. -/
def InLine (s : State) : Prop := ∃ t ∈ s.tokens.getLast?, t.token.kind = .mark .newline

namespace InLine

variable {s : State}

theorem ne_nil (h : InLine s) : s.tokens ≠ [] := by
  rintro hnil
  obtain ⟨t, ht, -⟩ := h
  simp [hnil] at ht

theorem current_within (h : InLine s) (c : Surroundings) :
    (s.within c).current = s.current := by
  obtain ⟨t, ts, htokens⟩ := List.exists_cons_of_ne_nil h.ne_nil
  simp [State.current, State.within, htokens]

theorem current_mem (h : InLine s) : ∃ t ∈ s.tokens, s.current = t.token := by
  obtain ⟨t, ts, htokens⟩ := List.exists_cons_of_ne_nil h.ne_nil
  exact ⟨t, by simp [htokens], by simp [State.current, htokens]⟩

theorem advance_within (h : InLine s) (c : Surroundings) :
    (s.within c).advance = s.advance.within c := by
  obtain ⟨t, ts, htokens⟩ := List.exists_cons_of_ne_nil h.ne_nil
  cases ts with
  | nil => simp [State.advance, State.within, htokens, State.errorsAhead]
  | cons u us => simp [State.advance, State.within, htokens, State.errorsAhead]

theorem record_within (h : InLine s) (pos : Position) (cause : ParseCause)
    (c : Surroundings) :
    (s.within c).record pos cause = (s.record pos cause).within c := by
  simp [State.record, State.within, h.ne_nil]

theorem report (h : InLine s) (t : Token) (cause : ParseCause) :
    InLine (s.report t cause) := by
  rw [InLine, State.tokens_report]
  exact h

theorem report_within (h : InLine s) (t : Token) (cause : ParseCause)
    (c : Surroundings) :
    (s.within c).report t cause = (s.report t cause).within c := by
  unfold State.report
  split
  · rfl
  · exact h.record_within _ _ c

/-- Behind the lookahead the line goes on, or it is over. -/
theorem advance (h : InLine s) : InLine s.advance ∨ s.advance.tokens = [] := by
  obtain ⟨t, ts, htokens⟩ := List.exists_cons_of_ne_nil h.ne_nil
  cases ts with
  | nil => exact .inr (by simp [State.advance, htokens])
  | cons u us =>
    left
    obtain ⟨v, hv, hkind⟩ := h
    refine ⟨v, ?_, hkind⟩
    simpa [State.advance, htokens] using hv

/-- Only the end of the line is the last token of it. -/
theorem advance_of_ne (h : InLine s) (hkind : s.current.kind ≠ .mark .newline) :
    InLine s.advance := by
  rcases h.advance with hline | hnil
  · exact hline
  · obtain ⟨t, ts, htokens⟩ := List.exists_cons_of_ne_nil h.ne_nil
    obtain ⟨u, hu, hnewline⟩ := h
    have hts : ts = [] := by simpa [State.advance, htokens] using hnil
    have hut : u = t := by simpa [htokens, hts, eq_comm] using hu
    refine absurd ?_ hkind
    simpa [State.current, htokens, ← hut] using hnewline

end InLine

/-! ## Steps inside a line -/

section
variable {α β : Type}

/-- An outcome for a line, put into surroundings. -/
def Outcome.within (c : Surroundings) : Outcome α → Outcome α
  | .done a s => .done a (s.within c)
  | .abandoned s => .abandoned (s.within c)

/-- A step from `s` that does not take the end of the line away, and is the
same in all surroundings. -/
structure StaysAt (p : Parse α) (s : State) : Prop where
  inLine : InLine (p s).state
  within : ∀ c, p (s.within c) = (p s).within c

/-- A step that never takes the end of a line away, and is the
same in all surroundings. -/
def Stays (p : Parse α) : Prop := ∀ s, InLine s → StaysAt p s

theorem StaysAt.bind {p : Parse α} {f : α → Parse β} {s : State} (hp : StaysAt p s)
    (hf : ∀ a s', InLine s' → StaysAt (f a) s') : StaysAt (p >>= f) s := by
  obtain ⟨hline, hwithin⟩ := hp
  cases h : p s with
  | done a s' =>
    rw [h] at hline hwithin
    obtain ⟨hline', hwithin'⟩ := hf a s' hline
    refine ⟨by rwa [bind_of_done h], fun c => ?_⟩
    rw [bind_of_done h, bind_of_done (hwithin c)]
    exact hwithin' c
  | abandoned s' =>
    rw [h] at hline hwithin
    refine ⟨by rwa [bind_of_abandoned h], fun c => ?_⟩
    rw [bind_of_abandoned h, bind_of_abandoned (hwithin c)]
    rfl

theorem Stays.bind {p : Parse α} {f : α → Parse β} (hp : Stays p)
    (hf : ∀ a, Stays (f a)) : Stays (p >>= f) :=
  fun s hs => (hp s hs).bind hf

theorem Stays.pure (a : α) : Stays (pure a : Parse α) := fun _ hs => ⟨hs, fun _ => rfl⟩

/-- A step that starts with a look at the lookahead. -/
theorem staysAt_current_bind {f : Token → Parse α} {s : State} (hs : InLine s)
    (hf : StaysAt (f s.current) s) : StaysAt (current >>= f) s := by
  refine ⟨hf.inLine, fun c => ?_⟩
  show f (s.within c).current (s.within c) = (f s.current s).within c
  rw [hs.current_within]
  exact hf.within c

/-- A step that starts by taking a token away, not the end of the line. -/
theorem staysAt_take {p : Token → Parse α} (hp : ∀ t, Stays (p t)) {s : State}
    (hs : InLine s) (hkind : s.current.kind ≠ .mark .newline) :
    StaysAt (do let t ← current; advance; p t : Parse α) s := by
  obtain ⟨hline, hwithin⟩ := hp s.current s.advance (hs.advance_of_ne hkind)
  refine ⟨hline, fun c => ?_⟩
  show p (s.within c).current (s.within c).advance = (p s.current s.advance).within c
  rw [hs.current_within, hs.advance_within]
  exact hwithin c

theorem staysAt_fail {s : State} (hs : InLine s) (pos : Position) (cause : ParseCause) :
    StaysAt (fail pos cause : Parse α) s := by
  constructor
  · show InLine (if s.current.kind = .invalid then s else s.record pos cause)
    split
    · exact hs
    · exact hs
  · intro c
    unfold fail
    rw [hs.current_within]
    split
    · rfl
    · rw [hs.record_within]
      rfl

theorem stays_failExpected (what : Expectation) :
    Stays (failExpected what : Parse α) := by
  intro s hs
  obtain ⟨hline, hwithin⟩ :=
    staysAt_fail (α := α) hs s.current.pos (.expected what s.current)
  refine ⟨hline, fun c => ?_⟩
  show fail (s.within c).current.pos (.expected what (s.within c).current)
    (s.within c) = _
  rw [hs.current_within]
  exact hwithin c

theorem stays_accept {kind : Token.Kind} (hkind : kind ≠ .mark .newline) :
    Stays (accept kind) := by
  intro s hs
  unfold accept
  by_cases heq : s.current.kind = kind
  · refine ⟨?_, fun c => ?_⟩
    · rw [if_pos heq]
      exact hs.advance_of_ne (by rwa [heq])
    · rw [hs.current_within, if_pos heq, if_pos heq, hs.advance_within]
      rfl
  · refine ⟨?_, fun c => ?_⟩
    · rw [if_neg heq]
      exact hs
    · rw [hs.current_within, if_neg heq, if_neg heq]
      rfl

theorem stays_consume {kind : Token.Kind} (hkind : kind ≠ .mark .newline)
    (what : Expectation) : Stays (consume kind what) := by
  refine (stays_accept hkind).bind fun b => ?_
  cases b
  · exact stays_failExpected what
  · exact Stays.pure ()

theorem stays_typeName : Stays typeName := by
  refine (stays_accept Token.Kind.noConfusion).bind fun b => ?_
  split
  · exact Stays.pure _
  · refine (stays_accept Token.Kind.noConfusion).bind fun b => ?_
    split
    · exact Stays.pure _
    · exact fun s hs => staysAt_current_bind hs (staysAt_fail hs _ _)

theorem stays_emit (stmt : Stmt) : Stays (emit stmt) := by
  intro s hs
  refine ⟨hs, fun c => ?_⟩
  show Outcome.done () ((s.within c).emit stmt) = .done () ((s.emit stmt).within c)
  simp [State.emit, State.within, hs.ne_nil]

/-! ## Expressions -/

/-- The end of the line ends every expression, so it is neither a
separator nor a part of one. -/
theorem stays_expressionsFrom (d : Delimiters) (exprs : List Expr) (held : Stacks) :
    Stays (expressionsFrom d exprs held) := by
  intro s hs
  have hnewline {kind : Token.Kind}
      (hend : ¬ (kind = d.stop ∨ endsExpression kind = true)) :
      kind ≠ .mark .newline := by
    rintro rfl
    exact hend (.inr rfl)
  suffices h : InLine (expressionsFrom d exprs held s).state ∧
      ∀ c, expressionsFrom d exprs held (s.within c) =
        (expressionsFrom d exprs held s).within c from ⟨h.1, h.2⟩
  fun_induction expressionsFrom d exprs held s with
  | case1 exprs held s t hend es hpiece =>
    refine ⟨hs, fun c => ?_⟩
    rw [expressionsFrom.eq_def d exprs held (s.within c), hs.current_within,
      if_pos hend, hpiece]
    rfl
  | case2 exprs held s t hend e hpiece =>
    obtain ⟨hline, hwithin⟩ := staysAt_fail (α := List Expr) hs e.pos e.cause
    refine ⟨hline, fun c => ?_⟩
    rw [expressionsFrom.eq_def d exprs held (s.within c), hs.current_within,
      if_pos hend, hpiece]
    exact hwithin c
  | case3 exprs held s t hend hsep es hpiece ih =>
    obtain ⟨hline, hwithin⟩ := ih (hs.advance_of_ne (hnewline hend))
    refine ⟨hline, fun c => ?_⟩
    rw [expressionsFrom.eq_def d exprs held (s.within c), hs.current_within,
      if_neg hend, if_pos hsep, hpiece]
    dsimp only
    rw [hs.advance_within]
    exact hwithin c
  | case4 exprs held s t hend hsep e hpiece =>
    obtain ⟨hline, hwithin⟩ := staysAt_fail (α := List Expr) hs e.pos e.cause
    refine ⟨hline, fun c => ?_⟩
    rw [expressionsFrom.eq_def d exprs held (s.within c), hs.current_within,
      if_neg hend, if_pos hsep, hpiece]
    exact hwithin c
  | case5 exprs held s t hend hsep held' hpush ih =>
    obtain ⟨hline, hwithin⟩ := ih (hs.advance_of_ne (hnewline hend))
    refine ⟨hline, fun c => ?_⟩
    rw [expressionsFrom.eq_def d exprs held (s.within c), hs.current_within,
      if_neg hend, if_neg hsep, hpush]
    dsimp only
    rw [hs.advance_within]
    exact hwithin c
  | case6 exprs held s t hend hsep hpush =>
    obtain ⟨hline, hwithin⟩ :=
      staysAt_fail (α := List Expr) hs t.pos (.unexpected .expression t)
    refine ⟨hline, fun c => ?_⟩
    rw [expressionsFrom.eq_def d exprs held (s.within c), hs.current_within,
      if_neg hend, if_neg hsep, hpush]
    exact hwithin c

end

/-! ## Statements -/

theorem stays_report_current (cause : ParseCause) :
    Stays (do let t ← current; fun s => .done () (s.report t cause) : Parse Unit) := by
  intro s hs
  refine staysAt_current_bind hs ⟨hs.report _ _, fun c => ?_⟩
  show Outcome.done () ((s.within c).report s.current cause) =
    .done () ((s.report s.current cause).within c)
  rw [hs.report_within]

theorem stays_assignment (name : Token) : Stays (assignment name) := by
  refine (stays_expressionsFrom _ _ _).bind fun values =>
    (stays_emit _).bind fun _ => ?_
  split
  · exact stays_report_current _
  · exact Stays.pure ()

theorem stays_call (name : Token) : Stays (call name) :=
  (stays_expressionsFrom _ _ _).bind fun _ => (stays_consume (by simp) _).bind fun _ =>
    (stays_consume (by simp) _).bind fun _ => stays_emit _

section
variable {s : State} (hs : InLine s)
include hs

theorem staysAt_declaration (hkind : s.current.kind = .identifier) :
    StaysAt declaration s := by
  refine staysAt_take (fun name => ?_) hs (by simp [hkind])
  refine (stays_consume (by simp) _).bind fun _ => stays_typeName.bind fun type => ?_
  refine (stays_emit _).bind fun _ s hs => staysAt_current_bind hs ?_
  have hinitial : StaysAt (do let _ ← accept (.mark .assign); assignment name) s :=
    (stays_accept (by simp)).bind (fun _ => stays_assignment name) s hs
  cases hkind : s.current.kind with
  | eof => exact Stays.pure () s hs
  | keyword k => exact Stays.pure () s hs
  | mark m =>
    cases m with
    | semicolon =>
      refine ⟨hs.advance_of_ne (by simp [hkind]), fun c => ?_⟩
      show Outcome.done () (s.within c).advance = .done () (s.advance.within c)
      rw [hs.advance_within]
    | newline => exact Stays.pure () s hs
    | _ => exact hinitial
  | _ => exact hinitial

theorem staysAt_namedStatement (hkind : s.current.kind = .identifier) :
    StaysAt namedStatement s := by
  refine staysAt_take (fun name => ?_) hs (by simp [hkind])
  refine (stays_accept (by simp)).bind fun b => ?_
  split
  · exact stays_assignment name
  · refine (stays_accept (by simp)).bind fun b => ?_
    split
    · exact stays_call name
    · exact stays_failExpected _

theorem staysAt_returnStatement (hkind : s.current.kind = .keyword .returns) :
    StaysAt returnStatement s :=
  staysAt_take (fun _ => (stays_expressionsFrom _ _ _).bind fun _ => stays_emit _)
    hs (by simp [hkind])

/-- What gives a statement up stops inside the line or right behind it. -/
theorem skipStatement_within :
    (InLine (skipStatement s) ∨ (skipStatement s).tokens = []) ∧
      ∀ c, skipStatement (s.within c) = (skipStatement s).within c := by
  fun_induction skipStatement s with
  | case1 s hstop =>
    refine ⟨.inl hs, fun c => ?_⟩
    rw [skipStatement.eq_def (s.within c), hs.current_within, if_pos hstop]
  | case2 s hstop hline =>
    refine ⟨hs.advance, fun c => ?_⟩
    rw [skipStatement.eq_def (s.within c), hs.current_within, if_neg hstop,
      if_pos hline, hs.advance_within]
  | case3 s hstop hline ih =>
    have hne : s.current.kind ≠ .mark .newline := fun heq => hline (by rw [heq]; rfl)
    obtain ⟨hends, hwithin⟩ := ih (hs.advance_of_ne hne)
    refine ⟨hends, fun c => ?_⟩
    rw [skipStatement.eq_def (s.within c), hs.current_within, if_neg hstop,
      if_neg hline, hs.advance_within]
    exact hwithin c

omit hs in
theorem statement_within {p : Parse Unit} (hp : StaysAt p s) :
    (InLine (statement p s) ∨ (statement p s).tokens = []) ∧
      ∀ c, statement p (s.within c) = (statement p s).within c := by
  obtain ⟨hline, hwithin⟩ := hp
  unfold statement
  cases h : p s with
  | done a s' =>
    rw [h] at hline hwithin
    exact ⟨.inl hline, fun c => by rw [hwithin c]; rfl⟩
  | abandoned s' =>
    rw [h] at hline hwithin
    obtain ⟨hends, hskip⟩ := skipStatement_within hline
    exact ⟨hends, fun c => by rw [hwithin c]; exact hskip c⟩

end

/-! ## Lines of a region -/

/-- Whether a token may stand in a region of a function that ends with `close`. -/
def IsFree (close : Keyword) (t : Scanned) : Prop :=
  t.token.kind ≠ .keyword close ∧ ¬ IsLimit t.token.kind

/-- A reader of a region takes a line away: in all surroundings it finds the
same errors and statements in it, and goes on behind it. -/
def ReadsLine (read : State → Outcome Unit) (line : List Scanned)
    (es : List ParseError) (stmts : List Stmt) : Prop :=
  ∀ (errors : List ParseError) (body : List Stmt) (behind : List Scanned)
    (endPos : Position),
    read { tokens := line ++ behind, endPos,
           errors := errors ++ State.errorsAhead line, body } =
      read { tokens := behind, endPos,
             errors := errors ++ es ++ State.errorsAhead behind, body := body ++ stmts }

/-- From `s`, a reader of a region comes to the end of the line, in the same
way in all surroundings. -/
def EndsLine (read : State → Outcome Unit) (s : State) : Prop :=
  ∃ s' : State, s'.tokens = [] ∧ ∀ c, read (s.within c) = read (s'.within c)

/-- One round of a reader leads to a place inside the line, or to its end. -/
theorem EndsLine.round {read : State → Outcome Unit} {s s' : State}
    (hends : InLine s' ∨ s'.tokens = [])
    (hstep : ∀ c, read (s.within c) = read (s'.within c))
    (hrest : InLine s' → EndsLine read s') : EndsLine read s := by
  rcases hends with hline | hnil
  · obtain ⟨s'', hnil, hread⟩ := hrest hline
    exact ⟨s'', hnil, fun c => (hstep c).trans (hread c)⟩
  · exact ⟨s', hnil, hstep⟩

theorem EndsLine.exists_readsLine {read : State → Outcome Unit}
    {line : List Scanned} (hline : line ≠ [])
    (h : EndsLine read (State.start line {})) :
    ∃ es stmts, ReadsLine read line es stmts := by
  obtain ⟨s', hnil, hread⟩ := h
  refine ⟨s'.errors, s'.body, fun errors body behind endPos => ?_⟩
  have h := hread ⟨errors, body, behind, endPos⟩
  simpa [State.within, State.start, hline, hnil] using h

section
variable {s : State}

theorem endsLine_declarations (fn : String) (hs : InLine s)
    (hfree : ∀ t ∈ s.tokens, IsFree .begins t) : EndsLine (declarations fn) s := by
  fun_induction declarations fn s with
  | case1 s t hbegin =>
    obtain ⟨u, hu, hcurrent⟩ := hs.current_mem
    exact absurd (hcurrent ▸ hbegin) (hfree u hu).1
  | case2 s t hbegin hend ih =>
    refine .round hs.advance (fun c => ?_) fun hline => ih hline fun t ht => hfree t ?_
    · rw [declarations.eq_def fn (s.within c), hs.current_within, if_neg hbegin,
        if_pos hend, hs.advance_within]
    · exact s.tokens_advance_suffix.subset ht
  | case3 s t hbegin hend hname ih =>
    obtain ⟨hends, hwithin⟩ := statement_within (staysAt_declaration hs hname)
    refine .round hends (fun c => ?_) fun hline => ih hline fun t ht => hfree t ?_
    · rw [declarations.eq_def fn (s.within c), hs.current_within, if_neg hbegin,
        if_neg hend, if_pos hname, hwithin]
    · exact (tokens_statement_suffix Consumes.declaration s).subset ht
  | case4 s t _ _ _ hlimit =>
    obtain ⟨u, hu, hcurrent⟩ := hs.current_mem
    exact absurd (hcurrent ▸ hlimit) (hfree u hu).2
  | case5 s t hbegin hend hname hlimit ih =>
    have hreport := hs.report t (.unexpected (.declarations fn) t)
    refine .round hreport.advance (fun c => ?_) fun hline =>
      ih hline fun t ht => hfree t ?_
    · rw [declarations.eq_def fn (s.within c), hs.current_within, if_neg hbegin,
        if_neg hend, if_neg hname, if_neg hlimit, hs.report_within,
        hreport.advance_within]
    · rw [← State.tokens_report s]
      exact (State.tokens_advance_suffix _).subset ht

theorem endsLine_statements (fn : String) (hs : InLine s)
    (hfree : ∀ t ∈ s.tokens, IsFree .ends t) : EndsLine (statements fn) s := by
  fun_induction statements fn s with
  | case1 s t hstop =>
    obtain ⟨u, hu, hcurrent⟩ := hs.current_mem
    exact absurd (hcurrent ▸ hstop) (hfree u hu).1
  | case2 s t hstop hend ih =>
    refine .round hs.advance (fun c => ?_) fun hline => ih hline fun t ht => hfree t ?_
    · rw [statements.eq_def fn (s.within c), hs.current_within, if_neg hstop,
        if_pos hend, hs.advance_within]
    · exact s.tokens_advance_suffix.subset ht
  | case3 s t hstop hend hname ih =>
    obtain ⟨hends, hwithin⟩ := statement_within (staysAt_namedStatement hs hname)
    refine .round hends (fun c => ?_) fun hline => ih hline fun t ht => hfree t ?_
    · rw [statements.eq_def fn (s.within c), hs.current_within, if_neg hstop,
        if_neg hend, if_pos hname, hwithin]
    · exact (tokens_statement_suffix Consumes.namedStatement s).subset ht
  | case4 s t hstop hend hname hret ih =>
    obtain ⟨hends, hwithin⟩ := statement_within (staysAt_returnStatement hs hret)
    refine .round hends (fun c => ?_) fun hline => ih hline fun t ht => hfree t ?_
    · rw [statements.eq_def fn (s.within c), hs.current_within, if_neg hstop,
        if_neg hend, if_neg hname, if_pos hret, hwithin]
    · exact (tokens_statement_suffix Consumes.returnStatement s).subset ht
  | case5 s t _ _ _ _ hlimit =>
    obtain ⟨u, hu, hcurrent⟩ := hs.current_mem
    exact absurd (hcurrent ▸ hlimit) (hfree u hu).2
  | case6 s t hstop hend hname hret hlimit ih =>
    have hreport := hs.report t (.unexpected (.body fn) t)
    refine .round hreport.advance (fun c => ?_) fun hline =>
      ih hline fun t ht => hfree t ?_
    · rw [statements.eq_def fn (s.within c), hs.current_within, if_neg hstop,
        if_neg hend, if_neg hname, if_neg hret, if_neg hlimit, hs.report_within,
        hreport.advance_within]
    · rw [← State.tokens_report s]
      exact (State.tokens_advance_suffix _).subset ht

end

/-! ## Functions -/

/-- A line of a region that ends with `close`: tokens up to a newline, none of
which ends the region or starts a declaration. -/
structure Line (close : Keyword) where
  words : List Scanned
  newline : Scanned
  kind_newline : newline.token.kind = .mark .newline
  free : ∀ t ∈ words, t.token.kind ≠ .mark .newline ∧ IsFree close t

namespace Line

variable {close : Keyword}

/-- All tokens of a line. -/
def tokens (l : Line close) : List Scanned := l.words ++ [l.newline]

theorem tokens_ne_nil (l : Line close) : l.tokens ≠ [] :=
  List.append_ne_nil_of_right_ne_nil _ (by simp)

theorem inLine (l : Line close) (p : Position) : InLine (State.start l.tokens p) :=
  ⟨l.newline, by simp [State.start, tokens], l.kind_newline⟩

theorem isFree (l : Line close) : ∀ t ∈ l.tokens, IsFree close t := by
  refine List.forall_mem_append.mpr ⟨fun t ht => (l.free t ht).2,
    List.forall_mem_singleton.mpr ?_⟩
  simp [IsFree, IsLimit, l.kind_newline]

theorem errorsAhead_append (l : Line close) (behind : List Scanned) :
    State.errorsAhead (l.tokens ++ behind) = State.errorsAhead l.tokens := by
  obtain ⟨t, ts, htokens⟩ := List.exists_cons_of_ne_nil l.tokens_ne_nil
  rw [htokens]
  rfl

end Line

/-- Lines are taken away one after the other. -/
theorem reads_lines {close : Keyword} {read : State → Outcome Unit}
    {es : Line close → List ParseError} {stmts : Line close → List Stmt}
    (h : ∀ l, ReadsLine read l.tokens (es l) (stmts l)) (ls : List (Line close))
    (errors : List ParseError) (body : List Stmt) (behind : List Scanned)
    (endPos : Position) :
    let tokens := ls.flatMap Line.tokens ++ behind
    read { tokens, endPos, errors := errors ++ State.errorsAhead tokens, body } =
      read
        { tokens := behind, endPos,
          errors := errors ++ ls.flatMap es ++ State.errorsAhead behind
          body := body ++ ls.flatMap stmts } := by
  intro tokens
  induction ls generalizing errors body with
  | nil => simp [tokens]
  | cons l ls ih =>
    have htokens : tokens = l.tokens ++ (ls.flatMap Line.tokens ++ behind) := by
      simp [tokens]
    rw [htokens, l.errorsAhead_append, h l, ih]
    simp only [List.flatMap_cons, List.append_assoc]

/-- The tokens that hold a function together. -/
structure Shell where
  func : Token
  name : Token
  begins : Token
  ends : Token
  kind_func : func.kind = .keyword .func
  kind_name : name.kind = .identifier
  kind_begins : begins.kind = .keyword .begins
  kind_ends : ends.kind = .keyword .ends

/-- The statements of all functions that were read. -/
def Result.statements (r : Result) : List Stmt := r.tree.globals.flatMap Global.body

namespace Shell

variable (f : Shell)

/-- A function with the given lines. -/
def tokens (decls : List (Line .begins)) (body : List (Line .ends)) : List Scanned :=
  { token := f.func } :: { token := f.name } :: (decls.flatMap Line.tokens ++
    { token := f.begins } :: (body.flatMap Line.tokens ++ [{ token := f.ends }]))

section
variable {de : Line .begins → List ParseError} {ds : Line .begins → List Stmt}
  {be : Line .ends → List ParseError} {bs : Line .ends → List Stmt}
  (hd : ∀ l, ReadsLine (declarations f.name.lexeme) l.tokens (de l) (ds l))
  (hb : ∀ l, ReadsLine (statements f.name.lexeme) l.tokens (be l) (bs l))
  (decls : List (Line .begins)) (body : List (Line .ends))
include hd hb

theorem function_eq (errors : List ParseError) (before : List Stmt)
    (behind : List Scanned) (endPos : Position) :
    function
        { tokens := f.tokens decls body ++ behind, endPos, errors, body := before } =
      .done (.func f.func.pos f.name.lexeme [] (decls.flatMap ds ++ body.flatMap bs))
        { tokens := behind, endPos
          errors :=
            errors ++ decls.flatMap de ++ body.flatMap be ++ State.errorsAhead behind
          body := decls.flatMap ds ++ body.flatMap bs } := by
  let fn := f.name.lexeme
  let inner := body.flatMap Line.tokens ++ { token := f.ends } :: behind
  let outer := decls.flatMap Line.tokens ++ { token := f.begins } :: inner
  have htokens : f.tokens decls body ++ behind =
      { token := f.func } :: { token := f.name } :: outer := by
    simp [tokens, outer, inner]
  have hname : identifier .functionName
        { tokens := { token := f.name } :: outer, endPos, errors, body := before } =
      .done f.name
        { tokens := outer, endPos, errors := errors ++ State.errorsAhead outer,
          body := before } := by
    show (if f.name.kind = .identifier then do advance; pure f.name
      else failExpected .functionName : Parse Token) _ = _
    rw [if_pos f.kind_name]
    rfl
  have hdecls : declarations fn
        { tokens := outer, endPos, errors := errors ++ State.errorsAhead outer,
          body := [] } =
      .done ()
        { tokens := { token := f.begins } :: inner, endPos,
          errors := errors ++ decls.flatMap de
          body := decls.flatMap ds } := by
    rw [reads_lines hd decls errors [] ({ token := f.begins } :: inner) endPos,
      declarations]
    simp [State.current, f.kind_begins, State.errorsAhead]
  have hbody (es : List ParseError) (stmts : List Stmt) :
      statements fn
        { tokens := inner, endPos, errors := es ++ State.errorsAhead inner,
          body := stmts } =
        .done ()
          { tokens := { token := f.ends } :: behind, endPos,
            errors := es ++ body.flatMap be
            body := stmts ++ body.flatMap bs } := by
    rw [reads_lines hb body es stmts ({ token := f.ends } :: behind) endPos, statements]
    simp [State.current, f.kind_ends, State.errorsAhead]
  rw [htokens]
  show (do
    let name ← identifier .functionName
    clearBody
    declarations name.lexeme
    advance
    statements name.lexeme
    advance
    return .func f.func.pos name.lexeme [] (← Parser.body) : Parse Global)
      { tokens := { token := f.name } :: outer, endPos, errors := errors ++ [],
        body := before } = _
  rw [List.append_nil, bind_of_done hname]
  show (do
    declarations fn
    advance
    statements fn
    advance
    return .func f.func.pos fn [] (← Parser.body) : Parse Global)
      { tokens := outer, endPos, errors := errors ++ State.errorsAhead outer,
        body := [] } = _
  rw [bind_of_done hdecls]
  show (do
    statements fn
    advance
    return .func f.func.pos fn [] (← Parser.body) : Parse Global)
      { tokens := inner, endPos,
        errors := errors ++ decls.flatMap de ++ State.errorsAhead inner
        body := decls.flatMap ds } = _
  rw [bind_of_done (hbody _ _)]
  rfl

/-- A function that is all of a text. -/
theorem parseTokens_eq (filename : String) (endPos : Position) :
    parseTokens filename (f.tokens decls body) endPos =
      { tree :=
          { filename
            globals :=
              [.func f.func.pos f.name.lexeme []
                (decls.flatMap ds ++ body.flatMap bs)] }
        errors := decls.flatMap de ++ body.flatMap be } := by
  have hfunction := f.function_eq hd hb decls body [] [] [] endPos
  rw [List.append_nil] at hfunction
  have hstart : State.start (f.tokens decls body) endPos =
    { tokens := f.tokens decls body, endPos } := rfl
  have hkind : (State.start (f.tokens decls body) endPos).current.kind =
    .keyword .func := f.kind_func
  have hend (s : State) (h : s.tokens = []) : globals s = ([], s) := by
    rw [globals, if_pos (by simp [State.current, h])]
  simp only [parseTokens]
  rw [globals, if_neg (by simp [hkind]), if_pos hkind, hstart]
  simp only [global, hfunction, hend]
  simp [State.errorsAhead]

end

end Shell

/-- However broken the lines of a function are, and wherever it stands: its
statements are those that each line yields when it is the only line of its
region, in order, and so are the errors that are found in it. -/
theorem function_eq_lines (f : Shell) (decls : List (Line .begins))
    (body : List (Line .ends)) (errors : List ParseError) (before : List Stmt)
    (behind : List Scanned) (endPos : Position) (filename : String) :
    let declared (l : Line .begins) : Result :=
      parseTokens filename (f.tokens [l] []) endPos
    let done (l : Line .ends) : Result := parseTokens filename (f.tokens [] [l]) endPos
    let stmts :=
      decls.flatMap (fun l => (declared l).statements) ++
        body.flatMap fun l => (done l).statements
    function
        { tokens := f.tokens decls body ++ behind, endPos, errors, body := before } =
      .done (.func f.func.pos f.name.lexeme [] stmts)
        { tokens := behind, endPos
          errors :=
            errors ++ decls.flatMap (fun l => (declared l).errors) ++
              body.flatMap (fun l => (done l).errors) ++ State.errorsAhead behind
          body := stmts } := by
  intro declared done stmts
  have hdecl (l : Line .begins) : ∃ es stmts,
      ReadsLine (declarations f.name.lexeme) l.tokens es stmts :=
    (endsLine_declarations _ (l.inLine {}) l.isFree).exists_readsLine l.tokens_ne_nil
  have hline (l : Line .ends) : ∃ es stmts,
      ReadsLine (statements f.name.lexeme) l.tokens es stmts :=
    (endsLine_statements _ (l.inLine {}) l.isFree).exists_readsLine l.tokens_ne_nil
  choose de ds hd using hdecl
  choose be bs hb using hline
  have hdeclared (l : Line .begins) : (declared l).statements = ds l ∧
      (declared l).errors = de l := by
    simp [declared, f.parseTokens_eq hd hb, Result.statements, Global.body]
  have hdone (l : Line .ends) : (done l).statements = bs l ∧
      (done l).errors = be l := by
    simp [done, f.parseTokens_eq hd hb, Result.statements, Global.body]
  simp only [stmts, hdeclared, hdone]
  exact f.function_eq hd hb decls body errors before behind endPos

/-- A declaration without a type, and a call that is not closed, each in front
of a line that is in order. -/
theorem function_eq_lines_broken :
    let word (kind : Token.Kind) (lexeme : String) : Scanned :=
      { token := { kind, lexeme } }
    let newline := word (.mark .newline) "\n"
    let f : Shell :=
      ⟨(word (.keyword .func) "func").token, (word .identifier "f").token,
        (word (.keyword .begins) "begin").token,
        (word (.keyword .ends) "end").token, rfl, rfl, rfl, rfl⟩
    let untyped : Line .begins :=
      ⟨[word .identifier "x", word (.mark .colon) ":"], newline,
        rfl, by simp [word, IsFree, IsLimit]⟩
    let typed : Line .begins :=
      ⟨[word .identifier "y", word (.mark .colon) ":", word (.keyword .int) "int"],
        newline, rfl, by simp [word, IsFree, IsLimit]⟩
    let unclosed : Line .ends :=
      ⟨[word .identifier "g", word (.mark .leftParen) "(", word .integer "1"],
        newline, rfl, by simp [word, IsFree, IsLimit]⟩
    let closed : Line .ends :=
      ⟨[word (.keyword .returns) "return"], newline,
        rfl, by simp [word, IsFree, IsLimit]⟩
    ∃ s, function
          { tokens := f.tokens [untyped, typed] [unclosed, closed], endPos := {} } =
        .done (.func {} "f" [] [.decl {} "y" (some .int), .ret {} []]) s ∧
      s.errors = [⟨{}, .unknownType newline.token⟩,
        ⟨{}, .expected (.closeCall "g") newline.token⟩] := by
  intro word newline f untyped typed unclosed closed
  have h := function_eq_lines f [untyped, typed] [unclosed, closed] [] [] [] {} ""
  have hstmts : [untyped, typed].flatMap
      (fun l => (parseTokens "" (f.tokens [l] []) {}).statements) ++
      [unclosed, closed].flatMap
        (fun l => (parseTokens "" (f.tokens [] [l]) {}).statements) =
        [.decl {} "y" (some .int), .ret {} []] := by decide +kernel
  dsimp only at h
  rw [hstmts, List.append_nil] at h
  exact ⟨_, h, by decide +kernel⟩

end Straightline.Parser
