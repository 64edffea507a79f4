import Mathlib
import Straightline.Proofs.Tree.Invariant

/-!
# Two parsers in step

Two parsers read the same tokens until the first one comes to the end of its
text. The second one is then at a limit: at its end as well, or in front of a
keyword that starts a declaration (`IsLimit`). No step takes a limit away, save
the one that asks for `func` right behind `extern`, so the two go on in step:
they give the same, and they give up together (`Parallel`).

What a relation of two states has to survive is said once (`InStep`).
`InStep.globals` is the result: the second parser reads the declarations of the
first one, and then goes on alone.
-/

namespace Straightline.Parser

/-- The tokens at which every step inside a declaration stops. -/
def IsLimit (kind : Token.Kind) : Prop :=
  kind = .eof ∨ kind = .keyword .func ∨ kind = .keyword .external

theorem IsLimit.ne_invalid {kind : Token.Kind} (h : IsLimit kind) :
    kind ≠ .invalid := by
  rcases h with rfl | rfl | rfl <;> exact Token.Kind.noConfusion

theorem IsLimit.isBarrier {kind : Token.Kind} (h : IsLimit kind) :
    kind = .eof ∨ isBarrier kind = true := by
  rcases h with rfl | rfl | rfl
  · exact .inl rfl
  · exact .inr rfl
  · exact .inr rfl

theorem IsLimit.endsExpression {kind : Token.Kind} (h : IsLimit kind) :
    endsExpression kind = true := by
  rcases h with rfl | rfl | rfl <;> rfl

theorem declarations_of_isLimit {fn : String} {s : State} (h : IsLimit s.current.kind) :
    declarations fn s = failExpected (.beginOf fn) s := by
  rw [declarations]
  rcases h with hkind | hkind | hkind <;> simp [hkind, endsLine]

theorem statements_of_isLimit {fn : String} {s : State} (h : IsLimit s.current.kind) :
    statements fn s = failExpected (.endOf fn) s := by
  rw [statements]
  rcases h with hkind | hkind | hkind <;> simp [hkind, endsLine]

/-! ## Steps -/

section
variable {α β : Type} {R S : State → State → Prop}

/-- Whether two outcomes are of one sort, with the same result and related states. -/
def Outcome.Pairs (R : State → State → Prop) : Outcome α → Outcome α → Prop
  | .done a s, .done a' s' => a = a' ∧ R s s'
  | .abandoned s, .abandoned s' => R s s'
  | _, _ => False

theorem Outcome.Pairs.mono {o o' : Outcome α} (h : o.Pairs R o')
    (hRS : ∀ s s', R s s' → S s s') : o.Pairs S o' := by
  cases o <;> cases o' <;> simp_all [Outcome.Pairs]

theorem Outcome.Pairs.cases {o o' : Outcome α} (h : o.Pairs R o') :
    (∃ a s s', o = .done a s ∧ o' = .done a s' ∧ R s s') ∨
      ∃ s s', o = .abandoned s ∧ o' = .abandoned s' ∧ R s s' := by
  cases o with
  | done a s =>
    cases o' with
    | done a' s' =>
      obtain ⟨rfl, hs⟩ := h
      exact .inl ⟨a, s, s', rfl, rfl, hs⟩
    | abandoned s' => exact h.elim
  | abandoned s =>
    cases o' with
    | done a' s' => exact h.elim
    | abandoned s' => exact .inr ⟨s, s', rfl, rfl, h⟩

/-- A step that related parsers take in the same way. -/
def Parallel (R : State → State → Prop) (p : Parse α) : Prop :=
  ∀ s s', R s s' → (p s).Pairs R (p s')

theorem Parallel.pure (a : α) : Parallel R (pure a : Parse α) := fun _ _ hs => ⟨rfl, hs⟩

/-- Two steps one after the other, the second one from where the first one leads. -/
theorem Outcome.Pairs.bind {p : Parse α} {f : α → Parse β} {s s' : State}
    (hp : (p s).Pairs R (p s'))
    (hf : ∀ a t t', p s = .done a t → R t t' → (f a t).Pairs R (f a t')) :
    ((p >>= f) s).Pairs R ((p >>= f) s') := by
  rcases hp.cases with ⟨a, t, t', h, h', ht⟩ | ⟨t, t', h, h', ht⟩
  · rw [bind_of_done h, bind_of_done h']
    exact hf a t t' h ht
  · rw [bind_of_abandoned h, bind_of_abandoned h']
    exact ht

/-- A step that starts with a look at the lookahead. -/
theorem pairs_current_bind {f : Token → Parse β} {s s' : State}
    (h : (f s.current s).Pairs R (f s'.current s')) :
    ((current >>= f) s).Pairs R ((current >>= f) s') := h

theorem Parallel.bind {p : Parse α} {f : α → Parse β} (hp : Parallel R p)
    (hf : ∀ a, Parallel R (f a)) : Parallel R (p >>= f) :=
  fun s s' hs => (hp s s' hs).bind fun a t t' _ ht => hf a t t' ht

end

/-! ## Relations that reading keeps -/

/-- A relation of two parsers that survives reading. What they complain about is
the same as long as they look at the same token. -/
structure InStep (R : State → State → Prop) : Prop where
  look : ∀ s s', R s s' → s.current.kind ≠ .eof ∧ s'.current = s.current ∧
    R s.advance s'.advance ∨ s.current.kind = .eof ∧ IsLimit s'.current.kind
  record : ∀ s s' (e e' : ParseError), R s s' → (s'.current = s.current → e' = e) →
    R (s.record e.pos e.cause) (s'.record e'.pos e'.cause)
  emit : ∀ s s' stmt, R s s' → R (s.emit stmt) (s'.emit stmt)
  clear : ∀ s s' : State, R s s' → R { s with body := [] } { s' with body := [] }
  external : ∀ s s', R s s' → s.current.kind = .keyword .external →
    s.advance.current.kind = .eof → s'.advance.current.kind ≠ .keyword .func

namespace InStep

variable {α : Type} {R : State → State → Prop} (h : InStep R) {s s' : State}
include h

theorem same (hs : R s s') (hkind : s.current.kind ≠ .eof) :
    s'.current = s.current ∧ R s.advance s'.advance := by
  rcases h.look s s' hs with ⟨_, hsame⟩ | ⟨heof, _⟩
  · exact hsame
  · exact absurd heof hkind

theorem limit (hs : R s s') (heof : s.current.kind = .eof) :
    IsLimit s'.current.kind := by
  rcases h.look s s' hs with ⟨hkind, _⟩ | ⟨_, hlimit⟩
  · exact absurd heof hkind
  · exact hlimit

/-- What holds of every limit goes over to the second parser. -/
theorem transfer {P : Token.Kind → Prop} (hP : ∀ kind, IsLimit kind → P kind)
    (hs : R s s') (hp : P s.current.kind) : P s'.current.kind := by
  rcases h.look s s' hs with ⟨_, hsame, _⟩ | ⟨_, hlimit⟩
  · rw [hsame]
    exact hp
  · exact hP _ hlimit

theorem isLimit (hs : R s s') (hlimit : IsLimit s.current.kind) :
    IsLimit s'.current.kind :=
  h.transfer (fun _ => id) hs hlimit

theorem invalid_iff (hs : R s s') :
    s'.current.kind = .invalid ↔ s.current.kind = .invalid := by
  rcases h.look s s' hs with ⟨_, hsame, _⟩ | ⟨heof, hlimit⟩
  · rw [hsame]
  · rw [heof]
    exact ⟨fun hinvalid => absurd hinvalid hlimit.ne_invalid, fun hinvalid =>
      nomatch hinvalid⟩

/-- Both complain, or neither does. -/
theorem complain (hs : R s s') (e e' : ParseError)
    (he : s'.current = s.current → e' = e) :
    R (if s.current.kind = .invalid then s else s.record e.pos e.cause)
      (if s'.current.kind = .invalid then s' else s'.record e'.pos e'.cause) := by
  by_cases hinvalid : s.current.kind = .invalid
  · rw [if_pos hinvalid, if_pos ((h.invalid_iff hs).mpr hinvalid)]
    exact hs
  · rw [if_neg hinvalid, if_neg (mt (h.invalid_iff hs).mp hinvalid)]
    exact h.record s s' e e' hs he

theorem report (hs : R s s') (cause : ParseCause) :
    R (s.report s.current cause) (s'.report s'.current cause) :=
  h.complain hs ⟨_, _⟩ ⟨_, _⟩ fun hsame => by rw [hsame]

theorem fail (hs : R s s') (e e' : ParseError) (he : s'.current = s.current → e' = e) :
    (fail e.pos e.cause s : Outcome α).Pairs R (Parser.fail e'.pos e'.cause s') :=
  h.complain hs e e' he

theorem parallel_failExpected (what : Expectation) :
    Parallel R (failExpected what : Parse α) :=
  fun _ _ hs => h.fail hs ⟨_, _⟩ ⟨_, _⟩ fun hsame => by rw [hsame]

/-- A token is taken away by both or by neither, unless it is a limit that
only the second one sees. -/
theorem accept (hs : R s s') {kind : Token.Kind} (hkind : kind ≠ .eof)
    (hlimit : s.current.kind = .eof → s'.current.kind ≠ kind) :
    (accept kind s).Pairs R (Parser.accept kind s') := by
  unfold Parser.accept
  by_cases heof : s.current.kind = .eof
  · have hne : s.current.kind ≠ kind := fun heq => hkind (heq.symm.trans heof)
    rw [if_neg hne, if_neg (hlimit heof)]
    exact ⟨rfl, hs⟩
  · obtain ⟨hsame, hnext⟩ := h.same hs heof
    rw [hsame]
    by_cases heq : s.current.kind = kind
    · rw [if_pos heq, if_pos heq]
      exact ⟨rfl, hnext⟩
    · rw [if_neg heq, if_neg heq]
      exact ⟨rfl, hs⟩

theorem parallel_accept {kind : Token.Kind} (hkind : ¬ IsLimit kind) :
    Parallel R (Parser.accept kind) :=
  fun _ _ hs => h.accept hs (fun heq => hkind (.inl heq)) fun heof heq =>
    hkind (heq ▸ h.limit hs heof)

theorem consume (hs : R s s') {kind : Token.Kind} (hkind : kind ≠ .eof)
    (hlimit : s.current.kind = .eof → s'.current.kind ≠ kind) (what : Expectation) :
    (consume kind what s).Pairs R (Parser.consume kind what s') := by
  refine (h.accept hs hkind hlimit).bind fun b t t' _ ht => ?_
  cases b
  · exact h.parallel_failExpected what t t' ht
  · exact ⟨rfl, ht⟩

theorem parallel_consume {kind : Token.Kind} (hkind : ¬ IsLimit kind)
    (what : Expectation) : Parallel R (Parser.consume kind what) :=
  fun _ _ hs => h.consume hs (fun heq => hkind (.inl heq)) (fun heof heq =>
    hkind (heq ▸ h.limit hs heof)) what

theorem parallel_identifier (what : Expectation) : Parallel R (identifier what) := by
  intro s s' hs
  show (((if s.current.kind = .identifier then do advance; pure s.current
      else failExpected what) : Parse Token) s).Pairs R
    (((if s'.current.kind = .identifier then do advance; pure s'.current
      else failExpected what) : Parse Token) s')
  by_cases heof : s.current.kind = .eof
  · have hne : s'.current.kind ≠ .identifier := by
      rcases h.limit hs heof with hkind | hkind | hkind <;> rw [hkind] <;>
        exact Token.Kind.noConfusion
    rw [if_neg (by rw [heof]; exact Token.Kind.noConfusion), if_neg hne]
    exact h.parallel_failExpected what s s' hs
  · obtain ⟨hsame, hnext⟩ := h.same hs heof
    rw [hsame]
    split
    · exact ⟨rfl, hnext⟩
    · exact h.parallel_failExpected what s s' hs

theorem parallel_typeName : Parallel R typeName := by
  refine (h.parallel_accept (by simp [IsLimit])).bind fun b => ?_
  split
  · exact .pure _
  · refine (h.parallel_accept (by simp [IsLimit])).bind fun b => ?_
    split
    · exact .pure _
    · exact fun _ _ hs => h.fail hs ⟨_, _⟩ ⟨_, _⟩ fun hsame => by rw [hsame]

theorem parallel_emit (stmt : Stmt) : Parallel R (Parser.emit stmt) :=
  fun s s' hs => ⟨rfl, h.emit s s' stmt hs⟩

/-! ## Expressions -/

omit h in
/-- Whether an expression ends well does not depend on the token behind it.
What is wrong with it may. -/
theorem piece_pairs (required : Bool) (held : Stacks) (t t' : Token) :
    (∃ es, piece required held t = .ok es ∧ piece required held t' = .ok es) ∨
      ∃ e e', piece required held t = .error e ∧
      piece required held t' = .error e' ∧ (t' = t → e' = e) := by
  unfold piece
  split
  · exact .inr ⟨_, _, rfl, rfl, fun hsame => by rw [hsame]⟩
  · cases held.fold with
    | ok e => exact .inl ⟨_, rfl, rfl⟩
    | error e => exact .inr ⟨_, _, rfl, rfl, fun _ => rfl⟩

theorem endsExpression (hs : R s s') {stop : Token.Kind}
    (hend : s.current.kind = stop ∨ endsExpression s.current.kind = true) :
    s'.current.kind = stop ∨ Parser.endsExpression s'.current.kind = true :=
  h.transfer (P := fun kind => kind = stop ∨ Parser.endsExpression kind = true)
    (fun _ hlimit => .inr hlimit.endsExpression) hs hend

theorem parallel_expressionsFrom (d : Delimiters) (exprs : List Expr) (held : Stacks) :
    Parallel R (expressionsFrom d exprs held) := by
  intro s
  -- A limit ends every expression, so both come to the end of theirs,
  -- or else see the same token.
  fun_induction Parser.expressionsFrom d exprs held s with
  | case1 exprs held s t hend es hpiece =>
    intro s' hs
    rw [Parser.expressionsFrom.eq_def d exprs held s',
      if_pos (h.endsExpression hs hend)]
    rcases piece_pairs (!exprs.isEmpty) held t s'.current
      with ⟨es', h₁, h₂⟩ | ⟨e, e', h₁, h₂, -⟩
    · cases hpiece.symm.trans h₁
      rw [h₂]
      exact ⟨rfl, hs⟩
    · cases hpiece.symm.trans h₁
  | case2 exprs held s t hend e hpiece =>
    intro s' hs
    rw [Parser.expressionsFrom.eq_def d exprs held s',
      if_pos (h.endsExpression hs hend)]
    rcases piece_pairs (!exprs.isEmpty) held t s'.current
      with ⟨es', h₁, h₂⟩ | ⟨e, e', h₁, h₂, he⟩
    · cases hpiece.symm.trans h₁
    · cases hpiece.symm.trans h₁
      rw [h₂]
      exact h.fail hs e e' he
  | case3 exprs held s t hend hsep es hpiece ih =>
    intro s' hs
    have heof : t.kind ≠ .eof := fun heof => hend (.inr (by rw [heof]; rfl))
    obtain ⟨hsame, hnext⟩ := h.same hs heof
    rw [Parser.expressionsFrom.eq_def d exprs held s', hsame, if_neg hend,
      if_pos hsep, hpiece]
    exact ih _ hnext
  | case4 exprs held s t hend hsep e hpiece =>
    intro s' hs
    have heof : t.kind ≠ .eof := fun heof => hend (.inr (by rw [heof]; rfl))
    obtain ⟨hsame, -⟩ := h.same hs heof
    rw [Parser.expressionsFrom.eq_def d exprs held s', hsame, if_neg hend,
      if_pos hsep, hpiece]
    exact h.fail hs e e fun _ => rfl
  | case5 exprs held s t hend hsep held' hpush ih =>
    intro s' hs
    have heof : t.kind ≠ .eof := fun heof => hend (.inr (by rw [heof]; rfl))
    obtain ⟨hsame, hnext⟩ := h.same hs heof
    rw [Parser.expressionsFrom.eq_def d exprs held s', hsame, if_neg hend,
      if_neg hsep, hpush]
    exact ih _ hnext
  | case6 exprs held s t hend hsep hpush =>
    intro s' hs
    have heof : t.kind ≠ .eof := fun heof => hend (.inr (by rw [heof]; rfl))
    obtain ⟨hsame, -⟩ := h.same hs heof
    rw [Parser.expressionsFrom.eq_def d exprs held s', hsame, if_neg hend,
      if_neg hsep, hpush]
    exact h.fail hs ⟨_, _⟩ ⟨_, _⟩ fun _ => rfl

/-! ## Statements -/

theorem parallel_assignment (name : Token) : Parallel R (assignment name) := by
  refine (h.parallel_expressionsFrom _ _ _).bind fun values =>
    (h.parallel_emit _).bind fun _ => ?_
  split
  · exact fun s s' hs => ⟨rfl, h.report hs _⟩
  · exact .pure ()

/-- A step that starts by taking a token away takes the same one away twice. -/
theorem afterCurrent {p : Token → Parse α} (hp : ∀ t, Parallel R (p t))
    (hs : R s s') (hkind : s.current.kind ≠ .eof) :
    ((do let t ← current; advance; p t : Parse α) s).Pairs R
      ((do let t ← current; advance; p t : Parse α) s') := by
  obtain ⟨hsame, hnext⟩ := h.same hs hkind
  show (p s.current s.advance).Pairs R (p s'.current s'.advance)
  rw [hsame]
  exact hp _ _ _ hnext

theorem declaration (hs : R s s') (hkind : s.current.kind ≠ .eof) :
    (declaration s).Pairs R (Parser.declaration s') := by
  refine h.afterCurrent (fun name => ?_) hs hkind
  refine (h.parallel_consume (by simp [IsLimit]) _).bind fun _ =>
    h.parallel_typeName.bind fun type => ?_
  refine (h.parallel_emit _).bind fun _ s s' hs => ?_
  apply pairs_current_bind
  by_cases heof : s.current.kind = .eof
  · rcases h.limit hs heof with hkind | hkind | hkind
    all_goals
      rw [heof, hkind]
      exact ⟨rfl, hs⟩
  · obtain ⟨hsame, hnext⟩ := h.same hs heof
    have haccept : Parallel R (Parser.accept (.mark .assign)) :=
      h.parallel_accept (by simp [IsLimit])
    have hinitial := haccept.bind (fun _ => h.parallel_assignment name) s s' hs
    rw [hsame]
    cases s.current.kind with
    | eof => exact ⟨rfl, hs⟩
    | keyword k => exact ⟨rfl, hs⟩
    | mark m =>
      cases m with
      | semicolon => exact ⟨rfl, hnext⟩
      | newline => exact ⟨rfl, hs⟩
      | _ => exact hinitial
    | _ => exact hinitial

theorem parallel_call (name : Token) : Parallel R (call name) :=
  (h.parallel_expressionsFrom _ _ _).bind fun _ =>
      (h.parallel_consume (by simp [IsLimit]) _).bind fun _ =>
    (h.parallel_consume (by simp [IsLimit]) _).bind fun _ => h.parallel_emit _

theorem namedStatement (hs : R s s') (hkind : s.current.kind ≠ .eof) :
    (namedStatement s).Pairs R (Parser.namedStatement s') := by
  refine h.afterCurrent (fun name => ?_) hs hkind
  refine (h.parallel_accept (by simp [IsLimit])).bind fun b => ?_
  split
  · exact h.parallel_assignment name
  · refine (h.parallel_accept (by simp [IsLimit])).bind fun b => ?_
    split
    · exact h.parallel_call name
    · exact h.parallel_failExpected _

theorem returnStatement (hs : R s s') (hkind : s.current.kind ≠ .eof) :
    (returnStatement s).Pairs R (Parser.returnStatement s') :=
  h.afterCurrent (fun _ => (h.parallel_expressionsFrom _ _ _).bind fun _ =>
    h.parallel_emit _) hs hkind

theorem skipStatement (hs : R s s') :
    R (skipStatement s) (Parser.skipStatement s') := by
  fun_induction Parser.skipStatement s generalizing s' with
  | case1 s hstop =>
    rw [Parser.skipStatement.eq_def s', if_pos]
    · exact hs
    · exact h.transfer (P := fun kind => kind = .eof ∨ isBarrier kind = true)
        (fun _ => IsLimit.isBarrier) hs hstop
  | case2 s hstop hline =>
    obtain ⟨hsame, hnext⟩ := h.same hs fun heof => hstop (.inl heof)
    rw [Parser.skipStatement.eq_def s', hsame, if_neg hstop, if_pos hline]
    exact hnext
  | case3 s hstop hline ih =>
    obtain ⟨hsame, hnext⟩ := h.same hs fun heof => hstop (.inl heof)
    rw [Parser.skipStatement.eq_def s', hsame, if_neg hstop, if_neg hline]
    exact ih hnext

/-- A statement is read by both, or skipped by both. -/
theorem statement {p : Parse Unit} (hp : (p s).Pairs R (p s')) :
    R (statement p s) (Parser.statement p s') := by
  unfold Parser.statement
  rcases hp.cases with ⟨a, t, t', h₁, h₂, ht⟩ | ⟨t, t', h₁, h₂, ht⟩
  · rw [h₁, h₂]
    exact ht
  · rw [h₁, h₂]
    exact h.skipStatement ht

/-! ## Declarations -/

theorem parallel_declarations (fn : String) : Parallel R (declarations fn) := by
  intro s
  fun_induction Parser.declarations fn s with
  | case1 s t hbegin =>
    intro s' hs
    have heof : t.kind ≠ .eof := by rw [hbegin]; exact Token.Kind.noConfusion
    rw [Parser.declarations.eq_def fn s', (h.same hs heof).1, if_pos hbegin]
    exact ⟨rfl, hs⟩
  | case2 s t hbegin hline ih =>
    intro s' hs
    have heof : t.kind ≠ .eof := fun heof => by rw [heof] at hline; cases hline
    obtain ⟨hsame, hnext⟩ := h.same hs heof
    rw [Parser.declarations.eq_def fn s', hsame, if_neg hbegin, if_pos hline]
    exact ih _ hnext
  | case3 s t hbegin hline hname ih =>
    intro s' hs
    have heof : t.kind ≠ .eof := by rw [hname]; exact Token.Kind.noConfusion
    rw [Parser.declarations.eq_def fn s', (h.same hs heof).1, if_neg hbegin,
      if_neg hline, if_pos hname]
    exact ih _ (h.statement (h.declaration hs heof))
  | case4 s t hbegin hline hname hlimit =>
    intro s' hs
    rw [declarations_of_isLimit (h.isLimit hs hlimit)]
    exact h.parallel_failExpected _ s s' hs
  | case5 s t hbegin hline hname hlimit ih =>
    intro s' hs
    have heof : t.kind ≠ .eof := fun heof => hlimit (.inl heof)
    obtain ⟨hsame, -⟩ := h.same hs heof
    have hreport := h.report hs (.unexpected (.declarations fn) t)
    rw [hsame] at hreport
    rw [Parser.declarations.eq_def fn s', hsame, if_neg hbegin, if_neg hline,
      if_neg hname, if_neg hlimit]
    exact ih _ (h.same hreport (by rwa [State.current_report])).2

theorem parallel_statements (fn : String) : Parallel R (statements fn) := by
  intro s
  fun_induction Parser.statements fn s with
  | case1 s t hend =>
    intro s' hs
    have heof : t.kind ≠ .eof := by rw [hend]; exact Token.Kind.noConfusion
    rw [Parser.statements.eq_def fn s', (h.same hs heof).1, if_pos hend]
    exact ⟨rfl, hs⟩
  | case2 s t hend hline ih =>
    intro s' hs
    have heof : t.kind ≠ .eof := fun heof => by rw [heof] at hline; cases hline
    obtain ⟨hsame, hnext⟩ := h.same hs heof
    rw [Parser.statements.eq_def fn s', hsame, if_neg hend, if_pos hline]
    exact ih _ hnext
  | case3 s t hend hline hname ih =>
    intro s' hs
    have heof : t.kind ≠ .eof := by rw [hname]; exact Token.Kind.noConfusion
    rw [Parser.statements.eq_def fn s', (h.same hs heof).1, if_neg hend,
      if_neg hline, if_pos hname]
    exact ih _ (h.statement (h.namedStatement hs heof))
  | case4 s t hend hline hname hret ih =>
    intro s' hs
    have heof : t.kind ≠ .eof := by rw [hret]; exact Token.Kind.noConfusion
    rw [Parser.statements.eq_def fn s', (h.same hs heof).1, if_neg hend,
      if_neg hline, if_neg hname, if_pos hret]
    exact ih _ (h.statement (h.returnStatement hs heof))
  | case5 s t hend hline hname hret hlimit =>
    intro s' hs
    rw [statements_of_isLimit (h.isLimit hs hlimit)]
    exact h.parallel_failExpected _ s s' hs
  | case6 s t hend hline hname hret hlimit ih =>
    intro s' hs
    have heof : t.kind ≠ .eof := fun heof => hlimit (.inl heof)
    obtain ⟨hsame, -⟩ := h.same hs heof
    have hreport := h.report hs (.unexpected (.body fn) t)
    rw [hsame] at hreport
    rw [Parser.statements.eq_def fn s', hsame, if_neg hend, if_neg hline,
      if_neg hname, if_neg hret, if_neg hlimit]
    exact ih _ (h.same hreport (by rwa [State.current_report])).2

omit h in
/-- Declarations are read up to `begin`. -/
theorem current_of_declarations {fn : String} {t : State}
    (hdone : declarations fn s = .done () t) :
    t.current.kind = .keyword .begins := by
  fun_induction Parser.declarations fn s with
  | case1 s _ hbegin => cases hdone; exact hbegin
  | case2 s _ _ _ ih => exact ih hdone
  | case3 s _ _ _ _ ih => exact ih hdone
  | case4 => cases hdone
  | case5 s _ _ _ _ _ ih => exact ih hdone

omit h in
/-- Statements are read up to `end`. -/
theorem current_of_statements {fn : String} {t : State}
    (hdone : statements fn s = .done () t) : t.current.kind = .keyword .ends := by
  fun_induction Parser.statements fn s with
  | case1 s _ hend => cases hdone; exact hend
  | case2 s _ _ _ ih => exact ih hdone
  | case3 s _ _ _ _ ih => exact ih hdone
  | case4 s _ _ _ _ _ ih => exact ih hdone
  | case5 => cases hdone
  | case6 s _ _ _ _ _ _ ih => exact ih hdone

end InStep

/-- Related parsers that have read the same statements so far. -/
def WithBody (R : State → State → Prop) (s s' : State) : Prop :=
  R s s' ∧ s'.body = s.body

namespace InStep

variable {R : State → State → Prop} (h : InStep R) {s s' : State}
include h

theorem withBody : InStep (WithBody R) where
  look s s' hs := by
    rcases h.look s s' hs.1 with ⟨hkind, hsame, hnext⟩ | hend
    · refine .inl ⟨hkind, hsame, hnext, ?_⟩
      rw [State.body_advance, State.body_advance]
      exact hs.2
    · exact .inr hend
  record s s' e e' hs he := ⟨h.record s s' e e' hs.1 he, hs.2⟩
  emit s s' stmt hs := ⟨h.emit s s' stmt hs.1, congrArg (· ++ [stmt]) hs.2⟩
  clear s s' hs := ⟨h.clear s s' hs.1, rfl⟩
  external s s' hs := h.external s s' hs.1

/-- The statements of a function are those that were read since its name. -/
theorem function (hs : R s s') (hkind : s.current.kind ≠ .eof) :
    (function s).Pairs R (Parser.function s') := by
  refine h.afterCurrent (fun t => ?_) hs hkind
  refine (h.parallel_identifier _).bind fun name s s' hs => ?_
  -- From here on the statements are the same as well.
  let rest : Parse Global := do
    declarations name.lexeme
    advance
    statements name.lexeme
    advance
    return .func t.pos name.lexeme [] (← body)
  have hcleared : WithBody R { s with body := [] } { s' with body := [] } :=
    ⟨h.clear s s' hs, rfl⟩
  suffices hrest : (rest { s with body := [] }).Pairs (WithBody R)
    (rest { s' with body := [] }) from hrest.mono fun _ _ => And.left
  refine (h.withBody.parallel_declarations _ _ _ hcleared).bind
    fun _ s₁ s₁' hdone hs₁ => ?_
  have hbegin : s₁.current.kind ≠ .eof := by
    rw [current_of_declarations hdone]
    exact Token.Kind.noConfusion
  have hs₂ := (h.withBody.same hs₁ hbegin).2
  refine (h.withBody.parallel_statements _ _ _ hs₂).bind fun _ s₃ s₃' hdone hs₃ => ?_
  have hend : s₃.current.kind ≠ .eof := by
    rw [current_of_statements hdone]
    exact Token.Kind.noConfusion
  have hs₄ := (h.withBody.same hs₃ hend).2
  refine ⟨?_, hs₄⟩
  show Global.func _ _ _ s₃.advance.body = Global.func _ _ _ s₃'.advance.body
  rw [hs₄.2]

theorem parallel_parameter : Parallel R parameter :=
  (h.parallel_identifier _).bind fun _ =>
      (h.parallel_consume (by simp [IsLimit]) _).bind fun _ =>
    h.parallel_typeName.bind fun _ => .pure _

theorem parallel_parameters (params : List Variable) :
    Parallel R (parameters params) := by
  intro s
  fun_induction Parser.parameters params s with
  | case1 params s t hparam =>
    intro s' hs
    rcases (h.parallel_parameter s s' hs).cases
      with ⟨v, t₁, t', h₁, -, -⟩ | ⟨t₁, t', h₁, h₂, ht⟩
    · cases hparam.symm.trans h₁
    · cases hparam.symm.trans h₁
      rw [Parser.parameters.eq_def params s', h₂]
      exact ht
  | case2 params s v t hparam hcomma ih =>
    intro s' hs
    rcases (h.parallel_parameter s s' hs).cases
      with ⟨v₁, t₁, t', h₁, h₂, ht⟩ | ⟨t₁, t', h₁, -, -⟩
    · cases hparam.symm.trans h₁
      obtain ⟨hsame, hnext⟩ := h.same ht (by rw [hcomma]; exact Token.Kind.noConfusion)
      rw [Parser.parameters.eq_def params s', h₂]
      dsimp only
      rw [hsame, if_pos hcomma]
      exact ih _ hnext
    · cases hparam.symm.trans h₁
  | case3 params s v t hparam hcomma =>
    intro s' hs
    rcases (h.parallel_parameter s s' hs).cases
      with ⟨v₁, t₁, t', h₁, h₂, ht⟩ | ⟨t₁, t', h₁, -, -⟩
    · cases hparam.symm.trans h₁
      have hcomma' : t'.current.kind ≠ .mark .comma :=
        h.transfer (P := (· ≠ .mark .comma))
          (fun _ hlimit heq => by simp [heq, IsLimit] at hlimit) ht hcomma
      rw [Parser.parameters.eq_def params s', h₂]
      dsimp only
      rw [if_neg hcomma']
      exact (h.parallel_consume (by simp [IsLimit]) _).bind (fun _ => .pure _) t t' ht
    · cases hparam.symm.trans h₁

theorem externalFunction (hs : R s s') (hkind : s.current.kind = .keyword .external) :
    (externalFunction s).Pairs R (Parser.externalFunction s') := by
  obtain ⟨hsame, hnext⟩ := h.same hs (by rw [hkind]; exact Token.Kind.noConfusion)
  let rest (t : Token) : Parse Global := do
    Parser.consume (.keyword .func) .funcAfterExternal
    let name ← identifier .externalName
    Parser.consume (.mark .leftParen) .externalParen
    let params ← if ← Parser.accept (.mark .rightParen) then pure [] else parameters []
    return .external t.pos name.lexeme params
  show (rest s.current s.advance).Pairs R (rest s'.current s'.advance)
  rw [hsame]
  -- Only here is a limit asked for, right behind the keyword that
  -- the relation knows about.
  refine (h.consume hnext (by simp) (h.external s s' hs hkind) _).bind
    fun _ s₁ s₁' _ hs₁ => ?_
  refine ((h.parallel_identifier _).bind fun name =>
      (h.parallel_consume (by simp [IsLimit]) _).bind fun _ =>
    (h.parallel_accept (by simp [IsLimit])).bind fun b => ?_) s₁ s₁' hs₁
  cases b with
  | true => exact .pure _
  | false => exact (h.parallel_parameters []).bind fun _ => .pure _

theorem skipGlobal (hs : R s s') : R (skipGlobal s) (Parser.skipGlobal s') := by
  fun_induction Parser.skipGlobal s generalizing s' with
  | case1 s hlimit =>
    rw [Parser.skipGlobal.eq_def s', if_pos]
    · exact hs
    · exact h.isLimit hs hlimit
  | case2 s hlimit ih =>
    obtain ⟨hsame, hnext⟩ := h.same hs fun heof => hlimit (.inl heof)
    rw [Parser.skipGlobal.eq_def s', hsame, if_neg hlimit]
    exact ih hnext

/-- A declaration is read by both, or skipped by both. -/
theorem global {p : Parse Global} (hp : (p s).Pairs R (p s')) :
    (Parser.global p s').1 = (global p s).1 ∧
      R (Parser.global p s).2 (Parser.global p s').2 := by
  unfold Parser.global
  rcases hp.cases with ⟨g, t, t', h₁, h₂, ht⟩ | ⟨t, t', h₁, h₂, ht⟩
  · rw [h₁, h₂]
    exact ⟨rfl, ht⟩
  · rw [h₁, h₂]
    exact ⟨rfl, h.skipGlobal ht⟩

/-- The second parser reads what the first one reads, and goes on where the
text of the first one ends. -/
theorem globals (s : State) : ∀ s', R s s' →
    ∃ e', R (globals s).2 e' ∧ (Parser.globals s).2.current.kind = .eof ∧
      Parser.globals s' = ((Parser.globals s).1 ++ (Parser.globals e').1,
        (Parser.globals e').2) := by
  fun_induction Parser.globals s with
  | case1 s heof =>
    intro s' hs
    exact ⟨s', hs, heof, rfl⟩
  | case2 s heof hfunc r rest ih =>
    intro s' hs
    obtain ⟨hsame, -⟩ := h.same hs heof
    obtain ⟨hfirst, hnext⟩ := h.global (h.function hs heof)
    obtain ⟨e', he, hend, hrest⟩ := ih _ hnext
    refine ⟨e', he, hend, ?_⟩
    rw [Parser.globals.eq_def s', hsame, if_neg heof, if_pos hfunc]
    dsimp only
    rw [hfirst, hrest, List.append_assoc]
  | case3 s heof hfunc hexternal r rest ih =>
    intro s' hs
    obtain ⟨hsame, -⟩ := h.same hs heof
    obtain ⟨hfirst, hnext⟩ := h.global (h.externalFunction hs hexternal)
    obtain ⟨e', he, hend, hrest⟩ := ih _ hnext
    refine ⟨e', he, hend, ?_⟩
    rw [Parser.globals.eq_def s', hsame, if_neg heof, if_neg hfunc, if_pos hexternal]
    dsimp only
    rw [hfirst, hrest, List.append_assoc]
  | case4 s heof hfunc hexternal ih =>
    intro s' hs
    obtain ⟨hsame, hnext⟩ := h.same hs heof
    obtain ⟨e', he, hend, hrest⟩ := ih _ hnext
    refine ⟨e', he, hend, ?_⟩
    rw [Parser.globals.eq_def s', hsame, if_neg heof, if_neg hfunc,
      if_neg hexternal, hrest]

end InStep

end Straightline.Parser
