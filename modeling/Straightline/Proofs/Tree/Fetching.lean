import Mathlib
import Straightline.Proofs.Token.Munch
import Straightline.Proofs.Tree.Moves

/-!
# Every token is fetched once

A parser records the error of a token when it fetches the token. So a
parser logs its own fetches if every token carries a mark in the place of
its error (`marked`): the marks that it has recorded tell what it has
fetched, and in which order.

Nothing that happens to a parser loses a mark or records one twice
(`Reaches.marks_eq`). Marks do not change what a parser does, and neither does
what stands behind the end of the text (`Remarked.globals`): from the same
tokens it reads the same declarations, and it makes the same complaints. The log
of a whole text says that each token is fetched once, in order, and that nothing
is fetched behind the end (`parse_fetches_once`).
-/

namespace Straightline

/-- The lexical error that a syntax error is, if it is one. -/
def ParseError.lexical? (e : ParseError) : Option LexicalError :=
  match e.cause with
  | .lexical cause => some ⟨e.pos, cause⟩
  | _ => none

/-- Whether a syntax error is about how tokens follow one another. -/
def ParseError.isComplaint (e : ParseError) : Bool := !e.cause.isLexical

theorem ParseError.lexical?_eq_none {pos : Position} {cause : ParseCause}
    (h : cause.isLexical = false) : ParseError.lexical? ⟨pos, cause⟩ = none := by
  cases cause with
  | lexical c => cases h
  | _ => rfl

namespace Parser

/-! ## Marks are recorded once -/

theorem State.filterMap_errorsAhead (ts : List Scanned) :
    (errorsAhead ts).filterMap ParseError.lexical? ++ ts.tail.filterMap (·.error) =
      ts.filterMap (·.error) := by
  cases ts with
  | nil => rfl
  | cons t ts =>
    cases herror : t.error with
    | none => simp [errorsAhead, herror]
    | some e => simp [errorsAhead, herror, ParseError.ofLexical, ParseError.lexical?]

/-- The marks that a parser has recorded, and those of the tokens it did not fetch. -/
def State.marks (s : State) : List LexicalError :=
  s.errors.filterMap ParseError.lexical? ++ s.tokens.tail.filterMap (·.error)

theorem State.marks_start (ts : List Scanned) (p : Position) :
    (start ts p).marks = ts.filterMap (·.error) := filterMap_errorsAhead ts

theorem State.marks_advance (s : State) : s.advance.marks = s.marks := by
  cases hs : s.tokens with
  | nil => rw [advance, hs]
  | cons t ts =>
    simp only [marks, advance, hs, List.tail_cons]
    rw [List.filterMap_append, List.append_assoc, filterMap_errorsAhead]

theorem Passes.marks_eq {part : List Token} {s s' : State} (h : Passes part s s') :
    s'.marks = s.marks := by
  induction h with
  | nil => rfl
  | cons _ _ ih => exact ih.trans (State.marks_advance _)

theorem Move.marks_eq {s s' : State} (h : Move s s') : s'.marks = s.marks := by
  cases h with
  | fetch _ => exact s.marks_advance
  | @complain _ _ s' t cause hpasses _ _ hcause =>
    rw [← hpasses.marks_eq, State.marks, State.marks]
    show (s'.errors ++ [_]).filterMap ParseError.lexical? ++
      s'.tokens.tail.filterMap _ = _
    rw [List.filterMap_append,
      List.filterMap_cons_none (ParseError.lexical?_eq_none hcause), List.filterMap_nil,
      List.append_nil]
  | emit _ => rfl
  | clear => rfl

theorem Reaches.marks_eq {s s' : State} (h : Reaches s s') : s'.marks = s.marks := by
  induction h with
  | refl => rfl
  | tail _ hmove ih => exact hmove.marks_eq.trans ih

/-! ## Marks change nothing -/

/-- Two parsers of the same tokens. In the second one the tokens have other
marks, and the end of the text is a token as well, with `behind` behind it. So
far they have made the same complaints. -/
structure Remarked (eof : Scanned) (behind : List Scanned) (s s' : State) : Prop where
  tokens : ∃ front, s'.tokens = front ++ eof :: behind ∧
    front.map (·.token) = s.tokens.map (·.token)
  proper : ∀ t ∈ s.tokens, t.token.kind ≠ .eof
  eof : eof.token = { kind := .eof, pos := s.endPos }
  complaints : s'.errors.filter (·.isComplaint) = s.errors.filter (·.isComplaint)

namespace Remarked

variable {eof : Scanned} {behind : List Scanned} {s s' : State}

theorem current (h : Remarked eof behind s s') : s'.current = s.current := by
  obtain ⟨front, htokens', htokens⟩ := h.tokens
  cases hs : s.tokens with
  | nil =>
    obtain rfl : front = [] := by simpa [hs] using htokens
    rw [State.current, State.current, htokens', hs]
    exact h.eof
  | cons t ts =>
    cases front with
    | nil => simp [hs] at htokens
    | cons u us =>
      obtain ⟨htoken, -⟩ : u.token = t.token ∧ _ := by simpa [hs] using htokens
      rw [State.current, State.current, htokens', hs]
      exact htoken

theorem filter_errorsAhead (ts : List Scanned) :
    (State.errorsAhead ts).filter (·.isComplaint) = [] := by
  cases ts with
  | nil => rfl
  | cons t ts =>
    cases herror : t.error with
    | none => simp [State.errorsAhead, herror]
    | some e =>
      simp [State.errorsAhead, herror, ParseError.isComplaint, ParseError.ofLexical,
        ParseCause.isLexical]

theorem complaints_advance (s : State) :
    s.advance.errors.filter (·.isComplaint) = s.errors.filter (·.isComplaint) := by
  cases hs : s.tokens with
  | nil => rw [State.advance, hs]
  | cons t ts =>
    simp only [State.advance, hs]
    rw [List.filter_append, filter_errorsAhead, List.append_nil]

theorem advance (h : Remarked eof behind s s') (hkind : s.current.kind ≠ .eof) :
    Remarked eof behind s.advance s'.advance := by
  obtain ⟨front, htokens', htokens⟩ := h.tokens
  cases hs : s.tokens with
  | nil => simp [State.current, hs] at hkind
  | cons t ts =>
    cases front with
    | nil => simp [hs] at htokens
    | cons u us =>
      obtain ⟨-, hrest⟩ : _ ∧ us.map (·.token) = ts.map (·.token) := by
        simpa [hs] using htokens
      refine ⟨⟨us, ?_, ?_⟩, ?_, ?_, ?_⟩
      · simp [State.advance, htokens']
      · simpa [State.advance, hs] using hrest
      · exact fun v hv => h.proper v (s.tokens_advance_suffix.subset hv)
      · simpa [State.advance, hs] using h.eof
      · rw [complaints_advance, complaints_advance]
        exact h.complaints

theorem inStep : InStep (Remarked eof behind) where
  look s s' h := by
    by_cases hkind : s.current.kind = .eof
    · exact .inr ⟨hkind, .inl (by rw [h.current, hkind])⟩
    · exact .inl ⟨hkind, h.current, h.advance hkind⟩
  record s s' e e' h he := by
    obtain rfl := he h.current
    refine { h with complaints := ?_ }
    show (s'.errors ++ [_]).filter _ = (s.errors ++ [_]).filter _
    rw [List.filter_append, List.filter_append, h.complaints]
  emit s s' _ h := { h with }
  clear s s' h := { h with }
  external s s' h hkind hend := by
    have hnext := h.advance (by rw [hkind]; exact Token.Kind.noConfusion)
    rw [hnext.current, hend]
    exact Token.Kind.noConfusion

/-- The parser of the marked tokens reads what the other one reads, and stops at
the token that is the end of the text. -/
theorem globals (h : Remarked eof behind s s') :
    (Parser.globals s').1 = (Parser.globals s).1 ∧
      (Parser.globals s').2.tokens = eof :: behind ∧
      Remarked eof behind (Parser.globals s).2 (Parser.globals s').2 := by
  obtain ⟨last, hlast, hend, hrun⟩ := inStep.globals s s' h
  have hstop : Parser.globals last = ([], last) := by
    rw [Parser.globals, if_pos (by rw [hlast.current, hend])]
  rw [hrun, hstop, List.append_nil]
  refine ⟨rfl, ?_, hlast⟩
  obtain ⟨front, htokens', htokens⟩ := hlast.tokens
  obtain rfl : front = [] := by
    simpa [State.tokens_eq_nil hend hlast.proper] using htokens
  exact htokens'

end Remarked

/-! ## A whole text -/

/-- Tokens with a mark on each of them, that of the token in place
`i` being `mark i`. -/
def marked (mark : Nat → LexicalError) (ts : List Token) : List Scanned :=
  ts.mapIdx fun i t => { token := t, error := some (mark i) }

theorem marked_append (mark : Nat → LexicalError) (ts : List Token) (t : Token) :
    marked mark (ts ++ [t]) =
      marked mark ts ++ [{ token := t, error := some (mark ts.length) }] :=
  List.mapIdx_concat

theorem map_token_marked (mark : Nat → LexicalError) (ts : List Token) :
    (marked mark ts).map (·.token) = ts := by
  induction ts using List.reverseRecOn with
  | nil => rfl
  | append_singleton ts t ih =>
    rw [marked_append, List.map_append, ih]
    rfl

theorem filterMap_error_marked (mark : Nat → LexicalError) (ts : List Token) :
    (marked mark ts).filterMap (·.error) = (List.range ts.length).map mark := by
  induction ts using List.reverseRecOn with
  | nil => rfl
  | append_singleton ts t ih =>
    rw [marked_append, List.filterMap_append, ih, List.length_append,
      List.length_singleton, List.range_succ, List.map_append]
    rfl

theorem eof_drain (source : List UInt8) (filename : String) :
    let d := (Lexer.ofBytes source filename).drain
    d.eof = { kind := .eof, pos := d.eof.pos } := by
  obtain ⟨ts, q, hsplits⟩ :=
    Lexical.exists_splits (.start filename) (Rune.decode source)
  have hdrain : (Lexer.ofBytes source filename).drain = _ := hsplits.drain_eq
  rw [hdrain]

/-- Reading goes on to the end of the text. -/
theorem tokens_globals {ts : List Scanned} (h : ∀ t ∈ ts, t.token.kind ≠ .eof)
    (p : Position) : (globals (State.start ts p)).2.tokens = [] := by
  obtain ⟨hreaches, hkind⟩ := reaches_globals (State.start ts p)
  exact State.tokens_eq_nil hkind fun t ht => h t (hreaches.isLater.tokens.subset ht)

/-- A parser records the marks of the tokens that it has fetched by the end. -/
theorem lexical_globals (ts : List Scanned) (p : Position) :
    let last := (globals (State.start ts p)).2
    last.errors.filterMap ParseError.lexical? ++ last.tokens.tail.filterMap (·.error) =
      ts.filterMap (·.error) :=
  (reaches_globals (State.start ts p)).1.marks_eq.trans (State.marks_start ts p)

/-- The lexical errors of a text are among its syntax errors. -/
theorem lexical_errors_parse (source : List UInt8) (filename : String) :
    let l := Lexer.ofBytes source filename
    (parse l).errors.filterMap ParseError.lexical? = l.drain.errors := by
  intro l
  have hlexical := lexical_globals l.drain.tokens l.drain.eof.pos
  simp only [tokens_globals (fun t ht => Lexical.ne_eof_of_mem_drain ht), List.tail_nil,
    List.filterMap_nil, List.append_nil] at hlexical
  exact hlexical

/-- A text is read up to its end. With a mark on every token the marks are
recorded one after the other, each of them once: so are the tokens fetched. Of
what stands behind the end nothing is fetched, whatever it is. Apart from the
marks it is the same run: the same tree is read, and the same complaints are
made. So the lexical errors are found, each of them once and in order; where no
error is found, there is none. -/
theorem parse_fetches_once (source : List UInt8) (filename : String) :
    let l := Lexer.ofBytes source filename
    let last := (globals (State.start l.drain.tokens l.drain.eof.pos)).2
    (∀ (mark : Nat → LexicalError) (behind : List Scanned) (endPos : Position),
      let logged := globals (State.start (marked mark l.drain.all ++ behind) endPos)
      logged.2.errors.filterMap ParseError.lexical? =
          (List.range l.drain.all.length).map mark ∧
        logged.2.current = l.drain.eof ∧ logged.2.tokens.tail = behind ∧
        logged.1 = (parse l).tree.globals ∧
        logged.2.errors.filter (·.isComplaint) =
          (parse l).errors.filter (·.isComplaint)) ∧
      last.current = l.drain.eof ∧ last.tokens = [] ∧ (parse l).errors = last.errors ∧
      (parse l).errors.filterMap ParseError.lexical? = l.drain.errors ∧
      ((parse l).errors = [] → l.drain.errors = []) := by
  intro l last
  have hproper : ∀ t ∈ l.drain.tokens, t.token.kind ≠ .eof :=
    fun t ht => Lexical.ne_eof_of_mem_drain ht
  have heof : l.drain.eof = { kind := .eof, pos := l.drain.eof.pos } :=
    eof_drain source filename
  have hlexical := lexical_errors_parse source filename
  have htokens : last.tokens = [] := tokens_globals hproper _
  have hcurrent : last.current = l.drain.eof := by
    have hlater :=
      (reaches_globals (State.start l.drain.tokens l.drain.eof.pos)).1.isLater
    rw [heof, State.current, htokens, hlater.endPos]
    rfl
  refine ⟨?_, hcurrent, htokens, rfl, hlexical, ?_⟩
  · intro mark behind endPos logged
    let n := (l.drain.tokens.map (·.token)).length
    have hmarked : marked mark l.drain.all ++ behind =
        marked mark (l.drain.tokens.map (·.token)) ++
          { token := l.drain.eof, error := some (mark n) } :: behind := by
      rw [Lexer.Drained.all, marked_append, List.append_assoc]
      rfl
    have hstart : Remarked { token := l.drain.eof, error := some (mark n) } behind
        (State.start l.drain.tokens l.drain.eof.pos)
        (State.start (marked mark l.drain.all ++ behind) endPos) := by
      refine ⟨⟨_, hmarked, map_token_marked ..⟩, hproper, heof, ?_⟩
      show (State.errorsAhead _).filter _ = (State.errorsAhead _).filter _
      rw [Remarked.filter_errorsAhead, Remarked.filter_errorsAhead]
    obtain ⟨htree, hrest, hend⟩ := hstart.globals
    refine ⟨?_, hend.current.trans hcurrent, congrArg List.tail hrest, htree,
      hend.complaints⟩
    have hlog := lexical_globals (marked mark l.drain.all ++ behind) endPos
    rw [List.filterMap_append, filterMap_error_marked] at hlog
    simp only [hrest, List.tail_cons] at hlog
    exact List.append_cancel_right hlog
  · intro hnone
    rw [← hlexical, hnone]
    rfl

end Parser

end Straightline
