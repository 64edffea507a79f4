import Mathlib
import Straightline.Proofs.Token.Munch
import Straightline.Proofs.Tree.Moves

/-!
# Errors come out in the order of the text

Two parties add to one list of errors: the lexer is ahead of the parser, and an
expression that does not come off is blamed on a token that lies behind it.
Still the list is sorted (`errors_in_order`), since no error can stand between
such a token and the lookahead: operands and operators are valid tokens, and
nothing is blamed on them in front of an invalid one.
-/

namespace Straightline.Parser

/-- The error of the token that comes into view is recorded. -/
theorem State.errors_advance {s : State} (h : s.tokens ≠ []) :
    s.advance.errors = s.errors ++ State.errorsAhead s.advance.tokens := by
  obtain ⟨t, ts, htokens⟩ := List.exists_cons_of_ne_nil h
  simp only [State.advance, htokens]

/-! ## Tokens of a text -/

/-- Whether the tokens that are left stand as the lexer gives them: one
behind the other, the end of the text last, and with an error, in its own
place, just for each invalid one. -/
structure Placed (s : State) : Prop where
  increasing : s.tokens.Pairwise fun t u => t.token.pos.offset < u.token.pos.offset
  inside : ∀ t ∈ s.tokens, t.token.pos.offset ≤ s.endPos.offset
  errors : ∀ t ∈ s.tokens, t.error.map (·.pos) = if t.token.kind = .invalid then
    some t.token.pos else none

theorem placed_start (source : List UInt8) (filename : String) :
    let d := (Lexer.ofBytes source filename).drain
    Placed (State.start d.tokens d.eof.pos) := by
  intro d
  obtain ⟨ts, q, hsplits⟩ :=
    Lexical.exists_splits (.start filename) (Rune.decode source)
  have hdrain :
      d = { tokens := ts, eof := { kind := .eof, pos := q },
            left := Lexical.inFront q [] } :=
    hsplits.drain_eq
  rw [hdrain]
  exact ⟨hsplits.increasing.2, hsplits.le_end.2, hsplits.error_pos⟩

namespace Placed

variable {s s' : State}

theorem later (h : Placed s) (hs : IsLater s s') : Placed s' where
  increasing := h.increasing.sublist hs.tokens.sublist
  inside t ht := hs.endPos ▸ h.inside t (hs.tokens.subset ht)
  errors t ht := h.errors t (hs.tokens.subset ht)

theorem advance (h : Placed s) : Placed s.advance := h.later (.advance s)

/-- The lookahead moves on in the text. -/
theorem offset_le_advance (h : Placed s) :
    s.current.pos.offset ≤ s.advance.current.pos.offset := by
  obtain ⟨hincreasing, hinside, -⟩ := h
  cases htokens : s.tokens with
  | nil => simp [State.current, State.advance, htokens]
  | cons t ts =>
    rw [htokens] at hincreasing hinside
    cases ts with
    | nil =>
      simpa [State.current, State.advance, htokens] using hinside t List.mem_cons_self
    | cons u us =>
      have hlt := (List.pairwise_cons.mp hincreasing).1 u List.mem_cons_self
      simpa [State.current, State.advance, htokens] using Int.le_of_lt hlt

/-- Errors that come into view stand where the lookahead does, and
it is invalid then. -/
theorem errorsAhead (h : Placed s) : ∀ e ∈ State.errorsAhead s.tokens,
    e.pos = s.current.pos ∧ s.current.kind = .invalid := by
  intro e he
  cases htokens : s.tokens with
  | nil => simp [State.errorsAhead, htokens] at he
  | cons t ts =>
    have hcurrent : s.current = t.token := by simp [State.current, htokens]
    obtain ⟨x, hx, rfl⟩ : ∃ x, t.error = some x ∧ ParseError.ofLexical x = e := by
      simpa [State.errorsAhead, htokens] using he
    have herror := h.errors t (htokens ▸ List.mem_cons_self)
    rw [hx, Option.map_some] at herror
    rw [hcurrent]
    split at herror
    · next hkind => exact ⟨Option.some.inj herror, hkind⟩
    · cases herror

theorem errors_advance (h : Placed s) (hvalid : s.advance.current.kind ≠ .invalid) :
    s.advance.errors = s.errors := by
  have hnone : State.errorsAhead s.advance.tokens = [] :=
    List.eq_nil_iff_forall_not_mem.mpr fun e he => hvalid (h.advance.errorsAhead e he).2
  by_cases htokens : s.tokens = []
  · simp [State.advance, htokens]
  · rw [State.errors_advance htokens, hnone, List.append_nil]

end Placed

/-! ## Order -/

/-- Whether the errors stand one behind the other, and none of
them behind the lookahead. -/
structure InOrder (s : State) : Prop where
  sorted : s.errors.Pairwise fun e e' => e.pos.offset ≤ e'.pos.offset
  seen : ∀ e ∈ s.errors, e.pos.offset ≤ s.current.pos.offset

/-- New errors in one place, between the lookahead before and after them,
leave the order intact. -/
theorem InOrder.add {s s' : State} (h : InOrder s) {es : List ParseError}
    (herrors : s'.errors = s.errors ++ es) {offset : Int}
    (hes : ∀ e ∈ es, e.pos.offset = offset) (hlow : s.current.pos.offset ≤ offset)
    (hhigh : offset ≤ s'.current.pos.offset) : InOrder s' := by
  constructor
  · rw [herrors]
    refine List.pairwise_append.mpr ⟨h.sorted, ?_, ?_⟩
    · refine List.pairwise_of_forall_mem_list fun e he e' he' => ?_
      rw [hes e he, hes e' he']
    · intro e he e' he'
      rw [hes e' he']
      exact Int.le_trans (h.seen e he) hlow
  · rw [herrors]
    intro e he
    rcases List.mem_append.mp he with he | he
    · exact Int.le_trans (Int.le_trans (h.seen e he) hlow) hhigh
    · rw [hes e he]
      exact hhigh

theorem InOrder.advance {s : State} (h : InOrder s) (hs : Placed s) :
    InOrder s.advance := by
  by_cases htokens : s.tokens = []
  · have hsame : s.advance = s := by simp only [State.advance, htokens]
    rw [hsame]
    exact h
  · refine h.add (State.errors_advance htokens) ?_ hs.offset_le_advance (Int.le_refl _)
    intro e he
    rw [(hs.advance.errorsAhead e he).1]

theorem IsPart.ne_invalid {t : Token} (h : IsPart t) : t.kind ≠ .invalid := by
  intro hinvalid
  simp [IsPart, leaf?, sign?, hinvalid, Token.Kind.operator?] at h

/-- No error is found on the way past operands and operators, and they stand
between where it starts and ends. -/
theorem Passes.quiet {part : List Token} {s s' : State} (h : Passes part s s')
    (hs : Placed s) (hvalid : s'.current.kind ≠ .invalid) :
    s.current.kind ≠ .invalid ∧ s'.errors = s.errors ∧ ∀ t ∈ part ++ [s'.current],
      s.current.pos.offset ≤ t.pos.offset ∧ t.pos.offset ≤ s'.current.pos.offset := by
  induction h with
  | nil => exact ⟨hvalid, rfl, by simp⟩
  | @cons part s s' hpart _ ih =>
    obtain ⟨hnext, herrors, hbetween⟩ := ih hs.advance hvalid
    have hle := hs.offset_le_advance
    refine ⟨hpart.ne_invalid, herrors.trans (hs.errors_advance hnext), ?_⟩
    refine List.forall_mem_cons.mpr ⟨⟨Int.le_refl _, ?_⟩, fun t ht => ?_⟩
    · obtain ⟨hlow, -⟩ := hbetween s'.current (by simp)
      exact Int.le_trans hle hlow
    · obtain ⟨hlow, hhigh⟩ := hbetween t ht
      exact ⟨Int.le_trans hle hlow, hhigh⟩

theorem Move.inOrder {s s' : State} (h : Move s s') (hs : Placed s)
    (horder : InOrder s) : InOrder s' := by
  cases h with
  | fetch _ => exact horder.advance hs
  | @complain part _ s' t cause hpasses hvalid ht _ =>
    obtain ⟨-, herrors, hbetween⟩ := hpasses.quiet hs hvalid
    obtain ⟨hlow, hhigh⟩ := hbetween t ht
    have hrecorded : (s'.record t.pos cause).errors = s.errors ++ [⟨t.pos, cause⟩] := by
      rw [← herrors]
      rfl
    exact horder.add hrecorded (by simp) hlow hhigh
  | emit _ => exact ⟨horder.sorted, horder.seen⟩
  | clear => exact ⟨horder.sorted, horder.seen⟩

theorem Reaches.inOrder {s s' : State} (h : Reaches s s') (hs : Placed s)
    (horder : InOrder s) : InOrder s' := by
  induction h with
  | refl => exact horder
  | tail hreaches hmove ih =>
    exact hmove.inOrder (hs.later (Reaches.isLater hreaches)) ih

theorem inOrder_start {tokens : List Scanned} {endPos : Position}
    (h : Placed (State.start tokens endPos)) :
    InOrder (State.start tokens endPos) := by
  have hplace : ∀ e ∈ (State.start tokens endPos).errors,
      e.pos = (State.start tokens endPos).current.pos :=
    fun e he => (h.errorsAhead e he).1
  constructor
  · refine List.pairwise_of_forall_mem_list fun e he e' he' => ?_
    rw [hplace e he, hplace e' he']
  · intro e he
    rw [hplace e he]

/-- The errors of any text, those of the lexer and those of the parser, stand
one behind the other in it. -/
theorem errors_in_order (source : List UInt8) (filename : String) :
    (parse (Lexer.ofBytes source filename)).errors.Pairwise fun e e' =>
      e.pos.offset ≤ e'.pos.offset := by
  let d := (Lexer.ofBytes source filename).drain
  have hplaced : Placed (State.start d.tokens d.eof.pos) := placed_start source filename
  obtain ⟨hreaches, -⟩ := reaches_globals (State.start d.tokens d.eof.pos)
  exact (hreaches.inOrder hplaced (inOrder_start hplaced)).sorted

end Straightline.Parser
