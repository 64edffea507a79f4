import Mathlib
import Straightline.Proofs.Grammar
import Straightline.Proofs.Tree.Comb

/-!
# Programs of the grammar are read as what they say

The text of a derivation is read without an error, and the tree read from it is
that of the derivation (`parse_spelled`). The text splits into the tokens of the
derivation's lexemes, so what remains is to run the parser in front of them. A
`Front` is what such a parser has before it and behind it: the lexemes that are
left, and the statements that were read. A step leads from one front to the next
(`Takes`), and steps that follow each other are put together by `Takes.bind`.
-/

namespace Straightline.Grammar

open Straightline.Parser

/-! ## Fronts -/

/-- How far a function is read: the statements so far, without positions, and
the lexemes that are left. -/
structure Front where
  body : List Stmt
  ahead : List Lexeme

/-- Whether a parser is at a front, and no error was found up to there. -/
structure AtFront (f : Front) (s : State) : Prop where
  reads : Reads f.ahead s.tokens
  noErrors : s.errors = []
  body : s.body.map Stmt.unplaced = f.body

/-- A step that leads from one front to another and gives what `Q` says. -/
def Takes {α : Type} (p : Parse α) (f f' : Front) (Q : α → Prop) : Prop :=
  ∀ s, AtFront f s → ∃ a s', p s = .done a s' ∧ AtFront f' s' ∧ Q a

section
variable {α β : Type} {f f' f'' : Front} {Q : α → Prop} {R : β → Prop}

theorem Takes.pure {a : α} (h : Q a) : Takes (pure a : Parse α) f f Q :=
  fun s hs => ⟨a, s, rfl, hs, h⟩

theorem Takes.bind {p : Parse α} {next : α → Parse β} (hp : Takes p f f' Q)
    (hnext : ∀ a, Q a → Takes (next a) f' f'' R) : Takes (p >>= next) f f'' R := by
  intro s hs
  obtain ⟨a, s', hdone, hs', ha⟩ := hp s hs
  obtain ⟨b, s'', hdone', hs'', hb⟩ := hnext a ha s' hs'
  exact ⟨b, s'', (bind_of_done hdone).trans hdone', hs'', hb⟩

end

/-! ## Single lexemes -/

/-- The kind of the token that a lexeme is. -/
def Lexeme.kind : Lexeme → Token.Kind
  | .keyword k => .keyword k
  | .name _ => .identifier
  | .numeral _ => .integer
  | .text _ => .text
  | .mark m => .mark m
  | .operator op => .operator op

@[simp] theorem Lexeme.kind_token (x : Lexeme) (p : Position) :
    (x.token p).kind = x.kind := by
  cases x <;> rfl

variable {b : List Stmt} {x : Lexeme} {xs : List Lexeme}

theorem AtFront.current {s : State} (h : AtFront ⟨b, x :: xs⟩ s) :
    ∃ p, s.current = x.token p := by
  rcases s with ⟨tokens, endPos, errors, body⟩
  obtain ⟨hreads, -, -⟩ := h
  cases hreads with
  | cons hx _ =>
    obtain ⟨p, rfl⟩ := hx
    exact ⟨p, rfl⟩

theorem AtFront.kind_current {s : State} (h : AtFront ⟨b, x :: xs⟩ s) :
    s.current.kind = x.kind := by
  obtain ⟨p, hp⟩ := h.current
  rw [hp, Lexeme.kind_token]

theorem AtFront.kind_current_nil {s : State} (h : AtFront ⟨b, []⟩ s) :
    s.current.kind = .eof := by
  have htokens := List.forall₂_nil_left_iff.mp h.reads
  simp only [State.current, htokens]

/-- The tokens of lexemes carry no errors, so moving on finds none. -/
theorem AtFront.advance {s : State} (h : AtFront ⟨b, x :: xs⟩ s) :
    AtFront ⟨b, xs⟩ s.advance := by
  rcases s with ⟨tokens, endPos, errors, body⟩
  obtain ⟨hreads, herrors, hbody⟩ := h
  cases hreads with
  | @cons _ t _ ts _ hxs =>
    refine ⟨hxs, ?_, hbody⟩
    show errors ++ State.errorsAhead ts = []
    rw [show errors = [] from herrors, List.nil_append]
    cases hxs with
    | nil => rfl
    | cons hy _ =>
      obtain ⟨p, rfl⟩ := hy
      rfl

theorem takes_current :
    Takes current ⟨b, x :: xs⟩ ⟨b, x :: xs⟩ fun t => ∃ p, t = x.token p :=
  fun s hs => ⟨s.current, s, rfl, hs, hs.current⟩

theorem takes_advance : Takes advance ⟨b, x :: xs⟩ ⟨b, xs⟩ fun _ => True :=
  fun s hs => ⟨(), s.advance, rfl, hs.advance, trivial⟩

theorem takes_accept {kind : Token.Kind} (h : x.kind = kind) :
    Takes (accept kind) ⟨b, x :: xs⟩ ⟨b, xs⟩ (· = true) := by
  intro s hs
  refine ⟨true, s.advance, ?_, hs.advance, rfl⟩
  rw [accept, if_pos (hs.kind_current.trans h)]

theorem takes_accept_other {kind : Token.Kind} (h : x.kind ≠ kind) :
    Takes (accept kind) ⟨b, x :: xs⟩ ⟨b, x :: xs⟩ (· = false) := by
  intro s hs
  refine ⟨false, s, ?_, hs, rfl⟩
  rw [accept, if_neg (hs.kind_current.trans_ne h)]

theorem takes_consume {kind : Token.Kind} (what : Expectation) (h : x.kind = kind) :
    Takes (consume kind what) ⟨b, x :: xs⟩ ⟨b, xs⟩ fun _ => True := by
  refine (takes_accept h).bind ?_
  rintro _ rfl
  exact .pure trivial

theorem takes_identifier (n : Name) (what : Expectation) :
    Takes (identifier what) ⟨b, .name n :: xs⟩ ⟨b, xs⟩ fun t => t.lexeme = n.text := by
  refine takes_current.bind ?_
  rintro _ ⟨p, rfl⟩
  exact takes_advance.bind fun _ _ => .pure rfl

theorem takes_typeName (type : TypeName) :
    Takes typeName ⟨b, .keyword type.keyword :: xs⟩ ⟨b, xs⟩ (· = type.type) := by
  cases type with
  | int =>
    refine (takes_accept rfl).bind ?_
    rintro _ rfl
    exact .pure rfl
  | str =>
    refine (takes_accept_other (by decide)).bind ?_
    rintro _ rfl
    refine (takes_accept rfl).bind ?_
    rintro _ rfl
    exact .pure rfl

theorem takes_emit {stmt stmt' : Stmt} (h : stmt.unplaced = stmt') :
    Takes (emit stmt) ⟨b, xs⟩ ⟨b ++ [stmt'], xs⟩ fun _ => True := by
  intro s hs
  refine ⟨(), s.emit stmt, rfl, ⟨hs.reads, hs.noErrors, ?_⟩, trivial⟩
  show (s.body ++ [stmt]).map Stmt.unplaced = b ++ [stmt']
  rw [List.map_append, hs.body, List.map_singleton, h]

/-! ## Chains -/

/-- Tokens of some lexemes, at any positions. -/
def AreTokens (xs : List Lexeme) (ts : List Token) : Prop :=
  List.Forall₂ (fun x t => ∃ p, t = x.token p) xs ts

theorem leaf?_atom (a : Atom) (p : Position) :
    ∃ e, leaf? (a.lexeme.token p) = some e ∧ sign? (a.lexeme.token p) = none ∧
      e.unplaced = a.expr := by
  cases a with
  | name n => exact ⟨_, rfl, rfl, rfl⟩
  | numeral n => exact ⟨_, rfl, rfl, rfl⟩
  | text ps => exact ⟨_, rfl, rfl, rfl⟩

/-- The comb of a chain's tokens is what the chain says. -/
theorem exists_comb (e : Formula) {ts : List Token} (h : AreTokens e.lexemes ts) :
    ∃ e', comb (ts.filterMap leaf?) (ts.filterMap sign?) = some e' ∧
      e'.unplaced = e.expr := by
  obtain ⟨a, rest⟩ := e
  -- The chain behind an operator is a chain again, and is its right side.
  induction rest generalizing a ts with
  | nil =>
    obtain ⟨t, ts, ⟨p, rfl⟩, hnil, rfl⟩ := List.forall₂_cons_left_iff.mp h
    obtain rfl := List.forall₂_nil_left_iff.mp hnil
    obtain ⟨e', hleaf, hsign, he'⟩ := leaf?_atom a p
    refine ⟨e', ?_, he'⟩
    simp [hleaf, hsign, comb]
  | cons oa rest ih =>
    obtain ⟨op, a'⟩ := oa
    obtain ⟨t, ts', ⟨p, rfl⟩, htail, rfl⟩ := List.forall₂_cons_left_iff.mp h
    obtain ⟨t', ts, ⟨p', rfl⟩, hts, rfl⟩ := List.forall₂_cons_left_iff.mp htail
    obtain ⟨left, hleaf, hsign, hleft⟩ := leaf?_atom a p
    obtain ⟨right, hcomb, hright⟩ := ih a' hts
    refine ⟨.binary (.arith op) p' left right, ?_, ?_⟩
    · have hop : leaf? (Lexeme.token p' (.operator op)) = none := rfl
      have hop' : sign? (Lexeme.token p' (.operator op)) = some (op, p') := rfl
      simp only [List.filterMap_cons, hleaf, hsign, hop, hop', comb_cons, hcomb,
        Option.map_some]
    · show Expr.binary _ _ left.unplaced right.unplaced =
        Expr.binary _ _ a.expr (nested a' rest)
      rw [hleft, hright]
      rfl

/-- Whether a lexeme is a part of chains. -/
def Lexeme.isPart : Lexeme → Bool
  | .name _ | .numeral _ | .text _ | .operator _ => true
  | _ => false

theorem isPart_of_mem_chain {e : Formula} : ∀ x ∈ e.lexemes, x.isPart = true := by
  have hatom (a : Atom) : a.lexeme.isPart = true := by cases a <;> rfl
  refine List.forall_mem_cons.mpr ⟨hatom e.first, fun x hx => ?_⟩
  obtain ⟨⟨op, a⟩, -, hx⟩ := List.mem_flatMap.mp hx
  simp only [List.mem_cons, List.not_mem_nil, or_false] at hx
  rcases hx with rfl | rfl
  · rfl
  · exact hatom a

theorem Lexeme.isPart_token {x : Lexeme} (h : x.isPart = true) (p : Position) :
    IsPart (x.token p) := by
  cases x with
  | name n => exact .inl rfl
  | numeral n => exact .inl rfl
  | text ps => exact .inl rfl
  | operator op => exact .inr rfl
  | _ => cases h

/-- Delimiters are marks, and marks are no parts of chains. -/
theorem Lexeme.delimits_nothing {x : Lexeme} (h : x.isPart = true) {d : Delimiters}
    (hd : d = .line ∨ d = .arguments) :
    ¬ (x.kind = d.stop ∨ endsExpression x.kind = true) ∧ some x.kind ≠ d.separator := by
  cases x with
  | keyword k => cases h
  | mark m => cases h
  | _ => rcases hd with rfl | rfl <;>
      simp [Lexeme.kind, Delimiters.line, Delimiters.arguments, endsExpression]

/-- Parts of chains are read onto the stacks. -/
theorem exists_read_parts {d : Delimiters} (hd : d = .line ∨ d = .arguments)
    (exprs : List Expr) {ys : List Lexeme} (hys : ∀ y ∈ ys, y.isPart = true)
    {s : State} (hs : AtFront ⟨b, ys ++ xs⟩ s) (part : List Token) :
    ∃ ts s', AreTokens ys ts ∧ AtFront ⟨b, xs⟩ s' ∧
      expressionsFrom d exprs (stacksOf part) s =
        expressionsFrom d exprs (stacksOf (part ++ ts)) s' := by
  induction ys generalizing s part with
  | nil => exact ⟨[], s, .nil, hs, by rw [List.append_nil]⟩
  | cons y ys ih =>
    obtain ⟨hy, hys⟩ := List.forall_mem_cons.mp hys
    obtain ⟨p, hcurrent⟩ := hs.current
    obtain ⟨ts, s', hts, hs', hread⟩ := ih hys hs.advance (part ++ [y.token p])
    refine ⟨y.token p :: ts, s', .cons ⟨p, rfl⟩ hts, hs', ?_⟩
    rw [List.append_assoc, List.singleton_append] at hread
    rw [← hread, expressionsFrom]
    obtain ⟨hend, hseparator⟩ := y.delimits_nothing hy hd
    have hpush :=
      (pushToken?_stacksOf part (y.token p) _).mpr ⟨y.isPart_token hy p, rfl⟩
    simp only [hcurrent, Lexeme.kind_token, if_neg hend, if_neg hseparator, hpush]

/-- A chain that was read onto the stacks folds to what it says. -/
theorem exists_piece (e : Formula) {ts : List Token} (h : AreTokens e.lexemes ts)
    (required : Bool) (t : Token) :
    ∃ e', piece required (stacksOf ts) t = .ok [e'] ∧ e'.unplaced = e.expr := by
  obtain ⟨e', hcomb, he'⟩ := exists_comb e h
  have hfold : (stacksOf ts).fold = .ok (some e') := by
    refine Stacks.foldAll_eq_some_iff.mpr ?_
    rw [stacksOf, List.reverse_reverse, List.reverse_reverse]
    exact hcomb
  have hheld : (stacksOf ts).isEmpty = false := by
    by_contra hempty
    rw [Bool.not_eq_false, Stacks.isEmpty, Bool.and_eq_true, List.isEmpty_iff,
      List.isEmpty_iff] at hempty
    rw [Stacks.fold, hempty.1, hempty.2] at hfold
    cases hfold
  refine ⟨e', ?_, he'⟩
  simp only [piece, hheld, Bool.and_false, Bool.false_eq_true, if_false, hfold]
  rfl

theorem takes_line (e : Formula) :
    Takes (expressions .line) ⟨b, e.lexemes ++ .newline :: xs⟩ ⟨b, .newline :: xs⟩
      fun es => es.map Expr.unplaced = [e.expr] := by
  intro s hs
  obtain ⟨ts, s', hts, hs', hread⟩ :=
    exists_read_parts (.inl rfl) [] isPart_of_mem_chain hs []
  obtain ⟨e', hpiece, he'⟩ := exists_piece e hts false s'.current
  refine ⟨[e'], s', ?_, hs', by simp [he']⟩
  refine hread.trans ?_
  rw [List.nil_append, expressionsFrom]
  simp only [hs'.kind_current]
  rw [if_pos (.inl rfl), List.isEmpty_nil, Bool.not_true, hpiece]
  rfl

theorem takes_line_empty :
    Takes (expressions .line) ⟨b, .newline :: xs⟩ ⟨b, .newline :: xs⟩ (· = []) := by
  intro s hs
  refine ⟨[], s, ?_, hs, rfl⟩
  rw [expressions, expressionsFrom]
  simp only [hs.kind_current]
  rw [if_pos (.inl rfl)]
  rfl

/-- Arguments are read one by one, each up to the comma or parenthesis behind it. -/
theorem takes_argumentsFrom (e : Formula) (args : List Formula)
    (exprs : List Expr) :
    Takes (expressionsFrom .arguments exprs {})
      ⟨b, separated ((e :: args).map Formula.lexemes) ++ .mark .rightParen :: xs⟩
      ⟨b, .mark .rightParen :: xs⟩
      fun es => es.map Expr.unplaced =
        exprs.map Expr.unplaced ++ (e :: args).map Formula.expr := by
  intro s hs
  induction args generalizing e exprs s with
  | nil =>
    obtain ⟨ts, s', hts, hs', hread⟩ :=
      exists_read_parts (.inr rfl) exprs isPart_of_mem_chain hs []
    obtain ⟨e', hpiece, he'⟩ := exists_piece e hts (!exprs.isEmpty) s'.current
    refine ⟨exprs ++ [e'], s', ?_, hs', by simp [he']⟩
    refine hread.trans ?_
    rw [List.nil_append, expressionsFrom]
    simp only [hs'.kind_current]
    rw [if_pos (.inl rfl), hpiece]
  | cons e₂ args ih =>
    rw [List.map_cons, List.map_cons, separated, List.append_assoc,
      List.cons_append] at hs
    obtain ⟨ts, s', hts, hs', hread⟩ :=
      exists_read_parts (.inr rfl) exprs isPart_of_mem_chain hs []
    obtain ⟨e', hpiece, he'⟩ := exists_piece e hts true s'.current
    obtain ⟨es, s'', hdone, hs'', hes⟩ := ih e₂ (exprs ++ [e']) s'.advance hs'.advance
    refine ⟨es, s'', ?_, hs'', by simpa [he'] using hes⟩
    refine hread.trans ?_
    rw [List.nil_append, expressionsFrom]
    simp only [hs'.kind_current]
    -- The comma ends no expression by itself; it is the separator
    -- that starts the stacks afresh.
    have hcomma : some (Lexeme.mark .comma).kind = Delimiters.arguments.separator := rfl
    rw [if_neg (by simp [Lexeme.kind, Delimiters.arguments, endsExpression]),
      if_pos hcomma, hpiece]
    exact hdone

theorem takes_arguments (args : List Formula) :
    Takes (expressions .arguments)
      ⟨b, separated (args.map Formula.lexemes) ++ .mark .rightParen :: xs⟩
        ⟨b, .mark .rightParen :: xs⟩
      fun es => es.map Expr.unplaced = args.map Formula.expr := by
  cases args with
  | nil =>
    intro s hs
    refine ⟨[], s, ?_, hs, rfl⟩
    rw [expressions, expressionsFrom]
    simp only [AtFront.kind_current hs]
    rw [if_pos (.inl rfl)]
    rfl
  | cons e args => exact takes_argumentsFrom e args []

/-! ## Statements -/

theorem takes_assignment (name : Token) (e : Formula) :
    Takes (assignment name) ⟨b, e.lexemes ++ .newline :: xs⟩
      ⟨b ++ [.assign {} name.lexeme [e.expr]], .newline :: xs⟩ fun _ => True := by
  refine (takes_line e).bind fun es hes => ?_
  have hstmt : (Stmt.assign name.pos name.lexeme es).unplaced =
      .assign {} name.lexeme [e.expr] := by
    rw [Stmt.unplaced, hes]
  refine (takes_emit hstmt).bind fun _ _ => ?_
  have hne : es.isEmpty = false := by
    cases es with
    | nil => cases hes
    | cons e' es => rfl
  rw [hne]
  exact .pure trivial

theorem takes_declaration (f : Field) :
    Takes declaration ⟨b, f.lexemes ++ .newline :: xs⟩
      ⟨b ++ [f.decl], .newline :: xs⟩ fun _ => True := by
  refine takes_current.bind ?_
  rintro _ ⟨p, rfl⟩
  refine takes_advance.bind fun _ _ => (takes_consume _ rfl).bind fun _ _ => ?_
  refine (takes_typeName f.type).bind ?_
  rintro _ rfl
  refine (takes_emit rfl).bind fun _ _ => takes_current.bind ?_
  rintro _ ⟨p', rfl⟩
  -- The line ends right behind the type, so there is no initial value.
  exact .pure trivial

theorem takes_call (name : Token) (args : List Formula) :
    Takes (call name)
      ⟨b, separated (args.map Formula.lexemes) ++ .mark .rightParen ::
        .mark .semicolon :: xs⟩
      ⟨b ++ [.call {} name.lexeme (args.map Formula.expr)], xs⟩ fun _ => True := by
  refine (takes_arguments args).bind fun es hes => ?_
  refine (takes_consume _ rfl).bind fun _ _ => (takes_consume _ rfl).bind fun _ _ =>
    takes_emit ?_
  rw [Stmt.unplaced, hes]

theorem takes_assign (n : Name) (e : Formula) :
    Takes namedStatement ⟨b, (Sentence.assign n e).lexemes ++ .newline :: xs⟩
      ⟨b ++ [(Sentence.assign n e).stmt], .newline :: xs⟩ fun _ => True := by
  refine takes_current.bind ?_
  rintro _ ⟨p, rfl⟩
  refine takes_advance.bind fun _ _ => (takes_accept rfl).bind ?_
  rintro _ rfl
  exact takes_assignment _ e

theorem takes_callStatement (n : Name) (args : List Formula) :
    Takes namedStatement ⟨b, (Sentence.call n args).lexemes ++ .newline :: xs⟩
      ⟨b ++ [(Sentence.call n args).stmt], .newline :: xs⟩ fun _ => True := by
  refine takes_current.bind ?_
  rintro _ ⟨p, rfl⟩
  refine takes_advance.bind fun _ _ => (takes_accept_other (by decide)).bind ?_
  rintro _ rfl
  refine (takes_accept rfl).bind ?_
  rintro _ rfl
  show Takes _ ⟨b, separated _ ++ [.mark .rightParen, .mark .semicolon] ++
    .newline :: xs⟩ _ _
  rw [List.append_assoc]
  exact takes_call _ args

theorem takes_return (e : Option Formula) :
    Takes returnStatement ⟨b, (Sentence.ret e).lexemes ++ .newline :: xs⟩
      ⟨b ++ [(Sentence.ret e).stmt], .newline :: xs⟩ fun _ => True := by
  cases e with
  | none =>
    refine takes_current.bind ?_
    rintro _ ⟨p, rfl⟩
    refine takes_advance.bind fun _ _ => takes_line_empty.bind ?_
    rintro _ rfl
    exact takes_emit rfl
  | some e =>
    refine takes_current.bind ?_
    rintro _ ⟨p, rfl⟩
    refine takes_advance.bind fun _ _ => (takes_line e).bind fun es hes => takes_emit ?_
    rw [Stmt.unplaced, hes]
    rfl

theorem AtFront.statement {p : Parse Unit} {f f' : Front}
    (hp : Takes p f f' fun _ => True) {s : State} (hs : AtFront f s) :
    AtFront f' (statement p s) := by
  obtain ⟨_, s', hdone, hs', -⟩ := hp s hs
  rw [Parser.statement, hdone]
  exact hs'

/-! ## Functions -/

theorem lines_cons (ys : List Lexeme) (yss : List (List Lexeme)) :
    lines (ys :: yss) = ys ++ .newline :: lines yss := by
  simp [lines]

theorem takes_declarations_newline {fn : String} {f : Front}
    (h : Takes (declarations fn) ⟨b, xs⟩ f fun _ => True) :
    Takes (declarations fn) ⟨b, .newline :: xs⟩ f fun _ => True := by
  intro s hs
  obtain ⟨a, s', hdone, hs', ha⟩ := h s.advance hs.advance
  refine ⟨a, s', ?_, hs', ha⟩
  rw [declarations]
  simp only [hs.kind_current]
  exact hdone

theorem takes_declarations (fn : String) (fields : List Field) :
    Takes (declarations fn) ⟨b,
      lines (fields.map Field.lexemes) ++ .keyword .begins :: xs⟩
      ⟨b ++ fields.map Field.decl, .keyword .begins :: xs⟩ fun _ => True := by
  induction fields generalizing b with
  | nil =>
    intro s hs
    refine ⟨(), s, ?_, by simpa [lines] using hs, trivial⟩
    rw [declarations]
    exact if_pos (AtFront.kind_current hs)
  | cons f fields ih =>
    intro s hs
    rw [List.map_cons, lines_cons, List.append_assoc, List.cons_append] at hs
    have hf := takes_declarations_newline (ih (b := b ++ [f.decl]))
    obtain ⟨_, s', hdone, hs', -⟩ := hf _ (hs.statement (takes_declaration f))
    refine ⟨(), s', ?_, by simpa using hs', trivial⟩
    rw [declarations]
    simp only [AtFront.kind_current (x := .name f.name) hs]
    exact hdone

theorem takes_statements_newline {fn : String} {f : Front}
    (h : Takes (statements fn) ⟨b, xs⟩ f fun _ => True) :
    Takes (statements fn) ⟨b, .newline :: xs⟩ f fun _ => True := by
  intro s hs
  obtain ⟨a, s', hdone, hs', ha⟩ := h s.advance hs.advance
  refine ⟨a, s', ?_, hs', ha⟩
  rw [statements]
  simp only [hs.kind_current]
  exact hdone

/-- A statement is read by the step that goes with its first word. -/
theorem exists_statements_step (fn : String) (st : Sentence) {s : State}
    (hs : AtFront ⟨b, st.lexemes ++ .newline :: xs⟩ s) :
    ∃ s', AtFront ⟨b ++ [st.stmt], .newline :: xs⟩ s' ∧
      statements fn s = statements fn s' := by
  cases st with
  | assign n e =>
    refine ⟨_, hs.statement (takes_assign n e), ?_⟩
    rw [statements]
    simp only [AtFront.kind_current (x := .name n) hs]
    rfl
  | call n args =>
    refine ⟨_, hs.statement (takes_callStatement n args), ?_⟩
    rw [statements]
    simp only [AtFront.kind_current (x := .name n) hs]
    rfl
  | ret e =>
    refine ⟨_, hs.statement (takes_return e), ?_⟩
    have hkind : s.current.kind = .keyword .returns := by
      cases e <;> exact AtFront.kind_current (x := .keyword .returns) hs
    rw [statements]
    simp only [hkind]
    rfl

theorem takes_statements (fn : String) (body : List Sentence) :
    Takes (statements fn) ⟨b, lines (body.map Sentence.lexemes) ++ .keyword .ends :: xs⟩
      ⟨b ++ body.map Sentence.stmt, .keyword .ends :: xs⟩ fun _ => True := by
  induction body generalizing b with
  | nil =>
    intro s hs
    refine ⟨(), s, ?_, by simpa [lines] using hs, trivial⟩
    rw [statements]
    exact if_pos (AtFront.kind_current hs)
  | cons st body ih =>
    intro s hs
    rw [List.map_cons, lines_cons, List.append_assoc, List.cons_append] at hs
    obtain ⟨s₁, hs₁, hstep⟩ := exists_statements_step fn st hs
    obtain ⟨_, s', hdone, hs', -⟩ :=
      takes_statements_newline (ih (b := b ++ [st.stmt])) s₁ hs₁
    refine ⟨(), s', ?_, by simpa using hs', trivial⟩
    rw [hstep]
    exact hdone

theorem takes_function (n : Name) (fields : List Field) (body : List Sentence) :
    Takes function ⟨b, (Item.func n fields body).lexemes ++ xs⟩
      ⟨fields.map Field.decl ++ body.map Sentence.stmt, .newline :: xs⟩
      fun g => g.unplaced = (Item.func n fields body).global := by
  have hlexemes : (Item.func n fields body).lexemes ++ xs =
      .keyword .func :: .name n :: .newline ::
      (lines (fields.map Field.lexemes) ++ .keyword .begins :: .newline ::
        (lines (body.map Sentence.lexemes) ++ .keyword .ends :: .newline :: xs)) := by
    simp [Item.lexemes, lines]
  rw [hlexemes]
  refine takes_current.bind ?_
  rintro _ ⟨p, rfl⟩
  refine takes_advance.bind fun _ _ => (takes_identifier n _).bind fun name hname => ?_
  -- Statements of functions before it are given up, whatever they are.
  have hclear {xs : List Lexeme} : Takes clearBody ⟨b, xs⟩ ⟨[], xs⟩ fun _ =>
      True := fun s hs =>
    ⟨(), _, rfl, ⟨hs.reads, hs.noErrors, rfl⟩, trivial⟩
  refine hclear.bind fun _ _ =>
    (takes_declarations_newline (takes_declarations _ fields)).bind fun _ _ => ?_
  refine takes_advance.bind fun _ _ =>
    (takes_statements_newline (takes_statements _ body)).bind fun _ _ => ?_
  refine takes_advance.bind fun _ _ s hs => ⟨_, s, rfl, hs, ?_⟩
  show Global.func {} name.lexeme [] (s.body.map Stmt.unplaced) = _
  rw [hname, hs.body]
  rfl

/-! ## External functions -/

theorem takes_parameter (f : Field) :
    Takes parameter ⟨b, f.lexemes ++ xs⟩ ⟨b, xs⟩ fun v => v.unplaced = f.variable := by
  refine (takes_identifier f.name _).bind fun name hname =>
    (takes_consume _ rfl).bind fun _ _ => ?_
  refine (takes_typeName f.type).bind ?_
  rintro _ rfl
  refine .pure ?_
  rw [Variable.unplaced, hname]
  rfl

theorem parameters_of_done {params : List Variable} {s s' : State} {v : Variable}
    (h : parameter s = .done v s') :
    parameters params s =
      if s'.current.kind = .mark .comma then parameters (params ++ [v]) s'.advance
      else
        (do consume (.mark .rightParen) .commaOrParen; pure (params ++ [v]) : Parse _)
          s' := by
  rw [parameters]
  split
  · next habandoned => cases h.symm.trans habandoned
  · next hdone =>
    cases h.symm.trans hdone
    rfl

/-- Parameters are read one by one, each with the comma or parenthesis behind it. -/
theorem takes_parameters (f : Field) (fields : List Field)
    (params : List Variable) :
    Takes (parameters params)
      ⟨b, separated ((f :: fields).map Field.lexemes) ++ .mark .rightParen :: xs⟩
      ⟨b, xs⟩ fun vs =>
        vs.map Variable.unplaced =
          params.map Variable.unplaced ++ (f :: fields).map Field.variable := by
  induction fields generalizing f params with
  | nil =>
    intro s hs
    obtain ⟨v, s', hdone, hs', hv⟩ := takes_parameter f s hs
    have hlast :
        Takes (do consume (.mark .rightParen) .commaOrParen; pure (params ++ [v]))
          ⟨b, .mark .rightParen :: xs⟩ ⟨b, xs⟩ (· = params ++ [v]) :=
      (takes_consume _ rfl).bind fun _ _ => .pure rfl
    obtain ⟨_, s'', hdone', hs'', rfl⟩ := hlast s' hs'
    refine ⟨params ++ [v], s'', ?_, hs'', by simp [hv]⟩
    rw [parameters_of_done hdone, if_neg (by rw [hs'.kind_current]; decide)]
    exact hdone'
  | cons f₂ fields ih =>
    intro s hs
    rw [List.map_cons, List.map_cons, separated, List.append_assoc,
      List.cons_append] at hs
    obtain ⟨v, s', hdone, hs', hv⟩ := takes_parameter f s hs
    obtain ⟨vs, s'', hdone', hs'', hvs⟩ := ih f₂ (params ++ [v]) s'.advance hs'.advance
    refine ⟨vs, s'', ?_, hs'', by simpa [hv] using hvs⟩
    have hcomma : s'.current.kind = .mark .comma := hs'.kind_current
    rw [parameters_of_done hdone, if_pos hcomma]
    exact hdone'

theorem takes_externalFunction (n : Name) (params : List Field) :
    Takes externalFunction ⟨b, (Item.external n params).lexemes ++ xs⟩
      ⟨b, .newline :: xs⟩
      fun g => g.unplaced = (Item.external n params).global := by
  have hlexemes : (Item.external n params).lexemes ++ xs =
      .keyword .external :: .keyword .func :: .name n ::
      .mark .leftParen :: (separated (params.map Field.lexemes) ++
        .mark .rightParen :: .newline :: xs) := by
    simp [Item.lexemes, lines]
  rw [hlexemes]
  refine takes_current.bind ?_
  rintro _ ⟨p, rfl⟩
  refine takes_advance.bind fun _ _ => (takes_consume _ rfl).bind fun _ _ => ?_
  refine (takes_identifier n _).bind fun name hname =>
    (takes_consume _ rfl).bind fun _ _ => ?_
  have hglobal {vs : List Variable}
      (hvs : vs.map Variable.unplaced = params.map Field.variable) :
      (Global.external p name.lexeme vs).unplaced =
        (Item.external n params).global := by
    rw [Global.unplaced, hname, hvs]
    rfl
  cases params with
  | nil =>
    refine (takes_accept rfl).bind ?_
    rintro _ rfl
    exact Takes.pure (hglobal rfl)
  | cons f fields =>
    -- A list that is not empty starts with a name, so the closing
    -- parenthesis is not met at once.
    have hfirst : ∃ ys, separated ((f :: fields).map Field.lexemes) =
        .name f.name :: ys := by
      cases fields with
      | nil => exact ⟨_, rfl⟩
      | cons f₂ fields => exact ⟨_, rfl⟩
    have hparams := @takes_parameters b (.newline :: xs) f fields []
    obtain ⟨ys, hys⟩ := hfirst
    rw [hys] at hparams ⊢
    refine (takes_accept_other Token.Kind.noConfusion).bind ?_
    rintro _ rfl
    exact hparams.bind fun vs hvs => .pure (hglobal hvs)

/-! ## Programs -/

theorem AtFront.global {p : Parse Global} {f f' : Front} {g' : Global}
    (hp : Takes p f f' (·.unplaced = g')) {s : State} (hs : AtFront f s) :
    ∃ g s', global p s = (some g, s') ∧ AtFront f' s' ∧ g.unplaced = g' := by
  obtain ⟨g, s', hdone, hs', hg⟩ := hp s hs
  exact ⟨g, s', by rw [Parser.global, hdone], hs', hg⟩

theorem globals_newline {s : State} (hs : AtFront ⟨b, .newline :: xs⟩ s) :
    globals s = globals s.advance := by
  rw [globals]
  simp only [hs.kind_current]
  rfl

/-- In front of a program's lexemes, its declarations are read and no error is found. -/
theorem AtFront.globals (p : Program) {s : State} (hs : AtFront ⟨b, p.lexemes⟩ s) :
    (globals s).1.map Global.unplaced = p.map Item.global ∧
      (globals s).2.errors = [] := by
  -- Each declaration leaves its own statements behind, so those at the
  -- front vary along the program.
  induction p generalizing b s with
  | nil =>
    rw [Parser.globals, if_pos hs.kind_current_nil]
    exact ⟨rfl, hs.noErrors⟩
  | cons item p ih =>
    rw [Program.lexemes, List.flatMap_cons, ← Program.lexemes] at hs
    cases item with
    | func n fields body =>
      have hkind : s.current.kind = .keyword .func :=
        AtFront.kind_current (x := .keyword .func) hs
      obtain ⟨g, s', hglobal, hs', hg⟩ := hs.global (takes_function n fields body)
      obtain ⟨htree, herrors⟩ := ih hs'.advance
      rw [Parser.globals, if_neg (by rw [hkind]; decide), if_pos hkind]
      simp only [hglobal, globals_newline hs']
      exact ⟨by simp [hg, htree], herrors⟩
    | external n params =>
      have hkind : s.current.kind = .keyword .external :=
        AtFront.kind_current (x := .keyword .external) hs
      obtain ⟨g, s', hglobal, hs', hg⟩ := hs.global (takes_externalFunction n params)
      obtain ⟨htree, herrors⟩ := ih hs'.advance
      rw [Parser.globals, if_neg (by rw [hkind]; decide),
        if_neg (by rw [hkind]; decide), if_pos hkind]
      simp only [hglobal, globals_newline hs']
      exact ⟨by simp [hg, htree], herrors⟩

theorem atFront_start {xs : List Lexeme} {ts : List Scanned} (h : Reads xs ts)
    (endPos : Position) : AtFront ⟨[], xs⟩ (State.start ts endPos) := by
  refine ⟨h, ?_, rfl⟩
  cases h with
  | nil => rfl
  | cons hx _ =>
    obtain ⟨p, rfl⟩ := hx
    rfl

/-- A text of a program is read without an error, and as what the program says. -/
theorem parse_spelled (p : Program) (source : List UInt8) (filename : String)
    (h : Spells false p.lexemes (Rune.decode source)) :
    let r := parse (Lexer.ofBytes source filename)
    r.errors = [] ∧ r.tree.unplaced = p.tree filename := by
  intro r
  obtain ⟨ts, q, hsplits, hreads⟩ := h.splits (.start filename)
  have hdrain : (Lexer.ofBytes source filename).drain =
      { tokens := ts, eof := { kind := .eof, pos := q },
        left := Lexical.inFront q [] } := hsplits.drain_eq
  have hr : r = parseTokens filename ts q := by
    show parseTokens filename _ _ = _
    rw [hdrain]
  obtain ⟨htree, herrors⟩ := (atFront_start hreads q).globals
  rw [hr]
  refine ⟨herrors, ?_⟩
  rw [Tree.unplaced, Program.tree, ← htree]
  rfl

/-- Two declarations. One is external; the other has a variable and a
statement of each sort. -/
def counting : Program :=
  let put : Name := .ofWord "put" (by decide +kernel)
  let x : Name := .ofWord "x" (by decide +kernel)
  let one : Numeral :=
    ⟨Rune.ofString "01", 1, by decide +kernel,
      Lexical.isNumeral_iff.mpr (by decide +kernel), by decide⟩
  [.external put
      [⟨.ofWord "s" (by decide +kernel), .str⟩,
        ⟨.ofWord "2nd" (by decide +kernel), .int⟩],
    .func (.ofWord "f" (by decide +kernel)) [⟨x, .int⟩]
      [.assign x ⟨.numeral one, [(.add, .name x), (.sub, .numeral one)]⟩,
        .call put [⟨.text [.plain (.char 'a') (by decide), .escaped (.char 'n')],
          []⟩, ⟨.name x, []⟩],
        .ret none]]

/-- How `counting` is written. -/
def countingText : String :=
  "extern func put(s:str, 2nd : int)\nfunc f # counts\n\tx :int\nbegin\nx=01 + x-01\n" ++
    "put ( \"a\\n\" , x );\nreturn\r\nend\n "

theorem parse_spelled_counting :
    Spells false counting.lexemes (Rune.decode (Rune.utf8 countingText)) ∧
      let r := parse (Lexer.ofBytes (Rune.utf8 countingText) "count.ok")
      r.errors = [] ∧ r.tree.unplaced = counting.tree "count.ok" := by
  have h : Spells false counting.lexemes (Rune.decode (Rune.utf8 countingText)) := by
    rw [Rune.decode_utf8]
    exact spells_of_isSpelling (by decide +kernel)
  exact ⟨h, parse_spelled counting _ _ h⟩

end Straightline.Grammar
