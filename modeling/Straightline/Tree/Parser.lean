import Straightline.Tree.Comb
import Straightline.Tree.ParseError

/-!
# Reading a tree from tokens

The parser looks one token ahead. It records every error and goes on: a broken
statement is given up to the end of its line, a broken declaration up to the
next one. Lexical errors are recorded when their token comes into view, and a
token that is invalid is not complained about a second time.

A reading step either is done or gives up what it was reading (`Outcome`); in
both cases it leaves a state, whose tokens are an end piece of those it started
with (`Keeps`). The loops end because each round takes a token away.
-/

namespace Straightline.Parser

/-- A parser at some place: the tokens from the lookahead on, where
the text ends, and what was found so far. The error of the
lookahead is recorded already. -/
structure State where
  tokens : List Scanned
  endPos : Position
  errors : List ParseError := []
  body : List Stmt := []

namespace State

/-- The lookahead. -/
def current (s : State) : Token :=
  match s.tokens with
  | [] => { kind := .eof, pos := s.endPos }
  | t :: _ => t.token

/-- Records an error. -/
def record (s : State) (pos : Position) (cause : ParseCause) : State :=
  { s with errors := s.errors ++ [⟨pos, cause⟩] }

/-- The errors that come with the first of some tokens. -/
def errorsAhead : List Scanned → List ParseError
  | [] => []
  | t :: _ => (t.error.map ParseError.ofLexical).toList

/-- A parser in front of `tokens`. -/
def start (tokens : List Scanned) (endPos : Position) : State :=
  { tokens, endPos, errors := errorsAhead tokens }

/-- Moves to the next token. At the end of the text the lookahead stays. -/
def advance (s : State) : State :=
  match s.tokens with
  | [] => s
  | _ :: ts => { s with tokens := ts, errors := s.errors ++ errorsAhead ts }

/-- Records an error at `t`, unless `t` is invalid. -/
def report (s : State) (t : Token) (cause : ParseCause) : State :=
  if t.kind = .invalid then s else s.record t.pos cause

/-- Adds a statement to the function being read. -/
def emit (s : State) (stmt : Stmt) : State :=
  { s with body := s.body ++ [stmt] }

theorem tokens_advance_suffix (s : State) : s.advance.tokens <:+ s.tokens := by
  unfold advance
  split
  · exact List.suffix_refl _
  · next h => rw [h]; exact List.suffix_cons _ _

theorem length_advance_lt {s : State} (h : s.current.kind ≠ .eof) :
    s.advance.tokens.length < s.tokens.length := by
  unfold advance
  split
  · next ht => simp [current, ht] at h
  · next ht => simp [ht]

/-- A parser that sees the end of the text has no token left, if none of its
tokens looks like the end. -/
theorem tokens_eq_nil {s : State} (heof : s.current.kind = .eof)
    (hproper : ∀ t ∈ s.tokens, t.token.kind ≠ .eof) : s.tokens = [] := by
  cases htokens : s.tokens with
  | nil => rfl
  | cons t ts =>
    have hkind : t.token.kind = .eof := by simpa [current, htokens] using heof
    exact absurd hkind (hproper t (htokens ▸ List.mem_cons_self))

@[simp] theorem tokens_report (s : State) (t : Token) (cause : ParseCause) :
    (s.report t cause).tokens = s.tokens := by
  unfold report record
  split <;> rfl

@[simp] theorem current_report (s : State) (t : Token) (cause : ParseCause) :
    (s.report t cause).current = s.current := by
  unfold report record
  split <;> rfl

end State

/-! ## Reading steps -/

/-- What a reading step comes to. -/
inductive Outcome (α : Type) where
  | done (a : α) (s : State)
  | abandoned (s : State)

/-- The state a step leaves. -/
def Outcome.state {α : Type} : Outcome α → State
  | .done _ s => s
  | .abandoned s => s

/-- A reading step. -/
def Parse (α : Type) : Type := State → Outcome α

instance : Monad Parse where
  pure a := fun s => .done a s
  bind p f := fun s =>
    match p s with
    | .done a s => f a s
    | .abandoned s => .abandoned s

section
variable {α β : Type} {p : Parse α} {f : α → Parse β} {s s' : State} {a : α}

theorem bind_of_done (h : p s = .done a s') : (p >>= f) s = f a s' := by
  simp only [Bind.bind, h]

theorem bind_of_abandoned (h : p s = .abandoned s') : (p >>= f) s = .abandoned s' := by
  simp only [Bind.bind, h]

end

/-- The lookahead. -/
def current : Parse Token := fun s => .done s.current s

/-- Moves to the next token. -/
def advance : Parse Unit := fun s => .done () s.advance

/-- Records an error, unless the lookahead is invalid, and gives up. -/
def fail {α : Type} (pos : Position) (cause : ParseCause) : Parse α := fun s =>
  .abandoned (if s.current.kind = .invalid then s else s.record pos cause)

/-- Takes the lookahead away if it is of the given kind, and says whether it was. -/
def accept (kind : Token.Kind) : Parse Bool := fun s =>
  if s.current.kind = kind then .done true s.advance else .done false s

/-- Gives up because the lookahead is not what the grammar asks for. -/
def failExpected {α : Type} (what : Expectation) : Parse α := fun s =>
  fail s.current.pos (.expected what s.current) s

/-- Takes away a token of the given kind. -/
def consume (kind : Token.Kind) (what : Expectation) : Parse Unit := do
  unless ← accept kind do
    failExpected what

/-- Takes away an identifier. -/
def identifier (what : Expectation) : Parse Token := do
  let t ← current
  if t.kind = .identifier then
    advance
    pure t
  else
    failExpected what

/-- Adds a statement to the function being read. -/
def emit (stmt : Stmt) : Parse Unit := fun s => .done () (s.emit stmt)

/-! ## Expressions -/

/-- What ends a list of expressions and what separates them. -/
structure Delimiters where
  stop : Token.Kind
  separator : Option Token.Kind

/-- A single expression that runs to the end of its line. -/
def Delimiters.line : Delimiters := ⟨.mark .newline, none⟩

/-- The arguments of a call. -/
def Delimiters.arguments : Delimiters := ⟨.mark .rightParen, some (.mark .comma)⟩

/-- The tokens that end every expression. -/
def endsExpression : Token.Kind → Bool
  | .mark .semicolon | .mark .newline | .eof | .keyword _ => true
  | _ => false

/-- Puts a token on the stacks, if it is an operand or an operator. -/
def pushToken? (held : Stacks) (t : Token) : Option Stacks :=
  match t.kind with
  | .integer => some (held.pushOperand (.int t.pos t.value))
  | .text => some (held.pushOperand (.text t.pos t.lexeme))
  | .identifier => some (held.pushOperand (.ident t.pos t.lexeme))
  | .operator op => some (held.pushOperator op t.pos)
  | _ => none

/-- The error that two stacks lead to. -/
def combError : CombError → ParseError
  | .missingOperand op pos => ⟨pos, .missingOperand op⟩
  | .strayOperand pos => ⟨pos, .strayOperand⟩

/-- The expression that ends in front of `t`, if there is one; `required`
says that there has to be. -/
def piece (required : Bool) (held : Stacks) (t : Token) :
    Except ParseError (List Expr) :=
  if required && held.isEmpty then
    .error ⟨t.pos, .missingBefore t⟩
  else
    match held.fold with
    | .ok e => .ok e.toList
    | .error e => .error (combError e)

/-- Reads expressions up to the token that ends them, which stays. `exprs` and
`held` hold what was read before. -/
def expressionsFrom (d : Delimiters) (exprs : List Expr) (held : Stacks) (s : State) :
    Outcome (List Expr) :=
  let t := s.current
  if t.kind = d.stop ∨ endsExpression t.kind then
    match piece (!exprs.isEmpty) held t with
    | .ok e => .done (exprs ++ e) s
    | .error e => fail e.pos e.cause s
  else if some t.kind = d.separator then
    match piece true held t with
    | .ok e => expressionsFrom d (exprs ++ e) {} s.advance
    | .error e => fail e.pos e.cause s
  else
    match pushToken? held t with
    | some held' => expressionsFrom d exprs held' s.advance
    | none => fail t.pos (.unexpected .expression t) s
termination_by s.tokens.length
decreasing_by
  all_goals
    apply State.length_advance_lt
    intro he; simp_all +zetaDelta [endsExpression]

/-- Reads expressions up to the token that ends them, which stays. -/
def expressions (d : Delimiters) : Parse (List Expr) := expressionsFrom d [] {}

/-! ## Statements -/

/-- Reads `int` or `str`. -/
def typeName : Parse DataType := do
  if ← accept (.keyword .int) then
    pure .int
  else if ← accept (.keyword .str) then
    pure .str
  else
    let t ← current
    fail t.pos (.unknownType t)

/-- Reads the right-hand side of an assignment to `name`. The assignment is
kept even if it is empty. -/
def assignment (name : Token) : Parse Unit := do
  let values ← expressions .line
  emit (.assign name.pos name.lexeme values)
  if values.isEmpty then
    let t ← current
    fun s => .done () (s.report t (.missingValue name.lexeme))

/-- Reads `name : type`, perhaps with an initial value, which becomes an assignment. -/
def declaration : Parse Unit := do
  let name ← current
  advance
  consume (.mark .colon) (.colonAfter name.lexeme)
  let type ← typeName
  emit (.decl name.pos name.lexeme (some type))
  let t ← current
  match t.kind with
  | .mark .semicolon => advance
  | .mark .newline | .eof | .keyword _ => pure ()
  | _ =>
    let _ ← accept (.mark .assign)
    assignment name

/-- Reads the arguments and the end of a call to `name`. -/
def call (name : Token) : Parse Unit := do
  let args ← expressions .arguments
  consume (.mark .rightParen) (.closeCall name.lexeme)
  consume (.mark .semicolon) (.semicolonAfterCall name.lexeme)
  emit (.call name.pos name.lexeme args)

/-- Reads a statement that starts with a name: an assignment or a call. -/
def namedStatement : Parse Unit := do
  let name ← current
  advance
  if ← accept (.mark .assign) then
    assignment name
  else if ← accept (.mark .leftParen) then
    call name
  else
    failExpected (.assignOrCall name.lexeme)

/-- Reads a return statement. -/
def returnStatement : Parse Unit := do
  let t ← current
  advance
  let values ← expressions .line
  emit (.ret t.pos values)

/-- The tokens that end a statement's line. -/
def endsLine : Token.Kind → Bool
  | .mark .newline | .mark .semicolon => true
  | _ => false

/-- The keywords that start or close something larger than a declaration line. -/
def isBarrier : Token.Kind → Bool
  | .keyword .begins | .keyword .ends | .keyword .returns | .keyword
      .func | .keyword .external => true
  | _ => false

/-- Skips to the next statement: past the end of the line or a semicolon, or up
to a keyword that starts or closes something. -/
def skipStatement (s : State) : State :=
  if s.current.kind = .eof ∨ isBarrier s.current.kind then s
  else if endsLine s.current.kind then s.advance
  else skipStatement s.advance
termination_by s.tokens.length
decreasing_by
  apply State.length_advance_lt
  simp_all

/-- Reads a statement; one that is given up is skipped. -/
def statement (p : Parse Unit) (s : State) : State :=
  match p s with
  | .done _ s => s
  | .abandoned s => skipStatement s

/-! ## Reading takes tokens away -/

/-- A step that leaves an end piece of the tokens it started with. -/
def Keeps {α : Type} (p : Parse α) : Prop :=
  ∀ s, (p s).state.tokens <:+ s.tokens

theorem Keeps.pure {α : Type} (a : α) : Keeps (pure a : Parse α) :=
  fun _ => List.suffix_refl _

theorem Keeps.bind {α β : Type} {p : Parse α} {f : α → Parse β} (hp : Keeps p)
    (hf : ∀ a, Keeps (f a)) : Keeps (p >>= f) := by
  intro s
  have h := hp s
  show (match p s with
    | .done a s => f a s
    | .abandoned s => Outcome.abandoned s).state.tokens <:+ s.tokens
  cases hps : p s with
  | done a s' => rw [hps] at h; exact (hf a s').trans h
  | abandoned s' => rw [hps] at h; exact h

theorem Keeps.current : Keeps current := fun _ => List.suffix_refl _

theorem Keeps.advance : Keeps advance := State.tokens_advance_suffix

theorem Keeps.emit (stmt : Stmt) : Keeps (emit stmt) := fun _ => List.suffix_refl _

theorem Keeps.report (t : Token) (cause : ParseCause) :
    Keeps (fun s => .done () (s.report t cause)) := by
  intro s
  simp only [Outcome.state, State.report, State.record]
  split <;> exact List.suffix_refl _

theorem Keeps.fail {α : Type} (pos : Position) (cause : ParseCause) :
    Keeps (fail pos cause : Parse α) := by
  intro s
  simp only [Parser.fail, Outcome.state, State.record]
  split <;> exact List.suffix_refl _

theorem Keeps.failExpected {α : Type} (what : Expectation) :
    Keeps (failExpected what : Parse α) :=
  fun s => Keeps.fail _ _ s

theorem Keeps.accept (kind : Token.Kind) : Keeps (accept kind) := by
  intro s
  simp only [Parser.accept]
  split
  · exact State.tokens_advance_suffix s
  · exact List.suffix_refl _

theorem Keeps.consume (kind : Token.Kind) (what : Expectation) :
    Keeps (consume kind what) := by
  refine Keeps.bind (Keeps.accept kind) fun b => ?_
  cases b
  · exact Keeps.failExpected what
  · exact Keeps.pure ()

theorem Keeps.identifier (what : Expectation) : Keeps (identifier what) := by
  refine Keeps.bind Keeps.current fun t => ?_
  split
  · exact Keeps.bind Keeps.advance fun _ => Keeps.pure t
  · exact Keeps.failExpected what

theorem Keeps.expressionsFrom (d : Delimiters) (exprs : List Expr) (held : Stacks) :
    Keeps (expressionsFrom d exprs held) := by
  intro s
  fun_induction Parser.expressionsFrom d exprs held s with
  | case1 => exact List.suffix_refl _
  | case2 => exact Keeps.fail _ _ _
  | case3 _ _ s _ _ _ _ _ ih => exact ih.trans (State.tokens_advance_suffix s)
  | case4 => exact Keeps.fail _ _ _
  | case5 _ _ s _ _ _ _ _ ih => exact ih.trans (State.tokens_advance_suffix s)
  | case6 => exact Keeps.fail _ _ _

theorem Keeps.expressions (d : Delimiters) : Keeps (expressions d) :=
  Keeps.expressionsFrom d [] {}

theorem Keeps.typeName : Keeps typeName := by
  refine Keeps.bind (Keeps.accept _) fun b => ?_
  split
  · exact Keeps.pure _
  · refine Keeps.bind (Keeps.accept _) fun b => ?_
    split
    · exact Keeps.pure _
    · exact Keeps.bind Keeps.current fun _ => Keeps.fail _ _

theorem Keeps.assignment (name : Token) : Keeps (assignment name) := by
  refine Keeps.bind (Keeps.expressions _) fun values => ?_
  refine Keeps.bind (Keeps.emit _) fun _ => ?_
  split
  · exact Keeps.bind Keeps.current fun t => Keeps.report t _
  · exact Keeps.pure ()

theorem Keeps.call (name : Token) : Keeps (call name) :=
  Keeps.bind (Keeps.expressions _) fun _ =>
    Keeps.bind (Keeps.consume _ _) fun _ => Keeps.bind (Keeps.consume _ _) fun _ =>
      Keeps.emit _

theorem tokens_skipStatement_suffix (s : State) :
    (skipStatement s).tokens <:+ s.tokens := by
  fun_induction skipStatement s with
  | case1 => exact List.suffix_refl _
  | case2 s => exact State.tokens_advance_suffix s
  | case3 s _ _ ih => exact ih.trans (State.tokens_advance_suffix s)

/-- A step that takes the lookahead away, whatever else it does. -/
def Consumes {α : Type} (p : Parse α) : Prop :=
  ∀ s, (p s).state.tokens <:+ s.advance.tokens

theorem Consumes.advance_bind {α : Type} {p : Token → Parse α} (hp : ∀ t, Keeps (p t)) :
    Consumes (do let t ← current; advance; p t) :=
  fun s => hp s.current s.advance

theorem Consumes.declaration : Consumes declaration := by
  refine Consumes.advance_bind fun name => ?_
  refine Keeps.bind (Keeps.consume _ _) fun _ =>
    Keeps.bind Keeps.typeName fun type => ?_
  refine Keeps.bind (Keeps.emit _) fun _ => Keeps.bind Keeps.current fun t => ?_
  split
  · exact Keeps.advance
  · exact Keeps.pure ()
  · exact Keeps.pure ()
  · exact Keeps.pure ()
  · exact Keeps.bind (Keeps.accept _) fun _ => Keeps.assignment name

theorem Consumes.namedStatement : Consumes namedStatement := by
  refine Consumes.advance_bind fun name => ?_
  refine Keeps.bind (Keeps.accept _) fun b => ?_
  split
  · exact Keeps.assignment name
  · refine Keeps.bind (Keeps.accept _) fun b => ?_
    split
    · exact Keeps.call name
    · exact Keeps.failExpected _

theorem Consumes.returnStatement : Consumes returnStatement :=
  Consumes.advance_bind fun _ => Keeps.bind (Keeps.expressions _) fun _ => Keeps.emit _

theorem length_statement_lt {p : Parse Unit} (hp : Consumes p) {s : State}
    (h : s.current.kind ≠ .eof) : (statement p s).tokens.length < s.tokens.length := by
  have hs := hp s
  have hlt := State.length_advance_lt h
  unfold statement
  split
  · next hps =>
    rw [hps] at hs
    exact Nat.lt_of_le_of_lt hs.length_le hlt
  · next s' hps =>
    rw [hps] at hs
    exact Nat.lt_of_le_of_lt ((tokens_skipStatement_suffix s').trans hs).length_le hlt

/-! ## Declarations -/

/-- Reads the declaration lines of the function `fn`, up to `begin`. -/
def declarations (fn : String) (s : State) : Outcome Unit :=
  let t := s.current
  if t.kind = .keyword .begins then
    .done () s
  else if endsLine t.kind then
    declarations fn s.advance
  else if t.kind = .identifier then
    declarations fn (statement declaration s)
  else if t.kind = .eof ∨ t.kind = .keyword .func ∨ t.kind = .keyword .external then
    failExpected (.beginOf fn) s
  else
    declarations fn (s.report t (.unexpected (.declarations fn) t)).advance
termination_by s.tokens.length
decreasing_by
  · apply State.length_advance_lt
    intro he; simp_all +zetaDelta [endsLine]
  · apply length_statement_lt Consumes.declaration
    intro he; simp_all +zetaDelta
  · rw [← State.tokens_report s t (.unexpected (.declarations fn) t)]
    apply State.length_advance_lt
    simp_all +zetaDelta

/-- Reads the statements of the function `fn`, up to `end`. -/
def statements (fn : String) (s : State) : Outcome Unit :=
  let t := s.current
  if t.kind = .keyword .ends then
    .done () s
  else if endsLine t.kind then
    statements fn s.advance
  else if t.kind = .identifier then
    statements fn (statement namedStatement s)
  else if t.kind = .keyword .returns then
    statements fn (statement returnStatement s)
  else if t.kind = .eof ∨ t.kind = .keyword .func ∨ t.kind = .keyword .external then
    failExpected (.endOf fn) s
  else
    statements fn (s.report t (.unexpected (.body fn) t)).advance
termination_by s.tokens.length
decreasing_by
  · apply State.length_advance_lt
    intro he; simp_all +zetaDelta [endsLine]
  · apply length_statement_lt Consumes.namedStatement
    intro he; simp_all +zetaDelta
  · apply length_statement_lt Consumes.returnStatement
    intro he; simp_all +zetaDelta
  · rw [← State.tokens_report s t (.unexpected (.body fn) t)]
    apply State.length_advance_lt
    simp_all +zetaDelta

/-- The statements read for the current function. -/
def body : Parse (List Stmt) := fun s => .done s.body s

/-- Starts a function without statements. -/
def clearBody : Parse Unit := fun s => .done () { s with body := [] }

/-- Reads a function definition. -/
def function : Parse Global := do
  let t ← current
  advance
  let name ← identifier .functionName
  clearBody
  declarations name.lexeme
  advance
  statements name.lexeme
  advance
  return .func t.pos name.lexeme [] (← body)

/-- Reads one parameter of an external function. -/
def parameter : Parse Variable := do
  let name ← identifier .paramName
  consume (.mark .colon) (.colonAfterParam name.lexeme)
  let type ← typeName
  return { name := name.lexeme, type := some type, pos := name.pos }

theorem Keeps.parameter : Keeps parameter :=
  Keeps.bind (Keeps.identifier _) fun _ => Keeps.bind (Keeps.consume _ _) fun _ =>
    Keeps.bind Keeps.typeName fun _ => Keeps.pure _

/-- Reads the parameters after those in `params`, and the
parenthesis that closes the list. -/
def parameters (params : List Variable) (s : State) : Outcome (List Variable) :=
  match _h : parameter s with
  | .abandoned s' => .abandoned s'
  | .done v s' =>
    if s'.current.kind = .mark .comma then
      parameters (params ++ [v]) s'.advance
    else
      (do consume (.mark .rightParen) .commaOrParen; pure (params ++ [v]) : Parse _) s'
termination_by s.tokens.length
decreasing_by
  have hk := Keeps.parameter s
  rw [_h] at hk
  refine Nat.lt_of_lt_of_le (State.length_advance_lt ?_) hk.length_le
  intro he; simp_all

/-- Reads the declaration of an external function. Any error gives up all of it. -/
def externalFunction : Parse Global := do
  let t ← current
  advance
  consume (.keyword .func) .funcAfterExternal
  let name ← identifier .externalName
  consume (.mark .leftParen) .externalParen
  let params ← if ← accept (.mark .rightParen) then pure [] else parameters []
  return .external t.pos name.lexeme params

/-- Skips to the next keyword that starts a declaration. -/
def skipGlobal (s : State) : State :=
  if s.current.kind = .eof ∨ s.current.kind = .keyword .func ∨
    s.current.kind = .keyword .external then s
  else skipGlobal s.advance
termination_by s.tokens.length
decreasing_by
  apply State.length_advance_lt
  simp_all

/-- Reads a declaration; one that is given up is skipped. -/
def global (p : Parse Global) (s : State) : Option Global × State :=
  match p s with
  | .done g s => (some g, s)
  | .abandoned s => (none, skipGlobal s)

theorem Keeps.clearBody : Keeps clearBody := fun _ => List.suffix_refl _

theorem Keeps.body : Keeps body := fun _ => List.suffix_refl _

theorem tokens_statement_suffix {p : Parse Unit} (hp : Consumes p) (s : State) :
    (statement p s).tokens <:+ s.tokens := by
  have hs := (hp s).trans (State.tokens_advance_suffix s)
  unfold statement
  split
  · next hps => rw [hps] at hs; exact hs
  · next s' hps => rw [hps] at hs; exact (tokens_skipStatement_suffix s').trans hs

theorem Keeps.declarations (fn : String) : Keeps (declarations fn) := by
  intro s
  fun_induction Parser.declarations fn s with
  | case1 => exact List.suffix_refl _
  | case2 s _ _ _ ih => exact ih.trans (State.tokens_advance_suffix s)
  | case3 s _ _ _ _ ih =>
    exact ih.trans (tokens_statement_suffix Consumes.declaration s)
  | case4 s => exact Keeps.failExpected _ s
  | case5 s _ _ _ _ _ ih =>
    refine ih.trans ((State.tokens_advance_suffix _).trans ?_)
    simp only [State.tokens_report, List.suffix_refl]

theorem Keeps.statements (fn : String) : Keeps (statements fn) := by
  intro s
  fun_induction Parser.statements fn s with
  | case1 => exact List.suffix_refl _
  | case2 s _ _ _ ih => exact ih.trans (State.tokens_advance_suffix s)
  | case3 s _ _ _ _ ih =>
    exact ih.trans (tokens_statement_suffix Consumes.namedStatement s)
  | case4 s _ _ _ _ _ ih =>
    exact ih.trans (tokens_statement_suffix Consumes.returnStatement s)
  | case5 s => exact Keeps.failExpected _ s
  | case6 s _ _ _ _ _ _ ih =>
    refine ih.trans ((State.tokens_advance_suffix _).trans ?_)
    simp only [State.tokens_report, List.suffix_refl]

theorem Keeps.parameters (params : List Variable) : Keeps (parameters params) := by
  intro s
  fun_induction Parser.parameters params s with
  | case1 params s s' h => have := Keeps.parameter s; rw [h] at this; exact this
  | case2 params s v s' h _ ih =>
    have := Keeps.parameter s
    rw [h] at this
    exact ih.trans ((State.tokens_advance_suffix s').trans this)
  | case3 params s v s' h _ =>
    have := Keeps.parameter s
    rw [h] at this
    exact (Keeps.bind (Keeps.consume _ _) (fun _ => Keeps.pure _) s').trans this

theorem Consumes.function : Consumes function :=
  Consumes.advance_bind fun _ => Keeps.bind (Keeps.identifier _) fun name =>
    Keeps.bind Keeps.clearBody fun _ =>
        Keeps.bind (Keeps.declarations name.lexeme) fun _ =>
      Keeps.bind Keeps.advance fun _ =>
          Keeps.bind (Keeps.statements name.lexeme) fun _ =>
        Keeps.bind Keeps.advance fun _ => Keeps.bind Keeps.body fun _ => Keeps.pure _

theorem Consumes.externalFunction : Consumes externalFunction := by
  refine Consumes.advance_bind fun _ => Keeps.bind (Keeps.consume _ _) fun _ =>
    Keeps.bind (Keeps.identifier _) fun name => Keeps.bind (Keeps.consume _ _) fun _ =>
      Keeps.bind (Keeps.accept _) fun b => ?_
  cases b
  · exact Keeps.bind (Keeps.parameters []) fun _ => Keeps.pure _
  · exact Keeps.bind (Keeps.pure []) fun _ => Keeps.pure _

theorem tokens_skipGlobal_suffix (s : State) : (skipGlobal s).tokens <:+ s.tokens := by
  fun_induction skipGlobal s with
  | case1 => exact List.suffix_refl _
  | case2 s _ ih => exact ih.trans (State.tokens_advance_suffix s)

theorem length_global_lt {p : Parse Global} (hp : Consumes p) {s : State}
    (h : s.current.kind ≠ .eof) : (global p s).2.tokens.length < s.tokens.length := by
  have hs := hp s
  have hlt := State.length_advance_lt h
  unfold global
  split
  · next hps =>
    rw [hps] at hs
    exact Nat.lt_of_le_of_lt hs.length_le hlt
  · next s' hps =>
    rw [hps] at hs
    exact Nat.lt_of_le_of_lt ((tokens_skipGlobal_suffix s').trans hs).length_le hlt

/-- Reads declarations to the end of the text. Tokens that start none are skipped. -/
def globals (s : State) : List Global × State :=
  if s.current.kind = .eof then
    ([], s)
  else if s.current.kind = .keyword .func then
    let r := global function s
    let rest := globals r.2
    (r.1.toList ++ rest.1, rest.2)
  else if s.current.kind = .keyword .external then
    let r := global externalFunction s
    let rest := globals r.2
    (r.1.toList ++ rest.1, rest.2)
  else
    globals s.advance
termination_by s.tokens.length
decreasing_by
  · exact length_global_lt Consumes.function ‹_›
  · exact length_global_lt Consumes.externalFunction ‹_›
  · exact State.length_advance_lt ‹_›

/-- What reading a source comes to: a tree of all declarations that could
be read, and the errors. -/
structure Result where
  tree : Tree
  errors : List ParseError

/-- Reads a tree from tokens; `endPos` is where the text ends. -/
def parseTokens (filename : String) (tokens : List Scanned) (endPos : Position) :
    Result :=
  let r := globals (State.start tokens endPos)
  { tree := { filename, globals := r.1 }, errors := r.2.errors }

/-- Reads a tree from a source text. -/
def parse (l : Lexer) : Result :=
  let d := l.drain
  parseTokens l.filename d.tokens d.eof.pos

end Straightline.Parser
