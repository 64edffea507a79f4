import Mathlib
import Straightline.Proofs.Typing
import Straightline.Tree.Parser

/-!
# Invariants of reading

What holds of a parser's state all along, however malformed the text is. A step
is described by an invariant of the state and by what it gives (`Yields`). An
invariant has to survive what can happen to a state: it moves on, an error is
recorded, a statement is added, the statements are cleared. If it does, and if
lists of expressions and names come out as wanted (`IsInvariant`), then it holds
behind every step, and every declaration that is read has the statements of a
state where it holds (`IsInvariant.of_mem_globals`).

Some things hold only while one part of a function is being read. For those
there are steps that start under one property and end under another (`Turns`),
and the loops in terms of their steps (`IsStable.yields_declarations`,
`IsStable.yields_statements`).
-/

namespace Straightline

/-- The name that a statement starts with. -/
def Stmt.name? : Stmt → Option String
  | .decl _ x _ => some x
  | .assign _ x _ => some x
  | .call _ x _ => some x
  | .ret .. => none

/-- Whether a variable has a type that variables can have. -/
def Variable.HasVariableType (v : Variable) : Prop :=
  ∃ t ∈ v.type, Typing.IsVariableType t

end Straightline

namespace Straightline.Parser

/-! ## Steps -/

/-- Whether `Inv` holds of the state that a step left, and `Q` of what it
gave, if it gave something. -/
def Outcome.Meets {α : Type} (Inv : State → Prop) (Q : α → Prop) : Outcome α → Prop
  | .done a s => Q a ∧ Inv s
  | .abandoned s => Inv s

theorem Outcome.Meets.imp {α : Type} {Inv Inv' : State → Prop} {Q Q' : α → Prop}
    {o : Outcome α} (h : o.Meets Inv Q) (hinv : ∀ s, Inv s → Inv' s)
    (hq : ∀ a, Q a → Q' a) : o.Meets Inv' Q' := by
  cases o with
  | done a s => exact ⟨hq a h.1, hinv s h.2⟩
  | abandoned s => exact hinv s h

/-- A step that starts under `Pre`, ends under `Post` and gives what `Q` says. -/
def Turns {α : Type} (Pre Post : State → Prop) (Q : α → Prop) (p : Parse α) : Prop :=
  ∀ s, Pre s → (p s).Meets Post Q

/-- A step that keeps `Inv` and gives what `Q` says. -/
def Yields {α : Type} (Inv : State → Prop) (Q : α → Prop) (p : Parse α) : Prop :=
  Turns Inv Inv Q p

section
variable {α β : Type} {Pre Mid Post : State → Prop} {Q : α → Prop} {R : β → Prop}

/-- Two steps one after the other. The first may give up, so what holds
behind it has to do for both. -/
theorem Turns.bind {p : Parse α} {f : α → Parse β} (hp : Turns Pre Mid Q p)
    (hpost : ∀ s, Mid s → Post s) (hf : ∀ a, Q a → Turns Mid Post R (f a)) :
    Turns Pre Post R (p >>= f) := by
  intro s hs
  have hps := hp s hs
  cases h : p s with
  | done a s' =>
    rw [h] at hps
    rw [bind_of_done h]
    exact hf a hps.1 s' hps.2
  | abandoned s' =>
    rw [h] at hps
    rw [bind_of_abandoned h]
    exact hpost s' hps

theorem Yields.turns {p : Parse α} (hp : Yields Pre Q p)
    (hpost : ∀ s, Pre s → Post s) : Turns Pre Post Q p :=
  fun s hs => (hp s hs).imp hpost fun _ h => h

end

section
variable {α β : Type} {Inv : State → Prop} {Q : α → Prop} {R : β → Prop}

theorem Yields.pure {a : α} (h : Q a) : Yields Inv Q (pure a : Parse α) :=
  fun _ hs => ⟨h, hs⟩

theorem Yields.bind {p : Parse α} {f : α → Parse β} (hp : Yields Inv Q p)
    (hf : ∀ a, Q a → Yields Inv R (f a)) : Yields Inv R (p >>= f) :=
  Turns.bind hp (fun _ h => h) hf

/-- What a step gives may not matter. -/
theorem Yields.then {p : Parse α} {f : α → Parse β} (hp : Yields Inv (fun _ => True) p)
    (hf : ∀ a, Yields Inv R (f a)) : Yields Inv R (p >>= f) := hp.bind fun a _ => hf a

theorem Yields.current : Yields Inv (fun _ => True) current := fun _ hs => ⟨trivial, hs⟩

/-- A step that starts with a look at the lookahead. -/
theorem meets_current_bind {f : Token → Parse β} {s : State}
    (hf : Yields Inv R (f s.current)) (hs : Inv s) :
    ((Parser.current >>= f) s).Meets Inv R := hf s hs

end

/-! ## Steps that add no statement -/

@[simp] theorem State.body_advance (s : State) : s.advance.body = s.body := by
  unfold State.advance
  split <;> rfl

/-- A property of states that survives moving on and recording errors. -/
structure IsStable (Inv : State → Prop) : Prop where
  advance : ∀ s, Inv s → Inv s.advance
  record : ∀ s pos cause, Inv s → Inv (s.record pos cause)

namespace IsStable

variable {α : Type} {Inv : State → Prop} {Q : α → Prop} (h : IsStable Inv)
include h

theorem report {s : State} (hs : Inv s) (t : Token) (cause : ParseCause) :
    Inv (s.report t cause) := by
  unfold State.report
  split
  · exact hs
  · exact h.record s _ _ hs

theorem yields_advance : Yields Inv (fun _ => True) Parser.advance :=
  fun s hs => ⟨trivial, h.advance s hs⟩

theorem yields_fail (pos : Position) (cause : ParseCause) :
    Yields Inv Q (fail pos cause) := by
  intro s hs
  simp only [fail, Outcome.Meets]
  split
  · exact hs
  · exact h.record s _ _ hs

theorem yields_failExpected (what : Expectation) : Yields Inv Q (failExpected what) :=
  fun s hs => h.yields_fail s.current.pos _ s hs

theorem yields_accept (kind : Token.Kind) :
    Yields Inv (fun _ => True) (accept kind) := by
  intro s hs
  simp only [accept]
  split
  · exact ⟨trivial, h.advance s hs⟩
  · exact ⟨trivial, hs⟩

theorem yields_consume (kind : Token.Kind) (what : Expectation) :
    Yields Inv (fun _ => True) (consume kind what) := by
  refine (h.yields_accept kind).then fun b => ?_
  cases b
  · exact h.yields_failExpected what
  · exact .pure trivial

theorem yields_typeName : Yields Inv Typing.IsVariableType typeName := by
  refine (h.yields_accept _).then fun b => ?_
  split
  · exact .pure (.inl rfl)
  · refine (h.yields_accept _).then fun b => ?_
    split
    · exact .pure (.inr rfl)
    · exact Yields.current.then fun t => h.yields_fail _ _

theorem skipStatement {s : State} (hs : Inv s) : Inv (skipStatement s) := by
  fun_induction Parser.skipStatement s with
  | case1 => exact hs
  | case2 s => exact h.advance s hs
  | case3 s _ _ ih => exact ih (h.advance s hs)

theorem skipGlobal {s : State} (hs : Inv s) : Inv (skipGlobal s) := by
  fun_induction Parser.skipGlobal s with
  | case1 => exact hs
  | case2 s _ ih => exact ih (h.advance s hs)

/-- A statement that is given up leaves what held before it. -/
theorem statement {p : Parse Unit} {s : State}
    (hps : (p s).Meets Inv fun _ => True) : Inv (statement p s) := by
  unfold Parser.statement
  cases hp : p s with
  | done a s' => rw [hp] at hps; exact hps.2
  | abandoned s' => rw [hp] at hps; exact h.skipStatement hps

/-- What every declaration line keeps holds behind all of them. -/
theorem yields_declarations
    (hline : ∀ s, Inv s → s.current.kind = .identifier →
      (declaration s).Meets Inv fun _ => True)
    (fn : String) : Yields Inv (fun _ => True) (declarations fn) := by
  intro s hs
  fun_induction declarations fn s with
  | case1 => exact ⟨trivial, hs⟩
  | case2 s _ _ _ ih => exact ih (h.advance s hs)
  | case3 s _ _ _ hkind ih => exact ih (h.statement (hline s hs hkind))
  | case4 s => exact h.yields_failExpected _ s hs
  | case5 s _ _ _ _ _ ih => exact ih (h.advance _ (h.report hs _ _))

/-- What every statement keeps holds behind all of them. -/
theorem yields_statements
    (hnamed : ∀ s, Inv s → s.current.kind = .identifier →
      (namedStatement s).Meets Inv fun _ => True)
    (hreturn : ∀ s, Inv s → (returnStatement s).Meets Inv fun _ => True)
    (fn : String) : Yields Inv (fun _ => True) (statements fn) := by
  intro s hs
  fun_induction statements fn s with
  | case1 => exact ⟨trivial, hs⟩
  | case2 s _ _ _ ih => exact ih (h.advance s hs)
  | case3 s _ _ _ hkind ih => exact ih (h.statement (hnamed s hs hkind))
  | case4 s _ _ _ _ _ ih => exact ih (h.statement (hreturn s hs))
  | case5 s => exact h.yields_failExpected _ s hs
  | case6 s _ _ _ _ _ _ ih => exact ih (h.advance _ (h.report hs _ _))

section
variable {R : Global → Prop}

theorem global {p : Parse Global} (hp : Yields Inv R p) {s : State} (hs : Inv s) :
    (∀ g ∈ (global p s).1, R g) ∧ Inv (global p s).2 := by
  have hps := hp s hs
  unfold Parser.global
  cases hp : p s with
  | done g' s' =>
    rw [hp] at hps
    exact ⟨fun g hg => Option.some.inj hg ▸ hps.1, hps.2⟩
  | abandoned s' =>
    rw [hp] at hps
    exact ⟨by simp, h.skipGlobal hps⟩

/-- What the two sorts of declarations are read as holds of all that are read. -/
theorem of_mem_globals (hfunction : Yields Inv R function)
    (hexternal : Yields Inv R externalFunction) {s : State} (hs : Inv s) :
    ∀ g ∈ (globals s).1, R g := by
  -- What is read of one declaration goes in front of what is read behind it.
  have append {g? : Option Global} {rest : List Global} (hfirst : ∀ g ∈ g?, R g)
      (hrest : ∀ g ∈ rest, R g) : ∀ g ∈ g?.toList ++ rest, R g :=
    List.forall_mem_append.mpr ⟨fun g hg => hfirst g (Option.mem_toList.mp hg), hrest⟩
  fun_induction globals s with
  | case1 => simp
  | case2 s _ _ r rest ih =>
    obtain ⟨hfirst, hafter⟩ := h.global hfunction hs
    exact append hfirst (ih hafter)
  | case3 s _ _ _ r rest ih =>
    obtain ⟨hfirst, hafter⟩ := h.global hexternal hs
    exact append hfirst (ih hafter)
  | case4 s _ _ _ ih => exact ih (h.advance s hs)

end

end IsStable

/-! ## Expressions -/

/-- An expression that is taken off the stacks is what they fold to. -/
theorem fold_of_mem_piece {required : Bool} {held : Stacks} {t : Token}
    {es : List Expr} (h : piece required held t = .ok es) {e : Expr} (he : e ∈ es) :
    held.fold = .ok (some e) := by
  unfold piece at h
  split at h
  · cases h
  · cases hfold : held.fold with
    | error e => rw [hfold] at h; cases h
    | ok e? =>
      rw [hfold] at h
      cases h
      rw [Option.mem_toList.mp he]

/-! ## Statements -/

/-- A property of states that survives all reading, if lists of expressions that
are read are as `G` says, and names as `N` says. -/
structure IsInvariant (Inv : State → Prop) (G : List Expr → Prop)
    (N : String → Prop) : Prop extends IsStable Inv where
  expressions : ∀ d, Yields Inv G (expressions d)
  none : G []
  name : ∀ s, Inv s → s.current.kind = .identifier → N s.current.lexeme
  emit : ∀ s stmt, G stmt.exprs → (∀ x ∈ stmt.name?, N x) → Inv s → Inv (s.emit stmt)
  clear : ∀ s : State, Inv s → Inv { s with body := [] }

namespace IsInvariant

variable {Inv : State → Prop} {G : List Expr → Prop} {N : String → Prop}
  (h : IsInvariant Inv G N)
include h

theorem yields_identifier (what : Expectation) :
    Yields Inv (fun t => N t.lexeme) (identifier what) := by
  intro s hs
  refine meets_current_bind ?_ hs
  split
  · next hkind => exact h.yields_advance.then fun _ => .pure (h.name s hs hkind)
  · exact h.yields_failExpected what

theorem yields_emit {stmt : Stmt} (hexprs : G stmt.exprs)
    (hname : ∀ x ∈ stmt.name?, N x) :
    Yields Inv (fun _ => True) (Parser.emit stmt) :=
  fun s hs => ⟨trivial, h.emit s stmt hexprs hname hs⟩

theorem yields_assignment {name : Token} (hname : N name.lexeme) :
    Yields Inv (fun _ => True) (assignment name) := by
  refine (h.expressions _).bind fun values hvalues => ?_
  have hassign : G (Stmt.assign name.pos name.lexeme values).exprs := hvalues
  refine (h.yields_emit hassign (fun x hx => Option.some.inj hx ▸ hname)).then
    fun _ => ?_
  split
  · exact Yields.current.then fun t s hs => ⟨trivial, h.report hs t _⟩
  · exact .pure trivial

theorem yields_call {name : Token} (hname : N name.lexeme) :
    Yields Inv (fun _ => True) (call name) := by
  refine (h.expressions _).bind fun args hargs => ?_
  refine (h.yields_consume _ _).then fun _ => (h.yields_consume _ _).then fun _ => ?_
  exact h.yields_emit hargs fun x hx => Option.some.inj hx ▸ hname

section
variable {s : State} (hs : Inv s)
include hs

theorem meets_declaration (hkind : s.current.kind = .identifier) :
    (declaration s).Meets Inv fun _ => True := by
  have hname := h.name s hs hkind
  refine meets_current_bind (h.yields_advance.then fun _ => ?_) hs
  refine (h.yields_consume _ _).then fun _ => h.yields_typeName.bind fun type _ => ?_
  have hdecl : G (Stmt.decl s.current.pos s.current.lexeme (some type)).exprs := h.none
  refine (h.yields_emit hdecl (fun x hx => Option.some.inj hx ▸ hname)).then
    fun _ => Yields.current.then fun t => ?_
  split
  · exact h.yields_advance
  · exact .pure trivial
  · exact .pure trivial
  · exact .pure trivial
  · exact (h.yields_accept _).then fun _ => h.yields_assignment hname

theorem meets_namedStatement (hkind : s.current.kind = .identifier) :
    (namedStatement s).Meets Inv fun _ => True := by
  have hname := h.name s hs hkind
  refine meets_current_bind (h.yields_advance.then fun _ => ?_) hs
  refine (h.yields_accept _).then fun b => ?_
  split
  · exact h.yields_assignment hname
  · refine (h.yields_accept _).then fun b => ?_
    split
    · exact h.yields_call hname
    · exact h.yields_failExpected _

theorem meets_returnStatement : (returnStatement s).Meets Inv fun _ => True := by
  refine meets_current_bind (h.yields_advance.then fun _ => ?_) hs
  exact (h.expressions _).bind fun values hvalues =>
    h.yields_emit hvalues fun x hx => nomatch hx

end

/-! ## Declarations -/

theorem yields_parameter :
    Yields Inv (fun v : Variable => v.HasVariableType ∧ N v.name) parameter :=
  (h.yields_identifier _).bind fun _ hname => (h.yields_consume _ _).then fun _ =>
    h.yields_typeName.bind fun t ht => .pure ⟨⟨t, rfl, ht⟩, hname⟩

theorem yields_parameters {params : List Variable}
    (hparams : ∀ v ∈ params, v.HasVariableType ∧ N v.name) :
    Yields Inv (fun vs : List Variable => ∀ v ∈ vs, v.HasVariableType ∧ N v.name)
      (parameters params) := by
  have snoc {vs : List Variable} {v : Variable}
      (hvs : ∀ v ∈ vs, v.HasVariableType ∧ N v.name)
      (hv : v.HasVariableType ∧ N v.name) : ∀ u ∈ vs ++ [v],
      u.HasVariableType ∧ N u.name :=
    List.forall_mem_append.mpr ⟨hvs, List.forall_mem_singleton.mpr hv⟩
  intro s hs
  fun_induction parameters params s with
  | case1 params s s' hp =>
    have hparam := h.yields_parameter s hs
    rw [hp] at hparam
    exact hparam
  | case2 params s v s' hp _ ih =>
    have hparam := h.yields_parameter s hs
    rw [hp] at hparam
    exact ih (snoc hparams hparam.1) (h.advance s' hparam.2)
  | case3 params s v s' hp _ =>
    have hparam := h.yields_parameter s hs
    rw [hp] at hparam
    exact (h.yields_consume _ _).then
      (fun _ => .pure (snoc hparams hparam.1)) s' hparam.2

theorem yields_external : Yields Inv
    (fun g => g.isFunc = false ∧ N g.name ∧ ∀ v ∈ g.params, v.HasVariableType ∧
      N v.name) externalFunction := by
  refine Yields.current.then fun t => h.yields_advance.then fun _ =>
      (h.yields_consume _ _).then fun _ =>
    (h.yields_identifier _).bind fun name hname => (h.yields_consume _ _).then fun _ =>
      (h.yields_accept _).then fun b => ?_
  cases b with
  | true => exact .pure ⟨rfl, hname, by simp [Global.params]⟩
  | false =>
    exact (h.yields_parameters (by simp)).bind fun params hparams =>
      .pure ⟨rfl, hname, hparams⟩

end IsInvariant

/-- Whether a declaration goes by a name and has parameters as `N` says, all of
them with types, and the statements of a state where `Inv` holds. -/
structure Stems (Inv : State → Prop) (N : String → Prop) (g : Global) : Prop where
  name : N g.name
  params : ∀ v ∈ g.params, v.HasVariableType ∧ N v.name
  body : ∃ s, Inv s ∧ s.body = g.body

namespace IsInvariant

variable {Inv : State → Prop} {G : List Expr → Prop} {N : String → Prop}
  (h : IsInvariant Inv G N)
include h

theorem yields_function : Yields Inv (Stems Inv N) function := by
  refine Yields.current.then fun t => h.yields_advance.then fun _ => ?_
  refine (h.yields_identifier _).bind fun name hname => ?_
  have hclear : Yields Inv (fun _ => True) clearBody :=
    fun s hs => ⟨trivial, h.clear s hs⟩
  have hdeclarations :=
    h.toIsStable.yields_declarations fun s hs hkind => h.meets_declaration hs hkind
  have hstatements :=
    h.toIsStable.yields_statements (fun s hs hkind => h.meets_namedStatement hs hkind)
    fun s hs => h.meets_returnStatement hs
  refine hclear.then fun _ => (hdeclarations _).then fun _ =>
    h.yields_advance.then fun _ => ?_
  refine (hstatements _).then fun _ => h.yields_advance.then fun _ s hs => ?_
  exact ⟨⟨hname, by simp [Global.params], s, hs, rfl⟩, hs⟩

theorem yields_externalFunction : Yields Inv (Stems Inv N) externalFunction := by
  intro s hs
  refine (h.yields_external s hs).imp (fun _ h => h) fun g ⟨hfunc, hname, hparams⟩ => ?_
  cases g with
  | func => cases hfunc
  | external pos name params =>
    -- An external function has no statements, like any state right behind a clearing.
    exact ⟨hname, hparams, { s with body := [] }, h.clear s hs, rfl⟩

/-- Every declaration that is read stems from a state where the invariant holds. -/
theorem of_mem_globals {s : State} (hs : Inv s) : ∀ g ∈ (globals s).1, Stems Inv N g :=
  h.toIsStable.of_mem_globals h.yields_function h.yields_externalFunction hs

end IsInvariant

end Straightline.Parser
