import Mathlib
import Straightline.Proofs.Tree.Infix
import Straightline.Proofs.Tree.Lockstep

/-!
# Moves of a parser

However malformed a text is, only four things happen to a parser (`Move`): the
next token comes into view, an error is recorded, a statement is added, and the
statements are cleared. A token is asked for only while the end of the text is
not in view. An error is about the lookahead, or about one of the operands and
operators that were passed right before it (`Passes`), and never recorded in
front of an invalid token.

Every step of reading is a sequence of moves (`Leads`), and so is all
of it (`reaches_globals`). A step that gives up leaves an error behind,
or an invalid token in view.
-/

namespace Straightline

/-- Whether the cause lies in a single token. -/
def ParseCause.isLexical : ParseCause → Bool
  | .lexical _ => true
  | _ => false

namespace Parser

/-! ## Moves -/

/-- From `s` to `s'` the parser passes the tokens `part`, all of them
operands and operators. -/
inductive Passes : (part : List Token) → (s s' : State) → Prop
  | nil {s : State} : Passes [] s s
  | cons {part : List Token} {s s' : State} :
      IsPart s.current → Passes part s.advance s' → Passes (s.current :: part) s s'

theorem Passes.snoc {part : List Token} {s s' : State} (h : Passes part s s')
    (hpart : IsPart s'.current) : Passes (part ++ [s'.current]) s s'.advance := by
  induction h with
  | nil => exact .cons hpart .nil
  | cons hfirst _ ih => exact .cons hfirst (ih hpart)

/-- What can happen to a parser. -/
inductive Move : (s s' : State) → Prop
  | fetch {s : State} : s.current.kind ≠ .eof → Move s s.advance
  | complain {part : List Token} {s s' : State} {t : Token} {cause : ParseCause} :
      Passes part s s' → s'.current.kind ≠ .invalid → t ∈ part ++ [s'.current] →
      cause.isLexical = false → Move s (s'.record t.pos cause)
  | emit {s : State} (stmt : Stmt) : Move s (s.emit stmt)
  | clear {s : State} : Move s { s with body := [] }

/-- Some moves one after the other. -/
abbrev Reaches (s s' : State) : Prop := Relation.ReflTransGen Move s s'

theorem Reaches.fetch {s : State} (h : s.current.kind ≠ .eof) :
    Reaches s s.advance :=
  .single (.fetch h)

theorem Reaches.record {s : State} {cause : ParseCause}
    (hvalid : s.current.kind ≠ .invalid) (hcause : cause.isLexical = false) :
    Reaches s (s.record s.current.pos cause) :=
  .single (.complain .nil hvalid (by simp) hcause)

theorem Reaches.report {s : State} {cause : ParseCause}
    (hcause : cause.isLexical = false) : Reaches s (s.report s.current cause) := by
  unfold State.report
  split
  · exact .refl
  · next hvalid => exact .record hvalid hcause

theorem Passes.reaches {part : List Token} {s s' : State} (h : Passes part s s') :
    Reaches s s' := by
  induction h with
  | nil => exact .refl
  | cons hfirst _ ih => exact (Reaches.fetch (ne_eof_of_isPart hfirst)).trans ih

/-- Whether `s'` is further on than `s`: tokens are taken away and errors
added, and no more than that. -/
structure IsLater (s s' : State) : Prop where
  tokens : s'.tokens <:+ s.tokens
  endPos : s'.endPos = s.endPos
  errors : s.errors <+: s'.errors

namespace IsLater

theorem refl (s : State) : IsLater s s := ⟨List.suffix_refl _, rfl, List.prefix_refl _⟩

theorem trans {s s' s'' : State} (h : IsLater s s') (h' : IsLater s' s'') :
    IsLater s s'' :=
  ⟨h'.tokens.trans h.tokens, h'.endPos.trans h.endPos, h.errors.trans h'.errors⟩

theorem advance (s : State) : IsLater s s.advance := by
  refine ⟨s.tokens_advance_suffix, ?_, ?_⟩
  · unfold State.advance
    split <;> rfl
  · unfold State.advance
    split
    · exact List.prefix_refl _
    · exact List.prefix_append _ _

end IsLater

theorem Passes.isLater {part : List Token} {s s' : State} (h : Passes part s s') :
    IsLater s s' := by
  induction h with
  | nil => exact .refl _
  | cons _ _ ih => exact (IsLater.advance _).trans ih

theorem Move.isLater {s s' : State} (h : Move s s') : IsLater s s' := by
  cases h with
  | fetch _ => exact .advance s
  | complain hpasses _ _ _ =>
    have h := hpasses.isLater
    exact ⟨h.tokens, h.endPos, h.errors.trans (List.prefix_append _ _)⟩
  | emit _ => exact ⟨List.suffix_refl _, rfl, List.prefix_refl _⟩
  | clear => exact ⟨List.suffix_refl _, rfl, List.prefix_refl _⟩

theorem Reaches.isLater {s s' : State} (h : Reaches s s') : IsLater s s' := by
  induction h with
  | refl => exact .refl _
  | tail _ hmove ih => exact ih.trans hmove.isLater

/-! ## Steps -/

section
variable {α β : Type}

/-- Whether moves lead from `s` to where a step ended. A step that gave up has
complained, unless the lookahead is invalid. -/
def Outcome.ReachedFrom (s : State) : Outcome α → Prop
  | .done _ s' => Reaches s s'
  | .abandoned s' => Reaches s s' ∧ (s'.current.kind = .invalid ∨ s'.errors ≠ [])

/-- A step made of moves. -/
def Leads (p : Parse α) : Prop := ∀ s, (p s).ReachedFrom s

theorem Outcome.ReachedFrom.after {o : Outcome α} {s s' : State}
    (h : o.ReachedFrom s') (hs : Reaches s s') : o.ReachedFrom s := by
  cases o with
  | done a t => exact hs.trans h
  | abandoned t => exact ⟨hs.trans h.1, h.2⟩

theorem Outcome.ReachedFrom.bind {p : Parse α} {f : α → Parse β} {s : State}
    (hp : (p s).ReachedFrom s)
    (hf : ∀ a s', p s = .done a s' → (f a s').ReachedFrom s') :
    ((p >>= f) s).ReachedFrom s := by
  cases h : p s with
  | done a s' =>
    rw [h] at hp
    rw [bind_of_done h]
    exact (hf a s' h).after hp
  | abandoned s' =>
    rw [h] at hp
    rw [bind_of_abandoned h]
    exact hp

theorem Leads.bind {p : Parse α} {f : α → Parse β} (hp : Leads p)
    (hf : ∀ a, Leads (f a)) : Leads (p >>= f) :=
  fun s => (hp s).bind fun a s' _ => hf a s'

theorem Leads.pure (a : α) : Leads (pure a : Parse α) := fun _ => .refl

theorem leads_current : Leads current := fun _ => .refl

theorem leads_emit (stmt : Stmt) : Leads (emit stmt) := fun _ => .single (.emit stmt)

/-- A step that starts by taking a token away. -/
theorem reachedFrom_take {p : Token → Parse α} (hp : ∀ t, Leads (p t)) {s : State}
    (h : s.current.kind ≠ .eof) :
    ((do let t ← current; advance; p t : Parse α) s).ReachedFrom s := by
  show (p s.current s.advance).ReachedFrom s
  exact (hp s.current s.advance).after (.fetch h)

/-- Giving up in front of a token that ends a run of operands and operators,
because of one of them all. -/
theorem Passes.fail {part : List Token} {s s' : State} (h : Passes part s s')
    {t : Token} (ht : t ∈ part ++ [s'.current]) {cause : ParseCause}
    (hcause : cause.isLexical = false) :
    (fail t.pos cause s' : Outcome α).ReachedFrom s := by
  unfold Parser.fail
  split
  · next hinvalid => exact ⟨h.reaches, .inl hinvalid⟩
  · next hvalid =>
      exact ⟨.single (.complain h hvalid ht hcause), .inr (by simp [State.record])⟩

theorem reachedFrom_fail {s : State} {cause : ParseCause}
    (hcause : cause.isLexical = false) :
    (fail s.current.pos cause s : Outcome α).ReachedFrom s :=
  Passes.nil.fail (by simp) hcause

theorem leads_failExpected (what : Expectation) : Leads (failExpected what : Parse α) :=
  fun _ => reachedFrom_fail rfl

theorem leads_accept {kind : Token.Kind} (hkind : kind ≠ .eof) :
    Leads (accept kind) := by
  intro s
  unfold Parser.accept
  split
  · next heq => exact .fetch (by rw [heq]; exact hkind)
  · exact .refl

theorem leads_consume {kind : Token.Kind} (hkind : kind ≠ .eof) (what : Expectation) :
    Leads (consume kind what) := by
  refine (leads_accept hkind).bind fun b => ?_
  cases b
  · exact leads_failExpected what
  · exact Leads.pure ()

theorem leads_identifier (what : Expectation) : Leads (identifier what) := by
  intro s
  show ((if s.current.kind = .identifier then do advance; pure s.current
    else Parser.failExpected what : Parse Token) s).ReachedFrom s
  split
  · next hkind => exact .fetch (by rw [hkind]; exact Token.Kind.noConfusion)
  · exact leads_failExpected what s

theorem leads_typeName : Leads typeName := by
  refine (leads_accept Token.Kind.noConfusion).bind fun b => ?_
  split
  · exact Leads.pure _
  · refine (leads_accept Token.Kind.noConfusion).bind fun b => ?_
    split
    · exact Leads.pure _
    · exact fun s => reachedFrom_fail rfl

end

/-! ## Expressions -/

/-- Stacks are blamed on an operator, or on an operand by its first token. -/
theorem pos_of_foldAll_error {P : Position → Prop} {operands : List Expr}
    {operators : List (Operator × Position)} {e : CombError}
    (h : Stacks.foldAll operands operators = .error e)
    (hoperands : ∀ x ∈ operands, x.isHole = false ∧ P x.pos)
    (hoperators : ∀ o ∈ operators, P o.2) : P (combError e).pos := by
  fun_induction Stacks.foldAll operands operators with
  | case1 right left rest op pos ops ih =>
    obtain ⟨-, hoperands⟩ := List.forall_mem_cons.mp hoperands
    obtain ⟨hleft, hrest⟩ := List.forall_mem_cons.mp hoperands
    refine ih h (List.forall_mem_cons.mpr ⟨⟨rfl, ?_⟩, hrest⟩)
      (List.forall_mem_cons.mp hoperators).2
    rw [Expr.pos, hleft.1]
    exact hleft.2
  | case2 _ op pos ops =>
    cases h
    exact hoperators (op, pos) (by simp)
  | case3 => cases h
  | case4 => cases h
  | case5 x y rest =>
    cases h
    show P (((x :: y :: rest).reverse[1]?).getD y).pos
    cases hsecond : (x :: y :: rest).reverse[1]? with
    | none => exact (hoperands y (by simp)).2
    | some z =>
      exact (hoperands z (List.mem_reverse.mp (List.mem_of_getElem? hsecond))).2

/-- The operands of a run are named after its tokens. -/
theorem pos_of_leaf? {t : Token} {e : Expr} (h : leaf? t = some e) :
    e.isHole = false ∧ e.pos = t.pos := by
  unfold leaf? at h
  split at h <;> cases h <;> exact ⟨rfl, rfl⟩

theorem pos_of_sign? {t : Token} {o : Operator × Position} (h : sign? t = some o) :
    o.2 = t.pos := by
  obtain ⟨op, -, rfl⟩ := Option.map_eq_some_iff.mp h
  rfl

/-- An expression that does not come off is blamed on one of its tokens, or
on the token behind it. -/
theorem exists_blamed {required : Bool} {part : List Token} {t : Token} {e : ParseError}
    (h : piece required (stacksOf part) t = .error e) :
    e.cause.isLexical = false ∧ ∃ u ∈ part ++ [t], e.pos = u.pos := by
  unfold piece at h
  split at h
  · cases h
    exact ⟨rfl, t, by simp, rfl⟩
  · cases hfold : (stacksOf part).fold with
    | ok x => rw [hfold] at h; cases h
    | error x =>
      rw [hfold] at h
      cases h
      refine ⟨by cases x <;> rfl, ?_⟩
      refine pos_of_foldAll_error (P := fun p => ∃ u ∈ part ++ [t],
        p = u.pos) hfold ?_ ?_
      · intro y hy
        obtain ⟨u, hu, hleaf⟩ := List.mem_filterMap.mp (List.mem_reverse.mp hy)
        obtain ⟨hhole, hpos⟩ := pos_of_leaf? hleaf
        exact ⟨hhole, u, List.mem_append_left _ hu, hpos⟩
      · intro o ho
        obtain ⟨u, hu, hsign⟩ := List.mem_filterMap.mp (List.mem_reverse.mp ho)
        exact ⟨u, List.mem_append_left _ hu, pos_of_sign? hsign⟩

theorem Passes.fail_piece {α : Type} {part : List Token} {s s' : State}
    (h : Passes part s s') {required : Bool} {e : ParseError}
    (hpiece : piece required (stacksOf part) s'.current = .error e) :
    (Parser.fail e.pos e.cause s' : Outcome α).ReachedFrom s := by
  obtain ⟨hcause, u, hu, hpos⟩ := exists_blamed hpiece
  rw [hpos]
  exact h.fail hu hcause

/-- Reading an expression passes its tokens, so what is blamed on them
afterwards is one move from its start. -/
theorem reachedFrom_expressionsFrom (d : Delimiters) (exprs : List Expr)
    (held : Stacks) (s : State) :
    ∀ part s₀, held = stacksOf part → Passes part s₀ s →
      (expressionsFrom d exprs held s).ReachedFrom s₀ := by
  fun_induction expressionsFrom d exprs held s with
  | case1 => exact fun _ _ _ hpasses => hpasses.reaches
  | case2 exprs held s t _ e hpiece =>
    rintro part s₀ rfl hpasses
    exact hpasses.fail_piece hpiece
  | case3 exprs held s t hend _ es _ ih =>
    rintro part s₀ rfl hpasses
    have heof : t.kind ≠ .eof := fun heof => hend (.inr (by rw [heof]; rfl))
    exact (ih [] s.advance rfl .nil).after (hpasses.reaches.trans (Reaches.fetch heof))
  | case4 exprs held s t _ _ e hpiece =>
    rintro part s₀ rfl hpasses
    exact hpasses.fail_piece hpiece
  | case5 exprs held s t _ _ held' hpush ih =>
    rintro part s₀ rfl hpasses
    obtain ⟨hpart, hheld⟩ := (pushToken?_stacksOf part t held').mp hpush
    exact ih (part ++ [t]) s₀ hheld (hpasses.snoc hpart)
  | case6 exprs held s t => exact fun _ _ _ hpasses => hpasses.fail (by simp [t]) rfl

theorem leads_expressions (d : Delimiters) : Leads (expressions d) :=
  fun s => reachedFrom_expressionsFrom d [] {} s [] s rfl .nil

/-! ## Statements -/

theorem leads_assignment (name : Token) : Leads (assignment name) := by
  refine (leads_expressions _).bind fun values => (leads_emit _).bind fun _ => ?_
  split
  · exact fun s => Reaches.report rfl
  · exact Leads.pure ()

theorem leads_call (name : Token) : Leads (call name) :=
  (leads_expressions _).bind fun _ =>
      (leads_consume Token.Kind.noConfusion _).bind fun _ =>
    (leads_consume Token.Kind.noConfusion _).bind fun _ => leads_emit _

section
variable {s : State}

theorem reachedFrom_declaration (h : s.current.kind ≠ .eof) :
    (declaration s).ReachedFrom s := by
  refine reachedFrom_take (fun name => ?_) h
  refine (leads_consume Token.Kind.noConfusion _).bind fun _ =>
    leads_typeName.bind fun type => ?_
  refine (leads_emit _).bind fun _ s => (leads_current s).bind ?_
  rintro _ _ ⟨⟩
  have haccept : Leads (accept (.mark .assign)) := leads_accept Token.Kind.noConfusion
  have hinitial := haccept.bind (fun _ => leads_assignment name) s
  cases hkind : s.current.kind with
  | eof => exact .refl
  | keyword k => exact .refl
  | mark m =>
    cases m with
    | semicolon => exact Reaches.fetch (by rw [hkind]; exact Token.Kind.noConfusion)
    | newline => exact .refl
    | _ => exact hinitial
  | _ => exact hinitial

theorem reachedFrom_namedStatement (h : s.current.kind ≠ .eof) :
    (namedStatement s).ReachedFrom s := by
  refine reachedFrom_take (fun name => ?_) h
  refine (leads_accept Token.Kind.noConfusion).bind fun b => ?_
  split
  · exact leads_assignment name
  · refine (leads_accept Token.Kind.noConfusion).bind fun b => ?_
    split
    · exact leads_call name
    · exact leads_failExpected _

theorem reachedFrom_returnStatement (h : s.current.kind ≠ .eof) :
    (returnStatement s).ReachedFrom s :=
  reachedFrom_take (fun _ => (leads_expressions _).bind fun _ => leads_emit _) h

theorem reaches_skipStatement (s : State) : Reaches s (skipStatement s) := by
  fun_induction skipStatement s with
  | case1 => exact .refl
  | case2 s hstop => exact .fetch fun heof => hstop (.inl heof)
  | case3 s hstop _ ih => exact (Reaches.fetch fun heof => hstop (.inl heof)).trans ih

theorem reaches_statement {p : Parse Unit} (h : (p s).ReachedFrom s) :
    Reaches s (statement p s) := by
  unfold statement
  cases hp : p s with
  | done a s' => rw [hp] at h; exact h
  | abandoned s' => rw [hp] at h; exact h.1.trans (reaches_skipStatement s')

end

/-! ## Declarations -/

/-- An unexpected token is reported and taken away. -/
theorem reaches_skip_reported {s : State} {cause : ParseCause}
    (h : s.current.kind ≠ .eof) (hcause : cause.isLexical = false) :
    Reaches s (s.report s.current cause).advance :=
  (Reaches.report hcause).trans (Reaches.fetch (by rwa [State.current_report]))

theorem leads_declarations (fn : String) : Leads (declarations fn) := by
  intro s
  fun_induction Parser.declarations fn s with
  | case1 => exact .refl
  | case2 s t _ hline ih =>
    exact ih.after (.fetch fun heof => by simp [t, heof, endsLine] at hline)
  | case3 s t _ _ hname ih =>
    refine ih.after (reaches_statement (reachedFrom_declaration fun heof => ?_))
    simp [t, heof] at hname
  | case4 s => exact leads_failExpected _ s
  | case5 s t _ _ _ hlimit ih =>
    exact ih.after (reaches_skip_reported (fun heof => hlimit (.inl heof)) rfl)

theorem leads_statements (fn : String) : Leads (statements fn) := by
  intro s
  fun_induction Parser.statements fn s with
  | case1 => exact .refl
  | case2 s t _ hline ih =>
    exact ih.after (.fetch fun heof => by simp [t, heof, endsLine] at hline)
  | case3 s t _ _ hname ih =>
    refine ih.after (reaches_statement (reachedFrom_namedStatement fun heof => ?_))
    simp [t, heof] at hname
  | case4 s t _ _ _ hret ih =>
    refine ih.after (reaches_statement (reachedFrom_returnStatement fun heof => ?_))
    simp [t, heof] at hret
  | case5 s => exact leads_failExpected _ s
  | case6 s t _ _ _ _ hlimit ih =>
    exact ih.after (reaches_skip_reported (fun heof => hlimit (.inl heof)) rfl)

theorem reachedFrom_function {s : State} (h : s.current.kind ≠ .eof) :
    (function s).ReachedFrom s := by
  refine reachedFrom_take (fun t => (leads_identifier _).bind fun name => ?_) h
  have hclear : Leads clearBody := fun _ => .single .clear
  refine hclear.bind fun _ s => (leads_declarations _ s).bind fun _ s₁ hdone => ?_
  -- The declarations end in front of `begin` and the statements in front of
  -- `end`, so there is a token to take.
  have hbegin : s₁.current.kind ≠ .eof := by
    rw [InStep.current_of_declarations hdone]
    exact Token.Kind.noConfusion
  have hstatements := leads_statements name.lexeme s₁.advance
  refine (hstatements.bind fun _ s₂ hdone => ?_).after (.fetch hbegin)
  have hend : s₂.current.kind ≠ .eof := by
    rw [InStep.current_of_statements hdone]
    exact Token.Kind.noConfusion
  exact Reaches.fetch hend

theorem leads_parameter : Leads parameter :=
  (leads_identifier _).bind fun _ =>
      (leads_consume Token.Kind.noConfusion _).bind fun _ =>
    leads_typeName.bind fun _ => Leads.pure _

theorem leads_parameters (params : List Variable) : Leads (parameters params) := by
  intro s
  fun_induction Parser.parameters params s with
  | case1 params s s' hparam =>
    have h := leads_parameter s
    rw [hparam] at h
    exact h
  | case2 params s v s' hparam hcomma ih =>
    have h := leads_parameter s
    rw [hparam] at h
    exact ih.after
      (h.trans (Reaches.fetch (by rw [hcomma]; exact Token.Kind.noConfusion)))
  | case3 params s v s' hparam _ =>
    have h := leads_parameter s
    rw [hparam] at h
    exact ((leads_consume Token.Kind.noConfusion _).bind
      (fun _ => Leads.pure _) s').after h

theorem reachedFrom_externalFunction {s : State} (h : s.current.kind ≠ .eof) :
    (externalFunction s).ReachedFrom s := by
  refine reachedFrom_take (fun t => ?_) h
  refine (leads_consume Token.Kind.noConfusion _).bind fun _ =>
    (leads_identifier _).bind fun name => ?_
  refine (leads_consume Token.Kind.noConfusion _).bind fun _ =>
    (leads_accept Token.Kind.noConfusion).bind fun b => ?_
  cases b with
  | true => exact Leads.pure _
  | false => exact (leads_parameters []).bind fun _ => Leads.pure _

theorem reaches_skipGlobal (s : State) : Reaches s (skipGlobal s) := by
  fun_induction skipGlobal s with
  | case1 => exact .refl
  | case2 s hstop ih => exact (Reaches.fetch fun heof => hstop (.inl heof)).trans ih

theorem reaches_global {p : Parse Global} {s : State} (h : (p s).ReachedFrom s) :
    Reaches s (global p s).2 := by
  unfold global
  cases hp : p s with
  | done g s' => rw [hp] at h; exact h
  | abandoned s' => rw [hp] at h; exact h.1.trans (reaches_skipGlobal s')

/-- All of reading is a sequence of moves, and it goes on until the end
of the text is in view. -/
theorem reaches_globals (s : State) :
    Reaches s (globals s).2 ∧ (globals s).2.current.kind = .eof := by
  fun_induction globals s with
  | case1 s heof => exact ⟨.refl, heof⟩
  | case2 s heof _ r rest ih =>
    exact ⟨(reaches_global (reachedFrom_function heof)).trans ih.1, ih.2⟩
  | case3 s heof _ _ r rest ih =>
    exact ⟨(reaches_global (reachedFrom_externalFunction heof)).trans ih.1, ih.2⟩
  | case4 s heof _ _ ih => exact ⟨(Reaches.fetch heof).trans ih.1, ih.2⟩

end Parser

end Straightline
