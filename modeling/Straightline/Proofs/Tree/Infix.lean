import Mathlib
import Straightline.Proofs.Token.Munch
import Straightline.Proofs.Tree.Comb
import Straightline.Proofs.Tree.Invariant

/-!
# Which expressions are infix

Every expression of a tree comes from a run of operand and operator tokens that
stand next to each other in the text, and says what the comb of that run says
(`ReadsAs`). The run is matched by counting only: the operands go to one stack
and the operators to another. So an expression need not be infix, even if no
error is found (`exists_not_isInfix`). It is infix just if operands and
operators take turns in the text (`isInfix_iff_alternates`).
-/

namespace Straightline

/-! ## Infix expressions -/

namespace Expr

/-- The offsets of the literals and names of an expression. -/
def leafOffsets : Expr → List Int
  | .int p _ => [p.offset]
  | .text p _ => [p.offset]
  | .ident p _ => [p.offset]
  | .binary _ _ left right => left.leafOffsets ++ right.leafOffsets
  | .hole => []

/-- Whether each operator stands behind all of its left side and in front
of all of its right side. -/
def IsInfix : Expr → Prop
  | .binary _ p left right =>
    (∀ o ∈ left.leafOffsets, o < p.offset) ∧ (∀ o ∈ right.leafOffsets, p.offset < o) ∧
      left.IsInfix ∧ right.IsInfix
  | _ => True

instance decidableIsInfix : (e : Expr) → Decidable e.IsInfix
  | .int .. => .isTrue trivial
  | .text .. => .isTrue trivial
  | .ident .. => .isTrue trivial
  | .hole => .isTrue trivial
  | .binary _ p left right =>
    have := decidableIsInfix left
    have := decidableIsInfix right
    inferInstanceAs (Decidable ((∀ o ∈ left.leafOffsets, o < p.offset) ∧
      (∀ o ∈ right.leafOffsets, p.offset < o) ∧ left.IsInfix ∧ right.IsInfix))

end Expr

/-- The expressions of a tree: values that are assigned or returned,
and arguments of calls. -/
def Tree.exprs (t : Tree) : List Expr :=
  t.globals.flatMap fun g => g.body.flatMap Stmt.exprs

theorem leafOffsets_of_comb {es : List Expr} {ops : List (Operator × Position)}
    {e : Expr} (h : comb es ops = some e) :
    e.leafOffsets = es.flatMap Expr.leafOffsets := by
  fun_induction comb es ops generalizing e with
  | case1 e' =>
    cases h
    simp
  | case2 e' es o ops ih =>
    obtain ⟨right, hright, rfl⟩ := Option.map_eq_some_iff.mp h
    rw [Expr.leafOffsets, ih hright, List.flatMap_cons]
  | case3 => cases h

/-- In an infix comb an operand stands in front of the first operator. -/
theorem exists_leaf_before {es : List Expr} {s : Operator × Position}
    {ops : List (Operator × Position)} {e : Expr} (h : comb es (s :: ops) = some e)
    (he : e.IsInfix) : ∃ l ∈ es, ∀ o ∈ l.leafOffsets, o < s.2.offset := by
  cases es with
  | nil => cases h
  | cons l es =>
    rw [comb_cons] at h
    obtain ⟨right, -, rfl⟩ := Option.map_eq_some_iff.mp h
    exact ⟨l, by simp, he.1⟩

/-- In an infix comb an operator stands in front of the second operand. -/
theorem exists_sign_between {l l' : Expr} {es : List Expr}
    {ops : List (Operator × Position)} {e : Expr}
    (h : comb (l :: l' :: es) ops = some e) (he : e.IsInfix) :
    ∃ s ∈ ops, ∀ o ∈ l'.leafOffsets, s.2.offset < o := by
  cases ops with
  | nil => cases h
  | cons s ops =>
    rw [comb_cons] at h
    obtain ⟨right, hright, rfl⟩ := Option.map_eq_some_iff.mp h
    refine ⟨s, by simp, fun o ho => he.2.1 o ?_⟩
    rw [leafOffsets_of_comb hright, List.flatMap_cons]
    exact List.mem_append_left _ ho

namespace Parser

/-! ## Runs of tokens -/

/-- Whether operands and operators take turns, with an operand at both ends. -/
inductive Alternates : List Token → Prop
  | last {t : Token} : (leaf? t).isSome → Alternates [t]
  | more {t o : Token} {ts : List Token} :
      (leaf? t).isSome → (sign? o).isSome → Alternates ts → Alternates (t :: o :: ts)

/-- Whether `ts` are operands and operators only, and `e` is their comb. -/
def ReadsAs (ts : List Token) (e : Expr) : Prop :=
  (∀ t ∈ ts, IsPart t) ∧ comb (ts.filterMap leaf?) (ts.filterMap sign?) = some e

theorem leafOffsets_of_leaf? {t : Token} {e : Expr} (h : leaf? t = some e) :
    e.leafOffsets = [t.pos.offset] := by
  unfold leaf? at h
  split at h <;> cases h <;> rfl

theorem offset_of_sign? {t : Token} {o : Operator × Position} (h : sign? t = some o) :
    o.2.offset = t.pos.offset := by
  obtain ⟨op, -, rfl⟩ := Option.map_eq_some_iff.mp h
  rfl

/-- A part of an expression is either an operand or an operator. -/
theorem cases_of_isPart {t : Token} (h : IsPart t) :
    (∃ l, leaf? t = some l ∧ sign? t = none) ∨ ∃ s, leaf? t = none ∧
      sign? t = some s := by
  unfold IsPart leaf? sign? Token.Kind.operator? at *
  cases hkind : t.kind <;> simp_all

theorem sign?_eq_none_of_leaf? {t : Token} {l : Expr} (h : leaf? t = some l) :
    sign? t = none := by
  rcases cases_of_isPart (.inl (by rw [h]; rfl)) with ⟨_, -, hs⟩ | ⟨_, hl, -⟩
  · exact hs
  · cases h.symm.trans hl

theorem leaf?_eq_none_of_sign? {t : Token} {s : Operator × Position}
    (h : sign? t = some s) : leaf? t = none := by
  rcases cases_of_isPart (.inr (by rw [h]; rfl)) with ⟨_, -, hs⟩ | ⟨_, hl, -⟩
  · cases h.symm.trans hs
  · exact hl

theorem isInfix_of_leaf? {t : Token} {e : Expr} (h : leaf? t = some e) : e.IsInfix := by
  unfold leaf? at h
  split at h <;> cases h <;> trivial

/-- The operands of a run stand where its tokens do. -/
theorem mem_offsets_of_mem_leaves {ts : List Token} {o : Int}
    (h : o ∈ (ts.filterMap leaf?).flatMap Expr.leafOffsets) :
    ∃ t ∈ ts, t.pos.offset = o := by
  obtain ⟨e, he, ho⟩ := List.mem_flatMap.mp h
  obtain ⟨t, ht, hleaf⟩ := List.mem_filterMap.mp he
  rw [leafOffsets_of_leaf? hleaf] at ho
  exact ⟨t, ht, (List.mem_singleton.mp ho).symm⟩

/-- Tokens in the order of the text. -/
abbrev Ordered (ts : List Token) : Prop :=
  ts.Pairwise fun t u => t.pos.offset < u.pos.offset

theorem Alternates.isInfix {ts : List Token} {e : Expr} (h : Alternates ts)
    (hord : Ordered ts)
    (he : comb (ts.filterMap leaf?) (ts.filterMap sign?) = some e) : e.IsInfix := by
  induction h generalizing e with
  | @last t ht =>
    obtain ⟨l, hl⟩ := Option.isSome_iff_exists.mp ht
    simp only [List.filterMap_cons, List.filterMap_nil, hl,
      sign?_eq_none_of_leaf? hl, comb] at he
    cases he
    exact isInfix_of_leaf? hl
  | @more t o ts ht ho _ ih =>
    obtain ⟨l, hl⟩ := Option.isSome_iff_exists.mp ht
    obtain ⟨s, hs⟩ := Option.isSome_iff_exists.mp ho
    simp only [List.filterMap_cons, hl, leaf?_eq_none_of_sign? hs, hs,
      sign?_eq_none_of_leaf? hl, comb_cons] at he
    obtain ⟨right, hright, rfl⟩ := Option.map_eq_some_iff.mp he
    obtain ⟨hfirst, hord⟩ := List.pairwise_cons.mp hord
    obtain ⟨hsecond, hord⟩ := List.pairwise_cons.mp hord
    refine ⟨?_, ?_, isInfix_of_leaf? hl, ih hord hright⟩
    · intro offset hoffset
      rw [leafOffsets_of_leaf? hl, List.mem_singleton] at hoffset
      rw [hoffset, offset_of_sign? hs]
      exact hfirst o (by simp)
    · intro offset hoffset
      rw [leafOffsets_of_comb hright] at hoffset
      obtain ⟨u, hu, rfl⟩ := mem_offsets_of_mem_leaves hoffset
      rw [offset_of_sign? hs]
      exact hsecond u hu

theorem Alternates.of_isInfix {ts : List Token} {e : Expr} (h : ReadsAs ts e)
    (hord : Ordered ts) (he : e.IsInfix) : Alternates ts := by
  obtain ⟨hparts, hcomb⟩ := h
  induction ts using List.twoStepInduction generalizing e with
  | nil => cases hcomb
  | singleton t =>
    rcases cases_of_isPart (hparts t (by simp)) with ⟨l, hl, -⟩ | ⟨s, hl, hs⟩
    · exact .last (hl ▸ rfl)
    · simp [hl, hs, comb] at hcomb
  | cons_cons t u ts ih _ =>
    obtain ⟨ht, hparts⟩ := List.forall_mem_cons.mp hparts
    obtain ⟨hu, hparts⟩ := List.forall_mem_cons.mp hparts
    obtain ⟨hfirst, hord⟩ := List.pairwise_cons.mp hord
    obtain ⟨hsecond, hord⟩ := List.pairwise_cons.mp hord
    rcases cases_of_isPart ht with ⟨l, hl, hs⟩ | ⟨s, hl, hs⟩
    · rcases cases_of_isPart hu with ⟨l', hl', hs'⟩ | ⟨s', hl', hs'⟩
      · -- Two operands in a row: some operator further on would
        -- have to stand between them.
        simp only [List.filterMap_cons, hl, hs, hl', hs'] at hcomb
        obtain ⟨s, hmem, hbetween⟩ := exists_sign_between hcomb he
        obtain ⟨v, hv, hsign⟩ := List.mem_filterMap.mp hmem
        have hback := hbetween u.pos.offset (by simp [leafOffsets_of_leaf? hl'])
        rw [offset_of_sign? hsign] at hback
        exact absurd (hsecond v hv) (Int.lt_asymm hback)
      · simp only [List.filterMap_cons, hl, hs, hl', hs', comb_cons] at hcomb
        obtain ⟨right, hright, rfl⟩ := Option.map_eq_some_iff.mp hcomb
        exact .more (hl ▸ rfl) (hs' ▸ rfl) (ih hord he.2.2.2 hparts hright)
    · -- An operator comes first: some operand further on would
      -- have to stand in front of it.
      rw [List.filterMap_cons_none hl, List.filterMap_cons_some hs] at hcomb
      obtain ⟨l, hmem, hbefore⟩ := exists_leaf_before hcomb he
      obtain ⟨v, hv, hleaf⟩ := List.mem_filterMap.mp hmem
      have hback := hbefore v.pos.offset (by simp [leafOffsets_of_leaf? hleaf])
      rw [offset_of_sign? hs] at hback
      exact absurd (hfirst v hv) (Int.lt_asymm hback)

theorem isInfix_iff_of_readsAs {ts : List Token} {e : Expr} (h : ReadsAs ts e)
    (hord : Ordered ts) : e.IsInfix ↔ Alternates ts :=
  ⟨Alternates.of_isInfix h hord, fun halt => halt.isInfix hord h.2⟩

/-! ## Expressions come from runs of the text -/

/-- Whether `e` is read from tokens that stand next to each other in `all`. -/
def Drawn (all : List Token) (e : Expr) : Prop := ∃ part, part <:+: all ∧ ReadsAs part e

/-- A state that has an end piece of the tokens `all` left, and whose
statements are drawn from them. -/
def Draws (all : List Token) (s : State) : Prop :=
  s.tokens.map (·.token) <:+ all ∧ ∀ stmt ∈ s.body, ∀ e ∈ stmt.exprs, Drawn all e

variable {all : List Token}

theorem isStable_draws : IsStable (Draws all) where
  advance s hs := by
    refine ⟨((s.tokens_advance_suffix).map _).trans hs.1, ?_⟩
    rw [s.body_advance]
    exact hs.2
  record _ _ _ hs := hs

theorem ne_eof_of_isPart {t : Token} (h : IsPart t) : t.kind ≠ .eof := by
  intro heof
  simp [IsPart, leaf?, sign?, heof, Token.Kind.operator?] at h

theorem tokens_eq_cons {s : State} (h : s.current.kind ≠ .eof) :
    s.tokens.map (·.token) = s.current :: s.advance.tokens.map (·.token) := by
  unfold State.advance
  split
  · next hnil => simp [State.current, hnil] at h
  · next hcons => simp [State.current, hcons]

/-- What is still held of a run makes up an expression that is drawn from the text. -/
theorem drawn_of_mem_piece {part rest : List Token} (hsuffix : part ++ rest <:+ all)
    (hparts : ∀ t ∈ part, IsPart t) {required : Bool} {t : Token} {es : List Expr}
    (h : piece required (stacksOf part) t = .ok es) : ∀ e ∈ es, Drawn all e := by
  intro e he
  have hcomb := Stacks.foldAll_eq_some_iff.mp (fold_of_mem_piece h he)
  rw [stacksOf, List.reverse_reverse, List.reverse_reverse] at hcomb
  exact ⟨part, (List.prefix_append part rest).isInfix.trans hsuffix.isInfix,
    hparts, hcomb⟩

theorem yields_drawn (d : Delimiters) {exprs : List Expr} {held : Stacks}
    {s : State} (hs : Draws all s) (hexprs : ∀ e ∈ exprs, Drawn all e) :
    ∀ part, held = stacksOf part → part ++ s.tokens.map (·.token) <:+ all →
      (∀ t ∈ part, IsPart t) →
      (expressionsFrom d exprs held s).Meets (Draws all) fun es =>
        ∀ e ∈ es, Drawn all e := by
  -- The tokens held so far stand right in front of those that are left.
  fun_induction expressionsFrom d exprs held s with
  | case1 exprs held s t hend es hpiece =>
    rintro part rfl hsuffix hparts
    exact ⟨List.forall_mem_append.mpr
      ⟨hexprs, drawn_of_mem_piece hsuffix hparts hpiece⟩, hs⟩
  | case2 => exact fun _ _ _ _ => isStable_draws.yields_fail _ _ _ hs
  | case3 exprs held s t _ _ es hpiece ih =>
    rintro part rfl hsuffix hparts
    have hnext := isStable_draws.advance s hs
    have hall :=
      List.forall_mem_append.mpr ⟨hexprs, drawn_of_mem_piece hsuffix hparts hpiece⟩
    exact ih hnext hall [] rfl hnext.1 (by simp)
  | case4 => exact fun _ _ _ _ => isStable_draws.yields_fail _ _ _ hs
  | case5 exprs held s t _ _ held' hpush ih =>
    rintro part rfl hsuffix hparts
    obtain ⟨hpart, hheld⟩ := (pushToken?_stacksOf part t held').mp hpush
    refine ih (isStable_draws.advance s hs) hexprs (part ++ [t]) hheld ?_ ?_
    · rw [tokens_eq_cons (ne_eof_of_isPart hpart)] at hsuffix
      simpa using hsuffix
    · exact List.forall_mem_append.mpr ⟨hparts, List.forall_mem_singleton.mpr hpart⟩
  | case6 => exact fun _ _ _ _ => isStable_draws.yields_fail _ _ _ hs

/-- Whatever the text is like, statements are drawn from it. -/
theorem isInvariant_draws :
    IsInvariant (Draws all) (fun es => ∀ e ∈ es, Drawn all e) (fun _ => True) where
  toIsStable := isStable_draws
  expressions d s hs := yields_drawn d hs (by simp) [] rfl hs.1 (by simp)
  none := by simp
  name _ _ _ := trivial
  emit s stmt hstmt _ hs :=
    ⟨hs.1, List.forall_mem_append.mpr ⟨hs.2, List.forall_mem_singleton.mpr hstmt⟩⟩
  clear s hs := ⟨hs.1, by simp⟩

theorem drawn_of_mem_parse {l : Lexer} {e : Expr} (he : e ∈ (parse l).tree.exprs) :
    Drawn (l.drain.tokens.map (·.token)) e := by
  obtain ⟨g, hg, he⟩ := List.mem_flatMap.mp he
  obtain ⟨stmt, hstmt, he⟩ := List.mem_flatMap.mp he
  have hstart : Draws (l.drain.tokens.map (·.token))
      (State.start l.drain.tokens l.drain.eof.pos) :=
    ⟨List.suffix_refl _, by simp [State.start]⟩
  obtain ⟨-, -, s, hs, hbody⟩ := isInvariant_draws.of_mem_globals hstart g hg
  exact hs.2 stmt (hbody ▸ hstmt) e he

theorem ordered_drain (source : List UInt8) (filename : String) :
    Ordered ((Lexer.ofBytes source filename).drain.tokens.map (·.token)) := by
  obtain ⟨ts, q, hsplits⟩ :=
    Lexical.exists_splits (.start filename) (Rune.decode source)
  have hdrain : (Lexer.ofBytes source filename).drain.tokens = ts :=
    congrArg Lexer.Drained.tokens hsplits.drain_eq
  rw [hdrain]
  exact List.pairwise_map.mpr hsplits.increasing.2

/-- Each expression read from a text comes from a run of tokens in it, operands
and operators only, and is the comb of its operands and operators. It is infix
just if the two take turns in that run. -/
theorem isInfix_iff_alternates (source : List UInt8) (filename : String) (e : Expr)
    (he : e ∈ (parse (Lexer.ofBytes source filename)).tree.exprs) :
    ∃ part, part <:+: (Lexer.ofBytes source filename).drain.tokens.map (·.token) ∧
      ReadsAs part e ∧ (e.IsInfix ↔ Alternates part) := by
  obtain ⟨part, hpart, hreads⟩ := drawn_of_mem_parse he
  have hord : Ordered part := (ordered_drain source filename).sublist hpart.sublist
  exact ⟨part, hpart, hreads, isInfix_iff_of_readsAs hreads hord⟩

/-- A chain of three operands, as the second argument of a call. -/
theorem isInfix_iff_alternates_chain :
    let l := Lexer.ofBytes (Rune.utf8 "func f\nbegin\ng(a, 1 + b - 2);\nend\n") "f.ok"
    let at' (column offset : Int) : Position :=
      { filename := "f.ok", line := 3, column, offset }
    let e : Expr := .binary (.arith .add) (at' 8 20) (.int (at' 6 18) 1)
      (.binary (.arith .sub) (at' 12 24) (.ident (at' 10 22) "b") (.int (at' 14 26) 2))
    e ∈ (parse l).tree.exprs ∧
      ∃ part, part <:+: l.drain.tokens.map (·.token) ∧ ReadsAs part e ∧
      (e.IsInfix ↔ Alternates part) :=
  have he := by decide +kernel
  ⟨he, isInfix_iff_alternates _ _ _ he⟩

/-- Two operands in a row with an operator behind them are read without an error. -/
theorem exists_not_isInfix :
    let r := parse (Lexer.ofBytes (Rune.utf8 "func f\nbegin\nx = 1 2 +\nend") "test.ok")
    r.errors = [] ∧ ∃ e ∈ r.tree.exprs, ¬ e.IsInfix := by
  decide +kernel

end Parser

end Straightline
