import Mathlib
import Straightline.Proofs.Tree.WellFormed
import Straightline.Proofs.Tree.Words

/-!
# What folding two stacks comes to

The operator on top takes two operands and leaves one, so how far folding gets
depends on the two numbers alone. With one operand more than operators it makes
the right comb; with no operands and no operators it makes nothing. With too
few operands it stops at the operator that finds less than two, and with too
many it complains about the second one. `fold_is_right_comb` says all of this
of the lists in the order of the text, and that a list of expressions has one
for each piece between its commas.
-/

namespace Straightline

/-! ## Combs -/

namespace Expr

/-- The leaves of an expression, from left to right. -/
def leaves : Expr → List Expr
  | .binary _ _ left right => left.leaves ++ right.leaves
  | e => [e]

theorem leaves_of_isLeaf {e : Expr} (h : e.isLeaf = true) : e.leaves = [e] := by
  cases e with
  | binary => cases h
  | _ => rfl

theorem operations_of_isLeaf {e : Expr} (h : e.isLeaf = true) : e.operations = [] := by
  cases e with
  | binary => cases h
  | _ => rfl

end Expr

/-- Operands with operators between them, nested to the right in front of `last`. -/
def nest (pairs : List (Expr × Operator × Position)) (last : Expr) : Expr :=
  pairs.foldr (fun p right => .binary (.arith p.2.1) p.2.2 p.1 right) last

theorem comb_eq_nest {es : List Expr} {ops : List (Operator × Position)} {last : Expr}
    (hlast : es.getLast? = some last) (hlength : es.length = ops.length + 1) :
    comb es ops = some (nest (es.zip ops) last) := by
  induction es generalizing ops with
  | nil => cases hlast
  | cons e es ih =>
    cases ops with
    | nil =>
      obtain rfl : es = [] := List.length_eq_zero_iff.mp (by simpa using hlength)
      cases hlast
      rfl
    | cons o ops =>
      obtain ⟨e', es, rfl⟩ : ∃ e' es', es = e' :: es' :=
        List.exists_cons_of_length_eq_add_one (by simpa using hlength)
      rw [List.getLast?_cons_cons] at hlast
      rw [comb_cons, ih hlast (by simpa using hlength)]
      rfl

theorem exists_comb_iff {es : List Expr} {ops : List (Operator × Position)} :
    (∃ e, comb es ops = some e) ↔ es.length = ops.length + 1 := by
  constructor
  · rintro ⟨e, he⟩
    exact length_of_comb he
  · intro hlength
    have hne : es ≠ [] := List.ne_nil_of_length_eq_add_one hlength
    exact ⟨_, comb_eq_nest (List.getLast?_eq_some_getLast hne) hlength⟩

theorem eq_nest_of_comb {es : List Expr} {ops : List (Operator × Position)}
    {e : Expr} (h : comb es ops = some e) :
    ∃ last, es.getLast? = some last ∧ e = nest (es.zip ops) last := by
  have hlength := length_of_comb h
  have hlast := List.getLast?_eq_some_getLast (List.ne_nil_of_length_eq_add_one hlength)
  exact ⟨_, hlast, Option.some.inj (h.symm.trans (comb_eq_nest hlast hlength))⟩

theorem leaves_of_comb {es : List Expr} {ops : List (Operator × Position)}
    {e : Expr} (h : comb es ops = some e) (hleaves : ∀ x ∈ es, x.isLeaf = true) :
    e.leaves = es := by
  fun_induction comb es ops generalizing e with
  | case1 e' =>
    cases h
    exact Expr.leaves_of_isLeaf (hleaves e' (by simp))
  | case2 e' es o ops ih =>
    obtain ⟨right, hright, rfl⟩ := Option.map_eq_some_iff.mp h
    obtain ⟨hfirst, hrest⟩ := List.forall_mem_cons.mp hleaves
    rw [Expr.leaves, Expr.leaves_of_isLeaf hfirst, ih hright hrest,
      List.singleton_append]
  | case3 => cases h

namespace Stacks

/-! ## Where folding stops -/

theorem foldAll_eq_none_iff {operands : List Expr}
    {operators : List (Operator × Position)} :
    foldAll operands operators = .ok none ↔ operands = [] ∧ operators = [] := by
  refine ⟨Parser.eq_nil_of_foldAll, ?_⟩
  rintro ⟨rfl, rfl⟩
  rfl

/-- With too few operands, the operator is to blame that finds less than two of them. -/
theorem foldAll_eq_missing {operands : List Expr}
    {operators : List (Operator × Position)} {o : Operator × Position}
    (hfew : operands.length ≤ operators.length)
    (ho : operators[operands.length - 1]? = some o) :
    foldAll operands operators = .error (.missingOperand o.1 o.2) := by
  fun_induction foldAll operands operators with
  | case1 right left rest op pos ops ih =>
    -- Two operands and an operator went, and one operand came back.
    refine ih ?_ ?_
    · simpa using hfew
    · simpa using ho
  | case2 operands op pos ops h =>
    have htop : operands.length - 1 = 0 := by
      rcases operands with _ | ⟨right, _ | ⟨left, rest⟩⟩
      · rfl
      · rfl
      · exact (h right left rest rfl).elim
    rw [htop] at ho
    cases ho
    rfl
  | case3 => cases ho
  | case4 => cases hfew
  | case5 => cases hfew

/-- With too many operands, the second one read is in the way, or what was
folded and starts with it. -/
theorem foldAll_eq_stray {operands : List Expr}
    {operators : List (Operator × Position)} {x : Expr}
    (hmany : operators.length + 2 ≤ operands.length)
    (hx : operands.reverse[1]? = some x) (hole : x.isHole = false) :
    foldAll operands operators = .error (.strayOperand x.pos) := by
  fun_induction foldAll operands operators generalizing x with
  | case1 right left rest op pos ops ih =>
    simp only [List.length_cons, Nat.add_le_add_iff_right] at hmany
    have hsecond : ∃ y, (Expr.binary (.arith op) pos left right ::
        rest).reverse[1]? = some y ∧ y.isHole = false ∧ y.pos = x.pos := by
      rcases rest with _ | ⟨first, _ | ⟨e, rest⟩⟩
      · simp at hmany
      · -- The second operand is on the left of what was folded now.
        cases hx
        exact ⟨_, rfl, rfl, if_neg (by rw [hole]; exact Bool.false_ne_true)⟩
      · have hbelow : 1 < (first :: e :: rest).reverse.length := by simp
        rw [List.reverse_cons, List.reverse_cons, List.append_assoc,
          List.getElem?_append_left hbelow] at hx
        exact ⟨x, by rw [List.reverse_cons, List.getElem?_append_left hbelow, hx],
          hole, rfl⟩
    obtain ⟨y, hy, hole', hpos⟩ := hsecond
    rw [← hpos]
    exact ih (by simpa using hmany) hy hole'
  | case2 operands op pos ops h =>
    rcases operands with _ | ⟨right, _ | ⟨left, rest⟩⟩
    · simp at hmany
    · simp at hmany
    · exact (h right left rest rfl).elim
  | case3 => simp at hmany
  | case4 => simp at hmany
  | case5 e e' rest =>
    rw [hx]
    rfl

/-- Whether folding fails, with the error `text` at `pos`. -/
def FailsAt (s : Stacks) (pos : Position) (text : String) : Prop :=
  ∃ err, s.fold = .error err ∧ (Parser.combError err).pos = pos ∧
    (Parser.combError err).cause.message = text

section
variable {es : List Expr} {ops : List (Operator × Position)}

theorem fold_inOrder {e : Expr} :
    fold ⟨es.reverse, ops.reverse⟩ = .ok (some e) ↔ comb es ops = some e := by
  rw [fold, foldAll_eq_some_iff, List.reverse_reverse, List.reverse_reverse]

theorem failsAt_missing {o : Operator × Position} (hfew : es.length ≤ ops.length)
    (ho : ops.reverse[es.length - 1]? = some o) :
    FailsAt ⟨es.reverse, ops.reverse⟩ o.2
      ("operator " ++ o.1.sign ++ " is missing an operand") := by
  refine ⟨.missingOperand o.1 o.2, foldAll_eq_missing ?_ ?_, rfl, rfl⟩
  · simpa using hfew
  · simpa using ho

theorem failsAt_stray {x : Expr} (hmany : ops.length + 2 ≤ es.length)
    (hx : es[1]? = some x) (hole : x.isHole = false) :
    FailsAt ⟨es.reverse, ops.reverse⟩ x.pos
      "unexpected operand; expressions combine values with + - * or /" := by
  refine ⟨.strayOperand x.pos, foldAll_eq_stray ?_ ?_ hole, rfl, rfl⟩
  · simpa using hmany
  · simpa using hx

end

end Stacks

namespace Parser

/-! ## One expression for each piece between commas -/

/-- Whether a token separates arguments. -/
def isComma (t : Token) : Bool := t.kind == .mark .comma

/-- The tokens that a list of expressions is read from. -/
def front (d : Delimiters) (s : State) : List Token :=
  (s.tokens.map (·.token)).takeWhile fun t =>
    !(t.kind == d.stop || endsExpression t.kind)

/-- Whether `ts` hold one expression of `es` between any two commas. Only if
nothing is required may there be nothing at all. -/
def Reads (required : Bool) (ts : List Token) (es : List Expr) : Prop :=
  (required = false ∧ ts = [] ∧ es = []) ∨ List.Forall₂ ReadsAs (ts.splitOnP isComma) es

theorem isComma_of_isPart {t : Token} (h : IsPart t) : isComma t = false := by
  unfold IsPart leaf? sign? Token.Kind.operator? at h
  unfold isComma
  cases hkind : t.kind <;> simp_all

theorem front_of_ends {d : Delimiters} {s : State}
    (h : s.current.kind = d.stop ∨ endsExpression s.current.kind) :
    front d s = [] := by
  unfold front
  cases htokens : s.tokens with
  | nil => rfl
  | cons t ts =>
    have hcurrent : s.current = t.token := by simp [State.current, htokens]
    rw [hcurrent] at h
    rw [List.map_cons, List.takeWhile_cons_of_neg
      (by simpa [or_iff_not_imp_left] using h)]

theorem front_of_goes_on {d : Delimiters} {s : State}
    (h : ¬ (s.current.kind = d.stop ∨ endsExpression s.current.kind)) :
    front d s = s.current :: front d s.advance := by
  have hne : s.current.kind ≠ .eof := by
    intro heof
    exact h (.inr (by rw [heof]; rfl))
  unfold front
  rw [tokens_eq_cons hne, List.takeWhile_cons_of_pos (by simpa using h)]

theorem readsAs_nil (e : Expr) : ¬ ReadsAs [] e := by
  rintro ⟨-, hcomb⟩
  cases hcomb

theorem reads_of_forall_isPart {required : Bool} {part : List Token}
    {es : List Expr} (hparts : ∀ t ∈ part, IsPart t) :
    Reads required part es ↔ (required = false ∧ part = [] ∧ es = []) ∨ ∃ e,
      ReadsAs part e ∧ es = [e] := by
  rw [Reads, List.splitOnP_eq_singleton fun t ht => isComma_of_isPart (hparts t ht)]
  refine or_congr Iff.rfl ⟨?_, ?_⟩
  · rintro (_ | ⟨he, _ | _⟩)
    exact ⟨_, he, rfl⟩
  · rintro ⟨e, he, rfl⟩
    exact .cons he .nil

theorem reads_append_comma {required : Bool} {part rest : List Token}
    {comma : Token} {es : List Expr} (hparts : ∀ t ∈ part, IsPart t)
    (hcomma : isComma comma = true) :
    Reads required (part ++ comma :: rest) es ↔ ∃ e more, ReadsAs part e ∧
      Reads true rest more ∧ es = e :: more := by
  rw [Reads, List.splitOnP_append_cons_of_forall_mem
    (fun t ht => isComma_of_isPart (hparts t ht)) comma hcomma,
    List.forall₂_cons_left_iff]
  simp [Reads]

/-- Between the commas there are operands and operators only. -/
theorem Reads.isPart {required : Bool} {ts : List Token} {es : List Expr}
    (h : Reads required ts es) : ∀ t ∈ ts, isComma t = true ∨ IsPart t := by
  rcases h with ⟨-, rfl, -⟩ | h
  · simp
  · obtain ⟨hpieces, -⟩ := (List.forall₂_and_left (ts.splitOnP isComma) es).mp h
    clear h
    induction ts with
    | nil => simp
    | cons t ts ih =>
      rw [List.splitOnP_cons_eq_if_modifyHead] at hpieces
      obtain ⟨part, parts, hsplit⟩ :=
        List.exists_cons_of_ne_nil (List.splitOnP_ne_nil isComma ts)
      rw [hsplit] at hpieces ih
      split at hpieces
      · next hcomma =>
        exact List.forall_mem_cons.mpr ⟨.inl hcomma, ih fun p hp =>
          hpieces p (List.mem_cons_of_mem _ hp)⟩
      · obtain ⟨hfirst, hrest⟩ := List.forall_mem_cons.mp hpieces
        obtain ⟨ht, hpart⟩ := List.forall_mem_cons.mp hfirst
        exact List.forall_mem_cons.mpr
          ⟨.inr ht, ih (List.forall_mem_cons.mpr ⟨hpart, hrest⟩)⟩

theorem stacksOf_isEmpty {part : List Token} (hparts : ∀ t ∈ part, IsPart t) :
    (stacksOf part).isEmpty = true ↔ part = [] := by
  cases part with
  | nil => exact ⟨fun _ => rfl, fun _ => rfl⟩
  | cons t ts =>
    rcases cases_of_isPart (hparts t (by simp)) with ⟨l, hl, -⟩ | ⟨o, -, ho⟩
    · simp [stacksOf, Stacks.isEmpty, hl]
    · simp [stacksOf, Stacks.isEmpty, ho]

/-- What is held makes up a list of expressions just if its tokens do. -/
theorem piece_stacksOf {required : Bool} {part : List Token} {t : Token}
    {es : List Expr} (hparts : ∀ t ∈ part, IsPart t) :
    piece required (stacksOf part) t = .ok es ↔ Reads required part es := by
  have hnone : (stacksOf part).fold = .ok none ↔ part = [] := by
    rw [Stacks.fold, Stacks.foldAll_eq_none_iff, ← stacksOf_isEmpty hparts]
    simp [Stacks.isEmpty]
  have hsome (e : Expr) : (stacksOf part).fold = .ok (some e) ↔ ReadsAs part e := by
    rw [Stacks.fold, Stacks.foldAll_eq_some_iff, stacksOf, List.reverse_reverse,
      List.reverse_reverse]
    exact (and_iff_right hparts).symm
  rw [reads_of_forall_isPart hparts]
  simp only [piece, Bool.and_eq_true, stacksOf_isEmpty hparts, ← hsome, ← hnone]
  cases hfold : (stacksOf part).fold with
  | error err => simp
  | ok e? =>
    cases e? with
    | none => cases required <;> simp [eq_comm]
    | some e => simp [eq_comm]

/-- A list of expressions is read just if there is one for each piece between
the commas; what ends it stays. -/
theorem expressionsFrom_eq_done_iff {d : Delimiters}
    (hcommas : d.separator = some (.mark .comma)) {exprs : List Expr}
    {held : Stacks} {s : State} {es : List Expr} {s' : State} :
    ∀ part, held = stacksOf part → (∀ t ∈ part, IsPart t) →
      (expressionsFrom d exprs held s = .done es s' ↔
        s' = State.advance^[(front d s).length] s ∧
        ∃ more, es = exprs ++ more ∧
        Reads (!exprs.isEmpty) (part ++ front d s) more) := by
  have hcomma {t : Token} (h : some t.kind = d.separator) : isComma t = true := by
    rw [hcommas, Option.some.injEq] at h
    rw [isComma, h, beq_self_eq_true]
  -- The tokens held so far stand right in front of those that are left.
  fun_induction expressionsFrom d exprs held s with
  | case1 exprs held s t hend more hpiece =>
    rintro part rfl hparts
    rw [front_of_ends hend, List.append_nil]
    constructor
    · intro h
      cases h
      exact ⟨rfl, more, rfl, (piece_stacksOf hparts).mp hpiece⟩
    · rintro ⟨rfl, more', rfl, hreads⟩
      cases hpiece.symm.trans ((piece_stacksOf hparts).mpr hreads)
      rfl
  | case2 exprs held s t hend err hpiece =>
    rintro part rfl hparts
    rw [front_of_ends hend, List.append_nil]
    constructor
    · intro h
      cases h
    · rintro ⟨-, more, -, hreads⟩
      cases hpiece.symm.trans ((piece_stacksOf hparts).mpr hreads)
  | case3 exprs held s t hgo hsep es' hpiece ih =>
    rintro part rfl hparts
    obtain ⟨h, -⟩ | ⟨e, he, rfl⟩ :=
      (reads_of_forall_isPart hparts).mp ((piece_stacksOf hparts).mp hpiece)
    · cases h
    have hrequired : (!(exprs ++ [e]).isEmpty) = true := by cases exprs <;> rfl
    rw [ih [] rfl (by simp), front_of_goes_on hgo, List.nil_append,
      List.length_cons, Function.iterate_succ_apply, hrequired]
    refine and_congr Iff.rfl ⟨?_, ?_⟩
    · rintro ⟨more, rfl, hrest⟩
      exact ⟨e :: more, by simp, (reads_append_comma hparts (hcomma hsep)).mpr
        ⟨e, more, he, hrest, rfl⟩⟩
    · rintro ⟨more, rfl, hreads⟩
      obtain ⟨e', more, he', hrest, rfl⟩ :=
        (reads_append_comma hparts (hcomma hsep)).mp hreads
      cases he.2.symm.trans he'.2
      exact ⟨more, by simp, hrest⟩
  | case4 exprs held s t hgo hsep err hpiece =>
    rintro part rfl hparts
    rw [front_of_goes_on hgo]
    constructor
    · intro h
      cases h
    · rintro ⟨-, more, -, hreads⟩
      obtain ⟨e, more, he, -, -⟩ := (reads_append_comma hparts (hcomma hsep)).mp hreads
      cases hpiece.symm.trans ((piece_stacksOf hparts).mpr
        ((reads_of_forall_isPart hparts).mpr (.inr ⟨e, he, rfl⟩)))
  | case5 exprs held s t hgo hsep held' hpush ih =>
    rintro part rfl hparts
    obtain ⟨hpart, hheld⟩ := (pushToken?_stacksOf part t held').mp hpush
    have hlonger :=
      List.forall_mem_append.mpr ⟨hparts, List.forall_mem_singleton.mpr hpart⟩
    rw [ih (part ++ [t]) hheld hlonger, front_of_goes_on hgo, List.append_assoc,
      List.singleton_append, List.length_cons, Function.iterate_succ_apply]
  | case6 exprs held s t hgo hsep hpush =>
    rintro part rfl hparts
    rw [front_of_goes_on hgo]
    constructor
    · intro h
      cases h
    · rintro ⟨-, more, -, hreads⟩
      rcases hreads.isPart t (by simp [t]) with hsep' | hpart
      · rw [isComma, beq_iff_eq] at hsep'
        exact absurd (hsep' ▸ hcommas.symm) hsep
      · cases hpush.symm.trans ((pushToken?_stacksOf part t _).mpr ⟨hpart, rfl⟩)

theorem expressions_eq_done_iff {d : Delimiters}
    (hcommas : d.separator = some (.mark .comma)) {s s' : State} {es : List Expr} :
    expressions d s = .done es s' ↔ s' = State.advance^[(front d s).length] s ∧
      List.Forall₂ ReadsAs (if front d s = [] then []
        else (front d s).splitOnP isComma) es := by
  have hread := @expressionsFrom_eq_done_iff d hcommas [] {} s es s' [] rfl (by simp)
  refine hread.trans (and_congr Iff.rfl ?_)
  by_cases hfront : front d s = []
  · rw [if_pos hfront, hfront, List.nil_append, List.forall₂_nil_left_iff]
    simp [reads_of_forall_isPart, readsAs_nil]
  · rw [if_neg hfront]
    simp [Reads, hfront]

end Parser

/-! ## All of it together -/

/-- Folding operands and operators, given in the order of the text, makes
nothing just if there are none, and an expression just if there is one operand
more: each operator takes the operand in front of it, and all that follows as
its right side. With too few operands the error is at the operator that finds
less than two, with too many it is at the second operand. A list of expressions,
ended by any kind of token, holds just one for each piece between its commas. -/
theorem fold_is_right_comb (es : List Expr) (ops : List (Operator × Position)) :
    let held : Stacks := ⟨es.reverse, ops.reverse⟩
    (held.fold = .ok none ↔ es = [] ∧ ops = []) ∧
    ((∃ e, held.fold = .ok (some e)) ↔ es.length = ops.length + 1) ∧
    (∀ e, held.fold = .ok (some e) →
      (∃ last, es.getLast? = some last ∧ e = nest (es.zip ops) last) ∧
      ((∀ x ∈ es, x.isLeaf = true) →
        e.leaves = es ∧ e.operations = ops.map fun o => (o.2, .arith o.1))) ∧
    (∀ o, 1 ≤ es.length → es.length ≤ ops.length →
      ops[ops.length - es.length]? = some o →
      held.FailsAt o.2 ("operator " ++ o.1.sign ++ " is missing an operand")) ∧
    (∀ o, es = [] → ops[ops.length - 1]? = some o →
      held.FailsAt o.2 ("operator " ++ o.1.sign ++ " is missing an operand")) ∧
    (∀ x, ops.length + 2 ≤ es.length → es[1]? = some x → x.isHole = false →
      held.FailsAt x.pos
        "unexpected operand; expressions combine values with + - * or /") ∧
    ∀ (stop : Token.Kind) (s s' : Parser.State) (found : List Expr),
      let d : Parser.Delimiters := ⟨stop, some (.mark .comma)⟩
      let ts := Parser.front d s
      Parser.expressions d s = .done found s' ↔
      s' = Parser.State.advance^[ts.length] s ∧
        List.Forall₂ Parser.ReadsAs
          (if ts = [] then [] else ts.splitOnP Parser.isComma) found := by
  intro held
  refine ⟨?_, ?_, ?_, ?_, ?_, ?_, ?_⟩
  · rw [Stacks.fold, Stacks.foldAll_eq_none_iff, List.reverse_eq_nil_iff,
      List.reverse_eq_nil_iff]
  · simp only [held, Stacks.fold_inOrder, exists_comb_iff]
  · intro e he
    rw [Stacks.fold_inOrder] at he
    refine ⟨eq_nest_of_comb he, fun hleaves => ⟨leaves_of_comb he hleaves, ?_⟩⟩
    exact operations_of_comb he fun x hx => Expr.operations_of_isLeaf (hleaves x hx)
  · intro o hsome hfew ho
    refine Stacks.failsAt_missing hfew ?_
    rw [List.getElem?_reverse (by omega), ← ho]
    congr 1
    omega
  · rintro o rfl ho
    refine Stacks.failsAt_missing (Nat.zero_le _) ?_
    obtain ⟨hbound, -⟩ := List.getElem?_eq_some_iff.mp ho
    rw [List.getElem?_reverse (by rw [List.length_nil]; omega), ← ho]
    rfl
  · exact fun x => Stacks.failsAt_stray
  · exact fun stop s s' found => Parser.expressions_eq_done_iff rfl

/-- Three operands with two operators nest, with three operators the first one
lacks an operand, and with none the second operand is in the way. -/
theorem fold_is_right_comb_three :
    let place (column : Int) : Position := { line := 1, column }
    let es : List Expr := [.int (place 1) 8, .ident (place 5) "x", .int (place 9) 2]
    let ops : List (Operator × Position) := [(.sub, place 3), (.div, place 7)]
    let more : Operator × Position := (.mul, place 11)
    (∃ e, Stacks.fold ⟨es.reverse, ops.reverse⟩ = .ok (some e) ∧ e.leaves = es ∧
      e.operations = [(place 3, .arith .sub), (place 7, .arith .div)]) ∧
    Stacks.FailsAt ⟨es.reverse, (ops ++ [more]).reverse⟩
      (place 3) "operator - is missing an operand" ∧
    Stacks.FailsAt ⟨[], ops.reverse⟩ (place 7) "operator / is missing an operand" ∧
    Stacks.FailsAt ⟨es.reverse, []⟩ (place 5)
        "unexpected operand; expressions combine values with + - * or /" := by
  intro place es ops more
  obtain ⟨-, hsome, htree, -, -, -, -⟩ := fold_is_right_comb es ops
  obtain ⟨-, -, -, hmissing, -, -, -⟩ := fold_is_right_comb es (ops ++ [more])
  obtain ⟨-, -, -, -, hbare, -, -⟩ := fold_is_right_comb [] ops
  obtain ⟨-, -, -, -, -, hstray, -⟩ := fold_is_right_comb es []
  obtain ⟨e, he⟩ := hsome.mpr rfl
  refine ⟨⟨e, he, (htree e he).2 (by decide)⟩, ?_, ?_, ?_⟩
  · exact hmissing (.sub, place 3) (by decide) (by decide) rfl
  · exact hbare (.div, place 7) rfl rfl
  · exact hstray (.ident (place 5) "x") (by decide) rfl rfl

end Straightline
