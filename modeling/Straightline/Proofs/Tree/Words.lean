import Mathlib
import Straightline.Proofs.Tree.Infix

/-!
# Words of a text and of its tree

Names, literals, `return` and operators leave traces in the tree: a token of
these kinds becomes a name, a leaf, a statement or an operation, with its
position. Here is what a tree holds of them, from first to last (`wordsAfter`,
`operationsOf`), what the tokens of a text say (`word?`, `operation?`), and
which pieces of a text are declarations (`declared`). An expression holds what
the tokens say that it was read from (`words_of_piece`).
-/

namespace Straightline

/-! ## What the tree holds -/

/-- What a token says that is not an operator, if it leaves a trace in the tree. -/
inductive Word where
  | name (x : String)
  | number (n : Int32)
  | text (x : String)
  | returns
deriving DecidableEq, Repr

namespace Expr

/-- The leaves of an expression, from left to right. -/
def words : Expr → List (Position × Word)
  | .int p n => [(p, .number n)]
  | .text p x => [(p, .text x)]
  | .ident p x => [(p, .name x)]
  | .binary _ _ left right => left.words ++ right.words
  | .hole => []

/-- The operations of an expression, from left to right. -/
def operations : Expr → List (Position × OpCode)
  | .binary op p left right => left.operations ++ (p, op) :: right.operations
  | _ => []

end Expr

/-- The names and leaves of statements, and each `return`, from first to last.
An assignment right behind the declaration `named` that stands in the same place
gives the initial value, and shares its name. -/
def wordsAfter :
    (named : Option (Position × String)) → List Stmt → List (Position × Word)
  | _, [] => []
  | _, .decl p x _ :: rest => (p, .name x) :: wordsAfter (some (p, x)) rest
  | named, .assign p x values :: rest =>
    (if named = some (p, x) then [] else [(p, .name x)]) ++
      values.flatMap Expr.words ++ wordsAfter none rest
  | _, .call p x args :: rest =>
    (p, .name x) :: args.flatMap Expr.words ++ wordsAfter none rest
  | _, .ret p values :: rest =>
    (p, .returns) :: values.flatMap Expr.words ++ wordsAfter none rest

/-- The operations of statements, from first to last. -/
def operationsOf (stmts : List Stmt) : List (Position × OpCode) :=
  (stmts.flatMap Stmt.exprs).flatMap Expr.operations

namespace Global

/-- What a declaration holds behind its own name. -/
def words (g : Global) : List (Position × Word) :=
  g.params.map (fun v => (v.pos, .name v.name)) ++ wordsAfter none g.body

/-- The keyword that a declaration starts with. -/
def keyword : Global → Keyword
  | .func .. => .func
  | .external .. => .external

end Global

/-- Where no place is shared, statements can be listed one part after the other. -/
theorem wordsAfter_append {named : Option (Position × String)}
    {body rest : List Stmt}
    (hnamed : ∀ n ∈ named, ∀ w ∈ wordsAfter none rest, n.1 ≠ w.1)
    (h : ∀ w ∈ wordsAfter named body, ∀ w' ∈ wordsAfter none rest, w.1 ≠ w'.1) :
    wordsAfter named (body ++ rest) =
      wordsAfter named body ++ wordsAfter none rest := by
  induction body generalizing named with
  | nil =>
    -- Only an assignment in front could be taken for the initial value of `named`.
    cases rest with
    | nil => rfl
    | cons stmt rest =>
      cases stmt with
      | assign p x values =>
        have hne : named ≠ some (p, x) :=
          fun heq => hnamed (p, x) heq (p, .name x) (by simp [wordsAfter]) rfl
        simp [wordsAfter, hne]
      | _ => rfl
  | cons stmt body ih =>
    have hnone : ∀ n ∈ (none : Option (Position × String)),
      ∀ w ∈ wordsAfter none rest, n.1 ≠ w.1 := by simp
    cases stmt with
    | decl p x type =>
      obtain ⟨hfirst, hbody⟩ := List.forall_mem_cons.mp h
      have hdeclared : ∀ n ∈ some (p, x), ∀ w ∈ wordsAfter none rest, n.1 ≠ w.1 := by
        rintro n ⟨⟩
        exact hfirst
      simp [wordsAfter, ih hdeclared hbody]
    | assign p x values =>
      simp [wordsAfter, ih hnone fun w hw => h w (List.mem_append_right _ hw)]
    | call p x args =>
      simp [wordsAfter, ih hnone fun w hw => h w (List.mem_append_right _ hw)]
    | ret p values =>
      simp [wordsAfter, ih hnone fun w hw => h w (List.mem_append_right _ hw)]

theorem operationsOf_append (body rest : List Stmt) :
    operationsOf (body ++ rest) = operationsOf body ++ operationsOf rest := by
  simp [operationsOf]

theorem words_of_comb {es : List Expr} {ops : List (Operator × Position)} {e : Expr}
    (h : comb es ops = some e) : e.words = es.flatMap Expr.words := by
  fun_induction comb es ops generalizing e with
  | case1 e' =>
    cases h
    simp
  | case2 e' es o ops ih =>
    obtain ⟨right, hright, rfl⟩ := Option.map_eq_some_iff.mp h
    rw [Expr.words, ih hright, List.flatMap_cons]
  | case3 => cases h

theorem operations_of_comb {es : List Expr} {ops : List (Operator × Position)}
    {e : Expr} (h : comb es ops = some e) (hleaves : ∀ x ∈ es, x.operations = []) :
    e.operations = ops.map fun o => (o.2, .arith o.1) := by
  fun_induction comb es ops generalizing e with
  | case1 e' =>
    cases h
    exact hleaves e' (by simp)
  | case2 e' es o ops ih =>
    obtain ⟨right, hright, rfl⟩ := Option.map_eq_some_iff.mp h
    obtain ⟨hfirst, hrest⟩ := List.forall_mem_cons.mp hleaves
    rw [Expr.operations, hfirst, ih hright hrest, List.nil_append, List.map_cons]
  | case3 => cases h

namespace Parser

/-! ## What the text holds -/

/-- What a token says, if it leaves a trace in the tree and is not an operator. -/
def word? (t : Token) : Option (Position × Word) :=
  match t.kind with
  | .identifier => some (t.pos, .name t.lexeme)
  | .integer => some (t.pos, .number t.value)
  | .text => some (t.pos, .text t.lexeme)
  | .keyword .returns => some (t.pos, .returns)
  | _ => none

/-- The operation that a token is the sign of. -/
def operation? (t : Token) : Option (Position × OpCode) :=
  (sign? t).map fun o => (o.2, .arith o.1)

/-- What a declaration ends with that starts with a token of the given kind. -/
def closing? : Token.Kind → Option Token.Kind
  | .keyword .func => some (.keyword .ends)
  | .keyword .external => some (.mark .rightParen)
  | _ => none

/-- The pieces of a text that are declarations, from each `func` up to its `end`
and from each `extern` up to its `)`. -/
def declared : List Token → List (List Token)
  | [] => []
  | t :: ts =>
    match closing? t.kind with
    | none => declared ts
    | some close =>
      (t :: (ts.takeWhile (·.kind ≠ close) ++
        (ts.dropWhile (·.kind ≠ close)).take 1)) ::
        declared ((ts.dropWhile (·.kind ≠ close)).drop 1)
termination_by ts => ts.length
decreasing_by
  · simp
  · have hle := (ts.dropWhile_sublist (·.kind ≠ close)).length_le
    simp only [List.length_drop, List.length_cons]
    omega

/-- Whether `g` says what the tokens of a declaration say: it starts where they
do, and its name and then all that it holds are their words and operations, in
their places and in their order. -/
structure Accounts (ts : List Token) (g : Global) : Prop where
  first : ∃ t ∈ ts.head?, t.kind = .keyword g.keyword ∧ t.pos = g.pos
  last : ts.getLast?.map (·.kind) = closing? (.keyword g.keyword)
  words : ∃ p, ts.filterMap word? = (p, .name g.name) :: g.words
  operations : ts.filterMap operation? = operationsOf g.body

theorem declared_cons_of_none {t : Token} {ts : List Token}
    (h : closing? t.kind = none) : declared (t :: ts) = declared ts := by
  rw [declared, h]

theorem declared_cons_closed {first last : Token} {inner rest : List Token}
    (hfirst : closing? first.kind = some last.kind)
    (hinner : ∀ t ∈ inner, t.kind ≠ last.kind) :
    declared (first :: (inner ++ last :: rest)) =
      (first :: (inner ++ [last])) :: declared rest := by
  have htake : (inner ++ last :: rest).takeWhile (·.kind ≠ last.kind) = inner := by
    rw [List.takeWhile_append_of_pos (by simpa using hinner)]
    simp
  have hdrop : (inner ++ last :: rest).dropWhile (·.kind ≠ last.kind) =
      last :: rest := by
    rw [List.dropWhile_append_of_pos (by simpa using hinner)]
    simp
  rw [declared, hfirst]
  simp only [htake, hdrop, List.take_succ_cons, List.take_zero, List.drop_succ_cons,
    List.drop_zero]

/-! ## Operands and operators -/

theorem word?_of_leaf? {t : Token} {e : Expr} (h : leaf? t = some e) :
    ∃ w, word? t = some w ∧ e.words = [w] ∧ e.operations = [] := by
  unfold leaf? at h
  split at h
  · next hkind => cases h; exact ⟨_, by rw [word?, hkind], rfl, rfl⟩
  · next hkind => cases h; exact ⟨_, by rw [word?, hkind], rfl, rfl⟩
  · next hkind => cases h; exact ⟨_, by rw [word?, hkind], rfl, rfl⟩
  · cases h

theorem word?_of_sign? {t : Token} {o : Operator × Position}
    (h : sign? t = some o) : word? t = none := by
  obtain ⟨op, hop, -⟩ := Option.map_eq_some_iff.mp h
  unfold word?
  cases hkind : t.kind <;> simp [hkind, Token.Kind.operator?] at hop ⊢

theorem words_of_parts {part : List Token} (h : ∀ t ∈ part, IsPart t) :
    part.filterMap word? = (part.filterMap leaf?).flatMap Expr.words := by
  induction part with
  | nil => rfl
  | cons t ts ih =>
    obtain ⟨ht, hts⟩ := List.forall_mem_cons.mp h
    rcases cases_of_isPart ht with ⟨l, hleaf, -⟩ | ⟨o, hleaf, hsign⟩
    · obtain ⟨w, hw, hwords, -⟩ := word?_of_leaf? hleaf
      rw [List.filterMap_cons_some hw, List.filterMap_cons_some hleaf,
        List.flatMap_cons, hwords, ih hts]
      rfl
    · rw [List.filterMap_cons_none (word?_of_sign? hsign),
        List.filterMap_cons_none hleaf, ih hts]

theorem operations_of_tokens (ts : List Token) :
    ts.filterMap operation? = (ts.filterMap sign?).map fun o => (o.2, .arith o.1) :=
  List.map_filterMap.symm

/-- Stacks that make up nothing are empty. -/
theorem eq_nil_of_foldAll {operands : List Expr}
    {operators : List (Operator × Position)}
    (h : Stacks.foldAll operands operators = .ok none) :
    operands = [] ∧ operators = [] := by
  fun_induction Stacks.foldAll operands operators with
  | case1 right left rest op pos ops ih => cases (ih h).1
  | case2 => cases h
  | case3 => exact ⟨rfl, rfl⟩
  | case4 => cases h
  | case5 => cases h

/-- An expression says what the tokens say that it was read from. -/
theorem words_of_piece {part : List Token} (hparts : ∀ t ∈ part, IsPart t)
    {required : Bool} {t : Token} {es : List Expr}
    (h : piece required (stacksOf part) t = .ok es) :
    part.filterMap word? = es.flatMap Expr.words ∧
      part.filterMap operation? = es.flatMap Expr.operations := by
  rw [words_of_parts hparts, operations_of_tokens]
  unfold piece at h
  split at h
  · cases h
  · cases hfold : (stacksOf part).fold with
    | error e => rw [hfold] at h; cases h
    | ok e? =>
      rw [hfold] at h
      cases h
      cases e? with
      | none =>
        obtain ⟨hoperands, hoperators⟩ := eq_nil_of_foldAll hfold
        rw [List.reverse_eq_nil_iff.mp hoperands, List.reverse_eq_nil_iff.mp hoperators]
        exact ⟨rfl, rfl⟩
      | some e =>
        have hcomb := Stacks.foldAll_eq_some_iff.mp hfold
        rw [stacksOf, List.reverse_reverse, List.reverse_reverse] at hcomb
        have hleaves : ∀ x ∈ part.filterMap leaf?, x.operations = [] := by
          intro x hx
          obtain ⟨u, -, hleaf⟩ := List.mem_filterMap.mp hx
          obtain ⟨w, -, -, hnone⟩ := word?_of_leaf? hleaf
          exact hnone
        simp only [Option.toList_some, List.flatMap_cons, List.flatMap_nil,
          List.append_nil]
        exact ⟨(words_of_comb hcomb).symm, (operations_of_comb hcomb hleaves).symm⟩

end Parser

end Straightline
