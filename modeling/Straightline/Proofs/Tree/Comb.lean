import Mathlib
import Straightline.Tree.Parser

/-!
# Combs

`comb` nests operands and operators to the right, in the order in which they
were read. Folding two stacks gives the comb of what is on them
(`foldAll_eq_some_iff`), so an expression depends on the tokens it was read from
only through two lists: its operands and its operators (`stacksOf`).
-/

namespace Straightline

/-! ## Folding -/

/-- The operands with the operators between them, nested to the right;
there is one operand more. -/
def comb : List Expr → List (Operator × Position) → Option Expr
  | [e], [] => some e
  | e :: es, o :: ops => (comb es ops).map (.binary (.arith o.1) o.2 e)
  | _, _ => none

theorem comb_cons (e : Expr) (es : List Expr) (o : Operator × Position)
    (ops : List (Operator × Position)) :
    comb (e :: es) (o :: ops) = (comb es ops).map (.binary (.arith o.1) o.2 e) := by
  cases es <;> rfl

theorem length_of_comb {es : List Expr} {ops : List (Operator × Position)} {e : Expr}
    (h : comb es ops = some e) : es.length = ops.length + 1 := by
  fun_induction comb es ops generalizing e with
  | case1 => rfl
  | case2 e' es o ops ih =>
    obtain ⟨right, hright, -⟩ := Option.map_eq_some_iff.mp h
    simp [ih hright]
  | case3 => cases h

theorem comb_eq_none {es : List Expr} {ops : List (Operator × Position)}
    (h : es.length ≠ ops.length + 1) : comb es ops = none := by
  cases hcomb : comb es ops with
  | none => rfl
  | some e => exact absurd (length_of_comb hcomb) h

/-- The innermost operation can be put together first. -/
theorem comb_snoc (es : List Expr) (left right : Expr)
    (ops : List (Operator × Position)) (o : Operator × Position) :
    comb (es ++ [left, right]) (ops ++ [o]) =
      comb (es ++ [.binary (.arith o.1) o.2 left right]) ops := by
  by_cases hlength : es.length = ops.length
  · induction es generalizing ops with
    | nil =>
      obtain rfl := List.length_eq_zero_iff.mp hlength.symm
      rfl
    | cons e es ih =>
      obtain ⟨o', ops, rfl⟩ := List.exists_cons_of_length_eq_add_one hlength.symm
      simp only [List.cons_append, comb_cons, ih ops (by simpa using hlength)]
  · rw [comb_eq_none (by simpa using hlength), comb_eq_none (by simpa using hlength)]

namespace Stacks

/-- Two stacks make up an expression just if it is the comb of what is on them. -/
theorem foldAll_eq_some_iff {operands : List Expr}
    {operators : List (Operator × Position)} {e : Expr} :
    foldAll operands operators = .ok (some e) ↔
      comb operands.reverse operators.reverse = some e := by
  fun_induction foldAll operands operators with
  | case1 right left rest op pos ops ih =>
    rw [ih]
    simp only [List.reverse_cons, List.append_assoc, List.cons_append,
      List.nil_append, comb_snoc]
  | case2 operands op pos ops h =>
    have hfew : operands.length < 2 := by
      rcases operands with _ | ⟨right, _ | ⟨left, rest⟩⟩
      · simp
      · simp
      · exact (h right left rest rfl).elim
    rw [comb_eq_none (by simp only [List.length_reverse, List.length_cons]; omega)]
    simp
  | case3 => simp [comb]
  | case4 e' => simp [comb]
  | case5 e' e'' rest =>
    rw [comb_eq_none (by simp)]
    simp

end Stacks

/-! ## Tokens of an expression -/

namespace Parser

/-- The operand that a token is. -/
def leaf? (t : Token) : Option Expr :=
  match t.kind with
  | .integer => some (.int t.pos t.value)
  | .text => some (.text t.pos t.lexeme)
  | .identifier => some (.ident t.pos t.lexeme)
  | _ => none

/-- The operator that a token is, with its place. -/
def sign? (t : Token) : Option (Operator × Position) := t.kind.operator?.map (·, t.pos)

/-- Whether a token is a part of expressions: an operand or an operator. -/
def IsPart (t : Token) : Prop := (leaf? t).isSome ∨ (sign? t).isSome

/-- The stacks that tokens are read into. -/
def stacksOf (ts : List Token) : Stacks where
  operands := (ts.filterMap leaf?).reverse
  operators := (ts.filterMap sign?).reverse

/-- A token goes onto the stacks just if it is a part of expressions. -/
theorem pushToken?_stacksOf (ts : List Token) (t : Token) (held : Stacks) :
    pushToken? (stacksOf ts) t = some held ↔
      IsPart t ∧ held = stacksOf (ts ++ [t]) := by
  have hstacks : stacksOf (ts ++ [t]) =
      ⟨(leaf? t).toList ++ (stacksOf ts).operands,
        (sign? t).toList ++ (stacksOf ts).operators⟩ := by
    cases hleaf : leaf? t <;> cases hsign : sign? t <;> simp [stacksOf, hleaf, hsign]
  rw [hstacks]
  unfold pushToken? IsPart leaf? sign? Token.Kind.operator?
  cases t.kind <;> simp [Stacks.pushOperand, Stacks.pushOperator, eq_comm]

end Parser

end Straightline
