import Straightline.Tree

/-!
# Combs: how operands and operators become an expression

An expression is read into two stacks, one of operands and one of operators,
which are folded at its end. The operator on top takes the two operands on
top, the upper one as its right side, and its result goes back on the stack.
So operators combine from the last to the first, whatever their sign:
`a + b - c` is `a + (b - c)`.
-/

namespace Straightline

/-- The operands and operators read so far, the latest first. -/
structure Stacks where
  operands : List Expr := []
  operators : List (Operator × Position) := []

/-- Why two stacks do not make up an expression. -/
inductive CombError where
  | missingOperand (op : Operator) (pos : Position)
  | strayOperand (pos : Position)
deriving DecidableEq, Repr

namespace Stacks

/-- Whether nothing was read yet. -/
def isEmpty (s : Stacks) : Bool := s.operands.isEmpty && s.operators.isEmpty

/-- Puts an operand on its stack. -/
def pushOperand (s : Stacks) (e : Expr) : Stacks :=
  { s with operands := e :: s.operands }

/-- Puts an operator on its stack. -/
def pushOperator (s : Stacks) (op : Operator) (pos : Position) : Stacks :=
  { s with operators := (op, pos) :: s.operators }

/-- Folds operators and operands, the latest first. No operand at all makes no
expression; two or more left over are an error at the second one read. -/
def foldAll : List Expr → List (Operator × Position) → Except CombError (Option Expr)
  | right :: left :: rest, (op, pos) :: ops =>
    foldAll (.binary (.arith op) pos left right :: rest) ops
  | _, (op, pos) :: _ => .error (.missingOperand op pos)
  | [], [] => .ok none
  | [e], [] => .ok (some e)
  | e :: e' :: rest, [] =>
    .error (.strayOperand ((e :: e' :: rest).reverse[1]?.getD e').pos)

/-- The expression that the stacks make up. -/
def fold (s : Stacks) : Except CombError (Option Expr) := foldAll s.operands s.operators

end Stacks

end Straightline
