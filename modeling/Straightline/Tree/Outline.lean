import Straightline.Fault
import Straightline.Text.Quoted
import Straightline.Tree

/-!
# Outlines of trees

`Tree.outline` prints a tree with one line per node, each node two blanks deeper
than the one it belongs to. A tree with an expression left out, or with a
parameter that has no type, cannot be printed.
-/

namespace Straightline

/-- A line of an outline. -/
def outlineLine (depth : Nat) (s : String) : String :=
  String.ofList (List.replicate (2 * depth) ' ') ++ s ++ "\n"

/-- The lines of an expression. -/
def Expr.outline (depth : Nat) : Expr → String
  | .int _ value => outlineLine depth ("int " ++ Decimal.ofInt32 value)
  | .text _ value => outlineLine depth ("string " ++ Quoted.ofString value)
  | .ident _ name => outlineLine depth ("ident " ++ name)
  | .binary op _ left right =>
    outlineLine depth ("binary " ++ op.sign) ++ left.outline (depth + 1) ++
      right.outline (depth + 1)
  | .hole => ""

/-- How the type of a declared variable is printed. -/
def declaredType : Option DataType → String
  | some t => t.text
  | none => "%!s(<nil>)"

/-- The lines of a list of expressions. -/
def outlineExprs (depth : Nat) (es : List Expr) : String :=
  String.join (es.map (Expr.outline depth))

/-- The lines of a statement. -/
def Stmt.outline (depth : Nat) : Stmt → String
  | .decl _ name type =>
    outlineLine depth ("decl " ++ name ++ ": " ++ declaredType type)
  | .assign _ name values =>
    outlineLine depth ("assign " ++ name) ++ outlineExprs (depth + 1) values
  | .call _ name args =>
    outlineLine depth ("call " ++ name) ++ outlineExprs (depth + 1) args
  | .ret _ values => outlineLine depth "return" ++ outlineExprs (depth + 1) values

/-- A parameter in a list. -/
def Variable.outline (v : Variable) : String :=
  v.name ++ ": " ++ declaredType v.type

/-- A parameter list, without its parentheses. -/
def outlineParams (ps : List Variable) : String :=
  ", ".intercalate (ps.map Variable.outline)

/-- The lines of a declaration. -/
def Global.outline : Global → String
  | .func _ name params body =>
    outlineLine 0 ("func " ++ name ++ "(" ++ outlineParams params ++ ")") ++
      String.join (body.map (Stmt.outline 1))
  | .external _ name params =>
    outlineLine 0 ("extern " ++ name ++ "(" ++ outlineParams params ++ ") " ++
      DataType.void.text)

/-- The outline of a tree in which nothing is missing. -/
def Tree.outline (t : Tree) : String :=
  String.join (t.globals.map Global.outline)

/-- Whether a declaration has everything that its outline shows. -/
def Global.isPrintable (g : Global) : Bool :=
  g.params.all (·.type.isSome) && g.isComplete

/-- The outline of a tree, if it can be printed. -/
def Tree.outline? (t : Tree) : Except Fault String :=
  if t.globals.all Global.isPrintable then .ok t.outline else .error .missing

end Straightline
