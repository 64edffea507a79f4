import Straightline.DataType
import Straightline.Operator
import Straightline.Position

/-!
# Trees

A tree is what a source file says: external declarations and function
definitions in order, the latter with their statements. A tree that was put
together by hand may have gaps: an expression that is left out (`Expr.hole`) or
a declaration without a type. Trees read from source text have none.
-/

namespace Straightline

/-- An expression. -/
inductive Expr where
  | int (pos : Position) (value : Int32)
  | text (pos : Position) (value : String)
  | ident (pos : Position) (name : String)
  | binary (op : OpCode) (opPos : Position) (left right : Expr)
  | hole
deriving DecidableEq, Repr

namespace Expr

/-- Whether the expression is left out. -/
def isHole : Expr → Bool
  | .hole => true
  | _ => false

/-- Where an expression starts; an operation without a left side starts at its sign. -/
def pos : Expr → Position
  | .int p _ => p
  | .text p _ => p
  | .ident p _ => p
  | .binary _ p left _ => if left.isHole then p else left.pos
  | .hole => {}

/-- Whether no part of the expression is left out. -/
def isComplete : Expr → Bool
  | .binary _ _ left right => left.isComplete && right.isComplete
  | .hole => false
  | _ => true

end Expr

/-- A declared name with its type. -/
structure Variable where
  name : String
  type : Option DataType
  pos : Position
deriving DecidableEq, Repr

/-- A statement. -/
inductive Stmt where
  | decl (pos : Position) (name : String) (type : Option DataType)
  | assign (pos : Position) (name : String) (values : List Expr)
  | call (pos : Position) (name : String) (args : List Expr)
  | ret (pos : Position) (values : List Expr)
deriving DecidableEq, Repr

namespace Stmt

/-- Where a statement starts. -/
def pos : Stmt → Position
  | .decl p _ _ => p
  | .assign p _ _ => p
  | .call p _ _ => p
  | .ret p _ => p

/-- The expressions of a statement, in order. -/
def exprs : Stmt → List Expr
  | .decl .. => []
  | .assign _ _ values => values
  | .call _ _ args => args
  | .ret _ values => values

/-- Whether no expression of the statement is left out. -/
def isComplete (s : Stmt) : Bool := s.exprs.all Expr.isComplete

end Stmt

/-- A top-level declaration. -/
inductive Global where
  | func (pos : Position) (name : String) (params : List Variable) (body : List Stmt)
  | external (pos : Position) (name : String) (params : List Variable)
deriving DecidableEq, Repr

namespace Global

/-- Where a declaration starts. -/
def pos : Global → Position
  | .func p _ _ _ => p
  | .external p _ _ => p

/-- The name that a declaration introduces. -/
def name : Global → String
  | .func _ n _ _ => n
  | .external _ n _ => n

/-- The listed parameters. -/
def params : Global → List Variable
  | .func _ _ ps _ => ps
  | .external _ _ ps => ps

/-- The statements; an external function has none. -/
def body : Global → List Stmt
  | .func _ _ _ body => body
  | .external .. => []

/-- Whether the declaration defines a function. -/
def isFunc : Global → Bool
  | .func .. => true
  | .external .. => false

/-- Whether no expression of the declaration is left out. -/
def isComplete (g : Global) : Bool := g.body.all Stmt.isComplete

end Global

/-- What one source file says. -/
structure Tree where
  filename : String
  globals : List Global
deriving DecidableEq, Repr

namespace Tree

/-- The function definitions, in order. -/
def functions (t : Tree) : List Global := t.globals.filter Global.isFunc

/-- Whether no expression of the tree is left out. -/
def isComplete (t : Tree) : Bool := t.globals.all Global.isComplete

end Tree

end Straightline
