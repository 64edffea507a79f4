import Straightline.Code.Ty
import Straightline.DataType
import Straightline.Operator
import Straightline.Position

/-!
# Semantic errors

Why a statement or a declaration has no machine code. Types are named as source
code spells them, where it can spell them.
-/

namespace Straightline

/-- Why a data type cannot be given to a variable. -/
inductive TypeProblem where
  | missing
  | noRepresentation (type : DataType)
deriving DecidableEq, Repr

/-- The wording of a type problem. -/
def TypeProblem.message : TypeProblem → String
  | .missing => "missing type"
  | .noRepresentation t => "type " ++ t.text ++ " has no machine representation"

/-- A machine type as source code spells it. -/
def Code.Ty.spelling (t : Code.Ty) : String :=
  if t = .i32 then "int" else if t = .ptr .i8 then "str" else t.text

/-- Why a statement or a declaration has no machine code. -/
inductive SemanticCause where
  | redeclared (name : String)
  | parameterType (param function : String) (problem : TypeProblem)
  | variableType (name : String) (problem : TypeProblem)
  | undeclared (name : String)
  | noValue (name : String)
  | manyValues (name : String) (count : Nat)
  | assignType (given : Code.Ty) (name : String) (want : Code.Ty)
  | unknownCallee (name : String)
  | callArity (name : String) (given want : Nat)
  | callArgument (name : String) (number : Nat) (given want : Code.Ty)
  | manyReturns (count : Nat)
  | operandTypes (op : OpCode) (left right : Code.Ty)
  | unknownOperator (code : Int)
deriving DecidableEq, Repr

/-- The wording of a semantic error. -/
def SemanticCause.message : SemanticCause → String
  | .redeclared x => x ++ " redeclared"
  | .parameterType p f problem =>
    "parameter " ++ p ++ " of " ++ f ++ ": " ++ problem.message
  | .variableType x problem => "variable " ++ x ++ ": " ++ problem.message
  | .undeclared x => "undeclared variable " ++ x
  | .noValue x => "assignment to " ++ x ++ " has no value"
  | .manyValues x n =>
    "assignment to " ++ x ++ " has " ++ Decimal.ofNat n ++ " values, want 1"
  | .assignType given x want =>
    "cannot assign " ++ given.spelling ++ " value to " ++ x ++ " of type " ++
      want.spelling
  | .unknownCallee f => "invalid call: " ++ f ++ " is not a declared function"
  | .callArity f given want =>
    "invalid call to " ++ f ++ ": got " ++ Decimal.ofNat given ++ " arguments, want " ++
      Decimal.ofNat want
  | .callArgument f number given want =>
    "invalid call to " ++ f ++ ": argument " ++ Decimal.ofNat number ++ " is " ++
      given.spelling ++ ", want " ++ want.spelling
  | .manyReturns n => "return with " ++ Decimal.ofNat n ++ " values, want at most one"
  | .operandTypes op left right =>
    "operator " ++ op.sign ++ " needs int operands, got " ++ left.spelling ++
      " and " ++ right.spelling
  | .unknownOperator code => "internal error: unknown operator " ++ Decimal.ofInt code

/-- A semantic error with its place. -/
abbrev SemanticError := Located SemanticCause

/-- The printed form of a semantic error. -/
def SemanticError.text (e : SemanticError) : String :=
  Located.text SemanticCause.message e

end Straightline
