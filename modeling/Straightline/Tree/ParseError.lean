import Straightline.Token.Lexer

/-!
# Syntax errors

Why a source text was not accepted. A syntax error is a lexical error met
on the way, or a token that does not fit where it stands; the latter
names the token that was found.
-/

namespace Straightline

/-- What the grammar asks for at some place. -/
inductive Expectation where
  | functionName
  | beginOf (function : String)
  | endOf (function : String)
  | funcAfterExternal
  | externalName
  | externalParen
  | paramName
  | colonAfterParam (param : String)
  | commaOrParen
  | colonAfter (name : String)
  | assignOrCall (name : String)
  | closeCall (callee : String)
  | semicolonAfterCall (callee : String)
deriving DecidableEq, Repr

/-- The wording of an expectation. -/
def Expectation.message : Expectation → String
  | .functionName => "expected function name after 'func'"
  | .beginOf f => "expected 'begin' in function " ++ f
  | .endOf f => "expected 'end' to close function " ++ f
  | .funcAfterExternal => "expected 'func' after 'extern'"
  | .externalName => "expected function name in extern declaration"
  | .externalParen => "expected '(' after extern function name"
  | .paramName => "expected parameter name"
  | .colonAfterParam p => "expected ':' after parameter " ++ p
  | .commaOrParen => "expected ',' or ')' in parameter list"
  | .colonAfter x => "expected ':' after " ++ x
  | .assignOrCall x => "expected '=' or '(' after " ++ x
  | .closeCall f => "expected ')' to close call to " ++ f
  | .semicolonAfterCall f => "expected ';' after call to " ++ f

/-- A part of the grammar in which a token can be out of place. -/
inductive Region where
  | declarations (function : String)
  | body (function : String)
  | expression
deriving DecidableEq, Repr

/-- The wording of a region. -/
def Region.message : Region → String
  | .declarations f => "declarations of " ++ f
  | .body f => "body of " ++ f
  | .expression => "expression"

/-- Why a source text was not accepted. -/
inductive ParseCause where
  | lexical (cause : LexicalCause)
  | expected (what : Expectation) (found : Token)
  | unexpected (region : Region) (found : Token)
  | unknownType (found : Token)
  | missingBefore (found : Token)
  | missingValue (name : String)
  | missingOperand (op : Operator)
  | strayOperand
deriving DecidableEq, Repr

/-- The wording of a syntax error. -/
def ParseCause.message : ParseCause → String
  | .lexical c => c.message
  | .expected what found => what.message ++ ", found " ++ found.description
  | .unexpected region found =>
    "unexpected " ++ found.description ++ " in " ++ region.message
  | .unknownType found =>
    "unknown type " ++ found.description ++ ", expected int or str"
  | .missingBefore found => "missing expression before " ++ found.description
  | .missingValue x => "missing expression in assignment to " ++ x
  | .missingOperand op => "operator " ++ op.sign ++ " is missing an operand"
  | .strayOperand => "unexpected operand; expressions combine values with + - * or /"

/-- A syntax error with its place. -/
abbrev ParseError := Located ParseCause

/-- The printed form of a syntax error. -/
def ParseError.text (e : ParseError) : String := Located.text ParseCause.message e

/-- A lexical error among the syntax errors. -/
def ParseError.ofLexical (e : LexicalError) : ParseError := ⟨e.pos, .lexical e.cause⟩

end Straightline
