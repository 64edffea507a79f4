import Straightline.Operator
import Straightline.Position
import Straightline.Text.Quoted

/-!
# Tokens

The words of the language: keywords, names, literals, punctuation and
operator signs, each with the place where it stands. Keywords are matched
exactly and in lower case only.
-/

namespace Straightline

/-- The reserved words. -/
inductive Keyword where
  | external
  | func
  | begins
  | ends
  | returns
  | int
  | str
deriving DecidableEq, Repr

namespace Keyword

/-- How the keyword is spelled in source text. -/
def spelling : Keyword → String
  | .external => "extern"
  | .func => "func"
  | .begins => "begin"
  | .ends => "end"
  | .returns => "return"
  | .int => "int"
  | .str => "str"

/-- Every keyword, in the order the language lists them. -/
def all : List Keyword := [.external, .func, .begins, .ends, .returns, .int, .str]

/-- The keyword spelled `word`, if there is one. -/
def ofWord? (word : String) : Option Keyword :=
  all.find? fun k => k.spelling == word

/-- The name of the keyword in a token listing. -/
def name : Keyword → String
  | .external => "EXTERN"
  | .func => "FUNC"
  | .begins => "BEGIN"
  | .ends => "END"
  | .returns => "RETURN"
  | .int => "INT"
  | .str => "STR"

end Keyword

/-- The punctuation marks other than operator signs. -/
inductive Mark where
  | newline
  | semicolon
  | colon
  | assign
  | leftParen
  | rightParen
  | comma
deriving DecidableEq, Repr

/-- The name of the mark in a token listing. -/
def Mark.name : Mark → String
  | .newline => "NEWLINE"
  | .semicolon => "SEMICOLON"
  | .colon => "COLON"
  | .assign => "ASSIGN"
  | .leftParen => "LPAREN"
  | .rightParen => "RPAREN"
  | .comma => "COMMA"

/-- The name of the operator in a token listing. -/
def Operator.name : Operator → String
  | .add => "PLUS"
  | .sub => "MINUS"
  | .mul => "STAR"
  | .div => "SLASH"

namespace Token

/-- What sort of token it is. A token that was made by hand may be of a sort
that the language does not have. -/
inductive Kind where
  | eof
  | invalid
  | keyword (k : Keyword)
  | identifier
  | integer
  | text
  | mark (m : Mark)
  | operator (op : Operator)
  | unknown (code : Int)
deriving DecidableEq, Repr

namespace Kind

/-- The name of the kind in a token listing. -/
def name : Kind → String
  | .eof => "EOF"
  | .invalid => "INVALID"
  | .keyword k => k.name
  | .identifier => "IDENTIFIER"
  | .integer => "INTEGER"
  | .text => "STRING"
  | .mark m => m.name
  | .operator op => op.name
  | .unknown _ => "UNKNOWN"

/-- Whether the kind is a reserved word. -/
def isKeyword : Kind → Bool
  | .keyword _ => true
  | _ => false

/-- Whether the kind is an integer or string literal. -/
def isLiteral : Kind → Bool
  | .integer | .text => true
  | _ => false

/-- The operator that the kind is the sign of. -/
def operator? : Kind → Option Operator
  | .operator op => some op
  | _ => none

/-- Whether the kind is an operator sign. -/
def isOperator (k : Kind) : Bool := k.operator?.isSome

end Kind

end Token

/-- One token. The lexeme is the name, the digits or the spelling of the
token, or the decoded text of a string literal; only an integer literal
has a value of its own. -/
structure Token where
  kind : Token.Kind
  lexeme : String := ""
  value : Int32 := 0
  pos : Position := {}
deriving DecidableEq, Repr

namespace Token

/-- The token as a line of a token listing. -/
def listing (t : Token) : String :=
  match t.kind with
  | .mark .newline => t.kind.name ++ " at " ++ t.pos.text
  | .text => t.kind.name ++ "(" ++ Quoted.ofString t.lexeme ++ ") at " ++ t.pos.text
  | _ => t.kind.name ++ "(" ++ t.lexeme ++ ") at " ++ t.pos.text

/-- What a token is called in a diagnostic. -/
def description (t : Token) : String :=
  match t.kind with
  | .eof => "end of file"
  | .mark .newline => "newline"
  | .text => "string literal"
  | _ => Quoted.ofString t.lexeme

/-- The kind of a word that is no literal: the keyword it spells, else an identifier. -/
def wordKind (word : String) : Kind :=
  match Keyword.ofWord? word with
  | some k => .keyword k
  | none => .identifier

/-- The kind of the token that the single character `c` is, if it is punctuation. -/
def punctuation? : Char → Option Kind
  | '\n' => some (.mark .newline)
  | ';' => some (.mark .semicolon)
  | ':' => some (.mark .colon)
  | '=' => some (.mark .assign)
  | '(' => some (.mark .leftParen)
  | ')' => some (.mark .rightParen)
  | ',' => some (.mark .comma)
  | '+' => some (.operator .add)
  | '-' => some (.operator .sub)
  | '*' => some (.operator .mul)
  | '/' => some (.operator .div)
  | _ => none

end Token

end Straightline
