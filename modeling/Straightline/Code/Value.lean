import Straightline.Code.Ty
import Straightline.Operator

/-!
# Values

What instructions work on. Two values are the same if and only if they are equal
as data: a temporary is known by its function and its number, a parameter by its
function and its place, a string constant by its place in the module. A value
put together by hand (`Loose`) has a key of its own, so that it equals no other
value even if both print alike.
-/

namespace Straightline.Code

/-- A value that an instruction makes: the `id`-th one of the function at
place `owner` of its module. -/
structure Temp where
  owner : Nat
  id : Nat
  name : String
  type : Ty
deriving DecidableEq, Repr

/-- A parameter: the `index`-th one of the function at place `owner` of its module. -/
structure Param where
  owner : Nat
  index : Nat
  name : String
  type : Ty
deriving DecidableEq, Repr

/-- A function as a value: the one at place `place` of its module. -/
structure FuncRef where
  place : Nat
  name : String
  type : Ty
deriving DecidableEq, Repr

/-- What a value put together by hand stands for. -/
inductive LooseKind where
  | temporary
  | constant
  | parameter
  | global
  | function
deriving DecidableEq, Repr

/-- What a constant put together by hand holds. -/
inductive Content where
  | empty
  | int (n : Int32)
  | text (s : String)
deriving DecidableEq, Repr

/-- The printed form of a constant's content. -/
def Content.shown : Content → String
  | .empty => "<nil>"
  | .int n => Decimal.ofInt32 n
  | .text s => s

/-- A value put together by hand. -/
structure Loose where
  key : Nat
  kind : LooseKind
  name : String
  type : Ty
  id : Int
  content : Content
deriving DecidableEq, Repr

/-- An operand of an instruction. `absent` is an operand that was left out. -/
inductive Value where
  | int (n : Int32)
  | temp (t : Temp)
  | param (p : Param)
  | text (index : Nat)
  | func (f : FuncRef)
  | loose (v : Loose)
  | absent
deriving DecidableEq, Repr

/-- The name of the `index`-th string constant of a module. -/
def textName (index : Nat) : String := ".str." ++ Decimal.ofNat index

/-- A numbered name, or the number alone under the letter `t`. -/
def numbered (name : String) (id : Int) : String :=
  if name = "" then "t" ++ Decimal.ofInt id else name ++ "." ++ Decimal.ofInt id

namespace Value

/-- The type of a value. -/
def type : Value → Ty
  | .int _ => .i32
  | .temp t => t.type
  | .param p => p.type
  | .text _ => .ptr .i8
  | .func f => f.type
  | .loose v => v.type
  | .absent => .absent

/-- The name that a value carries, if any. -/
def name : Value → String
  | .int _ => ""
  | .temp t => t.name
  | .param p => p.name
  | .text index => textName index
  | .func f => f.name
  | .loose v => v.name
  | .absent => ""

/-- The number that a value carries; all but temporaries carry zero. -/
def id : Value → Int
  | .temp t => t.id
  | .loose v => v.id
  | _ => 0

/-- The printed form of a value. -/
def shown : Value → String
  | .int n => Decimal.ofInt32 n
  | .temp t => "%" ++ numbered t.name t.id
  | .param p => "%" ++ p.name
  | .text index => "@" ++ textName index
  | .func f => "@" ++ f.name
  | .loose v =>
    match v.kind with
    | .temporary => "%" ++ numbered v.name v.id
    | .constant => v.content.shown
    | .parameter => "%" ++ v.name
    | .global | .function => "@" ++ v.name
  | .absent => "<nil>"

/-- The printed form of a value with its type in front. -/
def typed (v : Value) : String := v.type.text ++ " " ++ v.shown

/-- Whether a value is a constant. -/
def isConstant : Value → Bool
  | .int _ => true
  | .loose v => v.kind = .constant
  | _ => false

/-- The integer that a value is, if it is an integer constant. -/
def int? : Value → Option Int32
  | .int n => some n
  | .loose v =>
    match v.kind, v.content with
    | .constant, .int n => some n
    | _, _ => none
  | _ => none

/-- Whether the operand was left out. -/
def isAbsent : Value → Bool
  | .absent => true
  | _ => false

end Value

end Straightline.Code
