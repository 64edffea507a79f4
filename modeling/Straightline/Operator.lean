import Straightline.Text.Decimal

/-!
# Arithmetic operators

The four operators on 32-bit signed integers. Source and machine code share
them; each level has its own spelling. `Operator.eval?` is the one place that
says what they compute: sums, differences and products wrap, quotients are cut
toward zero, and the two quotients that have no value have no value here.
-/

namespace Straightline

/-- The four arithmetic operators. -/
inductive Operator where
  | add
  | sub
  | mul
  | div
deriving DecidableEq, Repr

namespace Operator

/-- The sign of the operator in source text. -/
def sign : Operator → String
  | .add => "+"
  | .sub => "-"
  | .mul => "*"
  | .div => "/"

/-- The name of the operation in machine code. -/
def mnemonic : Operator → String
  | .add => "add"
  | .sub => "sub"
  | .mul => "mul"
  | .div => "sdiv"

/-- The result of the operation; dividing by zero and dividing the least
integer by -1 have none. -/
def eval? (op : Operator) (a b : Int32) : Option Int32 :=
  match op with
  | .add => some (a + b)
  | .sub => some (a - b)
  | .mul => some (a * b)
  | .div => if b = 0 ∨ (a = Int32.minValue ∧ b = -1) then none else some (a / b)

end Operator

/-- An operator slot as a tree or an instruction carries it: one of the four
operators, or a code that names none of them. -/
inductive OpCode where
  | arith (op : Operator)
  | unknown (code : Int)
deriving DecidableEq, Repr

namespace OpCode

/-- The sign in source text. -/
def sign : OpCode → String
  | .arith op => op.sign
  | .unknown _ => "?"

/-- The name in machine code. -/
def mnemonic : OpCode → String
  | .arith op => op.mnemonic
  | .unknown _ => "?"

/-- The result of the operation, if it has one. -/
def eval? (code : OpCode) (a b : Int32) : Option Int32 :=
  match code with
  | .arith op => op.eval? a b
  | .unknown _ => none

end OpCode

/-- The numeral of a 32-bit integer. -/
def Decimal.ofInt32 (n : Int32) : String := Decimal.ofInt n.toInt

end Straightline
