import Straightline.Code.Ty
import Straightline.Text.Quoted

/-!
# Faults

A fault stops an operation short: the data handed to it lacks a part
that the operation cannot do without, or breaks a rule that the
operation relies on. It is not a diagnostic about a program; only data
put together by hand can lead to one.
-/

namespace Straightline

/-- Why an operation could not be carried out. -/
inductive Fault where
  /-- A part that is needed is left out. -/
  | missing
  /-- A value is stored to something that is no address. -/
  | storeAddress (type : Code.Ty)
  /-- A value is stored to an address of another type. -/
  | storeType (value address : Code.Ty)
  /-- A block is printed that does not end; `shown` is its text so far. -/
  | unterminated (label shown : String)
deriving DecidableEq, Repr

namespace Fault

/-- The word for the sort of a type. -/
def sort : Code.Ty → String
  | .void => "*types.VoidType"
  | .ptr _ => "*types.PointerType"
  | .func _ _ => "*types.FuncType"
  | _ => "*types.IntType"

/-- The wording of a fault. A part that is left out has none. -/
def message? : Fault → Option String
  | .missing => none
  | .storeAddress type =>
    some ("invalid store dst operand type; expected *types.Pointer, got " ++ sort type)
  | .storeType value address =>
    some ("store operands are not compatible: src=" ++ value.text ++ "; dst=" ++
      address.text)
  | .unterminated label shown =>
    some ("missing terminator in basic block " ++ Quoted.ofString label ++
      ".\ncurrent instructions:\n" ++ shown)

end Fault

end Straightline
