import Straightline.Code.Value

/-!
# Modules of the target

The target is typed three-address code in text form. It differs from
machine code in that a function is referred to by its place in the module,
a local value by the place where it is made, and that a block has its
instructions and its end apart.

Only types without gaps occur here.
-/

namespace Straightline.Target

open Code (Ty)

/-- An operand. -/
inductive Operand where
  /-- An integer. -/
  | int (n : Int32)
  /-- The address of the first byte of a string constant of the module,
  which has `size` bytes. -/
  | text (index size : Nat)
  /-- A function of the module. -/
  | func (index : Nat) (type : Ty)
  /-- A parameter of the function at hand. -/
  | param (index : Nat) (type : Ty)
  /-- What the `index`-th instruction of the `block`-th block makes. -/
  | result (block index : Nat) (name : String) (type : Ty)
deriving DecidableEq, Repr

/-- The type of an operand. A function is used through a pointer to it. -/
def Operand.type : Operand → Ty
  | .int _ => .i32
  | .text _ _ => .ptr .i8
  | .func _ type => .ptr type
  | .param _ type => type
  | .result _ _ _ type => type

/-- An instruction. A call without a name gets a number if it makes a value. -/
inductive Instr where
  | alloca (name : String) (type : Ty)
  | load (name : String) (type : Ty) (address : Operand)
  | store (value address : Operand)
  | binary (op : Operator) (name : String) (left right : Operand)
  | call (name : Option String) (ret : Ty) (callee : Nat) (args : List Operand)
deriving DecidableEq, Repr

/-- The type of what an instruction makes. -/
def Instr.type : Instr → Ty
  | .alloca _ type => .ptr type
  | .load _ type _ => type
  | .store _ _ => .void
  | .binary _ _ left _ => left.type
  | .call _ ret _ _ => ret

/-- The name an instruction gives to what it makes. -/
def Instr.name? : Instr → Option String
  | .alloca name _ => some name
  | .load name _ _ => some name
  | .store _ _ => none
  | .binary _ name _ _ => some name
  | .call name _ _ _ => name

/-- How a block ends. -/
inductive Terminator where
  | retVoid
  | ret (value : Operand)
deriving DecidableEq, Repr

/-- A block. A block without a label gets a number. -/
structure Block where
  label : String
  instrs : List Instr
  terminator : Option Terminator
deriving DecidableEq, Repr

/-- A function. Without blocks it is a declaration. -/
structure Function where
  name : String
  ret : Ty
  params : List (String × Ty)
  blocks : List Block := []
deriving DecidableEq, Repr

/-- The type of a function. -/
def Function.type (f : Function) : Ty := .func f.ret (f.params.map (·.2))

/-- A module: string constants, each with its closing zero byte, and functions. -/
structure Module where
  name : String
  texts : List (List UInt8)
  functions : List Function
deriving DecidableEq, Repr

end Straightline.Target
