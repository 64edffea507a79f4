import Straightline.Code.Function
import Straightline.Fault

/-!
# Building code

An order says which instruction to make; the function it is made for gives it
the temporary for its result. The result of arithmetic has the type of the left
operand, and a call makes a value unless its callee returns nothing.
-/

namespace Straightline.Code

/-- An instruction to be made. -/
inductive Order where
  | alloca (name : String) (type : Ty)
  | load (name : String) (type : Ty) (address : Value)
  | store (value address : Value)
  | binary (op : OpCode) (left right : Value)
  | call (callee : Function) (args : List Value)
  | ret (value : Option Value)
  | ready (i : Instr)

/-- Makes the instruction for a function. A part that decides on its
result has to be there. -/
def Order.make (f : Function) : Order → Except Fault (Instr × Function)
  | .alloca name type =>
    let (dest, f) := f.newTemp name (.ptr type)
    .ok (.alloca dest type, f)
  | .load name type address =>
    let (dest, f) := f.newTemp name type
    .ok (.load dest address, f)
  | .store value address => .ok (.store value address, f)
  | .binary op left right =>
    if left.isAbsent then .error .missing
    else
      let (dest, f) := f.newTemp "" left.type
      .ok (.binary op dest left right, f)
  | .call callee args =>
    match callee.ret with
    | .absent => .error .missing
    | .void => .ok (.call none callee.value args, f)
    | type =>
      let (dest, f) := f.newTemp "" type
      .ok (.call (some (.temp dest)) callee.value args, f)
  | .ret value => .ok (.ret value, f)
  | .ready i => .ok (i, f)

/-- Adds an instruction to the given block. -/
def Function.pushAt (f : Function) (block : Nat) (i : Instr) : Function :=
  { f with blocks := f.blocks.modify block (·.push i) }

end Straightline.Code
