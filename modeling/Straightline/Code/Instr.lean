import Straightline.Code.Value

/-!
# Instructions

One step of straight-line code. The first six forms are the instruction set;
`foreign` stands for an instruction that some other tool put into a block, of
which only its text, the name of its sort and its result are known.
-/

namespace Straightline.Code

/-- An instruction. -/
inductive Instr where
  | alloca (dest : Temp) (type : Ty)
  | load (dest : Temp) (address : Value)
  | store (value address : Value)
  | binary (op : OpCode) (dest : Temp) (left right : Value)
  | call (dest : Option Value) (callee : Value) (args : List Value)
  | ret (value : Option Value)
  | foreign (text sort : String) (dest : Option Value)
deriving DecidableEq, Repr

namespace Instr

/-- The values that an instruction reads. -/
def operands : Instr → List Value
  | .alloca _ _ => []
  | .load _ address => [address]
  | .store value address => [address, value]
  | .binary _ _ left right => [left, right]
  | .call _ callee args => callee :: args
  | .ret value => value.toList
  | .foreign _ _ _ => []

/-- The value that an instruction makes. -/
def result : Instr → Option Value
  | .alloca dest _ => some (.temp dest)
  | .load dest _ => some (.temp dest)
  | .store _ _ => none
  | .binary _ dest _ _ => some (.temp dest)
  | .call dest _ _ => dest
  | .ret _ => none
  | .foreign _ _ dest => dest

/-- Whether an instruction ends its block. -/
def isTerminator : Instr → Bool
  | .ret _ => true
  | _ => false

/-- The printed form of an instruction. -/
def shown : Instr → String
  | .alloca dest type => (Value.temp dest).shown ++ " = alloca " ++ type.text
  | .load dest address =>
    (Value.temp dest).shown ++ " = load " ++ dest.type.text ++ ", " ++ address.typed
  | .store value address => "store " ++ value.typed ++ ", " ++ address.typed
  | .binary op dest left right =>
    (Value.temp dest).shown ++ " = " ++ op.mnemonic ++ " " ++ dest.type.text ++
      " " ++ left.shown ++ ", " ++ right.shown
  | .call dest callee args =>
    let call :=
      "call " ++ callee.shown ++ "(" ++ ", ".intercalate (args.map Value.typed) ++ ")"
    match dest with
    | some d => d.shown ++ " = " ++ call
    | none => call
  | .ret (some value) => "ret " ++ value.typed
  | .ret none => "ret void"
  | .foreign text _ _ => text

/-- Whether every operand that is printed with its type is there. -/
def isShowable : Instr → Bool
  | .load _ address => !address.isAbsent
  | .store value address => !value.isAbsent && !address.isAbsent
  | .call _ _ args => args.all fun a => !a.isAbsent
  | _ => true

end Instr

end Straightline.Code
