import Straightline.Code.Function
import Straightline.Fault

/-!
# Verification

The rules that a module keeps before anything is made from it: an external
function has no code and every other one has some; a block ends with a return
and has none before; a load and a store go through a pointer to the type they
move; operands of arithmetic are words; a call passes what its callee takes.

`Module.verify` gives every violation. It is faulted only by a
slot that was left empty.
-/

namespace Straightline.Code

/-- What can be wrong with the operands of an instruction. -/
inductive OperandError where
  | loadAddress
  | loadType (dest address : Ty)
  | storeAddress
  | storeType (value address : Ty)
  | notWords (op : OpCode)
  | notFunction
  | arity (given want : Nat)
  | argument (number : Nat) (given want : Ty)
deriving DecidableEq, Repr

/-- The wording of an operand error. -/
def OperandError.message : OperandError → String
  | .loadAddress => "load address is not a pointer"
  | .loadType dest address => "load of " ++ dest.text ++ " through " ++ address.text
  | .storeAddress => "store address is not a pointer"
  | .storeType value address => "store of " ++ value.text ++ " through " ++ address.text
  | .notWords op => op.mnemonic ++ " operands must be i32"
  | .notFunction => "callee is not a function"
  | .arity given want =>
    "call passes " ++ Decimal.ofNat given ++ " arguments, want " ++ Decimal.ofNat want
  | .argument number given want =>
    "argument " ++ Decimal.ofNat number ++ " is " ++ given.text ++
      ", want " ++ want.text

/-- A rule that a module breaks. -/
inductive VerifyError where
  | externalWithCode (function : String)
  | noEntry (function : String)
  | afterTerminator (label function : String)
  | noTerminator (label function : String)
  | operands (function : String) (instr : Instr) (error : OperandError)
deriving DecidableEq, Repr

/-- The wording of a broken rule. -/
def VerifyError.message : VerifyError → String
  | .externalWithCode f => "declaration " ++ f ++ " has a body"
  | .noEntry f => "function " ++ f ++ " has no entry block"
  | .afterTerminator label f =>
    "block " ++ label ++ " in function " ++ f ++
      " has instructions after its terminator"
  | .noTerminator label f =>
    "block " ++ label ++ " in function " ++ f ++ " has no terminator"
  | .operands f i e => "function " ++ f ++ ": " ++ i.shown ++ ": " ++ e.message

/-- The type of an operand that has to be there. -/
def Value.requireType (v : Value) : Except Fault Ty :=
  if v.isAbsent then .error .missing else .ok v.type

/-- Compares arguments with the types a callee takes; `number` is
that of the first argument. -/
def checkArgs :
    (number : Nat) → List Value → List Ty → Except Fault (Option OperandError)
  | number, a :: args, want :: wants => do
    let given ← a.requireType
    if given = want then checkArgs (number + 1) args wants
    else return some (.argument number given want)
  | _, _, _ => return none

/-- What is wrong with the operands of an instruction. -/
def Instr.check : Instr → Except Fault (Option OperandError)
  | .load dest address => do
    match ← address.requireType with
    | .absent => throw .missing
    | .ptr elem =>
      if elem = dest.type then return none
        else return some (.loadType dest.type address.type)
    | _ => return some .loadAddress
  | .store value address => do
    match ← address.requireType with
    | .absent => throw .missing
    | .ptr elem =>
      if elem = (← value.requireType) then return none
        else return some (.storeType value.type address.type)
    | _ => return some .storeAddress
  | .binary op _ left right => do
    if (← left.requireType) = .i32 then
      if (← right.requireType) = .i32 then return none else return some (.notWords op)
    else return some (.notWords op)
  | .call _ callee args => do
    match ← callee.requireType with
    | .absent => throw .missing
    | .func _ params =>
      if args.length = params.length then checkArgs 1 args params
      else return some (.arity args.length params.length)
    | _ => return some .notFunction
  | _ => return none

/-- The rules that the instructions of a block break, up to the first return
that is not the last one. -/
def checkInstrs (fn label : String) : List Instr → Except Fault (List VerifyError)
  | [] => return []
  | i :: rest =>
    if i.isTerminator && !rest.isEmpty then
      return [.afterTerminator label fn]
    else do
      let e ← i.check
      return (e.map (.operands fn i)).toList ++ (← checkInstrs fn label rest)

/-- The rules that a block breaks. -/
def Block.check (fn : String) (b : Block) : Except Fault (List VerifyError) := do
  let errors ← checkInstrs fn b.label b.instrs
  return errors ++ if b.isTerminated then [] else [.noTerminator b.label fn]

/-- The rules that a function breaks. -/
def Function.check (f : Function) : Except Fault (List VerifyError) :=
  if f.isExternal then
    return if f.blocks.isEmpty then [] else [.externalWithCode f.name]
  else if f.blocks.isEmpty then
    return [.noEntry f.name]
  else
    return (← f.blocks.mapM (Block.check f.name)).flatten

/-- The rules that a module breaks, in order. -/
def Module.verify (m : Module) : Except Fault (List VerifyError) :=
  return (← m.functions.mapM Function.check).flatten

end Straightline.Code
