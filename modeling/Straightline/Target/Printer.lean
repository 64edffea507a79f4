import Straightline.Fault
import Straightline.Target.Literal
import Straightline.Target.Module

/-!
# The text of a target module

A function or a local value without a name is written by number: functions are
counted over the module, local values over the parameters of a function and then
block by block, a block without a label before what it makes. `Module.print` is
faulted by a block that does not end.
-/

namespace Straightline.Target

open Code (Ty textName)

/-- The name of the `index`-th of `names`: its own, or the count of those
before it that have none. -/
def nameAt (names : List String) (index : Nat) : String :=
  let name := names.getD index ""
  if name = "" then Decimal.ofNat ((names.take index).count "") else writeName name

/-- The names that operands of a function refer to. -/
structure Names where
  functions : List String
  params : List String

namespace Operand

/-- The text of an operand without its type. -/
def print (names : Names) : Operand → String
  | .int n => writeInt n
  | .text index size =>
    let array := "[" ++ Decimal.ofNat size ++ " x i8]"
    "getelementptr (" ++ array ++ ", " ++ array ++ "* @" ++
      writeName (textName index) ++ ", i64 0, i64 0)"
  | .func index _ => "@" ++ nameAt names.functions index
  | .param index _ => "%" ++ nameAt names.params index
  | .result _ _ name _ => "%" ++ writeName name

/-- The text of an operand behind its type. -/
def typed (names : Names) (o : Operand) : String := o.type.text ++ " " ++ o.print names

end Operand

/-- Whether an instruction takes up a number: it makes a value and names none. -/
def Instr.isNumbered : Instr → Bool
  | .call none ret _ _ => ret ≠ .void
  | _ => false

/-- The text of an instruction; `number` is for a result without a name. -/
def Instr.print (names : Names) (number : Nat) : Instr → String
  | .alloca name type => "%" ++ writeName name ++ " = alloca " ++ type.text
  | .load name type address =>
    "%" ++ writeName name ++ " = load " ++ type.text ++ ", " ++ address.typed names
  | .store value address => "store " ++ value.typed names ++ ", " ++ address.typed names
  | .binary op name left right =>
    "%" ++ writeName name ++ " = " ++ op.mnemonic ++ " " ++ left.typed names ++
      ", " ++ right.print names
  | .call name ret callee args =>
    let dest :=
      if ret = .void then "" else
        match name with
        | some name => "%" ++ writeName name ++ " = "
        | none => "%" ++ Decimal.ofNat number ++ " = "
    dest ++ "call " ++ ret.text ++ " @" ++ nameAt names.functions callee ++ "(" ++
      ", ".intercalate (args.map (Operand.typed names)) ++ ")"

/-- The lines of instructions, numbered from `number` on, and the next number. -/
def printInstrs (names : Names) : (number : Nat) → List Instr → List String × Nat
  | number, [] => ([], number)
  | number, i :: rest =>
    let r := printInstrs names (if i.isNumbered then number + 1 else number) rest
    (("\t" ++ i.print names number ++ "\n") :: r.1, r.2)

/-- The text of a block's end. -/
def Terminator.print (names : Names) : Terminator → String
  | .retVoid => "ret void"
  | .ret value => "ret " ++ value.typed names

/-- The text of a block, numbered from `number` on, and the next number. -/
def Block.print (names : Names) (number : Nat) (b : Block) :
    Except Fault (String × Nat) :=
  let label := if b.label = "" then Decimal.ofNat number else writeName b.label
  let (lines, next) :=
    printInstrs names (if b.label = "" then number + 1 else number) b.instrs
  let shown := label ++ ":\n" ++ String.join lines
  match b.terminator with
  | some t => .ok (shown ++ "\t" ++ t.print names ++ "\n", next)
  | none =>
    .error (.unterminated (if b.label = "" then Decimal.ofNat number
      else messageName b.label) shown)

/-- The texts of blocks, numbered from `number` on. -/
def printBlocks (names : Names) :
    (number : Nat) → List Block → Except Fault (List String)
  | _, [] => .ok []
  | number, b :: rest => do
    let (text, next) ← b.print names number
    return text :: (← printBlocks names next rest)

/-- The text of the `index`-th function of a module. -/
def Function.print (functions : List String) (index : Nat) (f : Function) :
    Except Fault String :=
  do
  let params := f.params.map (·.1)
  let names : Names := { functions, params }
  let signature :=
    f.ret.text ++ " @" ++ nameAt functions index ++ "(" ++
      ", ".intercalate (f.params.mapIdx fun i (_, type) =>
        type.text ++ " %" ++ nameAt params i) ++ ")"
  if f.blocks.isEmpty then
    return "declare " ++ signature ++ "\n"
  else
    let blocks ← printBlocks names (params.count "") f.blocks
    return "define " ++ signature ++ " \x7b\n" ++ "\n".intercalate blocks ++ "\x7d\n"

/-- The texts of functions, the first of which is the `index`-th one. -/
def printFunctions (names : List String) :
    (index : Nat) → List Function → Except Fault (List String)
  | _, [] => .ok []
  | index, f :: rest => do
    let text ← f.print names index
    return text :: (← printFunctions names (index + 1) rest)

/-- The line of the `index`-th string constant. -/
def printText (index : Nat) (data : List UInt8) : String :=
  "@" ++ writeName (textName index) ++ " = private unnamed_addr constant [" ++
    Decimal.ofNat data.length ++ " x i8] c" ++ quoteBytes data ++ "\n"

/-- The text of a module. Its parts are divided by empty lines. -/
def Module.print (m : Module) : Except Fault String := do
  let functions ← printFunctions (m.functions.map (·.name)) 0 m.functions
  let parts :=
    [ if m.name = "" then "" else "source_filename = " ++ quote m.name ++ "\n",
      String.join (m.texts.mapIdx printText),
      "\n".intercalate functions ]
  return "\n".intercalate (parts.filter (· ≠ ""))

end Straightline.Target
