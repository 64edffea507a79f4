import Straightline.Code.Verify
import Straightline.Optimize.Pipeline
import Straightline.Target.Emit

/-!
# Steps and answers of the workbench

A step names functions, blocks and values by handles that earlier
steps gave them.
-/

namespace Straightline.Workbench

open Code (Ty Value LooseKind Content Instr Block Function VerifyError)
open Optimize (Pass Tally)

/-- An operand as a step gives it. A handle stands for a value, or
else for a function. -/
inductive Operand where
  | int (n : Int32)
  | handle (handle : String)
  | fresh (kind : LooseKind) (name : String) (type : Ty) (id : Int) (content : Content)
  | absent
deriving DecidableEq, Repr

/-- An instruction as a step gives it. -/
inductive Entry where
  | alloca (name : String) (type : Ty)
  | load (name : String) (type : Ty) (address : Operand)
  | store (value address : Operand)
  | binary (op : OpCode) (left right : Operand)
  | call (function : String) (args : List Operand)
  | ret (value : Operand)
  | callAny (callee : Operand) (args : List Operand) (dest : Operand)
  | foreign (text sort : String) (dest : Operand)
deriving DecidableEq, Repr

/-- A parameter of a new function, with the handle for its value. -/
structure ParamEntry where
  name : String
  type : Ty
  handle : Option String
deriving DecidableEq, Repr

/-- A step at the workbench. -/
inductive Step where
  /-- Adds a function. -/
  | function (handle name : String) (ret : Ty) (params : List ParamEntry)
      (isExternal : Bool)
  /-- Makes a function external or not. -/
  | setExternal (function : String) (value : Bool)
  /-- Looks a function up by name. -/
  | find (name : String)
  /-- Adds a block to a function. -/
  | block (function label handle : String)
  /-- Adds a string constant. -/
  | text (data : List UInt8) (handle : String)
  /-- Makes a temporary of a function. -/
  | temp (function name : String) (type : Ty) (handle : String)
  /-- Looks at a value. -/
  | value (operand : Operand) (handle : Option String)
  /-- Adds an instruction to a block. -/
  | instr (block : String) (entry : Entry) (handle : Option String)
  /-- Verifies the module. -/
  | verify
  /-- Prints the module. -/
  | print
  /-- Prints a function. -/
  | printFunction (function : String)
  /-- Lists the blocks of a function. -/
  | blocks (function : String)
  /-- Gives the target text of the module. -/
  | emit
  /-- Runs one pass over a function. -/
  | pass (pass : Pass) (function : String)
  /-- Starts over with a new optimizer. -/
  | newOptimizer
  /-- Adds a pass to the optimizer. -/
  | addPass (pass : Pass)
  /-- Limits the rounds of the optimizer. -/
  | setLimit (limit : Int)
  /-- Turns the log of the optimizer on or off. -/
  | setLogging (on : Bool)
  /-- Runs the optimizer over the module. -/
  | optimize
  /-- Runs the optimizer over one function. -/
  | optimizeFunction (function : String)

/-- What a step answers. -/
inductive Answer where
  | done
  | type (t : Ty)
  | function (f : Option Function)
  | block (index : Nat)
  | value (v : Value)
  | inspected (v : Value)
  | instr (function : String) (i : Instr)
  | errors (errors : List VerifyError)
  | text (s : String)
  | blocks (blocks : List Block)
  | target (text : Except Target.EmitError String)
  | pass (pass : Pass) (result : Except String Tally)
  | optimized (error : Option String) (log : String) (stats : Tally)

end Straightline.Workbench
