import Straightline.Code.Instr
import Straightline.Text.Quoted

/-!
# Functions and modules

A function has parameters, a return type and blocks of instructions, the first
of which is its entry. The instruction set has no jumps, so control never leaves
the entry block. A function whose code is elsewhere is external. A module holds
string constants and functions; a function is found by name, and the latest one
of a name is the one that is found.
-/

namespace Straightline.Code

/-- A labelled run of instructions. -/
structure Block where
  label : String
  instrs : List Instr := []
deriving DecidableEq, Repr

namespace Block

/-- The last instruction, if it ends the block. -/
def terminator? (b : Block) : Option Instr :=
  b.instrs.getLast?.filter Instr.isTerminator

/-- Whether the last instruction ends the block. -/
def isTerminated (b : Block) : Bool := b.terminator?.isSome

/-- Adds an instruction at the end. -/
def push (b : Block) (i : Instr) : Block := { b with instrs := b.instrs ++ [i] }

/-- The printed form of a block. -/
def shown (b : Block) : String :=
  b.label ++ ":\n" ++ String.join (b.instrs.map fun i => "  " ++ i.shown ++ "\n")

end Block

/-- A function of a module. `place` is where it stands in its module, and
`temps` counts the temporaries made for it so far. -/
structure Function where
  place : Nat
  name : String
  ret : Ty
  params : List Param := []
  blocks : List Block := []
  isExternal : Bool := false
  temps : Nat := 0
deriving DecidableEq, Repr

namespace Function

/-- The entry block. -/
def entry? (f : Function) : Option Block := f.blocks.head?

/-- The type of a function. -/
def type (f : Function) : Ty := .func f.ret (f.params.map (·.type))

/-- The function as an operand. -/
def value (f : Function) : Value :=
  .func { place := f.place, name := f.name, type := f.type }

/-- Makes a temporary. -/
def newTemp (f : Function) (name : String) (type : Ty) : Temp × Function :=
  ({ owner := f.place, id := f.temps, name, type }, { f with temps := f.temps + 1 })

/-- Adds a block without instructions. -/
def newBlock (f : Function) (label : String) : Function :=
  { f with blocks := f.blocks ++ [{ label }] }

/-- The instructions of all blocks. -/
def instrs (f : Function) : List Instr := f.blocks.flatMap (·.instrs)

/-- The number of instructions in all blocks. -/
def size (f : Function) : Nat := f.instrs.length

/-- The return type, name and parameters as they are printed. -/
def signature (f : Function) : String :=
  f.ret.text ++ " @" ++ f.name ++ "(" ++
    ", ".intercalate (f.params.map fun p => (Value.param p).typed) ++ ")"

/-- The printed form of a function. -/
def shown (f : Function) : String :=
  if f.isExternal then
    "declare " ++ f.signature ++ "\n"
  else
    "define " ++ f.signature ++ " \x7b\n" ++ "\n".intercalate
      (f.blocks.map Block.shown) ++ "\x7d\n"

end Function

/-- A compilation unit. -/
structure Module where
  name : String
  texts : List (List UInt8) := []
  functions : List Function := []
deriving DecidableEq, Repr

namespace Module

/-- The function of the given name. -/
def find? (m : Module) (name : String) : Option Function :=
  m.functions.reverse.find? (·.name == name)

/-- Adds a string constant and gives its address. -/
def newText (m : Module) (data : List UInt8) : Value × Module :=
  (.text m.texts.length, { m with texts := m.texts ++ [data] })

/-- The function that a new declaration makes. -/
def declared (m : Module) (name : String) (ret : Ty) (params : List (String × Ty))
    (isExternal : Bool) : Function :=
  { place := m.functions.length
    name, ret, isExternal
    params := params.mapIdx fun index (name, type) =>
      { owner := m.functions.length, index, name, type } }

/-- Adds a function at the end. -/
def declare (m : Module) (name : String) (ret : Ty) (params : List (String × Ty))
    (isExternal : Bool) : Module :=
  { m with functions := m.functions ++ [m.declared name ret params isExternal] }

/-- Changes the function at the given place. -/
def modify (m : Module) (place : Nat) (change : Function → Function) : Module :=
  { m with functions := m.functions.modify place change }

/-- The printed form of a module. -/
def shown (m : Module) : String :=
  "; module " ++ m.name ++ "\n" ++
    (if m.texts.isEmpty then "" else
      "\n" ++ String.join (m.texts.mapIdx fun index data =>
        "@" ++ textName index ++ " = constant " ++ Quoted.ofBytes data ++ "\n")) ++
    String.join (m.functions.map fun f => "\n" ++ f.shown)

end Module

end Straightline.Code
