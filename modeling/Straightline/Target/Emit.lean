import Straightline.Code.Function
import Straightline.Fault
import Straightline.Target.Module

/-!
# From machine code to the target

`Module.emit` gives the target module of a machine module. All functions are
declared before any code is emitted, so that code may refer to a function
further down. Every instruction but a return becomes one instruction; a
return becomes the end of its block, and of several returns in a block the
last one counts. A function whose return type is void returns nothing,
whatever its returns are given.

An operand that is a local value goes by identity: it becomes a reference to the
place where the value was last made. String constants and functions go by name.
-/

namespace Straightline

namespace Target

open Code (Ty Value textName numbered)

/-! ## Errors -/

/-- What is wrong with a type. -/
inductive TypeGap where
  | missing
  | unknown (type : Ty)
deriving DecidableEq, Repr

/-- The wording of a gap in a type. -/
def TypeGap.message : TypeGap → String
  | .missing => "missing type"
  | .unknown type => "unknown type " ++ type.text

/-- Why an instruction cannot be emitted. -/
inductive InstrError where
  | type (gap : TypeGap)
  | operator (op : OpCode)
  | callee (name : String)
  | constant (shown : String)
  | global (name : String)
  | function (name : String)
  | undefined (shown : String)
  | instruction (sort : String)
deriving DecidableEq, Repr

/-- The wording of an instruction error. -/
def InstrError.message : InstrError → String
  | .type gap => gap.message
  | .operator op => "unknown operator " ++ op.mnemonic
  | .callee name => "call to unknown function " ++ name
  | .constant shown => "unsupported constant " ++ shown
  | .global name => "unknown global @" ++ name
  | .function name => "unknown function @" ++ name
  | .undefined shown => "value " ++ shown ++ " used before it is defined"
  | .instruction sort => "unsupported instruction " ++ sort

/-- Why a module cannot be emitted. -/
inductive EmitError where
  | twice (function : String)
  | returnType (function : String) (gap : TypeGap)
  | parameter (function param : String) (gap : TypeGap)
  | instr (function label : String) (error : InstrError)
deriving DecidableEq, Repr

/-- The wording of an emission error. -/
def EmitError.message : EmitError → String
  | .twice f => "function " ++ f ++ " defined twice"
  | .returnType f gap => "function " ++ f ++ ": " ++ gap.message
  | .parameter f p gap => "function " ++ f ++ ": parameter " ++ p ++ ": " ++ gap.message
  | .instr f label e => "function " ++ f ++ ": block " ++ label ++ ": " ++ e.message

/-- Why emission stopped: an error, or a fault in how the module was put together. -/
inductive Stop (ε : Type) where
  | error (e : ε)
  | fault (f : Fault)
deriving DecidableEq, Repr

/-! ## Types -/

mutual

/-- The first gap in a type, from the return type of a function to
its last parameter. -/
def typeGap? : Ty → Option TypeGap
  | .absent => some .missing
  | .void | .i8 | .i32 => none
  | .ptr elem => typeGap? elem
  | .func ret params => (typeGap? ret).or (typesGap? params)
  | .unknown code => some (.unknown (.unknown code))

/-- The first gap in a list of types. -/
def typesGap? : List Ty → Option TypeGap
  | [] => none
  | t :: ts => (typeGap? t).or (typesGap? ts)

end

/-! ## Operands -/

/-- What code of a function can refer to: the string constants and
functions of its module. -/
structure Surroundings where
  texts : List (List UInt8)
  functions : List Function

namespace Surroundings

/-- The string constant of the given name. -/
def text? (s : Surroundings) (name : String) : Option Operand := do
  let index ← (List.range s.texts.length).find? (textName · == name)
  let data ← s.texts[index]?
  return .text index data.length

/-- The place of the function of the given name. -/
def function? (s : Surroundings) (name : String) : Option (Nat × Function) := do
  let index ← s.functions.findIdx? (·.name == name)
  let f ← s.functions[index]?
  return (index, f)

end Surroundings

/-- The local values made so far, the latest first. -/
abbrev Locals := List (Value × Operand)

/-- A step of emission inside a block. -/
abbrev Emit := Except (Stop InstrError)

/-- A result, or the error if there is none. -/
def orError {α : Type} (e : InstrError) : Option α → Emit α
  | some a => .ok a
  | none => .error (.error e)

/-- Checks that a type has no gap. -/
def checkType (t : Ty) : Emit Ty :=
  match typeGap? t with
  | some gap => .error (.error (.type gap))
  | none => .ok t

/-- The operand that a local value became. -/
def localOperand (locals : Locals) (v : Value) : Emit Operand :=
  orError (.undefined v.shown) (locals.lookup v)

/-- The operand for the string constant of the given name. -/
def textOperand (s : Surroundings) (name : String) : Emit Operand :=
  orError (.global name) (s.text? name)

/-- The operand for the function of the given name. -/
def functionOperand (s : Surroundings) (name : String) : Emit Operand :=
  orError (.function name) ((s.function? name).map fun (index, f) => .func index f.type)

/-- The operand that a value becomes. -/
def operand (s : Surroundings) (locals : Locals) (v : Value) : Emit Operand :=
  match v with
  | .absent => .error (.fault .missing)
  | .int n => .ok (.int n)
  | .text index => textOperand s (textName index)
  | .func f => functionOperand s f.name
  | .temp _ | .param _ => localOperand locals v
  | .loose l =>
    match l.kind with
    | .constant =>
      match l.content with
      | .int n => .ok (.int n)
      | c => .error (.error (.constant c.shown))
    | .global => textOperand s l.name
    | .function => functionOperand s l.name
    | .temporary | .parameter => localOperand locals v

/-! ## Instructions -/

/-- The name of a local value in the target. -/
def localName (v : Value) : String := numbered v.name v.id

/-- What an instruction becomes: an instruction and the value it makes,
or the end of its block. -/
inductive Step where
  | instr (i : Instr) (dest : Option Value)
  | terminator (t : Terminator)
deriving DecidableEq, Repr

/-- A store, which needs an address of a place for its value. -/
def storeTo (value address : Operand) : Emit Step :=
  match address.type with
  | .ptr elem =>
    if value.type = elem then .ok (.instr (.store value address) none)
    else .error (.fault (.storeType value.type address.type))
  | type => .error (.fault (.storeAddress type))

/-- Emits an instruction of a function that returns `ret`. -/
def emitInstr (s : Surroundings) (ret : Ty) (locals : Locals) : Code.Instr → Emit Step
  | .alloca dest type => do
    let type ← checkType type
    return .instr (.alloca (localName (.temp dest)) type) (some (.temp dest))
  | .load dest address => do
    let type ← checkType dest.type
    let address ← operand s locals address
    return .instr (.load (localName (.temp dest)) type address) (some (.temp dest))
  | .store value address => do
    let value ← operand s locals value
    let address ← operand s locals address
    storeTo value address
  | .binary op dest left right => do
    let left ← operand s locals left
    let right ← operand s locals right
    match op with
    | .arith op =>
      return .instr (.binary op (localName (.temp dest)) left right) (some (.temp dest))
    | .unknown code => throw (.error (.operator (.unknown code)))
  | .call dest callee args => do
    if callee.isAbsent then throw (.fault .missing)
    let (index, f) ← orError (.callee callee.name) (s.function? callee.name)
    let args ← args.mapM (operand s locals)
    return .instr (.call (dest.map localName) f.ret index args) dest
  | .ret none => return .terminator .retVoid
  | .ret (some value) =>
    if ret = .void then return .terminator .retVoid
    else return .terminator (.ret (← operand s locals value))
  | .foreign _ sort _ => throw (.error (.instruction sort))

/-- The local values after an instruction at the given place. -/
def bind (locals : Locals) (block index : Nat) (i : Instr) : Option Value → Locals
  | some v => (v, .result block index (localName v) i.type) :: locals
  | none => locals

/-- What a list of instructions becomes. -/
structure Emitted where
  instrs : List Instr
  terminator : Option Terminator
  locals : Locals

/-- Emits the instructions of a block; `index` is the place of the first one. -/
def emitInstrs (s : Surroundings) (ret : Ty) (block : Nat) :
    Locals → (index : Nat) → List Code.Instr → Emit Emitted
  | locals, _, [] => return { instrs := [], terminator := none, locals }
  | locals, index, i :: rest => do
    match ← emitInstr s ret locals i with
    | .instr out dest =>
      let r ← emitInstrs s ret block (bind locals block index out dest) (index + 1) rest
      return { r with instrs := out :: r.instrs }
    | .terminator t =>
      let r ← emitInstrs s ret block locals index rest
      return { r with terminator := r.terminator.or (some t) }

/-! ## Functions and modules -/

/-- Emits the blocks of the function `name`; `block` is the place of the first one. -/
def emitBlocks (s : Surroundings) (name : String) (ret : Ty) :
    Locals → (block : Nat) → List Code.Block → Except (Stop EmitError) (List Block)
  | _, _, [] => return []
  | locals, block, b :: rest =>
    match emitInstrs s ret block locals 0 b.instrs with
    | .error (.error e) => throw (.error (.instr name b.label e))
    | .error (.fault f) => throw (.fault f)
    | .ok r => do
      let bs ← emitBlocks s name ret r.locals (block + 1) rest
      return { label := b.label, instrs := r.instrs, terminator := r.terminator } :: bs

/-- The local values that a function starts with: its parameters. -/
def parameters (f : Code.Function) : Locals :=
  (f.params.mapIdx fun index p => (Value.param p, Operand.param index p.type)).reverse

/-- The parameters of a declaration, or the first one whose type has a gap. -/
def declareParams (function : String) :
    List Code.Param → Except EmitError (List (String × Ty))
  | [] => return []
  | p :: ps =>
    match typeGap? p.type with
    | some gap => throw (.parameter function p.name gap)
    | none => return (p.name, p.type) :: (← declareParams function ps)

/-- Declares functions in order, after those of the names `taken`. -/
def declare :
    (taken : List String) → List Code.Function → Except EmitError (List Function)
  | _, [] => return []
  | taken, f :: fs =>
    if f.name ∈ taken then throw (.twice f.name)
    else
      match typeGap? f.ret with
      | some gap => throw (.returnType f.name gap)
      | none => do
        let params ← declareParams f.name f.params
        return { name := f.name, ret := f.ret, params } ::
          (← declare (f.name :: taken) fs)

/-- Gives a declared function its code, unless it is external. -/
def define (s : Surroundings) (f : Code.Function) (declared : Function) :
    Except (Stop EmitError) Function :=
  if f.isExternal then return declared
  else do
    let blocks ← emitBlocks s f.name f.ret (parameters f) 0 f.blocks
    return { declared with blocks }

/-- Gives declared functions their code. -/
def defineAll (s : Surroundings) :
    List Code.Function → List Function → Except (Stop EmitError) (List Function)
  | f :: fs, declared :: rest => do
    let out ← define s f declared
    return out :: (← defineAll s fs rest)
  | _, _ => return []

end Target

/-- Emits a module. String constants get a closing zero byte. -/
def Code.Module.emit (m : Module) :
    Except (Target.Stop Target.EmitError) Target.Module :=
  match Target.declare [] m.functions with
  | .error e => throw (.error e)
  | .ok declared => do
    let texts := m.texts.map (· ++ [0])
    let functions ← Target.defineAll { texts, functions := declared }
      m.functions declared
    return { name := m.name, texts, functions }

end Straightline
