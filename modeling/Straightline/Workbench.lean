import Straightline.Code.Builder
import Straightline.Target
import Straightline.Workbench.Step

/-!
# The workbench

A module put together and taken through the passes one step at a time,
parts that do not fit included. `Workbench.run` answers every step up to
the first one that is at fault.

A handle stays with its block: when a pass removes the block, instructions that
are added to it are made all the same but no longer show up in the function.
-/

namespace Straightline

open Code Optimize

/-- A block that a handle stands for. One that was removed from
its function has no index. -/
structure BlockRef where
  place : Nat
  index : Option Nat
deriving DecidableEq, Repr

/-- A module being worked on, with the handles given so far and the number
of values made by hand. -/
structure Workbench where
  module : Module
  optimizer : Optimizer := {}
  functions : List (String × Nat) := []
  blocks : List (String × BlockRef) := []
  values : List (String × Value) := []
  made : Nat := 0

namespace Workbench

/-- An action at the workbench. -/
abbrev Bench := StateT Workbench (Except Fault)

/-- A part, or a fault if it is left out. -/
def need {α : Type} : Option α → Bench α
  | some a => return a
  | none => throw .missing

/-- The function that a handle stands for. -/
def functionOf (handle : String) : Bench Function := do
  let w ← get
  let place ← need (w.functions.lookup handle)
  need w.module.functions[place]?

/-- Puts a changed function in its place. Handles of blocks it no
longer has are cut loose. -/
def putFunction (f : Function) : Bench Unit :=
  modify fun w =>
    { w with
      module := w.module.modify f.place fun _ => f
      blocks := w.blocks.map fun (handle, b) =>
        if b.place = f.place then
          (handle, { b with index := b.index.filter (· < f.blocks.length) })
        else (handle, b) }

/-- Lets a handle stand for a value. -/
def bindValue (handle : String) (v : Value) : Bench Unit :=
  modify fun w => { w with values := (handle, v) :: w.values }

/-- Lets a handle, if one is given, stand for a value, if there is one. -/
def bindValue? (handle : Option String) (v : Option Value) : Bench Unit :=
  match handle, v with
  | some handle, some v => bindValue handle v
  | _, _ => return ()

/-- The value of an operand. -/
def valueOf : Operand → Bench Value
  | .int n => return .int n
  | .absent => return .absent
  | .handle handle => do
    match (← get).values.lookup handle with
    | some v => return v
    | none => return (← functionOf handle).value
  | .fresh kind name type id content =>
    modifyGet fun w =>
      (.loose { key := w.made, kind, name, type, id, content },
        { w with made := w.made + 1 })

/-- The value of an operand, unless it is left out. -/
def valueOf? (o : Operand) : Bench (Option Value) := do
  let v ← valueOf o
  return if v.isAbsent then none else some v

/-- The order that an entry stands for. -/
def orderOf : Entry → Bench Order
  | .alloca name type => return .alloca name type
  | .load name type address => return .load name type (← valueOf address)
  | .store value address => return .store (← valueOf value) (← valueOf address)
  | .binary op left right => return .binary op (← valueOf left) (← valueOf right)
  | .call function args => return .call (← functionOf function) (← args.mapM valueOf)
  | .ret value => return .ret (← valueOf? value)
  | .callAny callee args dest =>
    return .ready (.call (← valueOf? dest) (← valueOf callee) (← args.mapM valueOf))
  | .foreign text sort dest => return .ready (.foreign text sort (← valueOf? dest))

/-- Makes an instruction and adds it to a block. The answer shows it, so what
it shows has to be there. -/
def addInstr (block : String) (entry : Entry) (handle : Option String) :
    Bench Answer :=
  do
  let order ← orderOf entry
  let w ← get
  let b ← need (w.blocks.lookup block)
  let f ← need w.module.functions[b.place]?
  let (i, f) ← order.make f
  putFunction (match b.index with
    | some index => f.pushAt index i
    | none => f)
  if i.isShowable then
    bindValue? handle i.result
    return .instr f.name i
  else
    throw .missing

/-- Adds a function with handles for itself and its parameters. -/
def addFunction (handle name : String) (ret : Ty) (params : List ParamEntry)
    (isExternal : Bool) : Bench Answer := do
  let w ← get
  let types := params.map fun p => (p.name, p.type)
  let f := w.module.declared name ret types isExternal
  set { w with
    module := w.module.declare name ret types isExternal
    functions := (handle, f.place) :: w.functions }
  for (entry, p) in params.zip f.params do
    bindValue? entry.handle (some (.param p))
  return .type f.type

/-- Runs one pass over a function. -/
def runPass (p : Pass) (function : String) : Bench Answer := do
  match ← p.apply (← functionOf function) with
  | .error e => return .pass p (.error e.message)
  | .ok (f, tally) =>
    putFunction f
    return .pass p (.ok tally)

/-- Takes in what running the optimizer came to. -/
def finish {α : Type} (o : Optimizer.Outcome α) (functions : List Function) :
    Bench Answer :=
  do
  modify fun w => { w with optimizer := o.optimizer }
  functions.forM putFunction
  return .optimized o.error o.log o.optimizer.stats

/-- Carries out a step. -/
def perform : Step → Bench Answer
  | .function handle name ret params isExternal =>
    addFunction handle name ret params isExternal
  | .setExternal function value => do
    putFunction { (← functionOf function) with isExternal := value }
    return .done
  | .find name => return .function ((← get).module.find? name)
  | .block function label handle => do
    let f ← functionOf function
    putFunction (f.newBlock label)
    modify fun w =>
      { w with
        blocks :=
          (handle, { place := f.place, index := some f.blocks.length }) :: w.blocks }
    return .block f.blocks.length
  | .text data handle => do
    let v ← modifyGet fun w =>
      let (v, module) := w.module.newText data; (v, { w with module })
    bindValue handle v
    return .value v
  | .temp function name type handle => do
    let (t, f) := (← functionOf function).newTemp name type
    putFunction f
    bindValue handle (.temp t)
    return .value (.temp t)
  | .value operand handle => do
    let v ← need (← valueOf? operand)
    bindValue? handle (some v)
    return .inspected v
  | .instr block entry handle => addInstr block entry handle
  | .verify => return .errors (← (← get).module.verify)
  | .print => return .text (← get).module.shown
  | .printFunction function => return .text (← functionOf function).shown
  | .blocks function => return .blocks (← functionOf function).blocks
  | .emit => do
    match (← get).module.targetText with
    | .ok text => return .target (.ok text)
    | .error (.error e) => return .target (.error e)
    | .error (.fault f) => throw f
  | .pass pass function => runPass pass function
  | .newOptimizer => do
    modify fun w => { w with optimizer := {} }
    return .done
  | .addPass pass => do
    modify fun w => { w with optimizer.passes := w.optimizer.passes ++ [pass] }
    return .done
  | .setLimit limit => do
    modify fun w => { w with optimizer.limit := limit }
    return .done
  | .setLogging on => do
    modify fun w => { w with optimizer.logging := on }
    return .done
  | .optimize => do
    let w ← get
    let o ← w.optimizer.optimize w.module
    finish o o.code.functions
  | .optimizeFunction function => do
    let o ← (← get).optimizer.optimizeFunction (← functionOf function)
    finish o [o.code]

/-- Carries out steps and gives their answers, up to the first step that is at fault. -/
def run : Workbench → List Step → List (Except Fault Answer)
  | _, [] => []
  | w, s :: rest =>
    match perform s w with
    | .ok (answer, w) => .ok answer :: run w rest
    | .error f => [.error f]

end Workbench

end Straightline
