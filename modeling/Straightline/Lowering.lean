import Straightline.Code.Function
import Straightline.Fault
import Straightline.Lowering.Error
import Straightline.Scope
import Straightline.Tree

/-!
# From trees to machine code

`Tree.compile` goes over a tree twice. First every global is declared in order,
so that a call may name a function that is defined further down. Then the body
of every function that was declared is lowered into the entry block of its
function, with a scope of its own.

Every function has the type `void ()`, whatever it declares or returns; an
external function has the parameters it lists and returns nothing.

A statement that is wrong is reported and lowering goes on behind it; the
instructions and string constants that its expressions made before the error
was found stay. Statements after a return are lowered into blocks of their
own, which nothing reaches.
-/

namespace Straightline

open Code

namespace Lowering

/-- The machine type of a variable: a word for an integer, an address for a string. -/
def machineType : Option DataType → Except TypeProblem Ty
  | none => .error .missing
  | some t =>
    if t.isInteger then .ok .i32
    else if t.isString then .ok (.ptr .i8)
    else .error (.noRepresentation t)

/-! ## Functions being lowered -/

/-- A function being lowered. `function` holds the blocks that are closed;
`label` and `code` are the block that instructions go to. -/
structure Draft where
  function : Function
  texts : List (List UInt8)
  scope : Scope := {}
  label : String := "entry"
  code : List Instr := []
  dead : Nat := 0
  errors : List SemanticError := []

namespace Draft

/-- The block that instructions go to. -/
def block (d : Draft) : Block := { label := d.label, instrs := d.code }

/-- Adds an instruction. -/
def push (d : Draft) (i : Instr) : Draft := { d with code := d.code ++ [i] }

/-- Closes a block that ended with a return and opens one that nothing reaches. -/
def reopen (d : Draft) : Draft :=
  if d.block.isTerminated then
    { d with
      function := { d.function with blocks := d.function.blocks ++ [d.block] }
      label := "dead." ++ Decimal.ofNat (d.dead + 1)
      code := []
      dead := d.dead + 1 }
  else d

/-- Adds the return that falling off the end stands for. -/
def finish (d : Draft) : Draft :=
  if d.block.isTerminated then d else d.push (.ret none)

/-- The function as far as it was lowered. -/
def result (d : Draft) : Function :=
  { d.function with blocks := d.function.blocks ++ [d.block] }

/-- Records an error. -/
def report (d : Draft) (e : SemanticError) : Draft :=
  { d with errors := d.errors ++ [e] }

end Draft

/-- Why lowering something stopped: an error of the program, or a gap in the tree. -/
inductive Stop where
  | error (e : SemanticError)
  | fault (f : Fault)

/-- A lowering step. What it did before it stopped stays done. -/
abbrev Lower := EStateM Stop Draft

/-- Stops with an error at `pos`. -/
def stop {α : Type} (pos : Position) (cause : SemanticCause) : Lower α :=
  throw (.error ⟨pos, cause⟩)

/-- Adds an instruction. -/
def push (i : Instr) : Lower Unit := modify (·.push i)

/-- Makes a temporary of the function. -/
def newTemp (name : String) (type : Ty) : Lower Temp :=
  modifyGet fun d => let (t, function) := d.function.newTemp name type; (t,
    { d with function })

/-- Adds a string constant. -/
def newText (s : String) : Lower Value :=
  modifyGet fun d =>
    (.text d.texts.length, { d with texts := d.texts ++ [Rune.utf8 s] })

/-! ## Expressions -/

/-- Reads the variable `name`. -/
def readVariable (pos : Position) (name : String) : Lower Value := do
  let scope := (← get).scope
  match scope.storage? name with
  | none => stop pos (.undeclared name)
  | some slot =>
    match machineType (scope.type? name) with
    | .error problem => stop pos (.variableType name problem)
    | .ok type =>
      let dest ← newTemp name type
      push (.load dest (.temp slot))
      return .temp dest

/-- Combines two values. -/
def combine (op : OpCode) (pos : Position) (left right : Value) : Lower Value :=
  if left.type = .i32 ∧ right.type = .i32 then
    match op with
    | .unknown code => stop pos (.unknownOperator code)
    | .arith op => do
      let dest ← newTemp "" left.type
      push (.binary (.arith op) dest left right)
      return .temp dest
  else
    stop pos (.operandTypes op left.type right.type)

/-- Lowers an expression and gives its value. -/
def value : Expr → Lower Value
  | .int _ n => return .int n
  | .text _ s => newText s
  | .ident pos name => readVariable pos name
  | .binary op pos left right => do
    let left ← value left
    let right ← value right
    combine op pos left right
  | .hole => throw (.fault .missing)

/-- Lowers expressions from left to right. -/
def values : List Expr → Lower (List Value)
  | [] => return []
  | e :: es => do
    let v ← value e
    return v :: (← values es)

/-! ## Statements -/

/-- Declares a variable with a slot of its own. -/
def declareVariable (pos : Position) (name : String) (type : Option DataType) :
    Lower Unit :=
  match machineType type with
  | .error problem => stop pos (.variableType name problem)
  | .ok machine => do
    let slot ← newTemp name (.ptr machine)
    push (.alloca slot machine)
    modify fun d =>
      { d with scope := d.scope.declare { name, type, storage := some slot, pos } }

/-- The type of what is behind an address. -/
def pointee : Ty → Ty
  | .ptr elem => elem
  | _ => .absent

/-- Stores the value of an expression into a variable. -/
def assignVariable (pos : Position) (name : String) (exprs : List Expr) :
    Lower Unit :=
  do
  match (← get).scope.storage? name with
  | none => stop pos (.undeclared name)
  | some slot =>
    match exprs with
    | [] => stop pos (.noValue name)
    | [e] =>
      let v ← value e
      if v.type = pointee slot.type then
        push (.store v (.temp slot))
      else
        stop pos (.assignType v.type name (pointee slot.type))
    | _ => stop pos (.manyValues name exprs.length)

/-- The first argument whose type differs from that of its parameter: its
number, place and types. -/
def badArgument? :
    (number : Nat) → List Expr → List Value → List Param →
      Option (Nat × Position × Ty × Ty)
  | number, e :: es, v :: vs, p :: ps =>
    if v.type = p.type then badArgument? (number + 1) es vs ps
    else some (number, e.pos, v.type, p.type)
  | _, _, _, _ => none

/-- Calls a function of the module `m`. -/
def callFunction (m : Module) (pos : Position) (name : String) (exprs : List Expr) :
    Lower Unit :=
  do
  let args ← values exprs
  match m.find? name with
  | none => stop pos (.unknownCallee name)
  | some callee =>
    if args.length ≠ callee.params.length then
      stop pos (.callArity name args.length callee.params.length)
    else
      match badArgument? 1 exprs args callee.params with
      | some (number, argPos, given, want) =>
        stop argPos (.callArgument name number given want)
      | none =>
        if callee.ret = .void then
          push (.call none callee.value args)
        else
          let dest ← newTemp "" callee.ret
          push (.call (some (.temp dest)) callee.value args)

/-- Returns from the function. -/
def returnValues (pos : Position) (exprs : List Expr) : Lower Unit :=
  match exprs with
  | [] => push (.ret none)
  | [e] => do
    let v ← value e
    push (.ret (some v))
  | _ => do
    push (.ret none)
    stop pos (.manyReturns exprs.length)

/-- Lowers a statement. -/
def statement (m : Module) : Stmt → Lower Unit
  | .decl pos name type => declareVariable pos name type
  | .assign pos name exprs => assignVariable pos name exprs
  | .call pos name exprs => callFunction m pos name exprs
  | .ret pos exprs => returnValues pos exprs

/-- Lowers statements one after the other, recording the errors of
those that are wrong. -/
def statements (m : Module) : List Stmt → Draft → Except Fault Draft
  | [], d => .ok d
  | s :: rest, d =>
    match statement m s d.reopen with
    | .ok _ d => statements m rest d
    | .error (.error e) d => statements m rest (d.report e)
    | .error (.fault f) _ => .error f

/-! ## Globals -/

/-- The machine types of a parameter list, or the first parameter that has none. -/
def parameterTypes :
    List Variable → Except (Variable × TypeProblem) (List (String × Ty))
  | [] => .ok []
  | p :: ps =>
    match machineType p.type with
    | .error problem => .error (p, problem)
    | .ok t => (parameterTypes ps).map ((p.name, t) :: ·)

/-- A module with all globals declared: the errors, and the bodies still to be
lowered with the places of their functions. -/
structure Declared where
  module : Module
  errors : List SemanticError := []
  bodies : List (Nat × List Stmt) := []

/-- Declares a global. -/
def Declared.add (d : Declared) (g : Global) : Declared :=
  if (d.module.find? g.name).isSome then
    { d with errors := d.errors ++ [⟨g.pos, .redeclared g.name⟩] }
  else
    match g with
    | .func _ name _ body =>
      { d with
        module := d.module.declare name .void [] false
        bodies := d.bodies ++ [(d.module.functions.length, body)] }
    | .external _ name params =>
      match parameterTypes params with
      | .error (p, problem) =>
        { d with errors := d.errors ++ [⟨p.pos, .parameterType p.name name problem⟩] }
      | .ok types => { d with module := d.module.declare name .void types true }

/-- A compiled module and the errors of its source. -/
structure Compiled where
  module : Module
  errors : List SemanticError

/-- Lowers the body of the function at `place`. -/
def Compiled.define (c : Compiled) (place : Nat) (body : List Stmt) :
    Except Fault Compiled :=
  match c.module.functions[place]? with
  | none => .ok c
  | some function => do
    let d ← statements c.module body { function, texts := c.module.texts }
    let d := d.finish
    return {
      module := { c.module.modify place fun _ => d.result with texts := d.texts }
      errors := c.errors ++ d.errors }

/-- Lowers bodies in order. -/
def Compiled.defineAll : Compiled → List (Nat × List Stmt) → Except Fault Compiled
  | c, [] => .ok c
  | c, (place, body) :: rest => do (← c.define place body).defineAll rest

end Lowering

/-- Compiles a tree into a module named after its file. Only a
tree with gaps is at fault. -/
def Tree.compile (t : Tree) : Except Fault Lowering.Compiled :=
  let d := t.globals.foldl Lowering.Declared.add { module := { name := t.filename } }
  Lowering.Compiled.defineAll { module := d.module, errors := d.errors } d.bodies

end Straightline
