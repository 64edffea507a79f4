import Mathlib
import Straightline.Lowering.Error
import Straightline.Tree

/-!
# A type checker for trees

The rules of the language said on trees alone: data types, names and positions,
no machine code. A checker goes over the globals first and then over the body of
every function that was accepted, with an environment of its own; each statement
gives at most one error, and a statement that is wrong binds nothing.

`Tree.diagnose` is the list of all errors in order. Diagnostics name types by
what stands for them in machine code, so `DataType.machine` maps the ones to the
others; it keeps different types apart.
-/

namespace Straightline

/-- The machine type that stands for a data type. -/
def DataType.machine : DataType → Code.Ty
  | .void => .void
  | .char => .i8
  | .int => .i32
  | .pointer elem => .ptr elem.machine

theorem DataType.machine_injective {t u : DataType} (h : t.machine = u.machine) :
    t = u := by
  induction t generalizing u with
  | pointer elem ih =>
    cases u with
    | pointer other =>
      simp only [machine, Code.Ty.ptr.injEq] at h
      rw [ih h]
    | _ => simp [machine] at h
  | _ => cases u <;> simp_all [machine]

namespace Typing

/-- The types of the variables in scope. -/
abbrev Env := String → Option DataType

/-- The parameter types of the functions that can be called. -/
abbrev Signatures := String → Option (List DataType)

/-- The types that a variable or a parameter can have. -/
def IsVariableType (t : DataType) : Prop := t = .int ∨ t = .str

instance (t : DataType) : Decidable (IsVariableType t) :=
  inferInstanceAs (Decidable (_ ∨ _))

/-- The type that a declaration gives, if a variable can have it. -/
def variableType : Option DataType → Except TypeProblem DataType
  | none => .error .missing
  | some t => if IsVariableType t then .ok t else .error (.noRepresentation t)

/-! ## Expressions -/

/-- The type of an operation on operands of the given types. -/
def operationType (op : OpCode) (pos : Position) (left right : DataType) :
    Except SemanticError DataType :=
  if left = .int ∧ right = .int then
    match op with
    | .arith _ => .ok .int
    | .unknown code => .error ⟨pos, .unknownOperator code⟩
  else .error ⟨pos, .operandTypes op left.machine right.machine⟩

/-- The type of an expression, or what is wrong with it. Complete
trees have no holes. -/
def typeOf (Γ : Env) : Expr → Except SemanticError DataType
  | .int _ _ => .ok .int
  | .text _ _ => .ok .str
  | .ident pos x =>
    match Γ x with
    | some t => .ok t
    | none => .error ⟨pos, .undeclared x⟩
  | .binary op pos left right => do
    let l ← typeOf Γ left
    let r ← typeOf Γ right
    operationType op pos l r
  | .hole => .ok .void

/-- The types of expressions, from left to right. -/
def typesOf (Γ : Env) : List Expr → Except SemanticError (List DataType)
  | [] => .ok []
  | e :: es => do
    let t ← typeOf Γ e
    let ts ← typesOf Γ es
    return t :: ts

/-! ## Statements -/

/-- The first argument of a call to `f` whose type is not that of its parameter. -/
def argumentError? (f : String) :
    (number : Nat) → List Expr → List DataType → List DataType →
    Option SemanticError
  | number, e :: es, given :: rest, want :: wants =>
    if given = want then argumentError? f (number + 1) es rest wants
    else some ⟨e.pos, .callArgument f number given.machine want.machine⟩
  | _, _, _, _ => none

/-- What is wrong with a call to `f` whose arguments have the given types. -/
def callError? (S : Signatures) (pos : Position) (f : String) (args : List Expr)
    (given : List DataType) : Option SemanticError :=
  match S f with
  | none => some ⟨pos, .unknownCallee f⟩
  | some wants =>
    if given.length = wants.length then argumentError? f 1 args given wants
    else some ⟨pos, .callArity f given.length wants.length⟩

/-- The environment behind a statement, or what is wrong with the statement. -/
def statement (S : Signatures) (Γ : Env) : Stmt → Except SemanticError Env
  | .decl pos x type =>
    match variableType type with
    | .ok t => .ok (Function.update Γ x (some t))
    | .error problem => .error ⟨pos, .variableType x problem⟩
  | .assign pos x values =>
    match Γ x, values with
    | none, _ => .error ⟨pos, .undeclared x⟩
    | some _, [] => .error ⟨pos, .noValue x⟩
    | some want, [e] => do
      let given ← typeOf Γ e
      if given = want then .ok Γ
        else .error ⟨pos, .assignType given.machine x want.machine⟩
    | some _, _ => .error ⟨pos, .manyValues x values.length⟩
  | .call pos f args => do
    let given ← typesOf Γ args
    match callError? S pos f args given with
    | some e => .error e
    | none => .ok Γ
  | .ret pos values =>
    match values with
    | [] => .ok Γ
    | [e] => do
      let _ ← typeOf Γ e
      return Γ
    | _ => .error ⟨pos, .manyReturns values.length⟩

/-- The errors of a list of statements. -/
def body (S : Signatures) : Env → List Stmt → List SemanticError
  | _, [] => []
  | Γ, s :: rest =>
    match statement S Γ s with
    | .ok Γ' => body S Γ' rest
    | .error e => e :: body S Γ rest

/-! ## Globals -/

/-- The types of the parameters of `f`, or the first parameter that is wrong. -/
def parameterTypes (f : String) : List Variable → Except SemanticError (List DataType)
  | [] => .ok []
  | p :: ps =>
    match variableType p.type with
    | .ok t => (parameterTypes f ps).map (t :: ·)
    | .error problem => .error ⟨p.pos, .parameterType p.name f problem⟩

/-- The globals that were accepted: what can be called, the bodies to
check, and the errors so far. -/
structure Accepted where
  signatures : Signatures := fun _ => none
  bodies : List (List Stmt) := []
  errors : List SemanticError := []

/-- Accepts a global or reports what is wrong with it. A function takes no arguments. -/
def Accepted.add (a : Accepted) (g : Global) : Accepted :=
  match a.signatures g.name, g with
  | some _, _ => { a with errors := a.errors ++ [⟨g.pos, .redeclared g.name⟩] }
  | none, .func _ f _ stmts =>
    { a with
      signatures := Function.update a.signatures f (some []), bodies :=
        a.bodies ++ [stmts] }
  | none, .external _ f params =>
    match parameterTypes f params with
    | .ok types => { a with signatures := Function.update a.signatures f (some types) }
    | .error e => { a with errors := a.errors ++ [e] }

end Typing

/-- The globals of a tree that are accepted. -/
def Tree.accepted (t : Tree) : Typing.Accepted := t.globals.foldl Typing.Accepted.add {}

/-- All errors of a tree, in order: those of its globals, then those of its bodies. -/
def Tree.diagnose (t : Tree) : List SemanticError :=
  t.accepted.errors ++ t.accepted.bodies.flatMap
    (Typing.body t.accepted.signatures fun _ => none)

end Straightline
