import Mathlib
import Straightline.Proofs.Execution
import Straightline.Tree

/-!
# Running statements directly

What a function body does, said on its statements and without machine code. A
declaration makes a new cell for its name, with whatever is in it (`contents`
gives that for every declaration in turn). Operands are evaluated from left to
right. A run is the sequence of its calls and how it ends: it returns, with or
without a value, or an operation traps. Running off the end is a return without
a value, and nothing behind a return is run.

A trap names its place (`Site`): the statement, the expression in it and
the way down to the operation. `sites` lists all such places in the order
in which they are come to.
-/

namespace Straightline.Meaning

open Execution (Datum Outcome Run)

/-! ## Places -/

/-- A side of an operation. -/
inductive Side where
  | left
  | right
deriving DecidableEq, Repr

/-- The way down from an expression to an operation in it. -/
abbrev Path := List Side

/-- The place of an operation in a body. -/
structure Site where
  stmt : Nat
  expr : Nat
  path : Path
deriving DecidableEq, Repr

/-- The operations of an expression, in the order in which they are carried out. -/
def operations : Expr → List Path
  | .binary _ _ l r =>
    (operations l).map (.left :: ·) ++ (operations r).map (.right :: ·) ++ [[]]
  | _ => []

/-- The operations of expressions, the first of which is the `k`-th one. -/
def operationsFrom : (k : Nat) → List Expr → List (Nat × Path)
  | _, [] => []
  | k, e :: es => (operations e).map (k, ·) ++ operationsFrom (k + 1) es

/-- The operations of statements, the first of which is the `k`-th one. -/
def sitesFrom : (k : Nat) → List Stmt → List Site
  | _, [] => []
  | k, s :: rest =>
    (operationsFrom 0 s.exprs).map (fun (j, path) => ⟨k, j, path⟩) ++
      sitesFrom (k + 1) rest

/-- The operations of a body. -/
def sites (body : List Stmt) : List Site := sitesFrom 0 body

/-! ## Expressions -/

/-- The cells of the names in scope. -/
abbrev Cells := String → Option Datum

/-- The value of an expression, or how the run ends in it. -/
def value (cells : Cells) : Expr → Except (Outcome Path) Datum
  | .int _ n => .ok (.int n)
  | .text _ s => .ok (.text (Rune.utf8 s))
  | .ident _ x =>
    match cells x with
    | some d => .ok d
    | none => .error .stuck
  | .binary op _ l r => do
    let a ← (value cells l).mapError (.map (.left :: ·))
    let b ← (value cells r).mapError (.map (.right :: ·))
    match op with
    | .arith op =>
      match op.result? a.word b.word with
      | some n => .ok (.int n)
      | none => .error (.trapped [])
    | .unknown _ => .error .stuck
  | .hole => .error .stuck

/-- The values of expressions from left to right; the first of
them is the `k`-th one. -/
def values (cells : Cells) :
    (k : Nat) → List Expr → Except (Outcome (Nat × Path)) (List Datum)
  | _, [] => .ok []
  | k, e :: es => do
    let a ← (value cells e).mapError (.map (k, ·))
    let as ← values cells (k + 1) es
    return a :: as

/-! ## Statements -/

/-- A call that was made. -/
structure Call where
  callee : String
  args : List Datum
deriving DecidableEq, Repr

/-- A run on its way: the cells, how many declarations there were,
and the calls so far. -/
structure State where
  cells : Cells := fun _ => none
  declared : Nat := 0
  calls : List Call := []

/-- One statement, or how the run ends in it. -/
def statement (contents : Nat → Datum) (s : State) :
    Stmt → Except (Outcome (Nat × Path)) State
  | .decl _ x _ =>
    .ok { s with
      cells := Function.update s.cells x (some (contents s.declared))
      declared := s.declared + 1 }
  | .assign _ x [e] => do
    let a ← (value s.cells e).mapError (.map (0, ·))
    match s.cells x with
    | some _ => .ok { s with cells := Function.update s.cells x (some a) }
    | none => .error .stuck
  | .call _ f args => do
    let as ← values s.cells 0 args
    .ok { s with calls := s.calls ++ [⟨f, as⟩] }
  | .ret _ [] => .error (.returned none)
  | .ret _ [e] => do
    let a ← (value s.cells e).mapError (.map (0, ·))
    .error (.returned (some a))
  | .assign .. | .ret .. => .error .stuck

/-- A run of statements, the first of which is the `k`-th one. -/
def runFrom (contents : Nat → Datum) : (k : Nat) → State → List Stmt → Run Call Site
  | _, s, [] => { events := s.calls, outcome := .returned none }
  | k, s, stmt :: rest =>
    match statement contents s stmt with
    | .ok s' => runFrom contents (k + 1) s' rest
    | .error outcome =>
      { events := s.calls, outcome := outcome.map fun (j, path) => ⟨k, j, path⟩ }

/-- A run of a body. -/
def run (contents : Nat → Datum) (body : List Stmt) : Run Call Site :=
  runFrom contents 0 {} body

end Straightline.Meaning
