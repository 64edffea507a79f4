import Straightline.Code.Function

/-!
# Constant folding

An operation on two integer constants is computed now: its instruction goes away
and every later use of its result becomes the constant. Arithmetic wraps as it
does at run time. A quotient that has no value is left for run time, and so is
an operation of no known kind.
-/

namespace Straightline.Optimize

open Code

/-- The temporaries whose values are known, the latest first. -/
abbrev Known := List (Temp × Int32)

namespace Fold

/-- A value with what is known about it put in its place. -/
def replace (known : Known) : Value → Value
  | .temp t =>
    match known.lookup t with
    | some n => .int n
    | none => .temp t
  | v => v

/-- An instruction with what is known about its operands put in their place.
A callee stays as it is. -/
def substitute (known : Known) : Instr → Instr
  | .load dest address => .load dest (replace known address)
  | .store value address => .store (replace known value) (replace known address)
  | .binary op dest left right =>
    .binary op dest (replace known left) (replace known right)
  | .call dest callee args => .call dest callee (args.map (replace known))
  | .ret value => .ret (value.map (replace known))
  | i => i

/-- The result of an instruction that can be computed now. -/
def evaluate? : Instr → Option (Temp × Int32)
  | .binary op dest left right => do
    let a ← left.int?
    let b ← right.int?
    let n ← op.eval? a b
    return (dest, n)
  | _ => none

/-- Code after folding: the instructions that stay, what is known behind them,
and how many were folded. -/
structure Folded where
  instrs : List Instr
  known : Known
  count : Nat

/-- Folds instructions, given what is known in front of them. -/
def instrs : Known → List Instr → Folded
  | known, [] => { instrs := [], known, count := 0 }
  | known, i :: rest =>
    let i := substitute known i
    match evaluate? i with
    | some known' =>
      let r := instrs (known' :: known) rest
      { r with count := r.count + 1 }
    | none =>
      let r := instrs known rest
      { r with instrs := i :: r.instrs }

/-- Folds blocks in order. What is known carries over from each block to the next. -/
def blocks : Known → List Block → List Block × Nat
  | _, [] => ([], 0)
  | known, b :: rest =>
    let r := instrs known b.instrs
    let rs := blocks r.known rest
    ({ b with instrs := r.instrs } :: rs.1, r.count + rs.2)

/-- Folds a function and counts the instructions folded. -/
def run (f : Function) : Function × Nat :=
  let r := blocks [] f.blocks
  ({ f with blocks := r.1 }, r.2)

/-- Whether there is nothing where folding looks for an operand:
on the left side of an operation, or on the right side if there is
a constant on the left. -/
def isOneSided : Instr → Bool
  | .binary _ _ left right => left.isAbsent || (left.int?.isSome && right.isAbsent)
  | _ => false

/-- Whether folding came upon an operation without an operand that it looks at. -/
def isFaulty (folded : Function) : Bool :=
  folded.blocks.any fun b => b.instrs.any isOneSided

end Fold

end Straightline.Optimize
