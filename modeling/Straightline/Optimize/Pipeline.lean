import Straightline.Fault
import Straightline.Optimize.DeadCode
import Straightline.Optimize.Fold

/-!
# The optimizer

An optimizer runs its passes over a function, round after round, until a
round leaves the number of instructions as it was or the limit on rounds is
reached. It counts what its passes did over its whole life, and can keep a
log with a line per pass run.

The default passes are constant folding and dead code elimination. A pass may
also be one that fails; what the passes before it did stays done.
-/

namespace Straightline.Optimize

open Code

/-- A pass over one function. -/
inductive Pass where
  | constantFolding
  | deadCode
  | failing (message : String)
deriving DecidableEq, Repr

/-- The name of a pass. -/
def Pass.name : Pass → String
  | .constantFolding => "ConstantFolding"
  | .deadCode => "DeadCodeElimination"
  | .failing _ => "Failing"

/-- What passes did. -/
structure Tally where
  folded : Nat := 0
  removed : Nat := 0
  blocks : Nat := 0
  executions : Nat := 0
deriving DecidableEq, Repr

namespace Tally

/-- Adds up two tallies. -/
def add (a b : Tally) : Tally :=
  { folded := a.folded + b.folded
    removed := a.removed + b.removed
    blocks := a.blocks + b.blocks
    executions := a.executions + b.executions }

/-- The printed form of a tally. -/
def text (t : Tally) : String :=
  "constants folded: " ++ Decimal.ofNat t.folded ++ ", instructions removed: " ++
    Decimal.ofNat t.removed ++ ", blocks removed: " ++ Decimal.ofNat t.blocks

end Tally

/-- A pass that failed. -/
structure PassError where
  pass : String
  message : String
deriving DecidableEq, Repr

/-- The printed form of a failed pass. -/
def PassError.text (e : PassError) : String :=
  "pass " ++ e.pass ++ " failed: " ++ e.message

/-- A failed pass and the function it failed on. -/
structure FunctionError where
  function : String
  error : PassError
deriving DecidableEq, Repr

/-- The printed form of a failure on a function. -/
def FunctionError.text (e : FunctionError) : String :=
  "optimization failed for function " ++ e.function ++ ": " ++ e.error.text

/-! ## Passes over one function -/

/-- What a pass makes of a function, with what it did. -/
def Pass.apply (p : Pass) (f : Function) :
    Except Fault (Except PassError (Function × Tally)) :=
  match p with
  | .constantFolding =>
    let (f', folded) := Fold.run f
    if Fold.isFaulty f' then .error .missing else .ok (.ok (f', { folded }))
  | .deadCode =>
    let r := DeadCode.run f
    .ok (.ok (r.function, { removed := r.instrs, blocks := r.blocks }))
  | .failing message => .ok (.error { pass := p.name, message })

/-- A function on its way through the passes: what was done to it, the log,
and the pass that failed. -/
structure Progress where
  function : Function
  tally : Tally := {}
  log : String := ""
  error : Option PassError := none

/-- The log line of a pass. -/
def logLine (p : Pass) (f : Function) : String :=
  "  running " ++ p.name ++ " on " ++ f.name ++ "\n"

/-- Runs passes one after the other until one fails. -/
def runPasses (logging : Bool) : List Pass → Progress → Except Fault Progress
  | [], g => .ok g
  | p :: rest, g => do
    let log := if logging then g.log ++ logLine p g.function else g.log
    match ← p.apply g.function with
    | .error e => return { g with log, error := some e }
    | .ok (function, done) =>
      runPasses logging rest
        { function, log, tally := (g.tally.add done).add { executions := 1 } }

/-- Runs rounds of passes, at most `limit` of them. -/
def runRounds (logging : Bool) (passes : List Pass) :
    (limit : Nat) → Progress → Except Fault Progress
  | 0, g => .ok g
  | limit + 1, g => do
    let g' ← runPasses logging passes g
    if g'.error.isSome ∨ g'.function.size = g.function.size then return g'
    else runRounds logging passes limit g'

/-! ## Optimizers -/

/-- An optimizer: its passes, the limit on rounds, whether it keeps a log,
and what it did so far. -/
structure Optimizer where
  passes : List Pass := [.constantFolding, .deadCode]
  limit : Int := 10
  logging : Bool := false
  stats : Tally := {}

namespace Optimizer

/-- Runs the optimizer over one function. -/
def runFunction (o : Optimizer) (f : Function) : Except Fault Progress :=
  runRounds o.logging o.passes o.limit.toNat { function := f }

/-- Functions on their way through an optimizer. -/
structure Batch where
  functions : List Function
  tally : Tally := {}
  log : String := ""
  error : Option FunctionError := none

/-- Runs the optimizer over functions in order, external ones apart, until one fails. -/
def runFunctions (o : Optimizer) : List Function → Except Fault Batch
  | [] => .ok { functions := [] }
  | f :: rest =>
    if f.isExternal then do
      let b ← o.runFunctions rest
      return { b with functions := f :: b.functions }
    else do
      let g ← o.runFunction f
      match g.error with
      | some error =>
        return {
          functions := g.function :: rest, tally := g.tally, log := g.log
          error := some { function := f.name, error } }
      | none =>
        let b ← o.runFunctions rest
        return {
          functions := g.function :: b.functions, tally :=
            g.tally.add b.tally, log := g.log ++ b.log
          error := b.error }

/-- What running an optimizer comes to: the optimizer with what it did counted
in, the code, and what was logged. -/
structure Outcome (α : Type) where
  optimizer : Optimizer
  code : α
  log : String
  error : Option String

/-- Runs the optimizer over one function of any kind. -/
def optimizeFunction (o : Optimizer) (f : Function) :
    Except Fault (Outcome Function) :=
  do
  let g ← o.runFunction f
  return {
    optimizer := { o with stats := o.stats.add g.tally }
    code := g.function
    log := g.log
    error := g.error.map PassError.text }

/-- Runs the optimizer over a module. -/
def optimize (o : Optimizer) (m : Module) : Except Fault (Outcome Module) := do
  let b ← o.runFunctions m.functions
  return {
    optimizer := { o with stats := o.stats.add b.tally }
    code := { m with functions := b.functions }
    log := b.log
    error := b.error.map FunctionError.text }

end Optimizer

end Straightline.Optimize
