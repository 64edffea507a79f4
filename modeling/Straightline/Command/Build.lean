import Straightline.Code.Verify
import Straightline.Command.Options
import Straightline.Lowering
import Straightline.Optimize.Pipeline
import Straightline.Target
import Straightline.Tree.Outline
import Straightline.Tree.Parser

/-!
# What the command makes of a source text

The phases come one after the other: tokens, tree, module, optimized module,
target text. A phase that finds errors reports them under its title and ends the
build. `build` is plain data in and out; the file that may have to be written at
the end is part of its result.
-/

namespace Straightline.Command

/-- How a build ends. -/
inductive Verdict where
  | failed
  | done
  | write (text : String)
deriving DecidableEq, Repr

/-- What a build prints, and how it ends. -/
structure Build where
  out : String := ""
  err : String := ""
  verdict : Verdict
deriving DecidableEq, Repr

/-- A build with what was printed before it. -/
def Build.after (b : Build) (out err : String) : Build :=
  { b with out := out ++ b.out, err := err ++ b.err }

/-- Errors under a title. -/
def errorList (title : String) (errors : List String) : String :=
  title ++ ":\n" ++ String.join (errors.map fun e => "  " ++ e ++ "\n")

/-- A build that ends with errors. -/
def Build.failure (title : String) (errors : List String) : Build :=
  { err := errorList title errors, verdict := .failed }

/-- A line on progress, if that is asked for. -/
def Options.note (o : Options) (message : String) : String :=
  if o.progress then "✓ " ++ message ++ "\n" else ""

/-- The last phase: prints or hands over what was asked for. -/
def finishModule (o : Options) (m : Code.Module) : Except Fault Build :=
  if o.target || o.writeTarget then
    match m.targetText with
    | .error (.fault f) => throw f
    | .error (.error e) =>
      return { err := "\nLLVM emission error: " ++ e.message ++ "\n",
               verdict := .failed }
    | .ok text =>
      return {
        out := if o.target then text else ""
        verdict := if o.writeTarget then .write text else .done }
  else
    return { out := if o.tree then "" else m.shown, verdict := .done }

/-- Optimizes a module and goes on with it. -/
def optimizeModule (o : Options) (m : Code.Module) : Except Fault Build := do
  let optimizer : Optimize.Optimizer := { logging := o.progress }
  let r ← optimizer.optimize m
  match r.error with
  | some e =>
    return { err := r.log ++ "\nOptimization error: " ++ e ++ "\n", verdict := .failed }
  | none =>
    match ← r.code.verify with
    | [] =>
      let b ← finishModule o r.code
      return b.after "" (r.log ++
        o.note ("Optimization successful (" ++ r.optimizer.stats.text ++ ")"))
    | errors =>
      return (Build.failure "IR verification errors after optimization"
        (errors.map Code.VerifyError.message)).after "" r.log

/-- Verifies a module and goes on with it. -/
def checkModule (o : Options) (m : Code.Module) : Except Fault Build := do
  match ← m.verify with
  | [] => if o.optimize then optimizeModule o m else finishModule o m
  | errors =>
    return Build.failure "IR verification errors" (errors.map Code.VerifyError.message)

/-- Compiles a tree and goes on with its module. -/
def compileTree (o : Options) (t : Tree) : Except Fault Build := do
  let c ← t.compile
  match c.errors with
  | [] => return (← checkModule o c.module).after "" (o.note "IR generation successful")
  | errors => return Build.failure "Semantic errors" (errors.map SemanticError.text)

/-- Reads a tree and goes on with it. -/
def readTree (o : Options) (l : Lexer) : Except Fault Build := do
  let r := Parser.parse l
  let outline ← if o.tree then r.tree.outline? else .ok ""
  match r.errors with
  | [] => return (← compileTree o r.tree).after outline (o.note "Parsing successful")
  | errors =>
    return (Build.failure "Syntax errors" (errors.map ParseError.text)).after outline ""

/-- Lists the tokens. -/
def listTokens (l : Lexer) : Build :=
  let d := l.drain
  let out := String.join (d.all.map fun t => t.listing ++ "\n")
  match d.errors with
  | [] => { out, verdict := .done }
  | errors =>
    (Build.failure "Lexical errors" (errors.map LexicalError.text)).after out ""

/-- What the command makes of a source text. -/
def build (o : Options) (source : List UInt8) : Except Fault Build :=
  let l := Lexer.ofBytes source o.source
  if o.tokens then return listTokens l else readTree o l

end Straightline.Command
