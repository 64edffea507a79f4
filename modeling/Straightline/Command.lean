import Straightline.Command.Build
import Straightline.Command.Files

/-!
# The command

`Command.run` does what the arguments ask for and reports what was printed and
the exit status: 2 if the arguments are no request, 1 if something went wrong, 0
otherwise. It touches files through `Files` only.
-/

namespace Straightline.Command

/-- What a run printed, and its exit status. -/
structure Report where
  status : Nat
  out : String := ""
  err : String := ""
deriving DecidableEq, Repr

/-- Why a source file cannot be read. A directory can be opened, but not read. -/
def readError (path : String) : Reason → String
  | .isDirectory => path ++ ": read " ++ path ++ ": " ++ Reason.isDirectory.message
  | reason => "open " ++ path ++ ": " ++ reason.message

/-- Carries out a build and reports on it; a file is written if
the build asks for it. -/
def conclude {m : Type → Type} [Monad m] (files : Files m) (o : Options)
    (b : Build) : m Report :=
  match b.verdict with
  | .failed => return { status := 1, out := b.out, err := b.err }
  | .done => return { status := 0, out := b.out, err := b.err }
  | .write text => do
    let path := o.outputPath
    match ← files.write path (Rune.utf8 text) with
    | .ok () =>
      return { status := 0, out := b.out, err := b.err ++ o.note ("Wrote " ++ path) }
    | .error reason =>
      let message :=
        "orka: writing " ++ path ++ ": open " ++ path ++ ": " ++ reason.message ++ "\n"
      return { status := 1, out := b.out, err := b.err ++ message }

/-- Runs the command. -/
def run {m : Type → Type} [Monad m] (files : Files m) (args : List String) :
    m (Except Fault Report) :=
  match Options.parse args with
  | .error e => return .ok { status := 2, err := e.report }
  | .ok o => do
    match ← files.read o.source with
    | .error reason =>
      let message := "orka: unreadable source: " ++ readError o.source reason ++ "\n"
      return .ok { status := 1, err := message }
    | .ok source =>
      match build o source with
      | .error f => return .error f
      | .ok b => return .ok (← conclude files o b)

end Straightline.Command
