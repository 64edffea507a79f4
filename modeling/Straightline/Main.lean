import Straightline.Command

/-!
# The command line

Access to the files of the system, and the entry point of the command.
-/

namespace Straightline.Command

/-- The reason that an error of the system stands for. -/
def Reason.ofError : IO.Error → Reason
  | .noFileOrDirectory .. => .noEntry
  | .inappropriateType _ _ details =>
    if details.toLower = Reason.notDirectory.message then .notDirectory
      else .isDirectory
  | e => .other e.toString

/-- Access to the files of the system. -/
def systemFiles : Files IO where
  read path := do
    try return .ok (← IO.FS.readBinFile path).toList
    catch e => return .error (Reason.ofError e)
  write path data := do
    try
      IO.FS.writeBinFile path ⟨data.toArray⟩
      return .ok ()
    catch e => return .error (Reason.ofError e)

end Straightline.Command

/-- Runs the command on the arguments of the process. -/
def main (args : List String) : IO UInt32 := do
  match ← Straightline.Command.run Straightline.Command.systemFiles args with
  | .ok report =>
    (← IO.getStdout).putStr report.out
    (← IO.getStderr).putStr report.err
    return UInt32.ofNat report.status
  | .error fault =>
    (← IO.getStderr).putStr ((fault.message?.getD "incomplete data") ++ "\n")
    return 2
