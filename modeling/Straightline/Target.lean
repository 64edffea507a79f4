import Straightline.Target.Emit
import Straightline.Target.Printer

/-!
# The target text of a module
-/

namespace Straightline

/-- The target text of a module: it is emitted, then printed. -/
def Code.Module.targetText (m : Module) :
    Except (Target.Stop Target.EmitError) String :=
  match m.emit with
  | .error stop => .error stop
  | .ok t => t.print.mapError .fault

end Straightline
