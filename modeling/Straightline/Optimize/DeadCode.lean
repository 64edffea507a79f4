import Straightline.Code.Function

/-!
# Dead code elimination

What cannot matter goes away: the instructions behind a return, every block but
the entry, which nothing jumps to, and instructions whose result nobody reads.
Stores, calls and returns always stay. Taking an instruction away may leave
another one unread, so unread instructions are swept out until none is left.
-/

namespace Straightline.Optimize

open Code

namespace DeadCode

/-- The instructions up to the first return. -/
def truncate : List Instr → List Instr
  | [] => []
  | i :: rest => if i.isTerminator then [i] else i :: truncate rest

/-- Whether an instruction stays even if nobody reads its result. -/
def isCritical : Instr → Bool
  | .store .. | .call .. | .ret .. => true
  | _ => false

/-- The values that instructions read, constants apart. -/
def used (is : List Instr) : List Value :=
  (is.flatMap Instr.operands).filter fun v => !v.isAbsent && !v.isConstant

/-- Whether an instruction stays when `values` are the ones that are read. -/
def stays (values : List Value) (i : Instr) : Bool :=
  isCritical i || i.result.any (values.contains ·)

/-- One sweep: the instructions that stay. -/
def sweep (is : List Instr) : List Instr := is.filter (stays (used is))

/-- The number of instructions that one sweep takes away. -/
def swept (is : List Instr) : Nat := is.countP fun i => !stays (used is) i

theorem length_sweep (is : List Instr) : (sweep is).length + swept is = is.length := by
  have h := List.length_eq_countP_add_countP (stays (used is)) (l := is)
  rw [sweep, swept, ← List.countP_eq_length_filter]
  simp only [Bool.not_eq_true, Bool.decide_eq_false] at h
  omega

/-- Sweeps until nothing more goes away, and counts what went. -/
def sweepAll (is : List Instr) : List Instr × Nat :=
  if _h : swept is = 0 then
    (is, 0)
  else
    let r := sweepAll (sweep is)
    (r.1, swept is + r.2)
termination_by is.length
decreasing_by
  have := length_sweep is
  omega

/-- A function after elimination, and what was taken away. -/
structure Result where
  function : Function
  instrs : Nat
  blocks : Nat

/-- Eliminates the dead code of a function. -/
def run (f : Function) : Result :=
  match f.blocks with
  | [] => { function := f, instrs := 0, blocks := 0 }
  | entry :: others =>
    let code := truncate entry.instrs
    let r := sweepAll code
    { function := { f with blocks := [{ entry with instrs := r.1 }] }
      instrs :=
        (entry.instrs.length - code.length) + (others.flatMap (·.instrs)).length + r.2
      blocks := others.length }

end DeadCode

end Straightline.Optimize
