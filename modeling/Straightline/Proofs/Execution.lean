import Mathlib
import Straightline.Code.Function

/-!
# Running machine code

A run of straight-line code starts in a `World`: what the values hold that no
instruction makes, what is in memory, and how callees answer. Registers are the
values that instructions make; memory maps addresses to data. A run gives its
calls and stores in order (`Event`) and how it ends (`Outcome`): it returns, it
traps in an operation without a result, or it gets stuck, at the end of code
that does not return or in a call of something that is no function.

What an operation computes is said on integers (`Operator.result?`);
`Operator.eval?` agrees with it.
-/

namespace Straightline

/-- The result of an operation on mathematical integers, cut down to
32 bits. Quotients are cut toward zero; there is none by zero, nor of
the least integer by -1. -/
def Operator.result? (op : Operator) (a b : Int32) : Option Int32 :=
  match op with
  | .add => some (Int32.ofInt (a.toInt + b.toInt))
  | .sub => some (Int32.ofInt (a.toInt - b.toInt))
  | .mul => some (Int32.ofInt (a.toInt * b.toInt))
  | .div =>
    if b.toInt = 0 ∨ (a.toInt = -2147483648 ∧ b.toInt = -1) then none
    else some (Int32.ofInt (a.toInt.tdiv b.toInt))

theorem Operator.eval?_eq_result? (op : Operator) (a b : Int32) :
    op.eval? a b = op.result? a b := by
  cases op with
  | add => simp [eval?, result?, Int32.ofInt_add]
  | sub => simp [eval?, result?, Int32.ofInt_sub]
  | mul => simp [eval?, result?, Int32.ofInt_mul]
  | div =>
    have hzero : b = 0 ↔ b.toInt = 0 := by rw [← Int32.toInt_inj]; rfl
    have hleast : a = Int32.minValue ↔ a.toInt = -2147483648 := by
      rw [← Int32.toInt_inj]; rfl
    have hone : b = -1 ↔ b.toInt = -1 := by rw [← Int32.toInt_inj]; rfl
    simp only [eval?, result?, hzero, hleast, hone]
    split
    · rfl
    · rw [Int32.ofInt_tdiv a.minValue_le_toInt a.toInt_le
        b.minValue_le_toInt b.toInt_le, Int32.ofInt_toInt, Int32.ofInt_toInt]

namespace Execution

open Code

/-! ## Data -/

/-- What a register or a memory cell holds: an integer, a string, the
address of a slot, a function or something from outside. Strings are what
they say, wherever they stand. -/
inductive Datum where
  | int (n : Int32)
  | text (bytes : List UInt8)
  | slot (t : Temp)
  | func (f : FuncRef)
  | outside (n : Nat)
deriving DecidableEq, Repr

/-- The integer that an operation takes a datum for. -/
def Datum.word : Datum → Int32
  | .int n => n
  | _ => 0

/-- Whether a datum can be called. -/
def Datum.isCallable : Datum → Bool
  | .func _ | .outside _ => true
  | _ => false

/-- What is behind every address. -/
abbrev Memory := Datum → Datum

/-- What a run does that can be seen: a call, with its operand and
what that held, or a store. -/
inductive Event where
  | call (callee : Value) (target : Datum) (args : List Datum)
  | store (address value : Datum)
deriving DecidableEq, Repr

/-- How a run ends. A trap names its place. -/
inductive Outcome (σ : Type) where
  | returned (value : Option Datum)
  | trapped (place : σ)
  | stuck
deriving DecidableEq, Repr

/-- An outcome with its place named in another way. -/
def Outcome.map {σ τ : Type} (f : σ → τ) : Outcome σ → Outcome τ
  | .returned value => .returned value
  | .trapped place => .trapped (f place)
  | .stuck => .stuck

/-- What was seen of a run, and how it ended. -/
structure Run (ε σ : Type) where
  events : List ε
  outcome : Outcome σ
deriving DecidableEq, Repr

/-! ## States -/

/-- What a run finds: the values that no instruction made, memory with whatever
is in it, the answers of callees, which may change memory, what foreign
instructions make and what unknown operations compute. -/
structure World where
  values : Value → Datum
  memory : Memory
  reply : List Event → Memory → Datum × Memory
  foreign : String → Datum
  unknown : Int → Int32 → Int32 → Int32

/-- A run on its way. -/
structure State where
  values : Value → Datum
  memory : Memory
  events : List Event

namespace State

/-- What a value holds. Integer constants and functions hold themselves. -/
def read (s : State) (v : Value) : Datum :=
  match v, v.int? with
  | .func f, _ => .func f
  | _, some n => .int n
  | _, none => s.values v

/-- Puts a datum into a value. Constants stay what they are. -/
def write (s : State) (v : Value) (d : Datum) : State :=
  if v.isAbsent || v.isConstant then s
    else { s with values := Function.update s.values v d }

/-- Puts a datum into a value, if there is one. -/
def writeOption (s : State) (v : Option Value) (d : Datum) : State :=
  match v with
  | some v => s.write v d
  | none => s

/-- Puts a datum behind an address. -/
def store (s : State) (address value : Datum) : State :=
  { s with
    memory := Function.update s.memory address value
    events := s.events ++ [.store address value] }

/-- Calls a function. -/
def call (s : State) (w : World) (callee : Value) (args : List Datum)
    (dest : Option Value) : State :=
  let events := s.events ++ [.call callee (s.read callee) args]
  let (answer, memory) := w.reply events s.memory
  { s with memory, events : State }.writeOption dest answer

end State

/-- The state in which a run starts. -/
def World.start (w : World) : State :=
  { values := w.values, memory := w.memory, events := [] }

/-- The result of an operation. -/
def World.compute (w : World) (op : OpCode) (a b : Int32) : Option Int32 :=
  match op with
  | .arith op => op.result? a b
  | .unknown code => some (w.unknown code a b)

/-! ## Steps and runs -/

/-- One step of a run, or how the run ends there. -/
def step (w : World) (s : State) : Instr → Except (Outcome Temp) State
  | .alloca dest _ => .ok (s.write (.temp dest) (.slot dest))
  | .load dest address => .ok (s.write (.temp dest) (s.memory (s.read address)))
  | .store value address => .ok (s.store (s.read address) (s.read value))
  | .binary op dest left right =>
    match w.compute op (s.read left).word (s.read right).word with
    | some n => .ok (s.write (.temp dest) (.int n))
    | none => .error (.trapped dest)
  | .call dest callee args =>
    if (s.read callee).isCallable then .ok (s.call w callee (args.map s.read) dest)
      else .error .stuck
  | .ret value => .error (.returned (value.map s.read))
  | .foreign text _ dest => .ok (s.writeOption dest (w.foreign text))

/-- A run of instructions. -/
def run (w : World) : State → List Instr → Run Event Temp
  | s, [] => { events := s.events, outcome := .stuck }
  | s, i :: rest =>
    match step w s i with
    | .ok s' => run w s' rest
    | .error outcome => { events := s.events, outcome }

/-- Carries out instructions, unless the run ends before they do. -/
def exec (w : World) : State → List Instr → Except (Run Event Temp) State
  | s, [] => .ok s
  | s, i :: rest =>
    match step w s i with
    | .ok s' => exec w s' rest
    | .error outcome => .error { events := s.events, outcome }

theorem run_append (w : World) (s : State) (is js : List Instr) :
    run w s (is ++ js) =
      match exec w s is with
      | .ok s' => run w s' js
      | .error r => r := by
  induction is generalizing s with
  | nil => rfl
  | cons i is ih =>
    simp only [List.cons_append, run, exec]
    cases step w s i with
    | ok s' => exact ih s'
    | error outcome => rfl

theorem exec_append (w : World) (s : State) (is js : List Instr) :
    exec w s (is ++ js) = (exec w s is).bind fun s' => exec w s' js := by
  induction is generalizing s with
  | nil => rfl
  | cons i is ih =>
    simp only [List.cons_append, exec]
    cases step w s i with
    | ok s' => exact ih s'
    | error outcome => rfl

/-! ## Reading and writing -/

@[simp] theorem State.read_int (s : State) (n : Int32) : s.read (.int n) = .int n := rfl

@[simp] theorem State.read_temp (s : State) (t : Temp) :
    s.read (.temp t) = s.values (.temp t) :=
  rfl

theorem State.write_temp (s : State) (t : Temp) (d : Datum) :
    s.write (.temp t) d =
      { s with values := Function.update s.values (.temp t) d } := rfl

/-- Two states that saw the same and hold the same in memory and in
the values that `V` picks. -/
structure Agree (V : Value → Prop) (s s' : State) : Prop where
  values : ∀ v, V v → s'.values v = s.values v
  memory : s'.memory = s.memory
  events : s'.events = s.events

section
variable {V : Value → Prop} {s s' s'' : State}

theorem Agree.refl (V : Value → Prop) (s : State) : Agree V s s :=
  ⟨fun _ _ => rfl, rfl, rfl⟩

theorem Agree.trans (h : Agree V s s') (h' : Agree V s' s'') : Agree V s s'' where
  values v hv := (h'.values v hv).trans (h.values v hv)
  memory := h'.memory.trans h.memory
  events := h'.events.trans h.events

theorem Agree.mono {V' : Value → Prop} (h : Agree V s s') (hV : ∀ v, V' v → V v) :
    Agree V' s s' :=
  ⟨fun v hv => h.values v (hV v hv), h.memory, h.events⟩

theorem Agree.symm (h : Agree V s s') : Agree V s' s :=
  ⟨fun v hv => (h.values v hv).symm, h.memory.symm, h.events.symm⟩

theorem Agree.read (h : Agree V s s') {v : Value} (hv : V v) :
    s'.read v = s.read v := by
  unfold State.read
  split
  · rfl
  · rfl
  · exact h.values _ hv

/-- Writing into a value that does not matter, or that is never written,
changes nothing that does. -/
theorem Agree.write_of_not {v : Value}
    (hv : V v → (v.isAbsent || v.isConstant) = true) (s : State) (d : Datum) :
    Agree V s (s.write v d) := by
  unfold State.write
  split
  · exact .refl V s
  · next hwritten =>
    refine ⟨fun u hu => Function.update_of_ne ?_ _ _, rfl, rfl⟩
    rintro rfl
    exact hwritten (hv hu)

/-- Writing the same into the same value keeps states in agreement. -/
theorem Agree.write (h : Agree V s s') (v : Value) (d : Datum) :
    Agree V (s.write v d) (s'.write v d) := by
  unfold State.write
  split
  · exact h
  · refine ⟨fun u hu => ?_, h.memory, h.events⟩
    by_cases huv : u = v
    · subst huv
      simp
    · simp [huv, h.values u hu]

theorem Agree.writeOption (h : Agree V s s') (v : Option Value) (d : Datum) :
    Agree V (s.writeOption v d) (s'.writeOption v d) := by
  cases v with
  | none => exact h
  | some v => exact h.write v d

end

/-! ## What code has in it -/

/-- The slots that instructions make, in order. -/
def slots (is : List Instr) : List Temp :=
  is.filterMap fun
    | .alloca dest _ => some dest
    | _ => none

/-- The results of the operations among instructions, in order. -/
def operations (is : List Instr) : List Temp :=
  is.filterMap fun
    | .binary _ dest _ _ => some dest
    | _ => none

@[simp] theorem slots_append (is js : List Instr) :
    slots (is ++ js) = slots is ++ slots js :=
  List.filterMap_append ..

@[simp] theorem operations_append (is js : List Instr) :
    operations (is ++ js) = operations is ++ operations js := List.filterMap_append ..

end Execution

open Execution in
/-- A run of a function, from its entry. -/
def Code.Function.run (f : Function) (w : World) : Run Event Temp :=
  match f.entry? with
  | some entry => Execution.run w w.start entry.instrs
  | none => { events := [], outcome := .stuck }

open Execution in
theorem Code.Function.run_of_entry {f : Function} {entry : Block}
    (h : f.entry? = some entry) (w : World) :
    f.run w = Execution.run w w.start entry.instrs := by
  rw [Function.run, h]

end Straightline
