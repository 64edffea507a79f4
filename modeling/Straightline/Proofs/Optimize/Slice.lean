import Mathlib
import Straightline.Proofs.Optimize.Passes

/-!
# Elimination leaves the backward slice

Elimination marks what is read and sweeps out the rest, again and again.
What it leaves can be said in one go, from the last instruction to the
first: an instruction stays if it acts, or if one that stays behind it
reads its result (`IsSlice`).

* However many sweeps it takes, what is left are the instructions that act or
that what is left reads (`sweepAll_eq_filter`).
* Where every result is made before it is read, only instructions behind it can
read it, and what is left is the slice (`run_leaves_slice`).
-/

namespace Straightline.Optimize

open Code

/-! ## Slices -/

/-- The instructions that are there for what they do and not for a result. -/
inductive Acts : Instr → Prop
  | store (value address : Value) : Acts (.store value address)
  | call (dest : Option Value) (callee : Value) (args : List Value) :
      Acts (.call dest callee args)
  | ret (value : Option Value) : Acts (.ret value)

/-- Whether `j` reads what `i` makes. A constant is written into an
instruction, and made by none. -/
def Feeds (i j : Instr) : Prop :=
  ∃ v ∈ i.result, v ∈ j.operands ∧ v.isConstant = false ∧ v.isAbsent = false

instance (i j : Instr) : Decidable (Feeds i j) :=
  inferInstanceAs (Decidable (∃ v ∈ i.result, _))

/-- Whether every result is made before it is read: nothing reads what it makes
itself or what is made behind it. -/
def MadeFirst (is : List Instr) : Prop :=
  (∀ i ∈ is, ¬ Feeds i i) ∧ is.Pairwise fun i j => ¬ Feeds j i

instance (is : List Instr) : Decidable (MadeFirst is) :=
  inferInstanceAs (Decidable (_ ∧ _))

/-- `kept` is what stays of `is`: an instruction stays if it acts or if one that
stays behind it reads its result. -/
inductive IsSlice : (is kept : List Instr) → Prop
  | nil : IsSlice [] []
  | keep {i : Instr} {is kept : List Instr} :
      (Acts i ∨ ∃ j ∈ kept, Feeds i j) → IsSlice is kept → IsSlice (i :: is) (i :: kept)
  | drop {i : Instr} {is kept : List Instr} :
      ¬ (Acts i ∨ ∃ j ∈ kept, Feeds i j) → IsSlice is kept → IsSlice (i :: is) kept

/-- Code has one slice only. -/
theorem IsSlice.eq {is kept kept' : List Instr} (h : IsSlice is kept)
    (h' : IsSlice is kept') : kept' = kept := by
  induction h generalizing kept' with
  | nil => cases h'; rfl
  | keep hi _ ih =>
    cases h' with
    | keep _ h' => rw [ih h']
    | drop hi' h' =>
      rw [ih h'] at hi'
      exact absurd hi hi'
  | drop hi _ ih =>
    cases h' with
    | keep hi' h' =>
      rw [ih h'] at hi'
      exact absurd hi' hi
    | drop _ h' => exact ih h'

theorem MadeFirst.of_isPrefix {is js : List Instr} (h : MadeFirst is)
    (hfront : js <+: is) : MadeFirst js :=
  ⟨fun i hi => h.1 i (hfront.subset hi), h.2.sublist hfront.sublist⟩

namespace DeadCode

/-! ## Sweeps -/

theorem isCritical_iff {i : Instr} : isCritical i = true ↔ Acts i := by
  constructor
  · intro h
    cases i with
    | store value address => exact .store value address
    | call dest callee args => exact .call dest callee args
    | ret value => exact .ret value
    | _ => cases h
  · rintro (_ | _ | _) <;> rfl

theorem mem_used {is : List Instr} {v : Value} :
    v ∈ used is ↔ (∃ i ∈ is, v ∈ i.operands) ∧ v.isConstant = false ∧
      v.isAbsent = false := by
  simp only [used, List.mem_filter, List.mem_flatMap, Bool.and_eq_true,
    Bool.not_eq_true', and_comm]

/-- Among `js`, an instruction stays for what it does or for one
that reads its result. -/
theorem stays_used_iff {js : List Instr} {i : Instr} :
    stays (used js) i = true ↔ Acts i ∨ ∃ j ∈ js, Feeds i j := by
  rw [stays, Bool.or_eq_true, isCritical_iff]
  refine or_congr_right ?_
  simp only [Option.any_eq_true, List.contains_iff_mem, mem_used, Feeds, Option.mem_def]
  constructor
  · rintro ⟨v, hv, ⟨j, hj, hread⟩, hvalue⟩
    exact ⟨j, hj, v, hv, hread, hvalue⟩
  · rintro ⟨j, hj, v, hv, hread, hvalue⟩
    exact ⟨v, hv, ⟨j, hj, hread⟩, hvalue⟩

/-- The more there is, the more is read. -/
theorem stays_used_mono {js is : List Instr} (h : js ⊆ is) {i : Instr}
    (hi : stays (used js) i = true) : stays (used is) i = true := by
  rw [stays_used_iff] at hi ⊢
  exact hi.imp_right fun ⟨j, hj, hfeeds⟩ => ⟨j, h hj, hfeeds⟩

/-- What all sweeps leave are the instructions that stay for what they leave. -/
theorem sweepAll_eq_filter (is : List Instr) :
    (sweepAll is).1 = is.filter (stays (used (sweepAll is).1)) := by
  fun_induction sweepAll is with
  | case1 is hswept =>
    refine (List.filter_eq_self.mpr fun i hi => ?_).symm
    simpa using List.countP_eq_zero.mp hswept i hi
  | case2 is hswept r ih =>
    -- An instruction that the first sweep takes away is not read
    -- by what later sweeps leave.
    have hsubset : r.1 ⊆ is := by
      rw [ih]
      exact fun i hi => List.mem_of_mem_filter (List.mem_of_mem_filter hi)
    calc r.1 = (sweep is).filter (stays (used r.1)) := ih
      _ = is.filter fun i => stays (used r.1) i && stays (used is) i :=
        List.filter_filter
      _ = is.filter (stays (used r.1)) :=
        List.filter_congr fun i _ =>
          Bool.and_eq_left_iff_imp.mpr (stays_used_mono hsubset)

/-! ## What is left -/

/-- The instructions up to the first return, or all of them. -/
theorem truncate_eq_take (is : List Instr) :
    truncate is = is.take (is.findIdx Instr.isTerminator + 1) := by
  induction is with
  | nil => rfl
  | cons i is ih =>
    rw [truncate, List.findIdx_cons, ih]
    cases i.isTerminator <;> rfl

/-- Instructions that stay for each other are a slice of code that makes every
result before it reads it. -/
theorem isSlice_filter {is : List Instr} {values : List Value}
    (hmade : MadeFirst is) (hvalues : values = used (is.filter (stays values))) :
    IsSlice is (is.filter (stays values)) := by
  -- From the last instruction to the first: a reader is not in front.
  have hbehind (front rest : List Instr) (his : is = front ++ rest) :
      IsSlice rest (rest.filter (stays values)) := by
    induction rest generalizing front with
    | nil => exact .nil
    | cons i rest ih =>
      have hrest := ih (front ++ [i]) (by rw [his, List.append_assoc]; rfl)
      have hreader {j : Instr} (hj : j ∈ is) (hfeeds : Feeds i j) : j ∈ rest := by
        rw [his, List.mem_append, List.mem_cons] at hj
        rcases hj with hj | rfl | hj
        · have hfront :=
            (List.pairwise_append.mp (his ▸ hmade.2)).2.2 j hj i List.mem_cons_self
          exact absurd hfeeds hfront
        · exact absurd hfeeds (hmade.1 j (by simp [his]))
        · exact hj
      have hstays : stays values i = true ↔
          Acts i ∨ ∃ j ∈ rest.filter (stays values), Feeds i j := by
        conv_lhs => rw [hvalues, stays_used_iff]
        refine or_congr_right ⟨?_, ?_⟩
        · rintro ⟨j, hj, hfeeds⟩
          rw [List.mem_filter] at hj
          exact ⟨j, List.mem_filter.mpr ⟨hreader hj.1 hfeeds, hj.2⟩, hfeeds⟩
        · rintro ⟨j, hj, hfeeds⟩
          rw [List.mem_filter] at hj
          exact ⟨j, List.mem_filter.mpr ⟨by simp [his, hj.1], hj.2⟩, hfeeds⟩
      rw [List.filter_cons]
      split
      · next hi => exact .keep (hstays.mp hi) hrest
      · next hi => exact .drop (mt hstays.mpr hi) hrest
  exact hbehind [] is rfl

/-- Where every result is made before it is read, elimination leaves the entry
alone and, of the instructions up to its first return, the slice. -/
theorem run_leaves_slice {f : Function} {entry : Block}
    (hentry : f.entry? = some entry) (hmade : MadeFirst entry.instrs) :
    ∃ kept, (run f).function = { f with blocks := [{ entry with instrs := kept }] } ∧
      ∀ kept', IsSlice (entry.instrs.take
        (entry.instrs.findIdx Instr.isTerminator + 1)) kept' ↔ kept' = kept := by
  obtain ⟨others, hblocks⟩ := List.head?_eq_some_iff.mp hentry
  have hslice : IsSlice (truncate entry.instrs)
      (sweepAll (truncate entry.instrs)).1 := by
    have hleft := sweepAll_eq_filter (truncate entry.instrs)
    rw [hleft]
    exact isSlice_filter (hmade.of_isPrefix (truncate_isPrefix _)) (by rw [← hleft])
  refine ⟨_, blocks_run hblocks, fun kept' => ?_⟩
  rw [← truncate_eq_take]
  constructor
  · exact hslice.eq
  · rintro rfl
    exact hslice

/-- An entry with a chain of instructions that is read only behind the return,
and a slot that is written. -/
def idle : Block :=
  let temp (id : Nat) (type : Ty) : Temp := { owner := 0, id, name := "", type }
  { label := "entry"
    instrs := [
      .alloca (temp 0 (.ptr .i32)) .i32,
      .alloca (temp 1 (.ptr .i32)) .i32,
      .load (temp 2 .i32) (.temp (temp 0 (.ptr .i32))),
      .binary (.arith .add) (temp 3 .i32) (.temp (temp 2 .i32)) (.int 1),
      .store (.int 5) (.temp (temp 1 (.ptr .i32))),
      .ret none,
      .store (.temp (temp 3 .i32)) (.temp (temp 0 (.ptr .i32)))] }

theorem run_leaves_slice_idle :
    let f : Function :=
      { place := 0, name := "idler", ret := .void,
        blocks := [idle, { label := "dead.1" }] }
    let kept := [1, 4, 5].filterMap (idle.instrs[·]?)
    MadeFirst idle.instrs ∧ IsSlice (idle.instrs.take 6) kept ∧
      (run f).function = { f with blocks := [{ idle with instrs := kept }] } := by
  intro f kept
  have hmade : MadeFirst idle.instrs := by decide
  have hleft : (run f).function =
    { f with blocks := [{ idle with instrs := kept }] } := by decide +kernel
  obtain ⟨kept', hrun, hslice⟩ := run_leaves_slice (rfl : f.entry? = some idle) hmade
  rw [hleft] at hrun
  refine ⟨hmade, (hslice kept).mpr ?_, hleft⟩
  simpa using congrArg Function.blocks hrun

end DeadCode

end Straightline.Optimize
