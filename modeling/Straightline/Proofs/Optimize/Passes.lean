import Mathlib
import Straightline.Optimize.Pipeline
import Straightline.Proofs.Code.Verify

/-!
# What the passes do to code

Facts about folding and elimination that do not depend on what is to be shown of
them: which instructions come out, and that what both passes keep, the optimizer
keeps, however many rounds it runs (`Optimizer.runFunction_keeps`).
-/

namespace Straightline.Optimize

open Code

/-! ## Folding -/

namespace Fold

section
variable (known : Known)

@[simp] theorem isAbsent_replace (v : Value) :
    (replace known v).isAbsent = v.isAbsent := by
  cases v with
  | temp t =>
    rw [replace]
    split <;> rfl
  | _ => rfl

@[simp] theorem temp?_substitute (i : Instr) :
    (substitute known i).temp? = i.temp? := by
  cases i <;> rfl

@[simp] theorem isTerminator_substitute (i : Instr) :
    (substitute known i).isTerminator = i.isTerminator := by
  cases i <;> rfl

/-- Only an operation on two integers is folded; the result is
known for its temporary. -/
theorem evaluate?_eq_some {i : Instr} {t : Temp} {n : Int32}
    (h : evaluate? i = some (t, n)) :
    ∃ op left right a b, i = .binary op t left right ∧ left.int? = some a ∧
      right.int? = some b ∧ op.eval? a b = some n := by
  cases i with
  | binary op dest left right =>
    simp only [evaluate?, Option.bind_eq_bind, Option.bind_eq_some_iff, pure,
      Option.some.injEq, Prod.mk.injEq] at h
    obtain ⟨a, ha, b, hb, m, hm, rfl, rfl⟩ := h
    exact ⟨op, left, right, a, b, rfl, ha, hb, hm⟩
  | _ => cases h

theorem temp?_of_evaluate? {known : Known} {i : Instr} {t : Temp} {n : Int32}
    (h : evaluate? (substitute known i) = some (t, n)) : i.temp? = some t := by
  obtain ⟨op, left, right, a, b, hi, _⟩ := evaluate?_eq_some h
  rw [← temp?_substitute known, hi]
  rfl

theorem binary_of_evaluate? {known : Known} {i : Instr} {t : Temp} {n : Int32}
    (h : evaluate? (substitute known i) = some (t, n)) :
    ∃ op left right, i = .binary op t left right := by
  obtain ⟨op, left, right, a, b, hi, -⟩ := evaluate?_eq_some h
  cases i with
  | binary op' dest left' right' =>
    cases hi
    exact ⟨_, _, _, rfl⟩
  | _ => cases hi

theorem instrs_cons_some {known : Known} {i : Instr} {p : Temp × Int32}
    (h : evaluate? (substitute known i) = some p) (rest : List Instr) :
    (instrs known (i :: rest)).instrs = (instrs (p :: known) rest).instrs := by
  simp [instrs, h]

theorem instrs_cons_none {known : Known} {i : Instr}
    (h : evaluate? (substitute known i) = none) (rest : List Instr) :
    (instrs known (i :: rest)).instrs =
      substitute known i :: (instrs known rest).instrs := by
  simp [instrs, h]

theorem instrs_append (is js : List Instr) :
    (instrs known (is ++ js)).instrs =
      (instrs known is).instrs ++ (instrs (instrs known is).known js).instrs := by
  induction is generalizing known with
  | nil => rfl
  | cons i is ih =>
    cases h : evaluate? (substitute known i) with
    | some p => simpa [instrs, h] using ih (p :: known)
    | none => simpa [instrs, h] using ih known

/-- What comes out of folding are instructions with operands replaced. -/
theorem mem_instrs {known : Known} {is : List Instr} {j : Instr}
    (h : j ∈ (instrs known is).instrs) :
    ∃ i ∈ is, ∃ known', j = substitute known' i := by
  induction is generalizing known with
  | nil => cases h
  | cons i is ih =>
    cases hi : evaluate? (substitute known i) with
    | some p =>
      rw [instrs_cons_some hi] at h
      obtain ⟨k, hk, hj⟩ := ih h
      exact ⟨k, List.mem_cons_of_mem _ hk, hj⟩
    | none =>
      rw [instrs_cons_none hi] at h
      rcases List.mem_cons.mp h with rfl | h
      · exact ⟨i, List.mem_cons_self, known, rfl⟩
      · obtain ⟨k, hk, hj⟩ := ih h
        exact ⟨k, List.mem_cons_of_mem _ hk, hj⟩

/-- What is known behind some code was known in front of it or is the
result of an operation in it. -/
theorem known_cases {known : Known} {is : List Instr} {t : Temp} {n : Int32}
    (h : (instrs known is).known.lookup t = some n) :
    known.lookup t = some n ∨ ∃ op left right, .binary op t left right ∈ is := by
  induction is generalizing known with
  | nil => exact .inl h
  | cons i rest ih =>
    cases heval : evaluate? (substitute known i) with
    | some p =>
      simp only [instrs, heval] at h
      rcases ih h with h | ⟨op, left, right, hmem⟩
      · by_cases heq : t = p.1
        · obtain ⟨op, left, right, rfl⟩ := binary_of_evaluate? heval
          exact .inr ⟨op, left, right, by simp [heq]⟩
        · rw [List.lookup_cons, beq_false_of_ne heq] at h
          exact .inl h
      · exact .inr ⟨op, left, right, List.mem_cons_of_mem _ hmem⟩
    | none =>
      simp only [instrs, heval] at h
      rcases ih h with h | ⟨op, left, right, hmem⟩
      · exact .inl h
      · exact .inr ⟨op, left, right, List.mem_cons_of_mem _ hmem⟩

theorem made_instrs_sublist (is : List Instr) :
    (made (instrs known is).instrs).Sublist (made is) := by
  induction is generalizing known with
  | nil => exact List.Sublist.refl _
  | cons i is ih =>
    cases h : evaluate? (substitute known i) with
    | some p =>
      rw [instrs_cons_some h, made_cons]
      exact (ih (p :: known)).trans (List.sublist_append_right _ _)
    | none =>
      rw [instrs_cons_none h, made_cons, made_cons, temp?_substitute]
      exact (ih known).append_left _

/-- Folding a block that is closed leaves it closed. -/
theorem closed_instrs {is : List Instr} (h : Closed is) :
    Closed (instrs known is).instrs := by
  obtain ⟨init, value, rfl, hinit⟩ := h
  refine ⟨(instrs known init).instrs,
    value.map (replace (instrs known init).known), ?_, ?_⟩
  · rw [instrs_append]
    rfl
  · intro j hj
    obtain ⟨i, hi, known', rfl⟩ := mem_instrs hj
    rw [isTerminator_substitute]
    exact hinit i hi

/-- Folding blocks one after the other is folding their
instructions one after the other. -/
theorem flatMap_blocks (bs : List Block) :
    (blocks known bs).1.flatMap (·.instrs) =
      (instrs known (bs.flatMap (·.instrs))).instrs := by
  induction bs generalizing known with
  | nil => rfl
  | cons b bs ih =>
    rw [List.flatMap_cons, instrs_append]
    simp only [blocks, List.flatMap_cons, ih]

theorem mem_blocks {known : Known} {bs : List Block} {b' : Block}
    (h : b' ∈ (blocks known bs).1) :
    ∃ b ∈ bs, ∃ known', b' = { b with instrs := (instrs known' b.instrs).instrs } := by
  induction bs generalizing known with
  | nil => cases h
  | cons b bs ih =>
    simp only [blocks] at h
    rcases List.mem_cons.mp h with rfl | h
    · exact ⟨b, List.mem_cons_self, known, rfl⟩
    · obtain ⟨c, hc, hb'⟩ := ih h
      exact ⟨c, List.mem_cons_of_mem _ hc, hb'⟩

end

theorem instrs_run (f : Function) : (run f).1.instrs = (instrs [] f.instrs).instrs :=
  flatMap_blocks [] f.blocks

theorem run_of_nil {f : Function} (h : f.blocks = []) : (run f).1 = f := by
  rw [run, h, blocks, ← h]

theorem entry?_run {f : Function} {b : Block} (h : f.entry? = some b) :
    Function.entry? (run f).1 =
      some { b with instrs := (instrs [] b.instrs).instrs } := by
  obtain ⟨bs, hblocks⟩ := List.head?_eq_some_iff.mp h
  simp [run, Function.entry?, hblocks, blocks]

theorem isFaulty_eq_false {f : Function} (h : ∀ i ∈ f.instrs, isOneSided i = false) :
    isFaulty f = false := by
  rw [isFaulty, List.any_eq_false]
  intro b hb hany
  obtain ⟨i, hi, hone⟩ := List.any_eq_true.mp hany
  rw [h i (List.mem_flatMap.mpr ⟨b, hb, hi⟩)] at hone
  cases hone

end Fold

/-! ## Elimination -/

namespace DeadCode

theorem truncate_eq_self {is : List Instr} (h : EndsOnce is) : truncate is = is := by
  induction is with
  | nil => rfl
  | cons i rest ih =>
    obtain ⟨hi, hrest⟩ := List.pairwise_cons.mp h
    rw [truncate]
    cases hterm : i.isTerminator with
    | false => rw [if_neg Bool.false_ne_true, ih hrest]
    | true =>
      -- Nothing stands behind a return.
      cases rest with
      | nil => rfl
      | cons j rest =>
        exact absurd ((hi j List.mem_cons_self).symm.trans hterm) Bool.false_ne_true

theorem truncate_isPrefix (is : List Instr) : truncate is <+: is := by
  induction is with
  | nil => exact List.prefix_refl _
  | cons i rest ih =>
    rw [truncate]
    split
    · exact ⟨rest, rfl⟩
    · exact (List.prefix_cons_inj i).mpr ih

/-- What a sweep keeps, all sweeps keep. -/
theorem sweepAll_keeps {P : List Instr → Prop} (h : ∀ is, P is → P (sweep is))
    {is : List Instr} (his : P is) : P (sweepAll is).1 := by
  induction hn : is.length using Nat.strong_induction_on generalizing is with
  | _ n ih =>
    rw [sweepAll]
    split
    · exact his
    · next hswept =>
      refine ih (sweep is).length ?_ (h is his) rfl
      have := length_sweep is
      omega

/-- A temporary that an instruction reads counts as used. -/
theorem temp_mem_used {is : List Instr} {i : Instr} (hi : i ∈ is) {t : Temp}
    (ht : .temp t ∈ i.operands) : .temp t ∈ used is := by
  rw [used, List.mem_filter]
  exact ⟨List.mem_flatMap.mpr ⟨i, hi, ht⟩, rfl⟩

theorem closed_sweep {is : List Instr} (h : Closed is) : Closed (sweep is) := by
  obtain ⟨init, value, heq, hinit⟩ := h
  refine ⟨init.filter (stays (used is)), value, ?_, fun i hi =>
    hinit i (List.mem_filter.mp hi).1⟩
  rw [sweep]
  generalize used is = values
  rw [heq, List.filter_append]
  rfl

theorem blocks_run {f : Function} {entry : Block} {others : List Block}
    (h : f.blocks = entry :: others) :
    (run f).function =
      { f with
        blocks := [{ entry with instrs := (sweepAll (truncate entry.instrs)).1 }] } := by
  rw [run, h]

theorem run_of_nil {f : Function} (h : f.blocks = []) : (run f).function = f := by
  rw [run, h]

end DeadCode

/-! ## Rounds -/

/-- Whether both passes keep what `P` says, and folding is not at fault. -/
structure Kept (P : Function → Prop) : Prop where
  fold : ∀ f, P f → P (Fold.run f).1
  faultless : ∀ f, P f → Fold.isFaulty (Fold.run f).1 = false
  eliminate : ∀ f, P f → P (DeadCode.run f).function

/-- Whether a pass is folding or elimination. -/
def Pass.isBuiltIn : Pass → Bool
  | .failing _ => false
  | _ => true

theorem isBuiltIn_of_mem {passes : List Pass}
    (h : passes = [.constantFolding, .deadCode]) :
    ∀ p ∈ passes, p.isBuiltIn = true := by
  rw [h]
  decide

variable {P : Function → Prop} {passes : List Pass}

theorem runPasses_keeps (h : Kept P) (hpasses : ∀ p ∈ passes, p.isBuiltIn = true)
    (logging : Bool) (g : Progress) (hg : P g.function) (hok : g.error = none) :
    ∃ g', runPasses logging passes g = .ok g' ∧ g'.error = none ∧ P g'.function := by
  induction passes generalizing g with
  | nil => exact ⟨g, rfl, hok, hg⟩
  | cons p rest ih =>
    obtain ⟨hp, hrest⟩ := List.forall_mem_cons.mp hpasses
    cases p with
    | constantFolding =>
      simp only [runPasses, Pass.apply, h.faultless _ hg]
      exact ih hrest _ (h.fold _ hg) rfl
    | deadCode => exact ih hrest _ (h.eliminate _ hg) rfl
    | failing message => cases hp

theorem runRounds_keeps (h : Kept P) (hpasses : ∀ p ∈ passes, p.isBuiltIn = true)
    (logging : Bool) (limit : Nat) (g : Progress) (hg : P g.function)
    (hok : g.error = none) :
    ∃ g', runRounds logging passes limit g = .ok g' ∧ g'.error = none ∧
      P g'.function := by
  induction limit generalizing g with
  | zero => exact ⟨g, rfl, hok, hg⟩
  | succ limit ih =>
    obtain ⟨g', hg', hok', hP⟩ := runPasses_keeps h hpasses logging g hg hok
    rw [runRounds, hg']
    show ∃ g'', (if g'.error.isSome ∨ g'.function.size = g.function.size then
      Except.ok g' else runRounds logging passes limit g') = .ok g'' ∧ _
    split
    · exact ⟨g', rfl, hok', hP⟩
    · exact ih g' hP hok'

/-- What both passes keep, an optimizer with these passes keeps; it is not at
fault and does not fail. -/
theorem Optimizer.runFunction_keeps (h : Kept P) {o : Optimizer}
    (ho : ∀ p ∈ o.passes, p.isBuiltIn = true) {f : Function} (hf : P f) :
    ∃ g, o.runFunction f = .ok g ∧ g.error = none ∧ P g.function :=
  runRounds_keeps h ho o.logging o.limit.toNat { function := f } hf rfl

theorem Optimizer.optimizeFunction_keeps (h : Kept P) {o : Optimizer}
    (ho : ∀ p ∈ o.passes, p.isBuiltIn = true) {f : Function} (hf : P f) :
    ∃ r, o.optimizeFunction f = .ok r ∧ r.error = none ∧ P r.code := by
  obtain ⟨g, hg, herror, hP⟩ := runFunction_keeps h ho hf
  rw [optimizeFunction, hg]
  exact ⟨_, rfl, by rw [herror]; rfl, hP⟩

end Straightline.Optimize
