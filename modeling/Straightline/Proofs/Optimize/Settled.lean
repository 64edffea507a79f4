import Mathlib
import Straightline.Proofs.Optimize.Runs
import Straightline.Proofs.Optimize.Slice

/-!
# One round settles a function

Folding leaves unread code behind and elimination takes uses away, so each pass
could make work for the other. It does not: folding carries what it knows
through all blocks and leaves no operation that can be computed, and elimination
takes whole instructions away and changes none. A function that went through
both is settled (`isSettled_round`), and neither pass finds anything to do in a
settled function (`IsSettled.fold`, `IsSettled.eliminate`).

So the second round is the last one at the latest, whatever the limit on
rounds is (`one_round_settles`).
-/

namespace Straightline.Optimize

open Code

/-! ## Settled functions -/

/-- The operations on integers that have no result: those of no known kind, and
the quotients that trap. -/
inductive HasNoResult : OpCode → Int32 → Int32 → Prop
  | unknown (code : Int) (a b : Int32) : HasNoResult (.unknown code) a b
  | byZero (a : Int32) : HasNoResult (.arith .div) a 0
  | overflow : HasNoResult (.arith .div) Int32.minValue (-1)

/-- Whether both passes are done with a function: every operation on two
integers that is left has no result, there is no block behind the entry and no
instruction behind a return, and every instruction acts or is read. -/
structure IsSettled (f : Function) : Prop where
  folded : ∀ op dest left right a b, .binary op dest left right ∈ f.instrs →
    left.int? = some a → right.int? = some b → HasNoResult op a b
  single : f.blocks.length ≤ 1
  ended : ∀ b ∈ f.blocks, EndsOnce b.instrs
  needed : ∀ i ∈ f.instrs, Acts i ∨ ∃ j ∈ f.instrs, Feeds i j

theorem hasNoResult_iff {op : OpCode} {a b : Int32} :
    HasNoResult op a b ↔ op.eval? a b = none := by
  constructor
  · rintro (_ | _ | _) <;> simp [OpCode.eval?, Operator.eval?]
  · intro h
    cases op with
    | unknown code => exact .unknown code a b
    | arith op =>
      cases op with
      | div =>
        simp only [OpCode.eval?, Operator.eval?, ite_eq_left_iff, reduceCtorEq,
          imp_false, not_not] at h
        rcases h with rfl | ⟨rfl, rfl⟩
        · exact .byZero a
        · exact .overflow
      | _ => cases h

/-! ## Folding -/

namespace Fold

/-- An instruction that stays cannot be computed. -/
theorem evaluate?_of_mem_instrs {known : Known} {is : List Instr} {j : Instr}
    (h : j ∈ (instrs known is).instrs) : evaluate? j = none := by
  induction is generalizing known with
  | nil => cases h
  | cons i is ih =>
    cases hi : evaluate? (substitute known i) with
    | some p =>
      rw [instrs_cons_some hi] at h
      exact ih h
    | none =>
      rw [instrs_cons_none hi] at h
      rcases List.mem_cons.mp h with rfl | h
      · exact hi
      · exact ih h

/-- An operation on two integers that cannot be computed has no result. -/
theorem evaluate?_eq_none_iff {i : Instr} : evaluate? i = none ↔
    ∀ op dest left right a b, i = .binary op dest left right → left.int? = some a →
      right.int? = some b → HasNoResult op a b := by
  constructor
  · rintro h op dest left right a b rfl ha hb
    rw [hasNoResult_iff]
    cases hn : op.eval? a b with
    | none => rfl
    | some n => simp [evaluate?, ha, hb, hn] at h
  · intro h
    rw [Option.eq_none_iff_forall_ne_some]
    rintro ⟨t, n⟩ hsome
    obtain ⟨op, left, right, a, b, hi, ha, hb, hn⟩ := evaluate?_eq_some hsome
    rw [hasNoResult_iff.mp (h op t left right a b hi ha hb)] at hn
    cases hn

theorem replace_nil (v : Value) : replace [] v = v := by
  cases v <;> rfl

theorem substitute_nil (i : Instr) : substitute [] i = i := by
  have hreplace : replace [] = id := funext replace_nil
  cases i <;> simp [substitute, hreplace]

/-- Where nothing can be computed, nothing is known and nothing changes. -/
theorem instrs_eq_self {is : List Instr} (h : ∀ i ∈ is, evaluate? i = none) :
    instrs [] is = { instrs := is, known := [], count := 0 } := by
  induction is with
  | nil => rfl
  | cons i is ih =>
    rw [List.forall_mem_cons] at h
    simp only [instrs, substitute_nil, h.1, ih h.2]

theorem blocks_eq_self {bs : List Block}
    (h : ∀ b ∈ bs, ∀ i ∈ b.instrs, evaluate? i = none) :
    blocks [] bs = (bs, 0) := by
  induction bs with
  | nil => rfl
  | cons b bs ih =>
    rw [List.forall_mem_cons] at h
    simp only [blocks, instrs_eq_self h.1, ih h.2]

theorem run_eq_self {f : Function} (h : ∀ i ∈ f.instrs, evaluate? i = none) :
    run f = (f, 0) := by
  rw [run, blocks_eq_self fun b hb i hi => h i (List.mem_flatMap.mpr ⟨b, hb, hi⟩)]

end Fold

theorem IsSettled.fold {f : Function} (h : IsSettled f) : Fold.run f = (f, 0) :=
  Fold.run_eq_self fun _ hi =>
      Fold.evaluate?_eq_none_iff.mpr fun op dest left right a b heq ha hb =>
    h.folded op dest left right a b (heq ▸ hi) ha hb

/-! ## Elimination -/

namespace DeadCode

theorem endsOnce_truncate (is : List Instr) : EndsOnce (truncate is) := by
  induction is with
  | nil => exact .nil
  | cons i is ih =>
    rw [truncate]
    split
    · exact List.pairwise_singleton _ _
    · next hi => exact List.pairwise_cons.mpr ⟨fun _ _ => by simpa using hi, ih⟩

theorem sweepAll_of_swept {is : List Instr} (h : swept is = 0) :
    sweepAll is = (is, 0) := by
  rw [sweepAll, dif_pos h]

end DeadCode

theorem IsSettled.eliminate {f : Function} (h : IsSettled f) :
    DeadCode.run f = { function := f, instrs := 0, blocks := 0 } := by
  obtain ⟨-, hsingle, hended, hneeded⟩ := h
  cases hblocks : f.blocks with
  | nil => rw [DeadCode.run, hblocks]
  | cons entry others =>
    rw [hblocks, List.length_cons] at hsingle
    obtain rfl : others = [] := List.length_eq_zero_iff.mp (by omega)
    have hinstrs : f.instrs = entry.instrs := by simp [Function.instrs, hblocks]
    have htruncate : DeadCode.truncate entry.instrs = entry.instrs :=
      DeadCode.truncate_eq_self (hended entry (by simp [hblocks]))
    have hswept : DeadCode.swept entry.instrs = 0 := by
      rw [DeadCode.swept, List.countP_eq_zero]
      intro i hi
      have hstays := DeadCode.stays_used_iff.mpr (hneeded i (hinstrs ▸ hi))
      rw [hinstrs] at hstays
      simp [hstays]
    have hf : { f with blocks := [entry] } = f := by rw [← hblocks]
    simp [DeadCode.run, hblocks, htruncate, DeadCode.sweepAll_of_swept hswept, hf]

/-! ## A round -/

/-- A round of the default passes. -/
def round (f : Function) : Function := (DeadCode.run (Fold.run f).1).function

theorem mem_instrs_of_round {f : Function} {i : Instr} (h : i ∈ (round f).instrs) :
    i ∈ (Fold.run f).1.instrs :=
  (DeadCode.instrs_run_sublist (Fold.run f).1).subset h

/-- Elimination leaves the entry only, ends it at its first return, and leaves
nothing in it that is not needed. -/
theorem DeadCode.settled_run (f : Function) :
    (run f).function.blocks.length ≤ 1 ∧
      (∀ b ∈ (run f).function.blocks, EndsOnce b.instrs) ∧
      ∀ i ∈ (run f).function.instrs, Acts i ∨ ∃ j ∈ (run f).function.instrs,
      Feeds i j := by
  cases hblocks : f.blocks with
  | nil =>
    rw [run_of_nil hblocks]
    simp [Function.instrs, hblocks]
  | cons entry others =>
    let left := (sweepAll (truncate entry.instrs)).1
    have hleft : left = (truncate entry.instrs).filter (stays (used left)) :=
      sweepAll_eq_filter _
    have hended : EndsOnce left := by
      rw [hleft]
      exact (endsOnce_truncate entry.instrs).sublist List.filter_sublist
    have hneeded : ∀ i ∈ left, Acts i ∨ ∃ j ∈ left, Feeds i j := by
      intro i hi
      rw [hleft, List.mem_filter] at hi
      exact stays_used_iff.mp hi.2
    rw [blocks_run hblocks]
    refine ⟨Nat.le_refl 1, ?_, ?_⟩
    · intro b hb
      rw [List.mem_singleton.mp hb]
      exact hended
    · simpa [Function.instrs] using hneeded

/-- A function that went through both passes is settled. -/
theorem isSettled_round (f : Function) : IsSettled (round f) := by
  obtain ⟨hsingle, hended, hneeded⟩ := DeadCode.settled_run (Fold.run f).1
  refine ⟨?_, hsingle, hended, hneeded⟩
  intro op dest left right a b hi ha hb
  have hleft := mem_instrs_of_round hi
  rw [Fold.instrs_run] at hleft
  exact Fold.evaluate?_eq_none_iff.mp (Fold.evaluate?_of_mem_instrs hleft) op dest
    left right a b rfl ha hb

/-! ## Rounds -/

theorem isFaulty_eq_false_iff {f : Function} :
    Fold.isFaulty f = false ↔ ∀ i ∈ f.instrs, Fold.isOneSided i = false := by
  refine ⟨?_, Fold.isFaulty_eq_false⟩
  intro h i hi
  obtain ⟨b, hb, hi⟩ := List.mem_flatMap.mp hi
  rw [Fold.isFaulty, List.any_eq_false] at h
  simpa using List.any_eq_false.mp (by simpa using h b hb) i hi

/-- Folding is not at fault again behind a round in which it was not. -/
theorem isFaulty_round {f : Function} (h : Fold.isFaulty (Fold.run f).1 = false) :
    Fold.isFaulty (Fold.run (round f)).1 = false := by
  rw [(isSettled_round f).fold, isFaulty_eq_false_iff]
  intro i hi
  exact isFaulty_eq_false_iff.mp h i (mem_instrs_of_round hi)

variable (logging : Bool) {g : Progress}

theorem runRounds_of_isFaulty (h : Fold.isFaulty (Fold.run g.function).1 = true)
    (limit : Nat) :
    runRounds logging [.constantFolding, .deadCode] (limit + 1) g =
      .error .missing := by
  simp [runRounds, runPasses, Pass.apply, h, bind, Except.bind]

/-- The passes of a round that is not at fault. -/
theorem runPasses_round (h : Fold.isFaulty (Fold.run g.function).1 = false) :
    ∃ g', runPasses logging [.constantFolding, .deadCode] g = .ok g' ∧
      g'.function = round g.function ∧
      g'.error = none ∧ g'.tally.executions = g.tally.executions + 2 := by
  simp only [runPasses, Pass.apply, h]
  exact ⟨_, rfl, rfl, rfl, rfl⟩

theorem runRounds_succ {passes : List Pass} {g' : Progress}
    (h : runPasses logging passes g = .ok g') (hok : g'.error = none)
    (limit : Nat) :
    runRounds logging passes (limit + 1) g =
      if g'.function.size = g.function.size then .ok g'
        else runRounds logging passes limit g' := by
  rw [runRounds, h]
  simp [bind, Except.bind, hok, pure, Except.pure]

/-- In a settled function the next round is the last one. -/
theorem runRounds_of_isSettled (hsettled : IsSettled g.function)
    (hfault : Fold.isFaulty (Fold.run g.function).1 = false) :
    ∃ g', (∀ limit, runRounds logging [.constantFolding, .deadCode]
      (limit + 1) g = .ok g') ∧
      g'.function = g.function ∧ g'.error = none ∧
      g'.tally.executions = g.tally.executions + 2 := by
  obtain ⟨g', hg', hround, hok, hcount⟩ := runPasses_round logging hfault
  have hsame : g'.function = g.function := by
    rw [hround, round, hsettled.fold, hsettled.eliminate]
  refine ⟨g', ?_, hsame, hok, hcount⟩
  intro limit
  rw [runRounds_succ logging hg' hok, if_pos (by rw [hsame])]

/-- One round gives what any number of rounds gives, and two rounds are
enough for every limit. -/
theorem runRounds_round (hfault : Fold.isFaulty (Fold.run g.function).1 = false) :
    (∃ g', runRounds logging [.constantFolding, .deadCode] 1 g = .ok g' ∧
      g'.function = round g.function ∧
      g'.error = none ∧ g'.tally.executions = g.tally.executions + 2) ∧
    ∃ g', (∀ limit, runRounds logging [.constantFolding, .deadCode]
      (limit + 2) g = .ok g') ∧
      g'.function = round g.function ∧ g'.error = none ∧
      g'.tally.executions ≤ g.tally.executions + 4 := by
  obtain ⟨g₁, hg₁, hround, hok, hcount⟩ := runPasses_round logging hfault
  refine ⟨⟨g₁, ?_, hround, hok, hcount⟩, ?_⟩
  · rw [runRounds_succ logging hg₁ hok]
    split <;> rfl
  · by_cases hsize : g₁.function.size = g.function.size
    · refine ⟨g₁, ?_, hround, hok, by omega⟩
      intro limit
      rw [runRounds_succ logging hg₁ hok, if_pos hsize]
    · have hsettled : IsSettled g₁.function := hround ▸ isSettled_round g.function
      have hfault₁ : Fold.isFaulty (Fold.run g₁.function).1 = false :=
        hround ▸ isFaulty_round hfault
      obtain ⟨g₂, hg₂, hsame, hok₂, hcount₂⟩ :=
        runRounds_of_isSettled logging hsettled hfault₁
      refine ⟨g₂, ?_, hsame.trans hround, hok₂, by omega⟩
      intro limit
      rw [runRounds_succ logging hg₁ hok, if_neg hsize]
      exact hg₂ limit

/-! ## Limits -/

section
variable (stats : Tally) {limit : Int} {f : Function}

/-- If the first pass is at fault, it is so whatever the limit is. -/
theorem runFunction_of_isFaulty (hfault : Fold.isFaulty (Fold.run f).1 = true)
    (hlimit : 1 ≤ limit) :
    Optimizer.runFunction { limit, logging, stats } f = .error .missing := by
  obtain ⟨n, hn⟩ : ∃ n, limit.toNat = n + 1 := ⟨limit.toNat - 1, by omega⟩
  show runRounds logging [.constantFolding, .deadCode] limit.toNat { function := f } = _
  rw [hn]
  exact runRounds_of_isFaulty logging hfault n

theorem runFunction_round (hfault : Fold.isFaulty (Fold.run f).1 = false)
    (hlimit : 1 ≤ limit) :
    ∃ g, Optimizer.runFunction { limit, logging, stats } f = .ok g ∧
      g.function = round f ∧ g.error = none ∧ g.tally.executions ≤ 4 := by
  obtain ⟨⟨g₁, hg₁, hround₁, hok₁, hcount₁⟩, g₂, hg₂, hround₂, hok₂, hcount₂⟩ :=
    runRounds_round (g := { function := f }) logging hfault
  by_cases hone : limit = 1
  · subst hone
    have htwo : g₁.tally.executions = 2 := hcount₁
    exact ⟨g₁, hg₁, hround₁, hok₁, by omega⟩
  · obtain ⟨n, hn⟩ : ∃ n, limit.toNat = n + 2 := ⟨limit.toNat - 2, by omega⟩
    refine ⟨g₂, ?_, hround₂, hok₂, by simpa using hcount₂⟩
    show runRounds logging [.constantFolding, .deadCode] limit.toNat
      { function := f } = _
    rw [hn]
    exact hg₂ n

/-- Two limits that allow two rounds make no difference. -/
theorem runFunction_eq {limit' : Int} (hlimit : 2 ≤ limit) (hlimit' : 2 ≤ limit') :
    Optimizer.runFunction { limit, logging, stats } f =
      Optimizer.runFunction { limit := limit', logging, stats } f := by
  cases hfault : Fold.isFaulty (Fold.run f).1 with
  | true =>
    rw [runFunction_of_isFaulty logging stats hfault (by omega),
      runFunction_of_isFaulty logging stats hfault (by omega)]
  | false =>
    obtain ⟨-, g, hg, -⟩ := runRounds_round (g := { function := f }) logging hfault
    obtain ⟨n, hn⟩ : ∃ n, limit.toNat = n + 2 := ⟨limit.toNat - 2, by omega⟩
    obtain ⟨n', hn'⟩ : ∃ n, limit'.toNat = n + 2 := ⟨limit'.toNat - 2, by omega⟩
    show runRounds logging [.constantFolding, .deadCode] limit.toNat { function := f } =
      runRounds logging [.constantFolding, .deadCode] limit'.toNat { function := f }
    rw [hn, hn', hg n, hg n']

end

/-- Behind one round of folding and elimination a second one folds and removes
nothing, and what is left of operations on two integers has no result. So the
default optimizer makes the same function under every limit on rounds that
allows one, unless folding is at fault in the first round; it runs four passes
at most, and from two rounds on the limit makes no difference at all. -/
theorem one_round_settles (f : Function) :
    let g := round f
    (Fold.run g = (g, 0) ∧ DeadCode.run g =
      { function := g, instrs := 0, blocks := 0 }) ∧
    (∀ op dest left right a b, .binary op dest left right ∈ g.instrs →
      left.int? = some a → right.int? = some b → HasNoResult op a b) ∧
    ∀ (logging : Bool) (stats : Tally) (limit : Int), 1 ≤ limit →
      let o : Optimizer := { limit, logging, stats }
      ((Fold.isFaulty (Fold.run f).1 = true ∧ o.optimizeFunction f = .error .missing) ∨
        ∃ r, o.optimizeFunction f = .ok r ∧ r.error = none ∧ r.code = g ∧
          r.optimizer.stats.executions ≤ stats.executions + 4) ∧
      (2 ≤ limit → o.runFunction f = { o with limit := 10 }.runFunction f) := by
  have hsettled := isSettled_round f
  refine ⟨⟨hsettled.fold, hsettled.eliminate⟩, hsettled.folded, ?_⟩
  intro logging stats limit hlimit o
  refine ⟨?_, fun htwo => runFunction_eq logging stats htwo (by decide)⟩
  cases hfault : Fold.isFaulty (Fold.run f).1 with
  | true =>
    refine .inl ⟨rfl, ?_⟩
    rw [Optimizer.optimizeFunction, runFunction_of_isFaulty logging stats hfault hlimit]
    rfl
  | false =>
    obtain ⟨g, hg, hround, hok, hcount⟩ := runFunction_round logging stats hfault hlimit
    refine .inr ?_
    rw [Optimizer.optimizeFunction, hg]
    exact ⟨_, rfl, by rw [hok]; rfl, hround, Nat.add_le_add_left hcount _⟩

/-- A chain of operations through two blocks that ends in a division by zero; a
sum is read before it is made. -/
def chained : Function :=
  let temp (id : Nat) : Temp := { owner := 0, id, name := "", type := .i32 }
  { place := 0
    name := "chained"
    ret := .i32
    temps := 6
    blocks := [
      { label := "entry"
        instrs := [
          .binary (.arith .add) (temp 0) (.int 2) (.int 3),
          .binary (.arith .mul) (temp 1) (.temp (temp 0)) (.int 4),
          .binary (.arith .div) (temp 2) (.temp (temp 1)) (.int 0),
          .binary (.arith .sub) (temp 3) (.temp (temp 4)) (.temp (temp 1)),
          .ret (some (.temp (temp 2)))] },
      { label := "dead.1"
        instrs := [
          .binary (.arith .add) (temp 4) (.temp (temp 1)) (.int 1),
          .ret (some (.temp (temp 4)))] }] }

theorem one_round_settles_chained :
    (round chained).instrs.map Instr.shown = ["%t2 = sdiv i32 20, 0", "ret i32 %t2"] ∧
    Fold.run (round chained) = (round chained, 0) ∧
    ∃ r, Optimizer.optimizeFunction { limit := 1 } chained = .ok r ∧
      r.code = round chained ∧ r.optimizer.stats.executions ≤ 4 := by
  obtain ⟨⟨hfold, -⟩, -, hlimits⟩ := one_round_settles chained
  have hfault : Fold.isFaulty (Fold.run chained).1 = false := by decide
  refine ⟨by decide +kernel, hfold, ?_⟩
  rcases (hlimits false {} 1 (by decide)).1 with ⟨h, -⟩ | ⟨r, hr, -, hcode, hcount⟩
  · rw [hfault] at h
    cases h
  · exact ⟨r, hr, hcode, hcount⟩

end Straightline.Optimize
