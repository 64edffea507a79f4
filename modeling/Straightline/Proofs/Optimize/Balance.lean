import Mathlib
import Straightline.Proofs.Optimize.Passes
import Straightline.Proofs.Sequences

/-!
# The statistics balance

An optimizer counts an instruction that goes away in one of four places: where
folding computes it, behind a return, in a block that nothing reaches, and in a
sweep. Nothing is counted twice and nothing is missed: what there was is what is
left and what was counted (`Balances`). Passes balance, and so do rounds of
passes, runs over a module, and any calls on one optimizer one after the other
(`stats_account_for_code`).
-/

namespace Straightline.Code.Module

/-- The blocks of all functions. -/
def blocks (m : Module) : List Block := m.functions.flatMap (·.blocks)

/-- The instructions of all functions. -/
def instrs (m : Module) : List Instr := m.blocks.flatMap (·.instrs)

end Straightline.Code.Module

namespace Straightline.Optimize

open Code

/-! ## Balances -/

/-- Whether what is gone between the blocks `bs` and `bs'` is what `t` counts. -/
structure Balances (bs bs' : List Block) (t : Tally) : Prop where
  instrs : (bs.flatMap (·.instrs)).length =
    (bs'.flatMap (·.instrs)).length + (t.folded + t.removed)
  blocks : bs.length = bs'.length + t.blocks

namespace Balances

variable {bs bs' bs'' cs cs' : List Block} {t t' : Tally}

theorem refl (bs : List Block) : Balances bs bs {} := ⟨rfl, rfl⟩

/-- What is done one after the other is counted together. -/
theorem trans (h : Balances bs bs' t) (h' : Balances bs' bs'' t') :
    Balances bs bs'' (t.add t') := by
  obtain ⟨hinstrs, hblocks⟩ := h
  obtain ⟨hinstrs', hblocks'⟩ := h'
  constructor
  · simp only [Tally.add]
    omega
  · simp only [Tally.add]
    omega

/-- What is done side by side is counted together. -/
theorem append (h : Balances bs bs' t) (h' : Balances cs cs' t') :
    Balances (bs ++ cs) (bs' ++ cs') (t.add t') := by
  obtain ⟨hinstrs, hblocks⟩ := h
  obtain ⟨hinstrs', hblocks'⟩ := h'
  constructor
  · simp only [List.flatMap_append, List.length_append, Tally.add]
    omega
  · simp only [List.length_append, Tally.add]
    omega

theorem of_eq (h : Balances bs bs' t) (hfolded : t'.folded = t.folded)
    (hremoved : t'.removed = t.removed) (hblocks : t'.blocks = t.blocks) :
    Balances bs bs' t' :=
  ⟨by rw [hfolded, hremoved]; exact h.instrs, by rw [hblocks]; exact h.blocks⟩

/-- Blocks that stay in front do not matter. -/
theorem behind (h : Balances bs bs' t) (cs : List Block) :
    Balances (cs ++ bs) (cs ++ bs') t :=
  ((refl cs).append h).of_eq (Nat.zero_add _).symm (Nat.zero_add _).symm
    (Nat.zero_add _).symm

/-- Blocks that stay behind do not matter. -/
theorem before (h : Balances bs bs' t) (cs : List Block) :
    Balances (bs ++ cs) (bs' ++ cs) t :=
  (h.append (refl cs)).of_eq rfl rfl rfl

end Balances

/-! ## Passes -/

namespace Fold

theorem length_instrs (known : Known) (is : List Instr) :
    is.length = (instrs known is).instrs.length + (instrs known is).count := by
  induction is generalizing known with
  | nil => rfl
  | cons i is ih =>
    cases h : evaluate? (substitute known i) with
    | some p =>
      have hrest := ih (p :: known)
      simp only [instrs, h, List.length_cons]
      omega
    | none =>
      have hrest := ih known
      simp only [instrs, h, List.length_cons]
      omega

theorem balances_blocks (known : Known) (bs : List Block) :
    Balances bs (blocks known bs).1 { folded := (blocks known bs).2 } := by
  induction bs generalizing known with
  | nil => exact .refl []
  | cons b bs ih =>
    have hblock : Balances [b] [{ b with instrs := (instrs known b.instrs).instrs }]
        { folded := (instrs known b.instrs).count } := by
      refine ⟨?_, rfl⟩
      simpa using length_instrs known b.instrs
    exact hblock.append (ih (instrs known b.instrs).known)

theorem balances_run (f : Function) :
    Balances f.blocks (run f).1.blocks { folded := (run f).2 } :=
  balances_blocks [] f.blocks

end Fold

namespace DeadCode

theorem length_sweepAll (is : List Instr) :
    is.length = (sweepAll is).1.length + (sweepAll is).2 := by
  fun_induction sweepAll is with
  | case1 is _ => rfl
  | case2 is _ r ih =>
    have hsweep := length_sweep is
    show is.length = (sweepAll (sweep is)).1.length +
      (swept is + (sweepAll (sweep is)).2)
    omega

/-- The four counts of elimination do not overlap: behind the return, in the
other blocks, and in the sweeps. -/
theorem balances_run (f : Function) :
    Balances f.blocks (run f).function.blocks
      { removed := (run f).instrs, blocks := (run f).blocks } := by
  unfold run
  split
  · next hblocks => exact .refl f.blocks
  · next entry others hblocks =>
    have htruncate := (truncate_isPrefix entry.instrs).length_le
    have hsweep := length_sweepAll (truncate entry.instrs)
    rw [hblocks]
    constructor
    · simp only [List.flatMap_cons, List.flatMap_nil, List.length_append,
        List.length_nil]
      omega
    · simp only [List.length_cons, List.length_nil]
      omega

end DeadCode

theorem Pass.balances_apply {p : Pass} {f f' : Function} {t : Tally}
    (h : p.apply f = .ok (.ok (f', t))) : Balances f.blocks f'.blocks t := by
  cases p with
  | constantFolding =>
    simp only [Pass.apply] at h
    split at h
    · cases h
    · cases h
      exact Fold.balances_run f
  | deadCode =>
    cases h
    exact DeadCode.balances_run f
  | failing message => cases h

/-! ## Rounds -/

/-- A function on its way is balanced against what it was at first. -/
theorem balances_runPasses {logging : Bool} {passes : List Pass} {bs : List Block}
    {g g' : Progress} (hg : Balances bs g.function.blocks g.tally)
    (h : runPasses logging passes g = .ok g') :
    Balances bs g'.function.blocks g'.tally := by
  induction passes generalizing g with
  | nil =>
    cases h
    exact hg
  | cons p rest ih =>
    obtain ⟨result, hresult, h⟩ := bind_eq_ok.mp h
    cases result with
    | error e =>
      cases h
      exact hg
    | ok done =>
      -- The count of passes is no part of the balance.
      have hdone : Balances bs done.1.blocks
          ((g.tally.add done.2).add { executions := 1 }) :=
        (hg.trans (Pass.balances_apply hresult)).of_eq rfl rfl rfl
      exact ih hdone h

theorem balances_runRounds {logging : Bool} {passes : List Pass} {limit : Nat}
    {bs : List Block} {g g' : Progress} (hg : Balances bs g.function.blocks g.tally)
    (h : runRounds logging passes limit g = .ok g') :
    Balances bs g'.function.blocks g'.tally := by
  induction limit generalizing g with
  | zero =>
    cases h
    exact hg
  | succ limit ih =>
    obtain ⟨g₁, hround, h⟩ := bind_eq_ok.mp h
    have hg₁ := balances_runPasses hg hround
    split at h
    · cases h
      exact hg₁
    · exact ih hg₁ h

/-! ## Optimizers -/

namespace Optimizer

theorem balances_runFunction {o : Optimizer} {f : Function} {g : Progress}
    (h : o.runFunction f = .ok g) : Balances f.blocks g.function.blocks g.tally :=
  balances_runRounds (.refl f.blocks) h

theorem balances_runFunctions {o : Optimizer} {fs : List Function} {b : Batch}
    (h : o.runFunctions fs = .ok b) :
    Balances (fs.flatMap (·.blocks)) (b.functions.flatMap (·.blocks)) b.tally := by
  induction fs generalizing b with
  | nil =>
    cases h
    exact .refl []
  | cons f rest ih =>
    rw [runFunctions] at h
    split at h
    · obtain ⟨b', hb', h⟩ := bind_eq_ok.mp h
      cases h
      exact (ih hb').behind f.blocks
    · obtain ⟨g, hg, h⟩ := bind_eq_ok.mp h
      have hfunction := balances_runFunction hg
      split at h
      · -- The functions behind one that failed are left as they are.
        cases h
        exact hfunction.before (rest.flatMap (·.blocks))
      · obtain ⟨b', hb', h⟩ := bind_eq_ok.mp h
        cases h
        exact hfunction.append (ih hb')

theorem balances_optimize {o : Optimizer} {m : Module} {r : Outcome Module}
    (h : o.optimize m = .ok r) :
    ∃ t, r.optimizer = { o with stats := o.stats.add t } ∧
      Balances m.blocks r.code.blocks t := by
  obtain ⟨b, hb, h⟩ := bind_eq_ok.mp h
  cases h
  exact ⟨b.tally, rfl, balances_runFunctions hb⟩

theorem balances_optimizeFunction {o : Optimizer} {f : Function}
    {r : Outcome Function} (h : o.optimizeFunction f = .ok r) :
    ∃ t, r.optimizer = { o with stats := o.stats.add t } ∧
      Balances f.blocks r.code.blocks t := by
  obtain ⟨g, hg, h⟩ := bind_eq_ok.mp h
  cases h
  exact ⟨g.tally, rfl, balances_runFunction hg⟩

/-! ## Calls -/

/-- Calls on an optimizer, one after the other: its limit is changed, it runs
over the module, or over the function at some place of it. -/
inductive Calls : Optimizer → Module → Optimizer → Module → Prop
  | none (o : Optimizer) (m : Module) : Calls o m o m
  | setLimit {o o' : Optimizer} {m m' : Module} (limit : Int) :
      Calls { o with limit } m o' m' → Calls o m o' m'
  | optimize {o o' : Optimizer} {m m' : Module} {r : Outcome Module} :
      o.optimize m = .ok r →
      Calls r.optimizer r.code o' m' → Calls o m o' m'
  | optimizeFunction {o o' : Optimizer} {m m' : Module} {place : Nat} {f : Function}
      {r : Outcome Function} :
      m.functions[place]? = some f → o.optimizeFunction f = .ok r →
      Calls r.optimizer { m with functions := m.functions.set place r.code } o' m' →
        Calls o m o' m'

/-- A module is balanced if one function of it is. -/
theorem balances_set {m : Module} {place : Nat} {f f' : Function} {t : Tally}
    (hf : m.functions[place]? = some f) (h : Balances f.blocks f'.blocks t) :
    Balances m.blocks { m with functions := m.functions.set place f' }.blocks t := by
  obtain ⟨hlt, rfl⟩ := List.getElem?_eq_some_iff.mp hf
  have hset : m.functions.set place f' =
      m.functions.take place ++ f' :: m.functions.drop (place + 1) :=
    List.set_eq_take_append_cons_drop ▸ if_pos hlt
  have hsplit : m.functions = m.functions.take place ++ m.functions[place] ::
      m.functions.drop (place + 1) := by
    rw [← List.drop_eq_getElem_cons hlt, List.take_append_drop]
  rw [Module.blocks, Module.blocks, hset]
  nth_rewrite 1 [hsplit]
  simp only [List.flatMap_append, List.flatMap_cons]
  exact (h.before _).behind _

/-- What the statistics of an optimizer grow by is what its calls take away. -/
theorem Calls.balances {o o' : Optimizer} {m m' : Module} (h : Calls o m o' m') :
    ∃ t, o'.stats = o.stats.add t ∧ Balances m.blocks m'.blocks t := by
  have hadd (a b c : Tally) : (a.add b).add c = a.add (b.add c) := by
    simp [Tally.add, Nat.add_assoc]
  induction h with
  | none o m => exact ⟨{}, rfl, .refl _⟩
  | setLimit limit _ ih => exact ih
  | optimize hrun _ ih =>
    obtain ⟨t, hstats, hbalance⟩ := balances_optimize hrun
    obtain ⟨t', hstats', hbalance'⟩ := ih
    exact ⟨t.add t', by rw [hstats', hstats, hadd], hbalance.trans hbalance'⟩
  | optimizeFunction hf hrun _ ih =>
    obtain ⟨t, hstats, hbalance⟩ := balances_optimizeFunction hrun
    obtain ⟨t', hstats', hbalance'⟩ := ih
    exact ⟨t.add t', by rw [hstats', hstats, hadd],
      (balances_set hf hbalance).trans hbalance'⟩

end Optimizer

/-- Whatever calls were made on an optimizer since it was new, every instruction
that its module had is still there, or was counted as folded or as removed; and
every block is still there or was counted. -/
theorem stats_account_for_code (passes : List Pass) (limit : Int) (logging : Bool)
    (m m' : Module) (o' : Optimizer)
    (h : Optimizer.Calls { passes, limit, logging } m o' m') :
    m.instrs.length = m'.instrs.length + o'.stats.folded + o'.stats.removed ∧
      m.blocks.length = m'.blocks.length + o'.stats.blocks := by
  obtain ⟨t, hstats, hbalance⟩ := h.balances
  obtain ⟨hinstrs, hblocks⟩ := hbalance
  rw [hstats]
  simp only [Tally.add, Nat.zero_add, Module.instrs]
  omega

/-- A function with an unread product, code behind its return and a second block. -/
def cluttered : Function :=
  let temp (id : Nat) : Temp := { owner := 0, id, name := "", type := .i32 }
  { place := 0
    name := "cluttered"
    ret := .i32
    params := [⟨0, 0, "n", .i32⟩]
    temps := 3
    blocks := [
      { label := "entry"
        instrs := [
          .binary (.arith .add) (temp 0) (.int 2) (.int 3),
          .binary (.arith .mul) (temp 1) (.temp (temp 0)) (.param ⟨0, 0, "n", .i32⟩),
          .ret (some (.temp (temp 0))),
          .store (.int 1) (.temp (temp 1))] },
      { label := "dead.1",
        instrs := [.binary (.arith .sub) (temp 2) (.int 1) (.int 1), .ret none] }] }

/-- The function is optimized alone and then twice with its module, the first
time under a limit that allows nothing. -/
theorem stats_account_for_code_cluttered :
    let other : Function := { cluttered with place := 1, name := "other" }
    let m : Module := { name := "m", functions := [cluttered, other] }
    ∃ o' m', Optimizer.Calls {} m o' m' ∧ m'.instrs.length = 2 ∧
      o'.stats = { folded := 4, removed := 6, blocks := 2, executions := 10 } ∧
      m.instrs.length = m'.instrs.length + o'.stats.folded + o'.stats.removed ∧
      m.blocks.length = m'.blocks.length + o'.stats.blocks := by
  intro other m
  have hcalls : (do
      let one ← Optimizer.optimizeFunction {} cluttered
      let idle ← Optimizer.optimize { one.optimizer with limit := 0 }
        { m with functions := m.functions.set 0 one.code }
      let all ← Optimizer.optimize { idle.optimizer with limit := 2 } idle.code
      return (all.code.instrs.length, all.optimizer.stats) :
        Except Fault (Nat × Tally)) =
        .ok (2, { folded := 4, removed := 6, blocks := 2, executions := 10 }) := by
    decide +kernel
  obtain ⟨one, hone, hcalls⟩ := bind_eq_ok.mp hcalls
  obtain ⟨idle, hidle, hcalls⟩ := bind_eq_ok.mp hcalls
  obtain ⟨all, hall, hcalls⟩ := bind_eq_ok.mp hcalls
  have h : Optimizer.Calls {} m all.optimizer all.code :=
    .optimizeFunction rfl hone
      (.setLimit 0 (.optimize hidle (.setLimit 2 (.optimize hall (.none _ _)))))
  simp only [pure, Except.pure, Except.ok.injEq, Prod.mk.injEq] at hcalls
  exact ⟨all.optimizer, all.code, h, hcalls.1, hcalls.2,
    stats_account_for_code _ _ _ _ _ _ h⟩

end Straightline.Optimize
