import Mathlib
import Straightline.Proofs.Optimize.Sound

/-!
# What the optimizer leaves

The default passes take code away and make none. A function keeps its header,
the entry is the only block that is left of it, and the temporaries it still
makes were made before, in the same order (`Remains`).
-/

namespace Straightline.Optimize

open Code

/-- Whether `f'` has the header and the entry of `f`, and makes no temporary
that `f` does not make. -/
structure Shrinks (f f' : Function) : Prop where
  header : f'.header = f.header
  entry : (f'.blocks.map (·.label)).take 1 = (f.blocks.map (·.label)).take 1
  made : (made f'.instrs).Sublist (made f.instrs)

/-- Whether `f'` is `f` shrunk to its entry. -/
structure Remains (f f' : Function) : Prop extends Shrinks f f' where
  labels : f'.blocks.map (·.label) = (f.blocks.map (·.label)).take 1

theorem Shrinks.refl (f : Function) : Shrinks f f := ⟨rfl, rfl, List.Sublist.refl _⟩

theorem Shrinks.trans {f₁ f₂ f₃ : Function} (h : Shrinks f₁ f₂)
    (h' : Shrinks f₂ f₃) : Shrinks f₁ f₃ :=
  ⟨h'.header.trans h.header, h'.entry.trans h.entry, h'.made.trans h.made⟩

/-! ## Passes -/

namespace Fold

theorem labels_blocks (known : Known) (bs : List Block) :
    (blocks known bs).1.map (·.label) = bs.map (·.label) := by
  induction bs generalizing known with
  | nil => rfl
  | cons b bs ih => simp only [blocks, List.map_cons, ih]

theorem labels_run (f : Function) :
    (run f).1.blocks.map (·.label) = f.blocks.map (·.label) :=
  labels_blocks [] f.blocks

theorem shrinks_run (f : Function) : Shrinks f (run f).1 where
  header := rfl
  entry := by rw [labels_run]
  made := by
    rw [instrs_run]
    exact made_instrs_sublist [] f.instrs

end Fold

namespace DeadCode

theorem labels_run (f : Function) :
    (run f).function.blocks.map (·.label) = (f.blocks.map (·.label)).take 1 := by
  cases hblocks : f.blocks with
  | nil =>
    rw [run_of_nil hblocks, hblocks]
    rfl
  | cons entry others =>
    rw [blocks_run hblocks]
    rfl

/-- What is left of an entry makes temporaries that the entry made. -/
theorem made_sweepAll_sublist (is : List Instr) :
    (made (sweepAll (truncate is)).1).Sublist (made is) :=
  sweepAll_keeps (P := fun js => (made js).Sublist (made is))
    (fun _ hjs => (List.filter_sublist.filterMap _).trans hjs)
      ((truncate_isPrefix is).sublist.filterMap _)

theorem shrinks_run (f : Function) : Shrinks f (run f).function := by
  cases hblocks : f.blocks with
  | nil =>
    rw [run_of_nil hblocks]
    exact .refl f
  | cons entry others =>
    refine ⟨?_, ?_, ?_⟩
    · rw [blocks_run hblocks]
      rfl
    · rw [labels_run, List.take_take]
      rfl
    · have hentry : (made entry.instrs).Sublist (made f.instrs) := by
        rw [Function.instrs, hblocks, List.flatMap_cons, made_append]
        exact List.sublist_append_left _ _
      rw [blocks_run hblocks]
      simpa [Function.instrs] using (made_sweepAll_sublist entry.instrs).trans hentry

end DeadCode

/-! ## Rounds -/

/-- Both passes keep a function sound and shrink it. -/
theorem kept_shrinks (Γ : Context) (f₀ : Function) :
    Kept fun f => f.IsSound Γ ∧ Shrinks f₀ f where
  fold f h := ⟨Fold.isSound_run h.1, h.2.trans (Fold.shrinks_run f)⟩
  faultless f h := (kept_isSound Γ f.header).faultless f ⟨h.1, rfl⟩
  eliminate f h := ⟨DeadCode.isSound_run h.1, h.2.trans (DeadCode.shrinks_run f)⟩

/-- Elimination shrinks a function to its entry. -/
theorem remains_run {f₀ f : Function} (h : Shrinks f₀ f) :
    Remains f₀ (DeadCode.run f).function :=
  { h.trans (DeadCode.shrinks_run f) with
    labels := (DeadCode.labels_run f).trans h.entry }

theorem kept_remains (Γ : Context) (f₀ : Function) :
    Kept fun f => f.IsSound Γ ∧ Remains f₀ f where
  fold f h :=
    ⟨Fold.isSound_run h.1,
      { h.2.toShrinks.trans (Fold.shrinks_run f) with
        labels := (Fold.labels_run f).trans h.2.labels }⟩
  faultless f h := (kept_isSound Γ f.header).faultless f ⟨h.1, rfl⟩
  eliminate _ h := ⟨DeadCode.isSound_run h.1, remains_run h.2.toShrinks⟩

/-- What elimination brings about and both passes keep holds
behind one round or more. -/
theorem runRounds_reaches {P Q : Function → Prop} (hP : Kept P) (hQ : Kept Q)
    (hPQ : ∀ f, P f → Q (DeadCode.run f).function) (logging : Bool) (limit : Nat)
    {g : Progress} (hg : P g.function) :
    ∃ g', runRounds logging [.constantFolding, .deadCode] (limit + 1) g = .ok g' ∧
      g'.error = none ∧ Q g'.function := by
  obtain ⟨g', hg', hok, hreached⟩ : ∃ g',
    runPasses logging [.constantFolding, .deadCode] g = .ok g' ∧
      g'.error = none ∧ Q g'.function := by
    simp only [runPasses, Pass.apply, hP.faultless _ hg]
    exact ⟨_, rfl, rfl, hPQ _ (hP.fold _ hg)⟩
  rw [runRounds, hg']
  show ∃ g'', (if g'.error.isSome ∨ g'.function.size = g.function.size then Except.ok g'
    else runRounds logging [.constantFolding, .deadCode] limit g') = .ok g'' ∧ _
  split
  · exact ⟨g', rfl, hok, hreached⟩
  · exact runRounds_keeps hQ (isBuiltIn_of_mem rfl) logging limit g' hreached hok

/-! ## Modules -/

namespace Optimizer

variable {o : Optimizer} (ho : o.passes = [.constantFolding, .deadCode])
  (hlimit : 0 < o.limit)
include ho hlimit

theorem runFunction_remains {Γ : Context} {f : Function} (h : f.IsSound Γ) :
    ∃ g, o.runFunction f = .ok g ∧ g.error = none ∧ g.function.IsSound Γ ∧
      Remains f g.function := by
  obtain ⟨limit, hlimit'⟩ : ∃ limit, o.limit.toNat = limit + 1 :=
    ⟨o.limit.toNat - 1, by omega⟩
  rw [runFunction, ho, hlimit']
  exact runRounds_reaches (kept_shrinks Γ f) (kept_remains Γ f)
    (fun f' hf' => ⟨DeadCode.isSound_run hf'.1, remains_run hf'.2⟩) _ _ ⟨h, .refl f⟩

theorem runFunctions_remains {Γ : Context} {fs : List Function}
    (h : ∀ f ∈ fs, f.IsSound Γ) :
    ∃ b, o.runFunctions fs = .ok b ∧ b.error = none ∧
      List.Forall₂ Remains fs b.functions := by
  induction fs with
  | nil => exact ⟨_, rfl, rfl, .nil⟩
  | cons f rest ih =>
    rw [List.forall_mem_cons] at h
    obtain ⟨b, hb, herror, hrest⟩ := ih h.2
    rw [runFunctions]
    by_cases hext : f.isExternal = true
    · -- An external function has no blocks, so it is shrunk as far as can be.
      have hblocks : f.blocks = [] := h.1.blocks.mpr hext
      rw [if_pos hext, hb]
      exact ⟨_, rfl, herror, .cons
        { Shrinks.refl f with labels := by rw [hblocks]; rfl } hrest⟩
    · rw [if_neg hext]
      obtain ⟨g, hg, hok, -, hremains⟩ := runFunction_remains ho hlimit h.1
      simp only [hg, hb, bind, Except.bind, hok, pure, Except.pure]
      exact ⟨_, rfl, herror, .cons hremains hrest⟩

/-- An optimizer with these passes leaves the string constants of a sound module
and the entries of its functions. -/
theorem optimize_remains {m : Module} (h : m.IsSound) :
    ∃ r, o.optimize m = .ok r ∧ r.error = none ∧ r.code.IsSound ∧
      r.code.name = m.name ∧ r.code.texts = m.texts ∧
      List.Forall₂ Remains m.functions r.code.functions := by
  obtain ⟨b, hb, -, hremains⟩ := runFunctions_remains ho hlimit h.functions
  obtain ⟨r, hr, herror, hsound⟩ := optimize_sound ho h
  refine ⟨r, hr, herror, hsound, ?_⟩
  rw [optimize, hb] at hr
  cases hr
  exact ⟨rfl, rfl, hremains⟩

end Optimizer

end Straightline.Optimize
