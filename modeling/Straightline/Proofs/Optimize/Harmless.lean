import Mathlib
import Straightline.Proofs.Optimize.Traps
import Straightline.Proofs.Target.Rewriting
import Straightline.Proofs.Target.Symbols
import Straightline.Proofs.Workbench

/-!
# The optimizer does no harm

Take a module that was put together at the workbench, calls and values made by
hand included, that verification finds nothing wrong with and that can be
emitted. It would be good to know that this stays so, whichever built-in passes
are run. It need not (`exists_harm`): a call made by hand may put its result
into the temporary of an operation in front of it, and folding replaces that
temporary in all that follows, whatever the call made of it. If no call does
that, or only with words, then the optimizer does not fail, the module is still
verified and emitted, and nothing has changed but the blocks of functions that
have code (`optimize_harmless`).
-/

namespace Straightline

open Code Optimize

/-! ## Calls that take the place of operations -/

namespace Code

/-- The temporary that an operation makes. -/
def Instr.operation? : Instr → Option Temp
  | .binary _ dest _ _ => some dest
  | _ => none

/-- What a call calls. -/
def Instr.callee? : Instr → Option Value
  | .call _ callee _ => some callee
  | _ => none

/-- Whether calls leave alone what operations in front of them made, unless they
call functions that return words. -/
def Module.SparesWords (m : Module) : Prop :=
  ∀ f ∈ m.functions, f.instrs.Pairwise fun i j => ∀ t ∈ i.operation?,
    ∀ callee ∈ j.callee?, j.result = some (.temp t) → ∃ g ∈ m.functions,
    g.name = callee.name ∧ g.ret = .i32

instance (m : Module) : Decidable m.SparesWords :=
  inferInstanceAs (Decidable (∀ f ∈ m.functions, f.instrs.Pairwise fun i j =>
    ∀ t ∈ i.operation?, ∀ callee ∈ j.callee?, j.result = some (.temp t) →
    ∃ g ∈ m.functions, g.name = callee.name ∧ g.ret = .i32))

theorem Function.check_eq_nil_iff_instrs {f : Function} :
    f.check = .ok [] ↔ (f.blocks = [] ↔ f.isExternal = true) ∧
      (∀ i ∈ f.instrs, i.check = .ok none) ∧ ∀ b ∈ f.blocks, Closed b.instrs := by
  rw [Function.check_eq_nil_iff, Function.instrs]
  simp only [List.forall_mem_flatMap, forall_and]

end Code

/-! ## Operands of known type -/

namespace Optimize.Fold

variable {known : Known}

theorem requireType_replace (words : AreWords known) (v : Value) :
    (replace known v).requireType = v.requireType := by
  rw [Value.requireType, Value.requireType, isAbsent_replace, type_replace words]

theorem checkArgs_replace (words : AreWords known) (number : Nat)
    (args : List Value) (wants : List Ty) :
    checkArgs number (args.map (replace known)) wants =
      checkArgs number args wants := by
  induction args generalizing number wants with
  | nil => cases wants <;> rfl
  | cons a args ih =>
    cases wants with
    | nil => rfl
    | cons want wants =>
      simp only [List.map_cons, checkArgs, requireType_replace words, ih]

/-- Verification does not notice that words are put in the place of words. -/
theorem check_substitute (words : AreWords known) (i : Instr) :
    (substitute known i).check = i.check := by
  cases i with
  | load dest address =>
    simp only [substitute, Instr.check, requireType_replace words, type_replace words]
  | store value address =>
    simp only [substitute, Instr.check, requireType_replace words, type_replace words]
  | binary op dest left right =>
    simp only [substitute, Instr.check, requireType_replace words]
  | call dest callee args =>
    simp only [substitute, Instr.check, List.length_map, checkArgs_replace words]
  | _ => rfl

theorem check_of_mem_instrs (words : AreWords known) {is : List Instr}
    (hwords : ∀ i ∈ is, ∀ t ∈ i.operation?, t.type = .i32)
    (hchecks : ∀ i ∈ is, i.check = .ok none) :
    ∀ j ∈ (instrs known is).instrs, j.check = .ok none := by
  induction is generalizing known with
  | nil => simp [instrs]
  | cons i is ih =>
    obtain ⟨hword, hwordsRest⟩ := List.forall_mem_cons.mp hwords
    obtain ⟨hcheck, hchecksRest⟩ := List.forall_mem_cons.mp hchecks
    cases heval : evaluate? (substitute known i) with
    | some p =>
      rw [instrs_cons_some heval]
      obtain ⟨op, left, right, rfl⟩ := binary_of_evaluate? heval
      exact ih (List.forall_mem_cons.mpr ⟨hword _ rfl, words⟩) hwordsRest hchecksRest
    | none =>
      rw [instrs_cons_none heval]
      refine List.forall_mem_cons.mpr ⟨?_, ih words hwordsRest hchecksRest⟩
      rw [check_substitute words, hcheck]

/-- What relates instructions whatever their operands are relates
what is left of them. -/
theorem pairwise_instrs {R : Instr → Instr → Prop}
    (hR : ∀ i j known known', R i j → R (substitute known i) (substitute known' j))
    {is : List Instr} (h : is.Pairwise R) :
    (instrs known is).instrs.Pairwise R := by
  induction is generalizing known with
  | nil => exact .nil
  | cons i is ih =>
    obtain ⟨hfirst, hrest⟩ := List.pairwise_cons.mp h
    cases heval : evaluate? (substitute known i) with
    | some p =>
      rw [instrs_cons_some heval]
      exact ih hrest
    | none =>
      rw [instrs_cons_none heval]
      refine List.pairwise_cons.mpr ⟨fun j' hj' => ?_, ih hrest⟩
      obtain ⟨j, hj, known', rfl⟩ := mem_instrs hj'
      exact hR i j known known' (hfirst j hj)

end Optimize.Fold

/-! ## Functions -/

namespace Optimize

open Target (Surroundings SparesWord CanEmit)

/-- A function with code that is verified and can be emitted, and in which
folding may put words in the place of the results of operations. -/
structure Fits (s : Surroundings) (f : Function) : Prop where
  defined : f.isExternal = false
  checked : f.check = .ok []
  words : ∀ i ∈ f.instrs, ∀ t ∈ i.operation?, t.type = .i32
  spares : f.instrs.Pairwise (SparesWord s)
  emitted : CanEmit s f

variable {s : Surroundings} {f : Function}

theorem sparesWord_substitute {i j : Instr} (known known' : Known)
    (h : SparesWord s i j) :
    SparesWord s (Fold.substitute known i) (Fold.substitute known' j) := by
  intro op t left right hi hresult
  cases i with
  | binary op' dest left' right' =>
    cases hi
    have hresult' : j.result = some (.temp t) := by cases j <;> exact hresult
    obtain ⟨dest, callee, args, rfl, hword⟩ := h op t left' right' rfl hresult'
    exact ⟨dest, callee, args.map (Fold.replace known'), rfl, hword⟩
  | _ => cases hi

theorem Fits.fold (h : Fits s f) : Fits s (Fold.run f).1 := by
  obtain ⟨hblocks, hchecks, hclosed⟩ := Function.check_eq_nil_iff_instrs.mp h.checked
  refine ⟨h.defined, Function.check_eq_nil_iff_instrs.mpr ⟨?_, ?_, ?_⟩, ?_, ?_, ?_⟩
  · rw [← List.map_eq_nil_iff, Fold.labels_run, List.map_eq_nil_iff]
    exact hblocks
  · rw [Fold.instrs_run]
    exact Fold.check_of_mem_instrs (by simp [Fold.AreWords]) h.words hchecks
  · intro b' hb'
    obtain ⟨b, hb, known, rfl⟩ := Fold.mem_blocks hb'
    exact Fold.closed_instrs known (hclosed b hb)
  · rw [Fold.instrs_run]
    intro j hj t ht
    obtain ⟨i, hi, known, rfl⟩ := Fold.mem_instrs hj
    refine h.words i hi t ?_
    cases i <;> exact ht
  · rw [Fold.instrs_run]
    exact Fold.pairwise_instrs (fun _ _ known known' =>
      sparesWord_substitute known known') h.spares
  · obtain ⟨out, hout⟩ := h.emitted
    exact Target.emitBlocks_fold ⟨by simp, fun _ _ => rfl⟩ h.spares (by simp) hout

theorem Fits.isFaulty (h : Fits s f) : Fold.isFaulty (Fold.run f).1 = false := by
  obtain ⟨-, hchecks, -⟩ := Function.check_eq_nil_iff_instrs.mp h.fold.checked
  exact Fold.isFaulty_eq_false fun i hi =>
    isOneSided_of_isHalf (isHalf_of_check (hchecks i hi))

theorem Fits.eliminate (h : Fits s f) : Fits s (DeadCode.run f).function := by
  obtain ⟨hblocks, hchecks, hclosed⟩ := Function.check_eq_nil_iff_instrs.mp h.checked
  obtain ⟨entry, others, hentry⟩ : ∃ entry others, f.blocks = entry :: others := by
    refine List.exists_cons_of_ne_nil fun hnil => ?_
    cases h.defined.symm.trans (hblocks.mp hnil)
  have hends : Closed entry.instrs :=
    hclosed entry (by rw [hentry]; exact List.mem_cons_self)
  have hinstrs : f.instrs = entry.instrs ++ others.flatMap (·.instrs) := by
    rw [Function.instrs, hentry, List.flatMap_cons]
  -- The code that is left is a part of the entry, in the same order.
  obtain ⟨hsub, hends'⟩ : (DeadCode.sweepAll entry.instrs).1.Sublist f.instrs ∧
      Closed (DeadCode.sweepAll entry.instrs).1 := by
    refine DeadCode.sweepAll_keeps (P := fun is => is.Sublist f.instrs ∧
      Closed is) ?_ ⟨?_, hends⟩
    · exact fun is his => ⟨List.filter_sublist.trans his.1, DeadCode.closed_sweep his.2⟩
    · rw [hinstrs]
      exact List.sublist_append_left _ _
  have hleft : (DeadCode.run f).function =
      { f with
        blocks := [{ entry with instrs := (DeadCode.sweepAll entry.instrs).1 }] } := by
    rw [DeadCode.blocks_run hentry, DeadCode.truncate_eq_self (closed_iff.mp hends).1]
  have hleft' : (DeadCode.run f).function.instrs =
      (DeadCode.sweepAll entry.instrs).1 := by
    simp [hleft, Function.instrs]
  refine ⟨?_, Function.check_eq_nil_iff_instrs.mpr ⟨?_, ?_, ?_⟩, ?_, ?_, ?_⟩
  · rw [hleft]
    exact h.defined
  · rw [hleft]
    simp [h.defined]
  · rw [hleft']
    exact fun i hi => hchecks i (hsub.subset hi)
  · rw [hleft]
    exact fun b hb => List.mem_singleton.mp hb ▸ hends'
  · rw [hleft']
    exact fun i hi => h.words i (hsub.subset hi)
  · rw [hleft']
    exact h.spares.sublist hsub
  · obtain ⟨out, hout⟩ := h.emitted
    rw [hentry] at hout
    obtain ⟨r, -, hr, -⟩ := Target.emitBlocks_cons_eq_ok.mp hout
    obtain ⟨r', hr'⟩ := Target.emitInstrs_sweepAll ⟨r, hr⟩
    rw [hleft]
    exact ⟨_, Target.emitBlocks_cons_eq_ok.mpr ⟨r', [], hr', rfl, rfl⟩⟩

/-- Whether `f'` differs from `f` in its blocks only, and not at
all if `f` is external. -/
def SameHeader (f f' : Function) : Prop :=
  (∃ blocks, f' = { f with blocks }) ∧ (f.isExternal = true → f' = f)

/-- Both passes keep a function fit and change nothing but its blocks. -/
theorem kept_fits (s : Surroundings) (f₀ : Function) :
    Kept fun f => Fits s f ∧ ∃ blocks, f = { f₀ with blocks } where
  fold f h := ⟨h.1.fold, by obtain ⟨-, blocks, rfl⟩ := h; exact ⟨_, rfl⟩⟩
  faultless f h := h.1.isFaulty
  eliminate f h := by
    refine ⟨h.1.eliminate, ?_⟩
    obtain ⟨-, blocks, rfl⟩ := h
    cases blocks with
    | nil => exact ⟨[], rfl⟩
    | cons entry others => exact ⟨_, DeadCode.blocks_run rfl⟩

/-! ## Modules -/

theorem Optimizer.runFunctions_fits {o : Optimizer}
    (ho : ∀ p ∈ o.passes, p.isBuiltIn = true) {fs : List Function}
    (h : ∀ f ∈ fs, f.isExternal = false → Fits s f) :
    ∃ b, o.runFunctions fs = .ok b ∧ b.error = none ∧
      List.Forall₂ (fun f f' => SameHeader f f' ∧
        (f.isExternal = false → Fits s f')) fs b.functions := by
  induction fs with
  | nil => exact ⟨_, rfl, rfl, .nil⟩
  | cons f rest ih =>
    obtain ⟨hf, hrest⟩ := List.forall_mem_cons.mp h
    obtain ⟨b, hb, herror, hall⟩ := ih hrest
    rw [runFunctions]
    cases hext : f.isExternal with
    | true =>
      rw [if_pos rfl, hb]
      exact ⟨_, rfl, herror, .cons
        ⟨⟨⟨f.blocks, rfl⟩, fun _ => rfl⟩, by simp [hext]⟩ hall⟩
    | false =>
      rw [if_neg Bool.false_ne_true]
      obtain ⟨g, hg, hok, hfits, hsame⟩ :=
        runFunction_keeps (kept_fits s f) ho ⟨hf hext, f.blocks, rfl⟩
      simp only [hg, hb, bind, Except.bind, hok, pure, Except.pure]
      exact ⟨_, rfl, herror, .cons ⟨⟨hsame, by simp [hext]⟩, fun _ => hfits⟩ hall⟩

/-- Declarations say nothing about blocks. -/
theorem declare_of_sameHeader {taken : List String} {fs fs' : List Function}
    (h : List.Forall₂ SameHeader fs fs') :
    Target.declare taken fs' = Target.declare taken fs ∧
      fs'.map Target.header = fs.map Target.header := by
  induction h generalizing taken with
  | nil => exact ⟨rfl, rfl⟩
  | @cons f f' fs fs' hf _ ih =>
    obtain ⟨⟨blocks, rfl⟩, -⟩ := hf
    refine ⟨?_, ?_⟩
    · simp only [Target.declare, ih.1]
    · rw [List.map_cons, List.map_cons, (@ih taken).2]
      rfl

theorem type_of_check {op : OpCode} {dest : Temp} {left right : Value}
    (h : (Instr.binary op dest left right).check = .ok none) : left.type = .i32 := by
  obtain ⟨type, htype, h⟩ := bind_eq_ok.mp h
  rw [Value.requireType] at htype
  split at htype
  · cases htype
  · cases htype
    split at h
    · assumption
    · cases h

/-- A function of a module that was put together at the workbench is fit,
if calls spare its words. -/
theorem fits_of_isNumbered {m : Module} {f : Function} (hf : f ∈ m.functions)
    (hnumbered : f.IsNumbered) (hdefined : f.isExternal = false)
    (hchecked : f.check = .ok []) (hnames : (m.functions.map (·.name)).Nodup)
    (hspares : m.SparesWords) (hemit : CanEmit (Target.surroundings m) f) :
    Fits (Target.surroundings m) f where
  defined := hdefined
  checked := hchecked
  emitted := hemit
  words := by
    obtain ⟨-, hchecks, -⟩ := Function.check_eq_nil_iff_instrs.mp hchecked
    intro i hi t ht
    cases i with
    | binary op dest left right =>
      cases ht
      exact (hnumbered.types op _ left right hi).trans (type_of_check (hchecks _ hi))
    | _ => cases ht
  spares := by
    have honce : f.instrs.Pairwise fun i j => ∀ t ∈ i.made?, ∀ t' ∈ j.made?, t ≠ t' :=
      List.pairwise_filterMap.mp hnumbered.nodup
    refine (honce.and (hspares f hf)).imp_of_mem ?_
    rintro i j - hj ⟨honce, hcalls⟩ op t left right rfl hresult
    cases j with
    | call dest callee args =>
      obtain ⟨g, hg, hname, hret⟩ := hcalls t rfl callee rfl hresult
      refine ⟨dest, callee, args, rfl, fun index h hfound => ?_⟩
      rw [← hname] at hfound
      rw [(Target.function?_surroundings hnames hg hfound).2]
      exact hret
    | foreign text sort dest =>
      obtain ⟨locals, step, hstep⟩ := hemit.emitInstr hj
      cases hstep
    | alloca dest type =>
      cases hresult
      exact absurd rfl (honce t rfl t rfl)
    | load dest address =>
      cases hresult
      exact absurd rfl (honce t rfl t rfl)
    | binary op dest left right =>
      cases hresult
      exact absurd rfl (honce t rfl t rfl)
    | store value address => cases hresult
    | ret value => cases hresult

/-- A module stays verified and emitted if each function with code gives way to
one that is fit, and all else of it stays. -/
theorem exists_targetText_of_fits {m : Module} {t : Target.Module}
    (hverify : m.verify = .ok []) (hemit : m.emit = .ok t) {fs : List Function}
    (hall : List.Forall₂ (fun f f' => SameHeader f f' ∧
      (f.isExternal = false → Fits (Target.surroundings m) f')) m.functions fs) :
    Module.verify { m with functions := fs } = .ok [] ∧
      ∃ text, Module.targetText { m with functions := fs } = .ok text := by
  obtain ⟨⟨gs, hdeclare⟩, hcan⟩ := Target.exists_emit_iff.mp ⟨t, hemit⟩
  have hsame : List.Forall₂ SameHeader m.functions fs := hall.imp fun _ _ h => h.1
  have hdeclare' : Target.declare [] fs = .ok gs :=
    (declare_of_sameHeader hsame).1.trans hdeclare
  have hsurroundings : Target.surroundings { m with functions := fs } =
      Target.surroundings m :=
    congrArg (Target.Surroundings.mk _) (@declare_of_sameHeader [] _ _ hsame).2
  -- A function that is left is external and unchanged, or fit.
  have hleft : ∀ f' ∈ fs, f'.check = .ok [] ∧
      (f'.isExternal = false → CanEmit (Target.surroundings m) f') := by
    intro f' hf'
    obtain ⟨f, hf, ⟨⟨blocks, hblocks⟩, hexternal⟩, hfits'⟩ :=
      exists_of_mem_right hall hf'
    cases hext : f.isExternal with
    | true =>
      obtain rfl := hexternal hext
      exact ⟨Module.verify_eq_nil_iff.mp hverify _ hf, fun hdefined =>
        hcan _ hf hdefined⟩
    | false => exact ⟨(hfits' hext).checked, fun _ => (hfits' hext).emitted⟩
  obtain ⟨t', ht'⟩ : ∃ t', Module.emit { m with functions := fs } = .ok t' := by
    refine Target.exists_emit_iff.mpr ⟨⟨gs, hdeclare'⟩, ?_⟩
    rw [hsurroundings]
    exact fun f' hf' => (hleft f' hf').2
  refine ⟨Module.verify_eq_nil_iff.mpr fun f' hf' => (hleft f' hf').1,
    Target.exists_targetText ht' fun f' hf' => ?_⟩
  exact (Function.check_eq_nil_iff_instrs.mp (hleft f' hf').1).2.2

/-- Take a module that was put together at the workbench by any steps but
passes, that verification finds nothing wrong with and that can be emitted, and
in which no call takes the place of the result of an operation in front of it
unless it makes a word again. An optimizer with any built-in passes does not
fail on it. What it leaves is verified and has a target text, and differs from
the module in the blocks of functions with code only. -/
theorem optimize_harmless (name : String) (steps : List Workbench.Step)
    (w : Workbench) (t : Target.Module) (o : Optimizer)
    (hbuilds : ∀ step ∈ steps, step.builds = true)
    (hw : Workbench.carryOut { module := { name } } steps = .ok w)
    (hverify : w.module.verify = .ok []) (hemit : w.module.emit = .ok t)
    (hspares : w.module.SparesWords) (ho : ∀ p ∈ o.passes, p.isBuiltIn = true) :
    ∃ r, o.optimize w.module = .ok r ∧ r.error = none ∧ r.code.verify = .ok [] ∧
      (∃ text, r.code.targetText = .ok text) ∧ r.code.name = w.module.name ∧
      r.code.texts = w.module.texts ∧
      List.Forall₂ SameHeader w.module.functions r.code.functions := by
  generalize hm : w.module = m at *
  have hnumbered : ∀ f ∈ m.functions, f.IsNumbered := by
    have hstart : Workbench.AllFunctions Function.IsNumbered
      { module := { name } } := by simp [Workbench.AllFunctions]
    exact hm ▸ isInvariant_isNumbered.carryOut hbuilds hw hstart
  obtain ⟨⟨gs, hdeclare⟩, hcan⟩ := Target.exists_emit_iff.mp ⟨t, hemit⟩
  obtain ⟨-, hnames, -⟩ := Target.eq_of_declare hdeclare
  have hfits : ∀ f ∈ m.functions, f.isExternal = false →
      Fits (Target.surroundings m) f := fun f hf hdefined =>
    fits_of_isNumbered hf (hnumbered f hf) hdefined
      (Module.verify_eq_nil_iff.mp hverify f hf) hnames hspares (hcan f hf hdefined)
  obtain ⟨b, hb, herror, hall⟩ := Optimizer.runFunctions_fits ho hfits
  obtain ⟨hverify', htext⟩ := exists_targetText_of_fits hverify hemit hall
  refine ⟨_, by rw [Optimizer.optimize, hb]; rfl, ?_, hverify', htext, rfl, rfl,
    hall.imp fun _ _ h => h.1⟩
  rw [herror]
  rfl

/-- Steps that put the sum of two integers into a temporary and the address of
a word into another one, then the results of two calls into both, and store
the one through the other. -/
def overwriting (ret : Ty) : List Workbench.Step :=
  [ .function "g" "g" ret [] true,
    .function "h" "h" (.ptr ret) [] true,
    .function "f" "f" .void [] false,
    .block "f" "entry" "b",
    .instr "b" (.alloca "p" .i32) (some "p"),
    .instr "b" (.binary (.arith .add) (.int 2) (.int 3)) (some "t"),
    .instr "b" (.callAny (.handle "g") [] (.handle "t")) none,
    .instr "b" (.callAny (.handle "h") [] (.handle "p")) none,
    .instr "b" (.store (.handle "t") (.handle "p")) none,
    .instr "b" (.ret .absent) none ]

/-- With calls that make words again, the passes do no harm in any order. -/
theorem optimize_harmless_overwriting :
    ∃ w r, Workbench.carryOut { module := { name := "m" } } (overwriting .i32) =
      .ok w ∧ w.module.SparesWords ∧
      Optimizer.optimize { passes := [.deadCode, .constantFolding], limit := 3 }
        w.module = .ok r ∧
      r.code.verify = .ok [] ∧ ∃ text, r.code.targetText = .ok text := by
  have h : (do
      let w ← Workbench.carryOut { module := { name := "m" } } (overwriting .i32)
      let errors ← w.module.verify
      return (errors, w.module.emit.isOk, decide w.module.SparesWords)) =
          Except.ok ([], true, true) := by
    decide +kernel
  obtain ⟨w, hw, h⟩ := bind_eq_ok.mp h
  obtain ⟨errors, hverify, h⟩ := bind_eq_ok.mp h
  simp only [pure, Except.pure, Except.ok.injEq, Prod.mk.injEq, decide_eq_true_eq] at h
  obtain ⟨rfl, hemit, hspares⟩ := h
  cases ht : w.module.emit with
  | error stop =>
    rw [ht] at hemit
    cases hemit
  | ok t =>
    obtain ⟨r, hr, -, hverify', htext, -⟩ :=
      optimize_harmless "m" (overwriting .i32) w t
      { passes := [.deadCode, .constantFolding], limit := 3 } (by decide) hw hverify
        ht hspares (by decide)
    exact ⟨w, r, hw, hspares, hr, hverify', htext⟩

/-- With a call that makes a byte where there was a word, the default passes
leave a module that cannot be emitted. -/
theorem exists_harm :
    ∃ w t r, (∀ step ∈ overwriting .i8, step.builds = true) ∧
      Workbench.carryOut { module := { name := "m" } } (overwriting .i8) = .ok w ∧
      w.module.verify = .ok [] ∧
      w.module.emit = .ok t ∧ Optimizer.optimize {} w.module = .ok r ∧ r.error = none ∧
      r.code.emit = .error (.fault (.storeType .i32 (.ptr .i8))) := by
  have h : (do
      let w ← Workbench.carryOut { module := { name := "m" } } (overwriting .i8)
      let errors ← w.module.verify
      let r ← Optimizer.optimize {} w.module
      return (errors, w.module.emit.isOk, r.error, r.code.emit)) =
        Except.ok ([], true, none, .error (.fault (.storeType .i32 (.ptr .i8)))) := by
    decide +kernel
  obtain ⟨w, hw, h⟩ := bind_eq_ok.mp h
  obtain ⟨errors, hverify, h⟩ := bind_eq_ok.mp h
  obtain ⟨r, hr, h⟩ := bind_eq_ok.mp h
  simp only [pure, Except.pure, Except.ok.injEq, Prod.mk.injEq] at h
  obtain ⟨rfl, hemit, herror, hfault⟩ := h
  cases ht : w.module.emit with
  | error stop =>
    rw [ht] at hemit
    cases hemit
  | ok t => exact ⟨w, t, r, by decide, hw, hverify, ht, hr, herror, hfault⟩

end Optimize

end Straightline
