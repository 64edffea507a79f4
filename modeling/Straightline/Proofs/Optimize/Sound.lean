import Mathlib
import Straightline.Proofs.Optimize.Passes

/-!
# The optimizer keeps modules sound

Folding takes an instruction away and puts a constant where its result was read;
elimination takes away instructions whose results are not read at all. Either
way, what is read by the code that stays is still made in front of it. So both
passes keep a function sound, and the optimizer neither fails nor is at fault on
a sound module (`Optimizer.optimize_sound`).
-/

namespace Straightline.Optimize

open Code

/-! ## Folding -/

namespace Fold

/-- Only integers are known. -/
def AreWords (known : Known) : Prop := ∀ p ∈ known, p.1.type = .i32

variable {known : Known} (words : AreWords known)
include words

theorem type_replace (v : Value) : (replace known v).type = v.type := by
  cases v with
  | temp t =>
    simp only [replace]
    cases h : known.lookup t with
    | none => rfl
    | some n =>
      obtain ⟨l₁, l₂, rfl, _⟩ := List.lookup_eq_some_iff.mp h
      exact (words (t, n) (by simp)).symm
  | _ => rfl

omit words in
/-- What can be read can be read when known values are put in its place, even if
they are no longer made. -/
theorem isReady_replace {texts : Nat} {past past' : List Temp}
    (hpast : ∀ t ∈ past, known.lookup t = none → t ∈ past') {v : Value}
    (h : v.IsReady texts past) : (replace known v).IsReady texts past' := by
  cases v with
  | temp t =>
    simp only [replace]
    cases hlookup : known.lookup t with
    | none => exact hpast t h hlookup
    | some n => trivial
  | _ => exact h

theorem isSound_substitute {Γ : Context} {past past' : List Temp}
    (hpast : ∀ t ∈ past, known.lookup t = none → t ∈ past') {i : Instr}
    (h : i.IsSound Γ past) : (substitute known i).IsSound Γ past' := by
  have ready {v : Value} (hv : v.IsReady Γ.texts past) := isReady_replace hpast hv
  cases i with
  | alloca dest type => exact h
  | load dest address =>
    obtain ⟨haddress, htype, hdest⟩ := h
    exact ⟨ready haddress, (type_replace words address).trans htype, hdest⟩
  | store value address =>
    obtain ⟨hvalue, haddress, htype⟩ := h
    refine ⟨ready hvalue, ready haddress, ?_⟩
    rw [type_replace words, type_replace words, htype]
  | binary op dest left right =>
    obtain ⟨hop, hleft, hright, hl, hr, hdest⟩ := h
    exact ⟨hop, ready hleft, ready hright, (type_replace words left).trans hl,
      (type_replace words right).trans hr, hdest⟩
  | call dest callee args =>
    obtain ⟨hdest, hcallee, hargs⟩ := h
    refine ⟨hdest, ?_, ?_⟩
    · have htypes : (args.map (replace known)).map Value.type =
          args.map Value.type := by
        rw [List.map_map]
        exact List.map_congr_left fun a _ => type_replace words a
      rw [htypes]
      exact hcallee
    · intro a ha
      obtain ⟨b, hb, rfl⟩ := List.mem_map.mp ha
      exact ready (hargs b hb)
  | ret value =>
    intro v hv
    obtain ⟨u, hu, rfl⟩ := Option.map_eq_some_iff.mp hv
    exact ready (h u hu)
  | foreign text sort dest => exact h

/-- Folded code is sound behind code that no longer makes what is known. -/
theorem sound_instrs {Γ : Context} {past past' : List Temp} {is : List Instr}
    (h : Sound Γ past is) (hpast : ∀ t ∈ past, known.lookup t = none → t ∈ past')
    (hsub : past' ⊆ past) : Sound Γ past' (instrs known is).instrs := by
  -- The folded code runs behind fewer temporaries; what is missing is known.
  induction is generalizing known past past' with
  | nil => trivial
  | cons i rest ih =>
    obtain ⟨hi, hnew, hrest⟩ := h
    have hi' := isSound_substitute words hpast hi
    cases heval : evaluate? (substitute known i) with
    | some p =>
      rw [instrs_cons_some heval]
      obtain ⟨op, left, right, a, b, hbinary, _⟩ := evaluate?_eq_some heval
      have hdest : p.1.type = .i32 := by
        rw [hbinary] at hi'
        exact hi'.2.2.2.2.2
      have htemp : i.temp? = some p.1 := temp?_of_evaluate? heval
      refine ih ?_ hrest ?_ ?_
      · intro q hq
        rcases List.mem_cons.mp hq with rfl | hq
        · exact hdest
        · exact words q hq
      · -- The result that was folded is known, so it need not be made.
        intro t ht hlookup
        rw [htemp, Option.toList_some, List.mem_append, List.mem_singleton] at ht
        rw [List.lookup_cons] at hlookup
        rcases ht with ht | rfl
        · cases heq : t == p.1 with
          | true => simp [heq] at hlookup
          | false => exact hpast t ht (by simpa [heq] using hlookup)
        · simp at hlookup
      · exact fun t ht => List.mem_append_left _ (hsub ht)
    | none =>
      rw [instrs_cons_none heval]
      refine ⟨hi', ?_, ih words hrest ?_ ?_⟩
      · intro t ht hmem
        rw [temp?_substitute] at ht
        exact hnew t ht (hsub hmem)
      · intro t ht hlookup
        rw [temp?_substitute]
        rcases List.mem_append.mp ht with ht | ht
        · exact List.mem_append_left _ (hpast t ht hlookup)
        · exact List.mem_append_right _ ht
      · intro t ht
        rw [temp?_substitute] at ht
        rcases List.mem_append.mp ht with ht | ht
        · exact List.mem_append_left _ (hsub ht)
        · exact List.mem_append_right _ ht

omit words in
theorem isSound_run {Γ : Context} {f : Function} (h : f.IsSound Γ) :
    (run f).1.IsSound Γ where
  void := h.void
  params := h.params
  blocks := by
    show (run f).1.blocks = [] ↔ f.isExternal = true
    rw [← h.blocks]
    cases hblocks : f.blocks with
    | nil => simp [run, blocks, hblocks]
    | cons b bs => simp [run, blocks, hblocks]
  code := by
    rw [instrs_run]
    exact sound_instrs (by simp [AreWords]) h.code (by simp) (List.Subset.refl _)
  closed := by
    intro b' hb'
    obtain ⟨b, hb, known', rfl⟩ := mem_blocks hb'
    exact closed_instrs known' (h.closed b hb)

omit words in
theorem isOneSided_of_isSound {Γ : Context} {past : List Temp} {i : Instr}
    (h : i.IsSound Γ past) : isOneSided i = false := by
  cases i with
  | binary op dest left right =>
    obtain ⟨_, hleft, hright, _⟩ := h
    rw [isOneSided, Value.isAbsent_of_requireType hleft.requireType,
      Value.isAbsent_of_requireType hright.requireType, Bool.and_false]
    rfl
  | _ => rfl

end Fold

/-! ## Elimination -/

namespace DeadCode

/-- Code stays sound when instructions go whose results are not among
`values`, if all it reads is. -/
theorem sound_filter {Γ : Context} {values : List Value} {past past' : List Temp}
    {is : List Instr} (h : Sound Γ past is)
    (hread : ∀ i ∈ is, ∀ t, .temp t ∈ i.operands → .temp t ∈ values)
    (hpast : ∀ t ∈ past, .temp t ∈ values → t ∈ past') (hsub : past' ⊆ past) :
    Sound Γ past' (is.filter (stays values)) := by
  induction is generalizing past past' with
  | nil => trivial
  | cons i rest ih =>
    obtain ⟨hi, hnew, hrest⟩ := h
    rw [List.forall_mem_cons] at hread
    by_cases hstays : stays values i = true
    · -- All that the instruction reads is among the values, so
      -- none of it was taken away.
      rw [List.filter_cons_of_pos hstays]
      refine ⟨hi.mono rfl (Nat.le_refl _) fun t ht hmem =>
        hpast t hmem (hread.1 t ht), ?_, ih hrest hread.2 ?_ ?_⟩
      · exact fun t ht hmem => hnew t ht (hsub hmem)
      · intro t ht hvalue
        rcases List.mem_append.mp ht with ht | ht
        · exact List.mem_append_left _ (hpast t ht hvalue)
        · exact List.mem_append_right _ ht
      · intro t ht
        rcases List.mem_append.mp ht with ht | ht
        · exact List.mem_append_left _ (hsub ht)
        · exact List.mem_append_right _ ht
    · rw [List.filter_cons_of_neg hstays]
      refine ih hrest hread.2 ?_ fun t ht => List.mem_append_left _ (hsub ht)
      intro t ht hvalue
      rcases List.mem_append.mp ht with ht | ht
      · exact hpast t ht hvalue
      · -- The instruction would have stayed, had its result been read.
        obtain ⟨v, hv, hvt⟩ := Option.bind_eq_some_iff.mp (Option.mem_toList.mp ht)
        cases v with
        | temp u =>
          cases hvt
          exact absurd (by simp [stays, hv, hvalue]) hstays
        | _ => cases hvt

theorem sound_sweep {Γ : Context} {is : List Instr} (h : Sound Γ [] is) :
    Sound Γ [] (sweep is) :=
  sound_filter h (fun _ hi _ ht => temp_mem_used hi ht) (by simp) (List.Subset.refl _)

theorem isSound_run {Γ : Context} {f : Function} (h : f.IsSound Γ) :
    (run f).function.IsSound Γ := by
  cases hblocks : f.blocks with
  | nil =>
    rw [run_of_nil hblocks]
    exact h
  | cons entry others =>
    have hclosed : Closed entry.instrs :=
      h.closed entry (by rw [hblocks]; exact List.mem_cons_self)
    have hcode : Sound Γ [] entry.instrs := by
      have := h.code
      rw [Function.instrs, hblocks, List.flatMap_cons, sound_append] at this
      exact this.1
    obtain ⟨hcode', hclosed'⟩ :=
      sweepAll_keeps (P := fun is => Sound Γ [] is ∧ Closed is)
        (fun is his => ⟨sound_sweep his.1, closed_sweep his.2⟩) ⟨hcode, hclosed⟩
    rw [blocks_run hblocks, truncate_eq_self (closed_iff.mp hclosed).1]
    refine ⟨h.void, h.params, ?_, ?_, ?_⟩
    · have hinternal : ¬f.isExternal = true := by
        rw [← h.blocks, hblocks]
        simp
      simpa using hinternal
    · simpa [Function.instrs] using hcode'
    · intro b hb
      rw [List.mem_singleton.mp hb]
      exact hclosed'

end DeadCode

/-! ## Modules -/

/-- Both passes keep a function sound and change nothing but its code. -/
theorem kept_isSound (Γ : Context) (header : Function) :
    Kept fun f => f.IsSound Γ ∧ f.header = header where
  fold f h := ⟨Fold.isSound_run h.1, h.2⟩
  faultless f h := by
    refine Fold.isFaulty_eq_false fun i hi => ?_
    obtain ⟨past, hsound⟩ := (Fold.isSound_run h.1).code.of_mem hi
    exact Fold.isOneSided_of_isSound hsound
  eliminate f h := by
    refine ⟨DeadCode.isSound_run h.1, ?_⟩
    cases hblocks : f.blocks with
    | nil =>
      rw [DeadCode.run_of_nil hblocks]
      exact h.2
    | cons entry others =>
      rw [DeadCode.blocks_run hblocks]
      exact h.2

namespace Optimizer

variable {o : Optimizer} (ho : o.passes = [.constantFolding, .deadCode])
include ho

theorem runFunctions_sound {Γ : Context} {fs : List Function}
    (h : ∀ f ∈ fs, f.IsSound Γ) :
    ∃ b, o.runFunctions fs = .ok b ∧ b.error = none ∧
      b.functions.map Function.header = fs.map Function.header ∧
      ∀ f ∈ b.functions, f.IsSound Γ := by
  induction fs with
  | nil => exact ⟨_, rfl, rfl, rfl, by simp⟩
  | cons f rest ih =>
    rw [List.forall_mem_cons] at h
    obtain ⟨b, hb, herror, hheaders, hall⟩ := ih h.2
    rw [runFunctions]
    by_cases hext : f.isExternal = true
    · rw [if_pos hext, hb]
      refine ⟨_, rfl, herror, ?_, List.forall_mem_cons.mpr ⟨h.1, hall⟩⟩
      rw [List.map_cons, List.map_cons, hheaders]
    · rw [if_neg hext]
      obtain ⟨g, hg, hok, hsound, hheader⟩ :=
        runFunction_keeps (kept_isSound Γ f.header) (isBuiltIn_of_mem ho) ⟨h.1, rfl⟩
      simp only [hg, hb, bind, Except.bind, hok, pure, Except.pure]
      refine ⟨_, rfl, herror, ?_, List.forall_mem_cons.mpr ⟨hsound, hall⟩⟩
      rw [List.map_cons, List.map_cons, hheader, hheaders]

/-- An optimizer with these passes does not fail on a sound module, and
what comes out is sound. -/
theorem optimize_sound {m : Module} (h : m.IsSound) :
    ∃ r, o.optimize m = .ok r ∧ r.error = none ∧ r.code.IsSound := by
  obtain ⟨b, hb, herror, hheaders, hall⟩ := runFunctions_sound ho h.functions
  refine ⟨{
    optimizer := { o with stats := o.stats.add b.tally }
    code := { m with functions := b.functions }
    log := b.log
    error := b.error.map FunctionError.text }, ?_, ?_, ?_⟩
  · rw [optimize, hb]
    rfl
  · rw [herror]
    rfl
  · have hheaders' : headers { m with functions := b.functions } = headers m := hheaders
    have hcontext : Module.context { m with functions := b.functions } = m.context :=
      congrArg (Context.mk · m.texts.length) (callees_of_headers hheaders')
    refine ⟨?_, ?_⟩
    · rw [names_of_headers hheaders']
      exact h.names
    · rw [hcontext]
      exact hall

end Optimizer

end Straightline.Optimize
