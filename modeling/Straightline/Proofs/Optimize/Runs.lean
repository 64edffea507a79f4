import Mathlib
import Straightline.Proofs.Execution
import Straightline.Proofs.Optimize.Passes

/-!
# The passes keep what code does

Optimized code runs in step with the code it comes from, in states that agree
on what still matters. Behind folded code these are all values but the known
ones, whose constants stand wherever they were read. Behind a sweep they are
the values that some instruction reads. A sweep may take an operation away, and
with it a trap, so it keeps the runs that do not trap; where no operation is
taken away it keeps all runs.
-/

namespace Straightline.Optimize

open Code Execution

/-! ## Steps in step -/

/-- An instruction with its operands changed. A callee stays as it is. -/
def mapOperands (ρ : Value → Value) : Instr → Instr
  | .load dest address => .load dest (ρ address)
  | .store value address => .store (ρ value) (ρ address)
  | .binary op dest left right => .binary op dest (ρ left) (ρ right)
  | .call dest callee args => .call dest callee (args.map ρ)
  | .ret value => .ret (value.map ρ)
  | i => i

/-- What an instruction calls. -/
def callee? : Instr → Option Value
  | .call _ callee _ => some callee
  | _ => none

theorem mem_operands_of_callee? {i : Instr} {v : Value} (h : callee? i = some v) :
    v ∈ i.operands := by
  cases i with
  | call dest callee args =>
    cases h
    exact List.mem_cons_self
  | _ => cases h

/-- Two steps that come to the same. -/
def StepsAgree (V : Value → Prop) :
    Except (Outcome Temp) State → Except (Outcome Temp) State → Prop
  | .ok s, .ok s' => Agree V s s'
  | .error o, .error o' => o' = o
  | _, _ => False

section
variable {w : World} {V : Value → Prop} {s s' : State}

theorem mapOperands_id (i : Instr) : mapOperands id i = i := by
  cases i <;> simp [mapOperands]

/-- An instruction does the same in two states if its operands hold the same. -/
theorem step_mapOperands (h : Agree V s s') {ρ : Value → Value} {i : Instr}
    (hread : ∀ v ∈ i.operands, s'.read (ρ v) = s.read v)
    (hcallee : ∀ v, callee? i = some v → s'.read v = s.read v) :
    StepsAgree V (step w s i) (step w s' (mapOperands ρ i)) := by
  cases i with
  | alloca dest type => exact h.write _ _
  | load dest address =>
    have haddress := hread address (by simp [Instr.operands])
    simp only [step, mapOperands, haddress, h.memory]
    exact h.write _ _
  | store value address =>
    have haddress := hread address (by simp [Instr.operands])
    have hvalue := hread value (by simp [Instr.operands])
    simp only [step, mapOperands, haddress, hvalue]
    exact ⟨h.values, by simp only [State.store,
      h.memory], by simp only [State.store, h.events]⟩
  | binary op dest left right =>
    have hleft := hread left (by simp [Instr.operands])
    have hright := hread right (by simp [Instr.operands])
    simp only [step, mapOperands, hleft, hright]
    cases w.compute op (s.read left).word (s.read right).word with
    | none => rfl
    | some n => exact h.write _ _
  | call dest callee args =>
    have htarget := hcallee callee rfl
    have hargs : (args.map ρ).map s'.read = args.map s.read := by
      rw [List.map_map]
      exact List.map_congr_left fun v hv => hread v (by simp [Instr.operands, hv])
    simp only [step, mapOperands, htarget, hargs]
    split
    · simp only [StepsAgree, State.call, htarget, h.memory, h.events]
      refine Agree.writeOption ?_ dest _
      exact ⟨h.values, rfl, rfl⟩
    · rfl
  | ret value =>
    cases value with
    | none => rfl
    | some v =>
      have hvalue := hread v (by simp [Instr.operands])
      simp only [step, mapOperands, Option.map_some, hvalue]
      rfl
  | foreign text sort dest => exact h.writeOption _ _

/-- Runs agree if the first steps do and the runs behind them. -/
theorem run_cons_eq {i i' : Instr} {rest rest' : List Instr} (h : Agree V s s')
    (hstep : StepsAgree V (step w s i) (step w s' i'))
    (hrest : ∀ s₁ s₁', step w s i = .ok s₁ → Agree V s₁ s₁' →
      run w s₁' rest' = run w s₁ rest) :
    run w s' (i' :: rest') = run w s (i :: rest) := by
  rw [run, run]
  cases hx : step w s i with
  | ok s₁ =>
    cases hx' : step w s' i' with
    | ok s₁' =>
      rw [hx, hx'] at hstep
      exact hrest s₁ s₁' hx hstep
    | error o' =>
      rw [hx, hx'] at hstep
      exact hstep.elim
  | error o =>
    cases hx' : step w s' i' with
    | ok s₁' =>
      rw [hx, hx'] at hstep
      exact hstep.elim
    | error o' =>
      rw [hx, hx'] at hstep
      have hsame : o' = o := hstep
      simp only [hsame, h.events]

/-- A step changes no temporary but the one that its instruction makes. -/
theorem step_values {i : Instr} {s₁ : State} (h : step w s i = .ok s₁) {t : Temp}
    (ht : i.temp? ≠ some t) : s₁.values (.temp t) = s.values (.temp t) := by
  have hwrite (s : State) (v : Value) (d : Datum) (hv : v ≠ .temp t) :
      (s.write v d).values (.temp t) = s.values (.temp t) := by
    unfold State.write
    split
    · rfl
    · exact Function.update_of_ne hv.symm _ _
  have hwriteOption (s : State) (v : Option Value) (d : Datum)
      (hv : v ≠ some (.temp t)) :
      (s.writeOption v d).values (.temp t) = s.values (.temp t) := by
    cases v with
    | none => rfl
    | some v => exact hwrite s v d fun heq => hv (by rw [heq])
  have hresult : i.result ≠ some (.temp t) := by
    intro hresult
    exact ht (by simp [Instr.temp?, hresult, Value.temp?])
  cases i with
  | alloca dest type =>
    cases h
    exact hwrite _ _ _ fun heq => hresult (congrArg some heq)
  | load dest address =>
    cases h
    exact hwrite _ _ _ fun heq => hresult (congrArg some heq)
  | store value address =>
    cases h
    rfl
  | binary op dest left right =>
    simp only [step] at h
    split at h
    · cases h
      exact hwrite _ _ _ fun heq => hresult (congrArg some heq)
    · cases h
  | call dest callee args =>
    simp only [step] at h
    split at h
    · cases h
      exact hwriteOption _ _ _ hresult
    · cases h
  | ret value => cases h
  | foreign text sort dest =>
    cases h
    exact hwriteOption _ _ _ hresult

end

/-! ## Folding -/

namespace Fold

/-- The values that folded code still has to make. -/
def IsUnknown (known : Known) (v : Value) : Prop :=
  ∀ t, v = .temp t → known.lookup t = none

/-- What is known is so. -/
def IsTrue (known : Known) (s : State) : Prop :=
  ∀ t n, known.lookup t = some n → s.values (.temp t) = .int n

section
variable {w : World} {known : Known} {s s' : State}

theorem substitute_eq (known : Known) (i : Instr) :
    substitute known i = mapOperands (replace known) i := by
  cases i <;> rfl

theorem read_replace (hagree : Agree (IsUnknown known) s s')
    (htrue : IsTrue known s) (v : Value) :
    s'.read (replace known v) = s.read v := by
  by_cases hv : IsUnknown known v
  · have hsame : replace known v = v := by
      cases v with
      | temp t => simp only [replace, hv t rfl]
      | _ => rfl
    rw [hsame]
    exact hagree.read hv
  · -- The value is known, and its constant stands in its place.
    simp only [IsUnknown, not_forall] at hv
    obtain ⟨t, rfl, hlookup⟩ := hv
    obtain ⟨n, hn⟩ := Option.ne_none_iff_exists'.mp hlookup
    simp only [replace, hn, State.read_int, State.read_temp]
    exact (htrue t n hn).symm

/-- An operation that is folded would have computed its constant. -/
theorem step_of_evaluate? (hagree : Agree (IsUnknown known) s s')
    (htrue : IsTrue known s) {i : Instr} {t : Temp} {n : Int32}
    (h : evaluate? (substitute known i) = some (t, n)) :
    step w s i = .ok (s.write (.temp t) (.int n)) := by
  obtain ⟨op, left', right', a, b, hi, ha, hb, hn⟩ := evaluate?_eq_some h
  cases i with
  | binary op' dest left right =>
    rw [substitute] at hi
    injection hi with hop hdest hleft hright
    subst hop hdest
    have hconst {v : Value} {m : Int32} (hv : v.int? = some m) :
        s'.read v = .int m := by
      cases v with
      | func f => cases hv
      | _ => simp only [State.read, hv]
    have hl : s.read left = .int a := by
      rw [← read_replace hagree htrue left, hleft]
      exact hconst ha
    have hr : s.read right = .int b := by
      rw [← read_replace hagree htrue right, hright]
      exact hconst hb
    have hcompute : w.compute op' a b = some n := by
      cases op' with
      | arith op => exact (op.eval?_eq_result? a b).symm.trans hn
      | unknown code => cases hn
    simp only [step, hl, hr, Datum.word, hcompute]
  | _ => cases hi

/-- What is known stays so behind an instruction that makes something else. -/
theorem IsTrue.step (htrue : IsTrue known s) {i : Instr} {s₁ : State}
    (hstep : step w s i = .ok s₁)
    (hnew : ∀ t, i.temp? = some t → known.lookup t = none) : IsTrue known s₁ := by
  intro t n hn
  rw [step_values hstep, htrue t n hn]
  intro htemp
  rw [hnew t htemp] at hn
  cases hn

/-- A known value is an integer, so it cannot be called. -/
theorem run_call_known (htrue : IsTrue known s) {t : Temp} {n : Int32}
    (hn : known.lookup t = some n) {i : Instr} (hi : callee? i = some (.temp t))
    {rest : List Instr} : (Execution.run w s (i :: rest)).outcome = .stuck := by
  cases i with
  | call dest callee args =>
    cases hi
    have hread : s.read (.temp t) = .int n := htrue t n hn
    simp [Execution.run, Execution.step, hread, Datum.isCallable]
  | _ => cases hi

theorem lookup_cons_of_ne {t u : Temp} (h : u ≠ t) (n : Int32) :
    ((t, n) :: known).lookup u = known.lookup u := by
  rw [List.lookup_cons, beq_false_of_ne h]

/-- Nothing is known of what instructions make, and they make it once. -/
structure IsFresh (known : Known) (is : List Instr) : Prop where
  new : ∀ t ∈ made is, known.lookup t = none
  once : (made is).Nodup

section
variable {i : Instr} {rest : List Instr}

theorem IsFresh.head (h : IsFresh known (i :: rest)) {t : Temp}
    (ht : i.temp? = some t) : known.lookup t = none ∧ t ∉ made rest := by
  obtain ⟨hnew, honce⟩ := h
  rw [made_cons, ht] at hnew honce
  exact ⟨hnew t (by simp), (List.nodup_cons.mp honce).1⟩

theorem IsFresh.tail (h : IsFresh known (i :: rest)) : IsFresh known rest := by
  obtain ⟨hnew, honce⟩ := h
  rw [made_cons] at hnew honce
  exact ⟨fun t ht => hnew t (List.mem_append_right _ ht), honce.of_append_right⟩

/-- What is folded is not made again. -/
theorem IsFresh.folded (h : IsFresh known (i :: rest)) {t : Temp} {n : Int32}
    (hi : evaluate? (substitute known i) = some (t, n)) :
    IsFresh ((t, n) :: known) rest := by
  refine ⟨fun u hu => ?_, h.tail.once⟩
  have hne : u ≠ t := by
    rintro rfl
    exact (h.head (temp?_of_evaluate? hi)).2 hu
  rw [lookup_cons_of_ne hne]
  exact h.tail.new u hu

end

/-- Folded code runs in step, unless the run gets stuck. -/
theorem run_instrs {is : List Instr} (hagree : Agree (IsUnknown known) s s')
    (htrue : IsTrue known s) (hfresh : IsFresh known is)
    (hstuck : (Execution.run w s is).outcome ≠ .stuck) :
    Execution.run w s' (instrs known is).instrs = Execution.run w s is := by
  -- On the code, in two states: the folded run lacks exactly what is known.
  induction is generalizing known s s' with
  | nil => exact absurd rfl hstuck
  | cons i rest ih =>
    cases heval : evaluate? (substitute known i) with
    | some p =>
      obtain ⟨t, n⟩ := p
      have hstep := step_of_evaluate? (w := w) hagree htrue heval
      rw [instrs_cons_some heval]
      rw [Execution.run, hstep] at hstuck ⊢
      refine ih ?_ ?_ (hfresh.folded heval) hstuck
      · -- The result need not be made, since nobody reads it any more.
        refine ⟨fun v hv => ?_, hagree.memory, hagree.events⟩
        have hne : v ≠ .temp t := by
          rintro rfl
          simpa using hv t rfl
        rw [State.write_temp]
        refine (hagree.values v fun u hu => ?_).trans
          (Function.update_of_ne hne _ _).symm
        rw [← lookup_cons_of_ne (fun heq => hne (hu.trans (congrArg _ heq))) n]
        exact hv u hu
      · intro u m hm
        by_cases hu : u = t
        · subst hu
          simp only [List.lookup_cons_self, Option.some.injEq] at hm
          simp [State.write_temp, hm]
        · rw [lookup_cons_of_ne hu] at hm
          simp [State.write_temp, hu, htrue u m hm]
    | none =>
      rw [instrs_cons_none heval, substitute_eq]
      refine run_cons_eq hagree
        (step_mapOperands hagree (fun v _ => read_replace hagree htrue v) ?_) ?_
      · -- A callee is not replaced, so it must not be known.
        intro v hv
        refine hagree.read fun t ht => ?_
        by_contra hlookup
        obtain ⟨n, hn⟩ := Option.ne_none_iff_exists'.mp hlookup
        exact hstuck (run_call_known htrue hn (ht ▸ hv))
      · intro s₁ s₁' hstep hagree₁
        rw [Execution.run, hstep] at hstuck
        exact ih hagree₁ (htrue.step hstep fun t ht => (hfresh.head ht).1)
          hfresh.tail hstuck

/-- A run of a folded function, unless it gets stuck. -/
theorem run_run {f : Function} (hnodup : (made f.instrs).Nodup)
    (hstuck : (f.run w).outcome ≠ .stuck) : (run f).1.run w = f.run w := by
  cases hentry : f.entry? with
  | none => exact absurd (by rw [Function.run, hentry]) hstuck
  | some entry =>
    rw [Function.run_of_entry hentry] at hstuck ⊢
    rw [Function.run_of_entry (entry?_run hentry)]
    refine run_instrs (.refl _ _) (fun t n hn => ?_)
      ⟨fun _ _ => rfl, nodup_made_entry hentry hnodup⟩ hstuck
    cases hn

end

end Fold

/-! ## Elimination -/

namespace DeadCode

/-- Nothing behind a return is run. -/
theorem run_truncate (w : World) (s : State) (is : List Instr) :
    Execution.run w s (truncate is) = Execution.run w s is := by
  induction is generalizing s with
  | nil => rfl
  | cons i rest ih =>
    rw [truncate]
    split
    · next hterm =>
      cases i with
      | ret value => rfl
      | _ => cases hterm
    · rw [Execution.run, Execution.run]
      cases step w s i with
      | ok s₁ => exact ih s₁
      | error o => rfl

/-- Whether an instruction is an operation, the only kind that traps. -/
def isOperation : Instr → Bool
  | .binary .. => true
  | _ => false

/-- The values that matter when `values` are the ones that are read. Those that
nothing is ever written to need not be read to be left alone. -/
def Matters (values : List Value) (v : Value) : Prop :=
  (v.isAbsent || v.isConstant) = true ∨ v ∈ values

theorem matters_used {is : List Instr} {i : Instr} (hi : i ∈ is) {v : Value}
    (hv : v ∈ i.operands) : Matters (used is) v := by
  by_cases hfixed : (v.isAbsent || v.isConstant) = true
  · exact .inl hfixed
  · refine .inr (List.mem_filter.mpr ⟨List.mem_flatMap.mpr ⟨i, hi, hv⟩, ?_⟩)
    simpa using hfixed

section
variable {w : World} {values : List Value} {s s' : State}

/-- An instruction that goes away changes nothing that matters; it ends
a run only if it traps. -/
theorem step_of_not_stays {i : Instr} (h : stays values i = false) :
    (∃ s₁, step w s i = .ok s₁ ∧ Agree (Matters values) s s₁) ∨
      isOperation i = true ∧ ∃ t, step w s i = .error (.trapped t) := by
  rw [stays, Bool.or_eq_false_iff] at h
  obtain ⟨hcritical, hresult⟩ := h
  have hwrite (v : Value) (hv : i.result = some v) (d : Datum) :
      Agree (Matters values) s (s.write v d) := by
    refine .write_of_not (fun hmatters => hmatters.resolve_right fun hmem => ?_) s d
    simp [hv, hmem] at hresult
  cases i with
  | alloca dest type => exact .inl ⟨_, rfl, hwrite _ rfl _⟩
  | load dest address => exact .inl ⟨_, rfl, hwrite _ rfl _⟩
  | binary op dest left right =>
    simp only [step]
    cases w.compute op (s.read left).word (s.read right).word with
    | none => exact .inr ⟨rfl, dest, rfl⟩
    | some n => exact .inl ⟨_, rfl, hwrite _ rfl _⟩
  | foreign text sort dest =>
    cases dest with
    | none => exact .inl ⟨s, rfl, .refl _ s⟩
    | some v => exact .inl ⟨_, rfl, hwrite v rfl _⟩
  | store value address => cases hcritical
  | call dest callee args => cases hcritical
  | ret value => cases hcritical

/-- Code without the instructions that go away runs in step, if no
trap goes with them. -/
theorem run_filter {is : List Instr} (hagree : Agree (Matters values) s s')
    (hread : ∀ i ∈ is, ∀ v ∈ i.operands, Matters values v)
    (htraps : (∀ t, (Execution.run w s is).outcome ≠ .trapped t) ∨
      ∀ i ∈ is, isOperation i = true → stays values i = true) :
    Execution.run w s' (is.filter (stays values)) = Execution.run w s is := by
  induction is generalizing s s' with
  | nil => simp only [List.filter_nil, Execution.run, hagree.events]
  | cons i rest ih =>
    rw [List.forall_mem_cons] at hread
    -- What is assumed about traps is handed on to the rest of the code.
    have hrest {s₁ : State} (hstep : step w s i = .ok s₁) :
        (∀ t, (Execution.run w s₁ rest).outcome ≠ .trapped t) ∨
          ∀ i ∈ rest, isOperation i = true → stays values i = true := by
      rcases htraps with htraps | hstay
      · rw [Execution.run, hstep] at htraps
        exact .inl htraps
      · exact .inr fun j hj => hstay j (List.mem_cons_of_mem _ hj)
    cases hi : stays values i with
    | true =>
      have hreads : ∀ v ∈ i.operands, s'.read (id v) = s.read v :=
        fun v hv => hagree.read (hread.1 v hv)
      have hstep := step_mapOperands (w := w) hagree hreads fun v hv =>
        hreads v (mem_operands_of_callee? hv)
      rw [mapOperands_id] at hstep
      rw [List.filter_cons_of_pos hi]
      exact run_cons_eq hagree hstep fun s₁ s₁' hs₁ hagree₁ =>
        ih hagree₁ hread.2 (hrest hs₁)
    | false =>
      rw [List.filter_cons_of_neg (by simp [hi])]
      rcases step_of_not_stays (w := w) (s := s) hi
        with ⟨s₁, hstep, hagree₁⟩ | ⟨hop, t, hstep⟩
      · rw [Execution.run, hstep]
        exact ih (hagree₁.symm.trans hagree) hread.2 (hrest hstep)
      · rcases htraps with htraps | hstay
        · exact absurd (by rw [Execution.run, hstep]) (htraps t)
        · exact absurd ((hstay i List.mem_cons_self hop).symm.trans hi) (by simp)

theorem run_sweep {is : List Instr}
    (htraps : (∀ t, (Execution.run w s is).outcome ≠ .trapped t) ∨ ∀ i ∈ is,
      isOperation i = true → stays (used is) i = true) :
    Execution.run w s (sweep is) = Execution.run w s is :=
  run_filter (.refl _ s) (fun _ hi _ hv => matters_used hi hv) htraps

end

section
variable {f : Function}

/-- A run of a function without its dead code, if it does not trap. -/
theorem run_run {w : World} (htraps : ∀ t, (f.run w).outcome ≠ .trapped t) :
    (run f).function.run w = f.run w := by
  cases hblocks : f.blocks with
  | nil => rw [run_of_nil hblocks]
  | cons entry others =>
    have hentry : f.entry? = some entry := by rw [Function.entry?, hblocks]; rfl
    rw [Function.run_of_entry hentry, ← run_truncate] at htraps ⊢
    rw [blocks_run hblocks, Function.run_of_entry rfl]
    exact sweepAll_keeps
      (P := fun is => Execution.run w w.start is = Execution.run w w.start
        (truncate entry.instrs))
      (fun is his => (run_sweep (.inl (his ▸ htraps))).trans his) rfl

theorem instrs_run_sublist (f : Function) :
    (run f).function.instrs.Sublist f.instrs := by
  cases hblocks : f.blocks with
  | nil => rw [run_of_nil hblocks]
  | cons entry others =>
    rw [blocks_run hblocks]
    simp only [Function.instrs, hblocks, List.flatMap_cons, List.flatMap_nil,
      List.append_nil]
    have hswept : (sweepAll (truncate entry.instrs)).1.Sublist
        (truncate entry.instrs) :=
      sweepAll_keeps (P := fun is => is.Sublist (truncate entry.instrs))
        (fun is his => List.filter_sublist.trans his) (.refl _)
    exact (hswept.trans (truncate_isPrefix _).sublist).trans
      (List.sublist_append_left _ _)

end

end DeadCode

end Straightline.Optimize
