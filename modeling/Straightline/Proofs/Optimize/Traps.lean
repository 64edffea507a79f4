import Mathlib
import Straightline.Proofs.Lowering.Sound
import Straightline.Proofs.Optimize.Runs
import Straightline.Proofs.Optimize.Sound
import Straightline.Proofs.Sequences

/-!
# Which runs the optimizer keeps

The optimizer keeps every run that returns. It may take a trap away, but
only together with an operation whose result nobody reads. In code
compiled without errors there is none: the result of every operation is
read by the operation around it, or by the store, call or return that its
expression was evaluated for. Both passes leave it so, which is why
compiled functions keep all their runs.
-/

namespace Straightline.Optimize

open Code Execution DeadCode

/-! ## Operations that are read -/

/-- Whether an instruction stays as long as all operations are read. -/
def consumes (i : Instr) : Bool := isCritical i || isOperation i

/-- The result of every operation is read by an instruction that stays,
if it is not one of `vs`. -/
def ReadBut (vs : List Value) (is : List Instr) : Prop :=
  ∀ t ∈ operations is, .temp t ∈ vs ∨ ∃ i ∈ is, consumes i = true ∧ .temp t ∈ i.operands

section
variable {vs us : List Value} {is js : List Instr}

theorem mem_operations {t : Temp} :
    t ∈ operations is ↔ ∃ i ∈ is, isOperation i = true ∧ i.temp? = some t := by
  unfold operations
  rw [List.mem_filterMap]
  refine exists_congr fun i => and_congr_right fun _ => ?_
  cases i with
  | binary op dest left right =>
    simp [isOperation, Instr.temp?, Instr.result, Value.temp?]
  | _ => simp [isOperation]

theorem readBut_of_operations (h : operations is = []) : ReadBut vs is := by
  intro t ht
  rw [h] at ht
  cases ht

theorem ReadBut.append (his : ReadBut vs is) (hjs : ReadBut us js) :
    ReadBut (vs ++ us) (is ++ js) := by
  intro t ht
  rw [operations_append, List.mem_append] at ht
  rcases ht with ht | ht
  · rcases his t ht with hv | ⟨i, hi, hreads⟩
    · exact .inl (List.mem_append_left _ hv)
    · exact .inr ⟨i, List.mem_append_left _ hi, hreads⟩
  · rcases hjs t ht with hv | ⟨i, hi, hreads⟩
    · exact .inl (List.mem_append_right _ hv)
    · exact .inr ⟨i, List.mem_append_right _ hi, hreads⟩

/-- An instruction behind others may read what they left unread. -/
theorem ReadBut.consumed (h : ReadBut vs is) {i : Instr} (hi : consumes i = true)
    (hvs : ∀ v ∈ vs, v ∈ i.operands) (hnew : ∀ t ∈ operations [i], .temp t ∈ us) :
    ReadBut us (is ++ [i]) := by
  intro t ht
  rw [operations_append, List.mem_append] at ht
  rcases ht with ht | ht
  · rcases h t ht with hv | ⟨j, hj, hreads⟩
    · exact .inr ⟨i, List.mem_append_right _ (List.mem_singleton_self i), hi, hvs _ hv⟩
    · exact .inr ⟨j, List.mem_append_left _ hj, hreads⟩
  · exact .inl (hnew t ht)

/-- A sweep takes no operation away if all are read, so all stay read. -/
theorem ReadBut.stays (h : ReadBut [] is) {i : Instr} (hi : i ∈ is)
    (hcons : consumes i = true) : stays (used is) i = true := by
  rw [DeadCode.stays, Bool.or_eq_true]
  rcases Bool.or_eq_true_iff.mp hcons with hcritical | hop
  · exact .inl hcritical
  · refine .inr ?_
    cases i with
    | binary op dest left right =>
      have hmem : dest ∈ operations is := mem_operations.mpr ⟨_, hi, rfl, rfl⟩
      obtain ⟨j, hj, _, hreads⟩ := (h dest hmem).resolve_left (by simp)
      simpa [Instr.result] using temp_mem_used hj hreads
    | _ => cases hop

theorem ReadBut.sweep (h : ReadBut [] is) : ReadBut [] (sweep is) := by
  intro t ht
  obtain ⟨i, hi, hop, htemp⟩ := mem_operations.mp ht
  have hmem : t ∈ operations is :=
    mem_operations.mpr ⟨i, (List.mem_filter.mp hi).1, hop, htemp⟩
  obtain ⟨j, hj, hcons, hreads⟩ := (h t hmem).resolve_left (by simp)
  exact .inr ⟨j, List.mem_filter.mpr ⟨hj, h.stays hj hcons⟩, hcons, hreads⟩

end

/-! ## Folding leaves operations read -/

namespace Fold

section
variable {known : Known} {is : List Instr} {t : Temp}

theorem known_cons_some {i : Instr} {p : Temp × Int32}
    (h : evaluate? (substitute known i) = some p) (rest : List Instr) :
    (instrs known (i :: rest)).known = (instrs (p :: known) rest).known := by
  simp [instrs, h]

theorem known_cons_none {i : Instr} (h : evaluate? (substitute known i) = none)
    (rest : List Instr) :
    (instrs known (i :: rest)).known = (instrs known rest).known := by
  simp [instrs, h]

/-- What is known stays known. -/
theorem lookup_of_lookup_known (h : (instrs known is).known.lookup t = none) :
    known.lookup t = none := by
  induction is generalizing known with
  | nil => exact h
  | cons i rest ih =>
    cases heval : evaluate? (substitute known i) with
    | none =>
      rw [known_cons_none heval] at h
      exact ih h
    | some p =>
      rw [known_cons_some heval] at h
      have hcons := ih h
      by_cases ht : t = p.1
      · subst ht
        rw [List.lookup_cons_self] at hcons
        cases hcons
      · rwa [lookup_cons_of_ne ht] at hcons

/-- Only what was made can become known. -/
theorem lookup_known_of_notMem (ht : t ∉ made is) :
    (instrs known is).known.lookup t = known.lookup t := by
  induction is generalizing known with
  | nil => rfl
  | cons i rest ih =>
    rw [made_cons, List.mem_append, not_or] at ht
    cases heval : evaluate? (substitute known i) with
    | none =>
      rw [known_cons_none heval]
      exact ih ht.2
    | some p =>
      rw [known_cons_some heval, ih ht.2]
      refine lookup_cons_of_ne ?_ p.2
      rintro rfl
      exact ht.1 (by simp [temp?_of_evaluate? heval])

/-- What folded code still makes is not known. -/
theorem lookup_known_of_made (hfresh : IsFresh known is)
    (ht : t ∈ made (instrs known is).instrs) :
    (instrs known is).known.lookup t = none := by
  induction is generalizing known with
  | nil => cases ht
  | cons i rest ih =>
    cases heval : evaluate? (substitute known i) with
    | some p =>
      rw [instrs_cons_some heval] at ht
      rw [known_cons_some heval]
      exact ih (hfresh.folded heval) ht
    | none =>
      rw [instrs_cons_none heval, made_cons, temp?_substitute, List.mem_append,
        Option.mem_toList] at ht
      rw [known_cons_none heval]
      rcases ht with ht | ht
      · obtain ⟨hnew, hnot⟩ := hfresh.head ht
        rw [lookup_known_of_notMem hnot, hnew]
      · exact ih hfresh.tail ht

theorem consumes_substitute (known : Known) (i : Instr) :
    consumes (substitute known i) = consumes i := by
  cases i <;> rfl

theorem temp_mem_operands_substitute {i : Instr} (hlookup : known.lookup t = none)
    (h : .temp t ∈ i.operands) : .temp t ∈ (substitute known i).operands := by
  have hsame : replace known (.temp t) = .temp t := by simp only [replace, hlookup]
  cases i with
  | call dest callee args =>
    rcases List.mem_cons.mp h with rfl | hmem
    · exact List.mem_cons_self
    · exact List.mem_cons_of_mem _ (List.mem_map.mpr ⟨_, hmem, hsame⟩)
  | ret value =>
    cases value with
    | none => cases h
    | some v => exact List.mem_map.mpr ⟨_, h, hsame⟩
  | _ => exact List.mem_map.mpr ⟨_, h, hsame⟩

/-- An instruction that reads what is not known is not folded. -/
theorem evaluate?_of_reads {i : Instr} (h : .temp t ∈ i.operands) :
    evaluate? i = none := by
  cases heval : evaluate? i with
  | none => rfl
  | some p =>
    obtain ⟨op, left, right, a, b, rfl, ha, hb, _⟩ := evaluate?_eq_some heval
    rcases List.mem_cons.mp h with rfl | hmem
    · cases ha
    · cases List.mem_singleton.mp hmem
      cases hb

/-- Who reads what is not known still reads it behind folding. -/
theorem exists_reader {i : Instr} (hi : i ∈ is) (hreads : .temp t ∈ i.operands)
    (hlookup : (instrs known is).known.lookup t = none) :
    ∃ j ∈ (instrs known is).instrs, consumes j = consumes i ∧ .temp t ∈ j.operands := by
  induction is generalizing known with
  | nil => cases hi
  | cons k rest ih =>
    rcases List.mem_cons.mp hi with rfl | hi
    · have hreads' :=
        temp_mem_operands_substitute (lookup_of_lookup_known hlookup) hreads
      rw [instrs_cons_none (evaluate?_of_reads hreads')]
      exact ⟨_, List.mem_cons_self, consumes_substitute known i, hreads'⟩
    · cases heval : evaluate? (substitute known k) with
      | some p =>
        rw [known_cons_some heval] at hlookup
        rw [instrs_cons_some heval]
        exact ih hi hlookup
      | none =>
        rw [known_cons_none heval] at hlookup
        rw [instrs_cons_none heval]
        obtain ⟨j, hj, hreader⟩ := ih hi hlookup
        exact ⟨j, List.mem_cons_of_mem _ hj, hreader⟩

/-- An operation that is not folded is still read. -/
theorem readBut_instrs (hfresh : IsFresh known is) (h : ReadBut [] is) :
    ReadBut [] (instrs known is).instrs := by
  intro t ht
  obtain ⟨j, hj, hop, htemp⟩ := mem_operations.mp ht
  have hmade : t ∈ made (instrs known is).instrs :=
    List.mem_filterMap.mpr ⟨j, hj, htemp⟩
  obtain ⟨i, hi, known', rfl⟩ := mem_instrs hj
  have hmem : t ∈ operations is := by
    refine mem_operations.mpr ⟨i, hi, ?_, (temp?_substitute known' i).symm.trans htemp⟩
    cases i with
    | binary => rfl
    | _ => cases hop
  -- Its reader was not folded either, since it reads something that is not known.
  obtain ⟨k, hk, hcons, hreads⟩ := (h t hmem).resolve_left (by simp)
  obtain ⟨k', hk', hcons', hreads'⟩ :=
    exists_reader hk hreads (lookup_known_of_made hfresh hmade)
  exact .inr ⟨k', hk', hcons'.trans hcons, hreads'⟩

end

end Fold

/-- A function in which all operations are read. -/
def AllRead (f : Function) : Prop := ∀ b ∈ f.blocks, ReadBut [] b.instrs

end Straightline.Optimize

namespace Straightline.Lowering

open Code Execution Optimize Draft

/-! ## Compiled code has its operations read -/

/-- The code of an expression reads all its operations but the last,
whose result is the value. -/
theorem Lowered.readBut {e : Expr} {d d' : Draft} {v : Value} (h : Lowered e d v d') :
    ∃ is, d'.code = d.code ++ is ∧ ReadBut [v] is := by
  induction h with
  | int => exact ⟨[], by simp, readBut_of_operations rfl⟩
  | text => exact ⟨[], by simp [addText], readBut_of_operations rfl⟩
  | ident => exact ⟨[_], rfl, readBut_of_operations rfl⟩
  | @binary op pos l r d a d₁ b d₂ _ _ _ _ ihl ihr =>
    obtain ⟨is, hcode, hreads⟩ := ihl
    obtain ⟨js, hcode', hreads'⟩ := ihr
    refine ⟨(is ++ js) ++ [.binary (.arith op) (d₂.nextTemp "" .i32) a b], ?_, ?_⟩
    · simp [emit, hcode', hcode]
    · -- The operation reads what its sides left unread.
      exact (hreads.append hreads').consumed rfl (by simp [Instr.operands])
        (by simp [operations])

theorem LoweredAll.readBut {es : List Expr} {d d' : Draft} {vs : List Value}
    (h : LoweredAll es d vs d') : ∃ is, d'.code = d.code ++ is ∧ ReadBut vs is := by
  induction h with
  | nil => exact ⟨[], by simp, readBut_of_operations rfl⟩
  | cons hv _ ih =>
    obtain ⟨is, hcode, hreads⟩ := hv.readBut
    obtain ⟨js, hcode', hreads'⟩ := ih
    exact ⟨is ++ js, by simp [hcode', hcode], hreads.append hreads'⟩

/-- The code of a statement reads all operations of its expressions. -/
theorem Done.readBut {m : Module} {stmt : Stmt} {d d' : Draft} (h : Done m stmt d d') :
    ∃ is, d'.code = d.code ++ is ∧ ReadBut [] is := by
  cases h with
  | decl => exact ⟨[_], rfl, readBut_of_operations rfl⟩
  | ret => exact ⟨[_], rfl, readBut_of_operations rfl⟩
  | @assign pos x e d slot v d₁ _ hv _ =>
    obtain ⟨is, hcode, hreads⟩ := hv.readBut
    refine ⟨is ++ [.store v (.temp slot)], by simp [Draft.push, hcode], ?_⟩
    exact hreads.consumed rfl (by simp [Instr.operands]) (by simp [operations])
  | @call pos x es d vs d₁ callee hvs _ _ _ =>
    obtain ⟨is, hcode, hreads⟩ := hvs.readBut
    refine ⟨is ++ [.call none callee.value vs], by simp [Draft.push, hcode], ?_⟩
    exact hreads.consumed rfl (fun v hv => List.mem_cons_of_mem _ hv)
      (by simp [operations])
  | @retValue pos e d v d₁ hv =>
    obtain ⟨is, hcode, hreads⟩ := hv.readBut
    refine ⟨is ++ [.ret (some v)], by simp [Draft.push, hcode], ?_⟩
    exact hreads.consumed rfl (by simp [Instr.operands]) (by simp [operations])

theorem allRead_result {d : Draft} :
    AllRead d.result ↔ (∀ b ∈ d.function.blocks, ReadBut [] b.instrs) ∧
      ReadBut [] d.code := by
  rw [AllRead, result, List.forall_mem_append, List.forall_mem_singleton]
  rfl

theorem allRead_reopen {d : Draft} (h : AllRead d.result) :
    AllRead d.reopen.result := by
  unfold reopen
  split
  · rw [allRead_result]
    exact ⟨h, readBut_of_operations rfl⟩
  · exact h

theorem Body.allRead {m : Module} {body : List Stmt} {d d' : Draft}
    (h : Body m body d d') (herrors : d'.errors = d.errors)
    (hd : AllRead d.result) : AllRead d'.finish.result := by
  induction h with
  | @nil d =>
    unfold finish
    split
    · exact hd
    · rw [allRead_result] at hd ⊢
      exact ⟨hd.1, hd.2.append (@readBut_of_operations [] _ rfl)⟩
  | @done stmt rest d d₁ d₂ hs hrest ih =>
    have hsame : d₁.errors = d.errors := hs.errors_eq.trans (reopen_frame d).2.2.2.1
    refine ih (herrors.trans hsame.symm) ?_
    obtain ⟨is, hcode, hreads⟩ := hs.readBut
    have hopen := allRead_result.mp (allRead_reopen hd)
    rw [allRead_result, hs.blocks_eq, hcode]
    exact ⟨hopen.1, hopen.2.append hreads⟩
  | @dropped stmt rest d err d₁ d₂ hs hrest ih =>
    exact absurd herrors (hrest.errors_ne_of_dropped hs)

end Straightline.Lowering

namespace Straightline.Optimize

open Code Execution DeadCode

/-! ## Functions -/

/-- Whether an operation has nothing on one of its sides. -/
def isHalf : Instr → Bool
  | .binary _ _ left right => left.isAbsent || right.isAbsent
  | _ => false

theorem isHalf_of_check {i : Instr} (h : i.check = .ok none) : isHalf i = false := by
  cases i with
  | binary op dest left right =>
    obtain ⟨_, hleft, h⟩ := bind_eq_ok.mp h
    split at h
    · obtain ⟨_, hright, -⟩ := bind_eq_ok.mp h
      rw [isHalf, Value.isAbsent_of_requireType hleft,
        Value.isAbsent_of_requireType hright]
      rfl
    · cases h
  | _ => rfl

theorem isHalf_substitute (known : Known) (i : Instr) :
    isHalf (Fold.substitute known i) = isHalf i := by
  cases i with
  | binary op dest left right =>
    simp only [isHalf, Fold.substitute, Fold.isAbsent_replace]
  | _ => rfl

theorem isOneSided_of_isHalf {i : Instr} (h : isHalf i = false) :
    Fold.isOneSided i = false := by
  cases i with
  | binary op dest left right =>
    obtain ⟨hleft, hright⟩ := Bool.or_eq_false_iff.mp h
    rw [Fold.isOneSided, hleft, hright, Bool.and_false]
    rfl
  | _ => rfl

/-- Both passes keep the runs of a function that return, as long as every
temporary is made once. -/
theorem kept_returns (f : Function) :
    Kept fun f' => (∀ i ∈ f'.instrs, isHalf i = false) ∧ (made f'.instrs).Nodup ∧
      ∀ w v, (f.run w).outcome = .returned v → f'.run w = f.run w := by
  have hwhole {f' : Function} (h : ∀ i ∈ f'.instrs, isHalf i = false) :
      ∀ i ∈ (Fold.run f').1.instrs, isHalf i = false := by
    intro i hi
    rw [Fold.instrs_run] at hi
    obtain ⟨j, hj, known, rfl⟩ := Fold.mem_instrs hi
    rw [isHalf_substitute]
    exact h j hj
  constructor
  · rintro f' ⟨hhalf, honce, hrun⟩
    refine ⟨hwhole hhalf, ?_, fun w v hv => ?_⟩
    · rw [Fold.instrs_run]
      exact (Fold.made_instrs_sublist _ _).nodup honce
    · have hsame := hrun w v hv
      exact (Fold.run_run honce (by simp [hsame, hv])).trans hsame
  · rintro f' ⟨hhalf, -, -⟩
    exact Fold.isFaulty_eq_false fun i hi => isOneSided_of_isHalf (hwhole hhalf i hi)
  · rintro f' ⟨hhalf, honce, hrun⟩
    have hsub := DeadCode.instrs_run_sublist f'
    refine ⟨fun i hi => hhalf i (hsub.subset hi), (hsub.filterMap _).nodup honce,
      fun w v hv => ?_⟩
    have hsame := hrun w v hv
    exact (DeadCode.run_run (by simp [hsame, hv])).trans hsame

/-- Sound code calls functions and nothing else, so it does not get
stuck before its return. -/
theorem run_ne_stuck {w : World} {m : Module} {is : List Instr} (s : State)
    (hsound : ∀ i ∈ is, ∃ past, i.IsSound m.context past) (value : Option Value)
    (hret : .ret value ∈ is) : (Execution.run w s is).outcome ≠ .stuck := by
  induction is generalizing s with
  | nil => cases hret
  | cons i rest ih =>
    rw [List.forall_mem_cons] at hsound
    obtain ⟨⟨past, hi⟩, hsound⟩ := hsound
    rw [Execution.run]
    cases hstep : step w s i with
    | ok s₁ =>
      rcases List.mem_cons.mp hret with rfl | hret
      · cases hstep
      · exact ih s₁ hsound hret
    | error o =>
      rintro rfl
      cases i with
      | binary op dest left right =>
        simp only [step] at hstep
        split at hstep
        · cases hstep
        · cases hstep
      | call dest callee args =>
        obtain ⟨f, _, rfl, _⟩ := Module.mem_callees hi.2.1
        cases hstep
      | _ => cases hstep

/-- A function whose runs both passes keep: sound, with all
operations of its entry read. -/
structure IsKeepable (m : Module) (f : Function) : Prop where
  sound : f.IsSound m.context
  read : ∀ entry, f.entry? = some entry → ReadBut [] entry.instrs

section
variable {m : Module} {f : Function} {entry : Block} (h : IsKeepable m f)
  (hentry : f.entry? = some entry)
include h

theorem IsKeepable.made_nodup : (made f.instrs).Nodup := by
  simpa using h.sound.code.nodup List.nodup_nil

include hentry

theorem IsKeepable.closed : Closed entry.instrs :=
  h.sound.closed entry (List.mem_of_head? hentry)

theorem IsKeepable.run_ne_stuck (w : World) : (f.run w).outcome ≠ .stuck := by
  obtain ⟨init, value, hinstrs, _⟩ := h.closed hentry
  rw [Function.run_of_entry hentry]
  refine Optimize.run_ne_stuck (m := m) w.start (fun i hi => ?_) value
    (by simp [hinstrs])
  exact h.sound.code.of_mem (List.mem_flatMap.mpr ⟨entry, List.mem_of_head? hentry, hi⟩)

/-- Folding keeps all runs of such a function, and the function such. -/
theorem IsKeepable.fold :
    IsKeepable m (Fold.run f).1 ∧ ∀ w, (Fold.run f).1.run w = f.run w := by
  refine ⟨⟨Fold.isSound_run h.sound, fun entry' hentry' => ?_⟩, fun w => ?_⟩
  · rw [Fold.entry?_run hentry] at hentry'
    cases hentry'
    exact Fold.readBut_instrs ⟨fun _ _ => rfl, nodup_made_entry hentry h.made_nodup⟩
      (h.read entry hentry)
  · exact Fold.run_run h.made_nodup (h.run_ne_stuck hentry w)

/-- So does elimination. -/
theorem IsKeepable.eliminate :
    IsKeepable m (DeadCode.run f).function ∧
      ∀ w, (DeadCode.run f).function.run w = f.run w := by
  obtain ⟨others, hblocks⟩ := List.head?_eq_some_iff.mp hentry
  have hwhole : truncate entry.instrs = entry.instrs :=
    truncate_eq_self (closed_iff.mp (h.closed hentry)).1
  obtain ⟨hread, hrun⟩ : ReadBut [] (sweepAll entry.instrs).1 ∧
      ∀ w, Execution.run w w.start (sweepAll entry.instrs).1 =
        Execution.run w w.start entry.instrs := by
    refine sweepAll_keeps (P := fun is => ReadBut [] is ∧
      ∀ w, Execution.run w w.start is = Execution.run w w.start entry.instrs) ?_
      ⟨h.read entry hentry, fun _ => rfl⟩
    -- A sweep takes no operation away, so it takes no trap away.
    rintro is ⟨hread, hrun⟩
    refine ⟨hread.sweep, fun w => (run_sweep (.inr fun i hi hop => ?_)).trans (hrun w)⟩
    exact hread.stays hi (by rw [consumes, hop, Bool.or_true])
  refine ⟨⟨DeadCode.isSound_run h.sound, fun entry' hentry' => ?_⟩, fun w => ?_⟩
  · rw [blocks_run hblocks, hwhole] at hentry'
    cases hentry'
    exact hread
  · rw [blocks_run hblocks, hwhole, Function.run_of_entry rfl,
      Function.run_of_entry hentry]
    exact hrun w

end

/-- Both passes keep all runs of such functions. -/
theorem kept_runs (m : Module) (f : Function) :
    Kept fun f' => IsKeepable m f' ∧ ∀ w, f'.run w = f.run w := by
  constructor
  · rintro f' ⟨h, hrun⟩
    cases hentry : f'.entry? with
    | none =>
      rw [Fold.run_of_nil (List.head?_eq_none_iff.mp hentry)]
      exact ⟨h, hrun⟩
    | some entry =>
      obtain ⟨h', hrun'⟩ := h.fold hentry
      exact ⟨h', fun w => (hrun' w).trans (hrun w)⟩
  · rintro f' ⟨h, -⟩
    exact (kept_isSound m.context f'.header).faultless f' ⟨h.sound, rfl⟩
  · rintro f' ⟨h, hrun⟩
    cases hentry : f'.entry? with
    | none =>
      rw [DeadCode.run_of_nil (List.head?_eq_none_iff.mp hentry)]
      exact ⟨h, hrun⟩
    | some entry =>
      obtain ⟨h', hrun'⟩ := h.eliminate hentry
      exact ⟨h', fun w => (hrun' w).trans (hrun w)⟩

/-- Functions compiled without errors are such functions. -/
theorem isKeepable_of_compile {t : Tree} {c : Lowering.Compiled}
    (hc : t.compile = .ok c) (herrors : c.errors = []) {f : Function}
    (hf : f ∈ c.module.functions) : IsKeepable c.module f := by
  have hsound := (Tree.compile_sound hc).functions f hf
  refine ⟨hsound, fun entry hentry => ?_⟩
  obtain ⟨g, hg, hheader, ⟨-, hexternal⟩ |
      ⟨-, m, texts, body, d, -, hrules, rfl, -, hlength⟩⟩ :=
    Tree.compile_functions hc hf
  · have hblocks : f.blocks = [] :=
      hsound.blocks.mpr ((congrArg Function.isExternal hheader).trans hexternal)
    rw [Function.entry?, hblocks] at hentry
    cases hentry
  · have hno : d.errors = [] := by simpa [herrors] using hlength
    have hbare := t.declared_proper.bare g hg
    have hopened : AllRead (Lowering.Draft.opened g texts).result := by
      have hblocks : g.blocks = [] := by rw [← hbare]; rfl
      rw [Lowering.allRead_result]
      exact ⟨by simp [hblocks], readBut_of_operations rfl⟩
    exact hrules.allRead hno hopened entry (List.mem_of_head? hentry)

/-- The optimizer keeps what functions do, whatever its limit on rounds. A
function that passes verification and makes every temporary once keeps every run
that returns: the same calls and stores, and the same value. A function that was
compiled without errors keeps all its runs, with their traps. -/
theorem optimizer_preserves_runs (limit : Int) (logging : Bool) (stats : Tally) :
    (∀ f : Function, f.check = .ok [] → (made f.instrs).Nodup →
      ∃ r, Optimizer.optimizeFunction { limit, logging, stats } f = .ok r ∧
      r.error = none ∧
        ∀ w v, (f.run w).outcome = .returned v → r.code.run w = f.run w) ∧
    (∀ (t : Tree) (c : Lowering.Compiled), t.compile = .ok c → c.errors = [] →
      ∀ f ∈ c.module.functions,
      ∃ r, Optimizer.optimizeFunction { limit, logging, stats } f = .ok r ∧
      r.error = none ∧
        ∀ w, r.code.run w = f.run w) := by
  constructor
  · intro f hcheck honce
    obtain ⟨-, hblocks⟩ := Function.check_eq_nil_iff.mp hcheck
    have hwhole : ∀ i ∈ f.instrs, isHalf i = false := by
      intro i hi
      obtain ⟨b, hb, hib⟩ := List.mem_flatMap.mp hi
      exact isHalf_of_check ((hblocks b hb).1 i hib)
    obtain ⟨r, hr, herror, -, -, hruns⟩ :=
      Optimizer.optimizeFunction_keeps (kept_returns f)
        (o := { limit, logging, stats }) (isBuiltIn_of_mem rfl)
        ⟨hwhole, honce, fun _ _ _ => rfl⟩
    exact ⟨r, hr, herror, hruns⟩
  · intro t c hc herrors f hf
    obtain ⟨r, hr, herror, -, hruns⟩ :=
      Optimizer.optimizeFunction_keeps (kept_runs c.module f)
        (o := { limit, logging, stats }) (isBuiltIn_of_mem rfl)
        ⟨isKeepable_of_compile hc herrors hf, fun _ => rfl⟩
    exact ⟨r, hr, herror, hruns⟩

/-- A function with a constant to fold and a quotient that nobody reads. -/
def surplus : Function :=
  let temp (id : Nat) (type : Ty) : Temp := { owner := 0, id, name := "", type }
  { place := 0
    name := "surplus"
    ret := .i32
    temps := 5
    blocks := [{
      label := "entry"
      instrs := [
        .alloca (temp 0 (.ptr .i32)) .i32,
        .binary (.arith .add) (temp 1 .i32) (.int 1) (.int 2),
        .store (.temp (temp 1 .i32)) (.temp (temp 0 (.ptr .i32))),
        .load (temp 2 .i32) (.temp (temp 0 (.ptr .i32))),
        .binary (.arith .div) (temp 3 .i32) (.int 6) (.temp (temp 2 .i32)),
        .binary (.arith .mul) (temp 4 .i32) (.temp (temp 2 .i32)) (.temp (temp 1 .i32)),
        .ret (some (.temp (temp 4 .i32)))] }] }

/-- A function that divides by zero and nothing else. -/
def zeroed : Tree where
  filename := "zeroed"
  globals :=
    [.func {} "main" [] [.ret {} [.binary (.arith .div) {} (.int {} 1) (.int {} 0)]]]

theorem optimizer_preserves_runs_surplus :
    (surplus.check = .ok [] ∧ (made surplus.instrs).Nodup ∧
      ∃ r, Optimizer.optimizeFunction {} surplus = .ok r ∧
        ∀ w, (r.code.run w).outcome = .returned (some (.int 9))) ∧
    ∃ c f r, zeroed.compile = .ok c ∧ c.errors = [] ∧ f ∈ c.module.functions ∧
      Optimizer.optimizeFunction {} f = .ok r ∧
        ∀ w, ∃ t, r.code.run w = { events := [], outcome := .trapped t } := by
  obtain ⟨hreturns, hcompiled⟩ := optimizer_preserves_runs 10 false {}
  have hcheck : surplus.check = .ok [] := rfl
  have honce : (made surplus.instrs).Nodup := by decide
  have hnine (w : World) : (surplus.run w).outcome = .returned (some (.int 9)) := rfl
  obtain ⟨r, hr, -, hruns⟩ := hreturns surplus hcheck honce
  refine ⟨⟨hcheck, honce, r, hr, fun w => ?_⟩, ?_⟩
  · rw [hruns w _ (hnine w)]
    exact hnine w
  · obtain ⟨c, f, hc, herrors, hf, htraps⟩ : ∃ c f, zeroed.compile = .ok c ∧
      c.errors = [] ∧
        f ∈ c.module.functions ∧ ∀ w, ∃ t,
        f.run w = { events := [], outcome := .trapped t } :=
      ⟨_, _, rfl, rfl, List.mem_cons_self, fun _ => ⟨_, rfl⟩⟩
    obtain ⟨r, hr, -, hruns⟩ := hcompiled zeroed c hc herrors f hf
    exact ⟨c, f, r, hc, herrors, hf, hr, fun w => hruns w ▸ htraps w⟩

end Straightline.Optimize
