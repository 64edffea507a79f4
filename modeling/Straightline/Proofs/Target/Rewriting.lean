import Mathlib
import Straightline.Proofs.Optimize.Settled
import Straightline.Proofs.Target.Emission
import Straightline.Proofs.Target.Translation

/-!
# Emission of rewritten code

What emission needs of a local value is that it was made and what its type in
the target is (`localType`). So code that can be emitted can still be emitted
when operands are replaced by others of the same type in the target, and when
instructions are gone whose results are not read. The first is what folding does
(`emitInstrs_fold`), the second what elimination does (`emitInstrs_sweepAll`).

The type in the target is not the type of the value: a call makes its result in
the value it is given, with the type that the function it calls returns. Where a
call takes the place of the result of an operation, folding has to be told that
it makes a word (`SparesWord`).
-/

namespace Straightline.Target

open Code (Ty Value Temp)
open Optimize
open Optimize.DeadCode (used stays sweepAll)

/-! ## Local types -/

/-- The type in the target of what a local value became. -/
def localType (locals : Locals) (v : Value) : Option Ty :=
  (locals.lookup v).map Operand.type

/-- Whether `v'` becomes an operand of the type that `v` became. -/
def Matches (s : Surroundings) (locals locals' : Locals) (v v' : Value) : Prop :=
  ∀ o, operand s locals v = .ok o → ∃ o', operand s locals' v' = .ok o' ∧
    o'.type = o.type

/-- The value that a step makes, with its type in the target. -/
def Step.made? : Step → Option (Value × Ty)
  | .instr out dest => dest.map (·, out.type)
  | .terminator _ => none

/-- The local values after a step at the given place. -/
def Step.after (locals : Locals) (block index : Nat) : Step → Locals
  | .instr out dest => bind locals block index out dest
  | .terminator _ => locals

theorem localType_after (locals : Locals) (block index : Nat) (step : Step)
    (v : Value) :
    localType (step.after locals block index) v =
      match step.made? with
      | some (d, type) => if v = d then some type else localType locals v
      | none => localType locals v := by
  cases step with
  | terminator t => rfl
  | instr out dest =>
    cases dest with
    | none => rfl
    | some d =>
      simp only [Step.after, Step.made?, bind, localType, List.lookup_cons,
        Option.map_some]
      by_cases h : v = d
      · simp [h, Operand.type]
      · simp [h, beq_false_of_ne h]

theorem matches_of_localType {s : Surroundings} {locals locals' : Locals}
    {v : Value}
    (h : v.isAbsent = false → v.isConstant = false →
      localType locals' v = localType locals v) : Matches s locals locals' v v := by
  have hlocal (hv : localType locals' v = localType locals v) (o : Operand)
      (ho : localOperand locals v = .ok o) : ∃ o', localOperand locals' v = .ok o' ∧
      o'.type = o.type := by
    have hsome : localType locals v = some o.type := by
      rw [localType, orError_eq_ok.mp ho, Option.map_some]
    obtain ⟨o', ho', htype⟩ := Option.map_eq_some_iff.mp (hv.trans hsome)
    exact ⟨o', orError_eq_ok.mpr ho', htype⟩
  intro o ho
  cases v with
  | absent => cases ho
  | int n => exact ⟨o, ho, rfl⟩
  | text k => exact ⟨o, ho, rfl⟩
  | func f => exact ⟨o, ho, rfl⟩
  | param p => exact hlocal (h rfl rfl) o ho
  | temp t => exact hlocal (h rfl rfl) o ho
  | loose l =>
    cases hkind : l.kind with
    | temporary =>
      simp only [operand, hkind] at ho ⊢
      exact hlocal (h rfl (by simp [Value.isConstant, hkind])) o ho
    | parameter =>
      simp only [operand, hkind] at ho ⊢
      exact hlocal (h rfl (by simp [Value.isConstant, hkind])) o ho
    | _ =>
      simp only [operand, hkind] at ho ⊢
      exact ⟨o, ho, rfl⟩

/-! ## One instruction -/

section
variable {s : Surroundings} {ret : Ty} {locals locals' : Locals}

theorem mapM_operand_matches {args args' : List Value}
    (h : List.Forall₂ (Matches s locals locals') args args') {os : List Operand}
    (hos : args.mapM (operand s locals) = .ok os) :
    ∃ os', args'.mapM (operand s locals') = .ok os' := by
  induction h generalizing os with
  | nil => exact ⟨[], rfl⟩
  | cons hfirst _ ih =>
    rw [List.mapM_cons] at hos
    obtain ⟨o, ho, hos⟩ := bind_eq_ok.mp hos
    obtain ⟨os, hrest, -⟩ := bind_eq_ok.mp hos
    obtain ⟨o', ho', -⟩ := hfirst o ho
    obtain ⟨os', hos'⟩ := ih hrest
    refine ⟨o' :: os', ?_⟩
    rw [List.mapM_cons, ho', hos']
    rfl

theorem emitInstr_call {dest : Option Value} {callee : Value} {args : List Value}
    {step : Step} (h : emitInstr s ret locals (.call dest callee args) = .ok step) :
    ∃ index f os, callee.isAbsent = false ∧
      orError (.callee callee.name) (s.function? callee.name) = .ok (index, f) ∧
      args.mapM (operand s locals) = .ok os ∧
      step = .instr (.call (dest.map localName) f.ret index os) dest := by
  rw [emitInstr] at h
  cases hcallee : callee.isAbsent with
  | true =>
    rw [hcallee, if_pos rfl] at h
    cases h
  | false =>
    rw [hcallee, if_neg Bool.false_ne_true] at h
    obtain ⟨⟨index, f⟩, hfound, h⟩ := bind_eq_ok.mp h
    obtain ⟨os, hos, h⟩ := bind_eq_ok.mp h
    cases h
    exact ⟨index, f, os, rfl, hfound, hos, rfl⟩

/-- Whether something can be stored depends on types alone. -/
theorem storeTo_of_types {v a v' a' : Operand} {step : Step}
    (h : storeTo v a = .ok step) (hv : v'.type = v.type) (ha : a'.type = a.type) :
    storeTo v' a' = .ok (.instr (.store v' a') none) := by
  unfold storeTo at h ⊢
  rw [hv, ha]
  split at h
  · split at h
    · next hfits => rw [if_pos hfits]
    · cases h
  · cases h

/-- An instruction can still be emitted when its operands are replaced by others
of the same types, and makes the same value with the same type. -/
theorem emitInstr_substitute {known : Known} {i : Code.Instr}
    (hmatches : ∀ v ∈ i.operands, Matches s locals locals' v (Fold.replace known v))
    {step : Step} (h : emitInstr s ret locals i = .ok step) :
    ∃ step', emitInstr s ret locals' (Fold.substitute known i) = .ok step' ∧
      step'.made? = step.made? := by
  cases i with
  | alloca dest type => exact ⟨step, h, rfl⟩
  | load dest address =>
    obtain ⟨type, htype, h⟩ := bind_eq_ok.mp h
    obtain ⟨a, ha, h⟩ := bind_eq_ok.mp h
    cases h
    obtain ⟨a', ha', -⟩ := hmatches address (by simp [Code.Instr.operands]) a ha
    refine ⟨.instr (.load (localName (.temp dest)) type a') (some (.temp dest)), ?_,
      rfl⟩
    rw [Fold.substitute, emitInstr, htype, ha']
    rfl
  | store value address =>
    obtain ⟨v, hv, h⟩ := bind_eq_ok.mp h
    obtain ⟨a, ha, h⟩ := bind_eq_ok.mp h
    obtain ⟨v', hv', hvtype⟩ := hmatches value (by simp [Code.Instr.operands]) v hv
    obtain ⟨a', ha', hatype⟩ := hmatches address (by simp [Code.Instr.operands]) a ha
    refine ⟨.instr (.store v' a') none, ?_, by rw [eq_of_storeTo h]; rfl⟩
    rw [Fold.substitute, emitInstr, hv', ha']
    exact storeTo_of_types h hvtype hatype
  | binary op dest left right =>
    obtain ⟨l, hl, h⟩ := bind_eq_ok.mp h
    obtain ⟨r, hr, h⟩ := bind_eq_ok.mp h
    obtain ⟨l', hl', hltype⟩ := hmatches left (by simp [Code.Instr.operands]) l hl
    obtain ⟨r', hr', -⟩ := hmatches right (by simp [Code.Instr.operands]) r hr
    cases op with
    | unknown code => cases h
    | arith op =>
      cases h
      refine ⟨.instr (.binary op (localName (.temp dest)) l' r')
        (some (.temp dest)), ?_, ?_⟩
      · rw [Fold.substitute, emitInstr, hl', hr']
        rfl
      · simp [Step.made?, Instr.type, hltype]
  | call dest callee args =>
    obtain ⟨index, f, os, hcallee, hfound, hos, rfl⟩ := emitInstr_call h
    have hargs : List.Forall₂ (Matches s locals locals') args
        (args.map (Fold.replace known)) := by
      rw [List.forall₂_map_right_iff, List.forall₂_same]
      exact fun v hv => hmatches v (List.mem_cons_of_mem _ hv)
    obtain ⟨os', hos'⟩ := mapM_operand_matches hargs hos
    refine ⟨.instr (.call (dest.map localName) f.ret index os') dest, ?_, rfl⟩
    simp only [Fold.substitute, emitInstr, hcallee, hfound, hos']
    rfl
  | ret value =>
    cases value with
    | none => exact ⟨step, h, rfl⟩
    | some value =>
      rw [emitInstr] at h
      rw [Fold.substitute, Option.map_some, emitInstr]
      split at h
      · next hvoid =>
        cases h
        exact ⟨_, if_pos hvoid, rfl⟩
      · next hvoid =>
        obtain ⟨o, ho, h⟩ := bind_eq_ok.mp h
        cases h
        obtain ⟨o', ho', -⟩ := hmatches value (by simp [Code.Instr.operands]) o ho
        refine ⟨.terminator (.ret o'), ?_, rfl⟩
        rw [if_neg hvoid, ho']
        rfl
  | foreign text sort dest => cases h

theorem result_of_emitInstr {i : Code.Instr} {step : Step}
    (h : emitInstr s ret locals i = .ok step) :
    step.made?.map Prod.fst = i.result := by
  cases i with
  | alloca dest type =>
    obtain ⟨_, -, h⟩ := bind_eq_ok.mp h
    cases h
    rfl
  | load dest address =>
    obtain ⟨_, -, h⟩ := bind_eq_ok.mp h
    obtain ⟨_, -, h⟩ := bind_eq_ok.mp h
    cases h
    rfl
  | store value address =>
    obtain ⟨_, -, h⟩ := bind_eq_ok.mp h
    obtain ⟨_, -, h⟩ := bind_eq_ok.mp h
    rw [eq_of_storeTo h]
    rfl
  | binary op dest left right =>
    obtain ⟨_, -, h⟩ := bind_eq_ok.mp h
    obtain ⟨_, -, h⟩ := bind_eq_ok.mp h
    cases op <;> cases h
    rfl
  | call dest callee args =>
    obtain ⟨_, _, _, -, -, -, rfl⟩ := emitInstr_call h
    simp [Step.made?, Code.Instr.result, Option.map_map, Function.comp_def]
  | ret value =>
    cases value with
    | none =>
      cases h
      rfl
    | some value =>
      rw [emitInstr] at h
      split at h
      · cases h
        rfl
      · obtain ⟨_, -, h⟩ := bind_eq_ok.mp h
        cases h
        rfl
  | foreign text sort dest => cases h

/-! ## Several instructions -/

theorem emitInstrs_cons {block index : Nat} {i : Code.Instr}
    {rest : List Code.Instr} {r : Emitted}
    (h : emitInstrs s ret block locals index (i :: rest) = .ok r) :
    ∃ step index' r', emitInstr s ret locals i = .ok step ∧
      emitInstrs s ret block (step.after locals block index) index' rest = .ok r' ∧
      r'.locals = r.locals := by
  obtain ⟨step, hstep, h⟩ := bind_eq_ok.mp h
  cases step with
  | instr out dest =>
    obtain ⟨r', hr', h⟩ := bind_eq_ok.mp h
    cases h
    exact ⟨_, _, r', hstep, hr', rfl⟩
  | terminator t =>
    obtain ⟨r', hr', h⟩ := bind_eq_ok.mp h
    cases h
    exact ⟨_, _, r', hstep, hr', rfl⟩

theorem exists_emitInstrs_cons {P : Locals → Prop} {block index : Nat}
    {i : Code.Instr} {rest : List Code.Instr} {step : Step}
    (hstep : emitInstr s ret locals i = .ok step)
    (hrest : ∀ index', ∃ r, emitInstrs s ret block (step.after locals block index)
      index' rest = .ok r ∧ P r.locals) :
    ∃ r, emitInstrs s ret block locals index (i :: rest) = .ok r ∧ P r.locals := by
  cases step with
  | instr out dest =>
    obtain ⟨r, hr, hlocals⟩ := hrest (index + 1)
    refine ⟨{ r with instrs := out :: r.instrs }, ?_, hlocals⟩
    rw [emitInstrs]
    exact bind_eq_ok.mpr ⟨_, hstep, bind_eq_ok.mpr ⟨r, hr, rfl⟩⟩
  | terminator t =>
    obtain ⟨r, hr, hlocals⟩ := hrest index
    refine ⟨{ r with terminator := r.terminator.or (some t) }, ?_, hlocals⟩
    rw [emitInstrs]
    exact bind_eq_ok.mpr ⟨_, hstep, bind_eq_ok.mpr ⟨r, hr, rfl⟩⟩

theorem emitInstr_of_mem {block index : Nat} {is : List Code.Instr} {r : Emitted}
    (h : emitInstrs s ret block locals index is = .ok r) {i : Code.Instr}
    (hi : i ∈ is) : ∃ locals step, emitInstr s ret locals i = .ok step := by
  induction is generalizing locals index r with
  | nil => cases hi
  | cons j rest ih =>
    obtain ⟨step, next, r', hstep, hrest, -⟩ := emitInstrs_cons h
    rcases List.mem_cons.mp hi with rfl | hi
    · exact ⟨locals, step, hstep⟩
    · exact ih hrest hi

theorem emitBlocks_cons_eq_ok {name : String} {block : Nat} {b : Code.Block}
    {bs : List Code.Block} {out : List Block} :
    emitBlocks s name ret locals block (b :: bs) = .ok out ↔
      ∃ r rest, emitInstrs s ret block locals 0 b.instrs = .ok r ∧
        emitBlocks s name ret r.locals (block + 1) bs = .ok rest ∧
        out = { label := b.label, instrs := r.instrs,
                terminator := r.terminator } :: rest := by
  rw [emitBlocks]
  cases hr : emitInstrs s ret block locals 0 b.instrs with
  | error stop => cases stop <;> simp [throw, throwThe, MonadExceptOf.throw]
  | ok r =>
    refine bind_eq_ok.trans ?_
    simp [pure, Except.pure, eq_comm]

end

/-! ## Folding -/

section
variable {s : Surroundings} {ret : Ty} {locals locals' : Locals} {known : Known}

/-- Whether an instruction is a call, and what it calls returns a word. -/
def CallsWord (s : Surroundings) (i : Code.Instr) : Prop :=
  ∃ dest callee args, i = .call dest callee args ∧
    ∀ index f, s.function? callee.name = some (index, f) → f.ret = .i32

/-- Whether `j` makes its result in the temporary of an operation `i` only
if that is a word again. -/
def SparesWord (s : Surroundings) (i j : Code.Instr) : Prop :=
  ∀ op t left right, i = .binary op t left right → j.result = some (.temp t) →
    CallsWord s j

/-- Whether what is known is a word among the local values of the code before
folding, and other values have the same types before and after. -/
structure Unknowing (known : Known) (locals locals' : Locals) : Prop where
  words : ∀ t n, known.lookup t = some n → localType locals (.temp t) = some .i32
  others : ∀ v, (∀ t, v = .temp t → known.lookup t = none) →
    localType locals' v = localType locals v

theorem Unknowing.matches_replace (h : Unknowing known locals locals') (v : Value) :
    Matches s locals locals' v (Fold.replace known v) := by
  cases v with
  | temp t =>
    rw [Fold.replace]
    cases hlookup : known.lookup t with
    | none =>
      exact matches_of_localType fun _ _ => h.others _ (by rintro _ ⟨⟩; exact hlookup)
    | some n =>
      intro o ho
      have htype := h.words t n hlookup
      rw [localType, orError_eq_ok.mp ho] at htype
      exact ⟨.int n, rfl, (Option.some.inj htype).symm⟩
  | _ => exact matches_of_localType fun _ _ => h.others _ (by simp)

theorem type_of_callsWord {i : Code.Instr} (hi : CallsWord s i) {step : Step}
    {v : Value} {type : Ty} (h : emitInstr s ret locals i = .ok step)
    (hmade : step.made? = some (v, type)) : type = .i32 := by
  obtain ⟨dest, callee, args, rfl, hword⟩ := hi
  obtain ⟨index, f, os, -, hfound, -, rfl⟩ := emitInstr_call h
  obtain ⟨_, -, hpair⟩ := Option.map_eq_some_iff.mp hmade
  cases hpair
  exact hword index f (orError_eq_ok.mp hfound)

theorem operand_of_int? {v : Value} {n : Int32} (h : v.int? = some n) :
    operand s locals v = .ok (.int n) := by
  cases v with
  | int m =>
    cases h
    rfl
  | loose l =>
    rw [Value.int?] at h
    split at h
    · next hkind hcontent =>
      cases h
      simp [operand, hkind, hcontent]
    · cases h
  | _ => cases h

/-- An operation that is folded makes a word. -/
theorem made?_of_evaluate? (hlocals : Unknowing known locals locals')
    {i : Code.Instr} {t : Temp} {n : Int32}
    (heval : Fold.evaluate? (Fold.substitute known i) = some (t, n)) {step : Step}
    (h : emitInstr s ret locals i = .ok step) :
    step.made? = some (.temp t, .i32) := by
  obtain ⟨op, left, right, a, b, hi, ha, -⟩ := Fold.evaluate?_eq_some heval
  obtain ⟨step', hstep', hmade⟩ :=
    emitInstr_substitute (fun v _ => hlocals.matches_replace v) h
  rw [hi] at hstep'
  obtain ⟨l, hl, hstep'⟩ := bind_eq_ok.mp hstep'
  obtain ⟨r, -, hstep'⟩ := bind_eq_ok.mp hstep'
  cases hl.symm.trans (operand_of_int? ha)
  cases op <;> cases hstep'
  exact hmade.symm

theorem Unknowing.fold (h : Unknowing known locals locals') {step : Step} {t : Temp}
    (hmade : step.made? = some (.temp t, .i32)) (n : Int32) (block index : Nat) :
    Unknowing ((t, n) :: known) (step.after locals block index) locals' where
  words t' n' hlookup := by
    rw [localType_after, hmade]
    by_cases heq : t' = t
    · simp [heq]
    · rw [List.lookup_cons, beq_false_of_ne heq] at hlookup
      simpa [heq] using h.words t' n' hlookup
  others v hv := by
    have hne : v ≠ .temp t := by
      rintro rfl
      simpa using hv t rfl
    rw [localType_after, hmade]
    simp only [if_neg hne]
    refine h.others v ?_
    rintro t' rfl
    have hlookup := hv t' rfl
    rwa [List.lookup_cons, beq_false_of_ne (mt (congrArg Value.temp) hne)] at hlookup

theorem Unknowing.step (h : Unknowing known locals locals') {step step' : Step}
    (hmade : step'.made? = step.made?)
    (hwords : ∀ t n type, known.lookup t = some n →
      step.made? = some (.temp t, type) → type = .i32)
    (block index index' : Nat) :
    Unknowing known (step.after locals block index)
      (step'.after locals' block index') where
  words t n hlookup := by
    rw [localType_after]
    cases hstep : step.made? with
    | none => exact h.words t n hlookup
    | some p =>
      obtain ⟨d, type⟩ := p
      by_cases heq : .temp t = d
      · simp only [if_pos heq]
        rw [hwords t n type hlookup (heq ▸ hstep)]
      · simpa only [if_neg heq] using h.words t n hlookup
  others v hv := by
    rw [localType_after, localType_after, hmade]
    cases step.made? with
    | none => exact h.others v hv
    | some p => simp only [h.others v hv]

theorem emitInstrs_fold {block index : Nat} {is : List Code.Instr} {r : Emitted}
    (hlocals : Unknowing known locals locals')
    (hspares : is.Pairwise (SparesWord s))
    (hknown : ∀ t n, known.lookup t = some n → ∀ j ∈ is, j.result = some (.temp t) →
      CallsWord s j)
    (h : emitInstrs s ret block locals index is = .ok r) (index' : Nat) :
    ∃ r', emitInstrs s ret block locals' index' (Fold.instrs known is).instrs = .ok r' ∧
      Unknowing (Fold.instrs known is).known r.locals r'.locals := by
  induction is generalizing known locals locals' index index' r with
  | nil =>
    cases h
    exact ⟨_, rfl, hlocals⟩
  | cons i rest ih =>
    obtain ⟨hfirst, hlater⟩ := List.pairwise_cons.mp hspares
    obtain ⟨step, next, r₁, hstep, hrest, hr₁⟩ := emitInstrs_cons h
    rw [← hr₁]
    cases heval : Fold.evaluate? (Fold.substitute known i) with
    | some p =>
      obtain ⟨t, n⟩ := p
      have hmade := made?_of_evaluate? hlocals heval hstep
      obtain ⟨op, left, right, rfl⟩ := Fold.binary_of_evaluate? heval
      simp only [Fold.instrs, heval]
      refine ih (hlocals.fold hmade n block index) hlater ?_ hrest index'
      intro t' n' hlookup j hj hresult
      by_cases heq : t' = t
      · exact hfirst j hj op t left right rfl (heq ▸ hresult)
      · rw [List.lookup_cons, beq_false_of_ne heq] at hlookup
        exact hknown t' n' hlookup j (List.mem_cons_of_mem _ hj) hresult
    | none =>
      obtain ⟨step', hstep', hmade⟩ :=
        emitInstr_substitute (fun v _ => hlocals.matches_replace v) hstep
      simp only [Fold.instrs, heval]
      refine exists_emitInstrs_cons hstep' fun next' => ?_
      refine ih (hlocals.step hmade ?_ block index index') hlater ?_ hrest next'
      · intro t n type hlookup hsome
        refine type_of_callsWord
          (hknown t n hlookup i List.mem_cons_self ?_) hstep hsome
        rw [← result_of_emitInstr hstep, hsome, Option.map_some]
      · exact fun t n hlookup j hj => hknown t n hlookup j (List.mem_cons_of_mem _ hj)

theorem emitBlocks_fold {name : String} {block : Nat} {bs : List Code.Block}
    {out : List Block} (hlocals : Unknowing known locals locals')
    (hspares : (bs.flatMap (·.instrs)).Pairwise (SparesWord s))
    (hknown : ∀ t n, known.lookup t = some n → ∀ j ∈ bs.flatMap (·.instrs),
      j.result = some (.temp t) → CallsWord s j)
    (h : emitBlocks s name ret locals block bs = .ok out) :
    ∃ out', emitBlocks s name ret locals' block (Fold.blocks known bs).1 =
      .ok out' := by
  induction bs generalizing known locals locals' block out with
  | nil => exact ⟨[], rfl⟩
  | cons b bs ih =>
    rw [List.flatMap_cons] at hspares hknown
    obtain ⟨hspares, hlater, hacross⟩ := List.pairwise_append.mp hspares
    obtain ⟨r, rest, hr, hrest, -⟩ := emitBlocks_cons_eq_ok.mp h
    obtain ⟨r', hr', hlocals⟩ := emitInstrs_fold hlocals hspares
      (fun t n hlookup j hj => hknown t n hlookup j (List.mem_append_left _ hj)) hr 0
    have hmore : ∀ t n, (Fold.instrs known b.instrs).known.lookup t = some n →
        ∀ j ∈ bs.flatMap (·.instrs), j.result = some (.temp t) → CallsWord s j := by
      intro t n hlookup j hj
      rcases Fold.known_cases hlookup with hlookup | ⟨op, left, right, hmem⟩
      · exact hknown t n hlookup j (List.mem_append_right _ hj)
      · exact hacross _ hmem j hj op t left right rfl
    obtain ⟨rest', hrest'⟩ := ih hlocals hlater hmore hrest
    exact ⟨_, emitBlocks_cons_eq_ok.mpr ⟨r', rest', hr', hrest', rfl⟩⟩

end

/-! ## Elimination -/

section
variable {s : Surroundings} {ret : Ty} {locals locals' : Locals}

/-- Code can still be emitted when instructions are gone whose results are not
among `values`, if it reads nothing else. -/
theorem emitInstrs_filter {values : List Value} {block index : Nat}
    {is : List Code.Instr} {r : Emitted}
    (hlocals : ∀ v ∈ values, localType locals' v = localType locals v)
    (hreads : ∀ i ∈ is, ∀ v ∈ i.operands, v.isAbsent = false →
      v.isConstant = false → v ∈ values)
    (h : emitInstrs s ret block locals index is = .ok r) (index' : Nat) :
    ∃ r', emitInstrs s ret block locals' index' (is.filter (stays values)) =
      .ok r' := by
  induction is generalizing locals locals' index index' r with
  | nil => exact ⟨_, rfl⟩
  | cons i rest ih =>
    obtain ⟨hi, hreads⟩ := List.forall_mem_cons.mp hreads
    obtain ⟨step, next, r₁, hstep, hrest, -⟩ := emitInstrs_cons h
    cases hstays : stays values i with
    | true =>
      rw [List.filter_cons_of_pos hstays]
      have hmatches : ∀ v ∈ i.operands,
          Matches s locals locals' v (Fold.replace [] v) := by
        intro v hv
        rw [Fold.replace_nil]
        exact matches_of_localType fun habsent hconstant =>
          hlocals v (hi v hv habsent hconstant)
      obtain ⟨step', hstep', hmade⟩ := emitInstr_substitute hmatches hstep
      rw [Fold.substitute_nil] at hstep'
      have hafter : ∀ v ∈ values, localType (step'.after locals' block index') v =
          localType (step.after locals block index) v := by
        intro v hv
        rw [localType_after, localType_after, hmade, hlocals v hv]
      obtain ⟨r', hr', -⟩ :=
        exists_emitInstrs_cons (P := fun _ => True) hstep' fun next' =>
          (ih hafter hreads hrest next').imp fun _ hr => ⟨hr, trivial⟩
      exact ⟨r', hr'⟩
    | false =>
      rw [List.filter_cons_of_neg (by simp [hstays])]
      refine ih (fun v hv => ?_) hreads hrest index'
      -- What goes away makes nothing that is read.
      have hresult : i.result ≠ some v := by
        intro hresult
        simp [stays, hresult, hv] at hstays
      rw [localType_after, hlocals v hv]
      cases hmade : step.made? with
      | none => rfl
      | some p =>
        have hother : v ≠ p.1 := by
          rintro rfl
          exact hresult (by rw [← result_of_emitInstr hstep, hmade, Option.map_some])
        simp only [if_neg hother]

theorem emitInstrs_sweepAll {block index : Nat} {is : List Code.Instr}
    (h : ∃ r, emitInstrs s ret block locals index is = .ok r) :
    ∃ r, emitInstrs s ret block locals index (sweepAll is).1 = .ok r := by
  refine DeadCode.sweepAll_keeps (P := fun is =>
    ∃ r, emitInstrs s ret block locals index is = .ok r) ?_ h
  rintro is ⟨r, hr⟩
  show ∃ r, emitInstrs s ret block locals index (is.filter (stays (used is))) = .ok r
  refine emitInstrs_filter (fun _ _ => rfl)
    (fun i hi v hv habsent hconstant => ?_) hr index
  rw [used, List.mem_filter, habsent, hconstant]
  exact ⟨List.mem_flatMap.mpr ⟨i, hi, hv⟩, rfl⟩

end

/-! ## Modules -/

section
variable {s : Surroundings} {ret : Ty} {locals : Locals}

/-- Whether the code of a function can be emitted. -/
def CanEmit (s : Surroundings) (f : Code.Function) : Prop :=
  ∃ out, emitBlocks s f.name f.ret (parameters f) 0 f.blocks = .ok out

theorem CanEmit.emitInstr {f : Code.Function} (h : CanEmit s f) {i : Code.Instr}
    (hi : i ∈ f.instrs) : ∃ locals step, emitInstr s f.ret locals i = .ok step := by
  obtain ⟨b, hb, hi⟩ := List.mem_flatMap.mp hi
  suffices hblocks : ∀ {locals block bs out},
      emitBlocks s f.name f.ret locals block bs = .ok out → b ∈ bs →
      ∃ locals step, Target.emitInstr s f.ret locals i = .ok step
        from hblocks h.choose_spec hb
  intro locals block bs out hout hmem
  induction bs generalizing locals block out with
  | nil => cases hmem
  | cons c bs ih =>
    obtain ⟨r, rest, hr, hrest, -⟩ := emitBlocks_cons_eq_ok.mp hout
    rcases List.mem_cons.mp hmem with rfl | hmem
    · exact emitInstr_of_mem hr hi
    · exact ih hrest hmem

theorem exists_defineAll_iff {fs : List Code.Function} {gs : List Function}
    (hlength : gs.length = fs.length) :
    (∃ out, defineAll s fs gs = .ok out) ↔ ∀ f ∈ fs, f.isExternal = false →
      CanEmit s f := by
  induction fs generalizing gs with
  | nil =>
    obtain rfl := List.length_eq_zero_iff.mp hlength
    simp [defineAll, pure, Except.pure]
  | cons f fs ih =>
    obtain ⟨g, gs, rfl⟩ := List.exists_cons_of_length_eq_add_one hlength
    have hrest := ih (Nat.succ.inj hlength)
    have hfirst : (∃ out, define s f g = .ok out) ↔
        (f.isExternal = false → CanEmit s f) := by
      rw [define]
      cases f.isExternal with
      | true => simp [pure, Except.pure]
      | false => simp [CanEmit, bind_eq_ok, pure, Except.pure]
    rw [List.forall_mem_cons, ← hrest, ← hfirst, defineAll]
    simp [bind_eq_ok, pure, Except.pure]

/-- A module can be emitted just if its functions can be declared and have
code that can be emitted. -/
theorem exists_emit_iff {m : Code.Module} :
    (∃ t, m.emit = .ok t) ↔ (∃ gs, declare [] m.functions = .ok gs) ∧
      ∀ f ∈ m.functions, f.isExternal = false → CanEmit (surroundings m) f := by
  rw [Code.Module.emit]
  cases hdeclare : declare [] m.functions with
  | error e => simp [throw, throwThe, MonadExceptOf.throw]
  | ok gs =>
    obtain ⟨rfl, -, -⟩ := eq_of_declare hdeclare
    have hlength : (m.functions.map header).length = m.functions.length :=
      List.length_map _
    rw [← exists_defineAll_iff hlength]
    simp [bind_eq_ok, pure, Except.pure, surroundings]

theorem terminator_of_emitInstr {i : Code.Instr} (hret : i.isTerminator = true)
    {step : Step} (h : emitInstr s ret locals i = .ok step) :
    ∃ t, step = .terminator t := by
  cases i with
  | ret value =>
    cases value with
    | none =>
      cases h
      exact ⟨_, rfl⟩
    | some value =>
      rw [emitInstr] at h
      split at h
      · cases h
        exact ⟨_, rfl⟩
      · obtain ⟨o, -, h⟩ := bind_eq_ok.mp h
        cases h
        exact ⟨_, rfl⟩
  | _ => cases hret

theorem terminator_of_emitInstrs {block index : Nat} {is : List Code.Instr}
    {r : Emitted} (h : emitInstrs s ret block locals index is = .ok r)
    (hret : ∃ i ∈ is, i.isTerminator = true) : r.terminator.isSome := by
  induction is generalizing locals index r with
  | nil => simp at hret
  | cons i rest ih =>
    obtain ⟨step, hstep, h⟩ := bind_eq_ok.mp h
    cases step with
    | terminator t =>
      obtain ⟨r', -, h⟩ := bind_eq_ok.mp h
      cases h
      simp
    | instr out dest =>
      obtain ⟨r', hr', h⟩ := bind_eq_ok.mp h
      cases h
      show r'.terminator.isSome
      refine ih hr' ?_
      obtain ⟨j, hj, hjret⟩ := hret
      rcases List.mem_cons.mp hj with rfl | hj
      · obtain ⟨t, ht⟩ := terminator_of_emitInstr hjret hstep
        cases ht
      · exact ⟨j, hj, hjret⟩

theorem ended_of_emitBlocks {name : String} {block : Nat} {bs : List Code.Block}
    {out : List Block} (h : emitBlocks s name ret locals block bs = .ok out)
    (hclosed : ∀ b ∈ bs, Code.Closed b.instrs) :
    ∀ b ∈ out, b.terminator.isSome := by
  induction bs generalizing locals block out with
  | nil =>
    cases h
    simp
  | cons b bs ih =>
    obtain ⟨⟨init, value, hb, -⟩, hclosed⟩ := List.forall_mem_cons.mp hclosed
    obtain ⟨r, rest, hr, hrest, rfl⟩ := emitBlocks_cons_eq_ok.mp h
    refine List.forall_mem_cons.mpr ⟨?_, ih hrest hclosed⟩
    exact terminator_of_emitInstrs hr ⟨.ret value, by simp [hb], rfl⟩

theorem ended_of_defineAll {fs : List Code.Function} {gs out : List Function}
    (h : defineAll s fs gs = .ok out)
    (hclosed : ∀ f ∈ fs, ∀ b ∈ f.blocks, Code.Closed b.instrs)
    (hgs : ∀ g ∈ gs, g.IsEnded) : ∀ g ∈ out, g.IsEnded := by
  induction fs generalizing gs out with
  | nil =>
    simp only [defineAll] at h
    cases h
    simp
  | cons f fs ih =>
    cases gs with
    | nil =>
      cases h
      simp
    | cons g gs =>
      obtain ⟨hf, hfs⟩ := List.forall_mem_cons.mp hclosed
      obtain ⟨hg, hgs⟩ := List.forall_mem_cons.mp hgs
      obtain ⟨first, hfirst, h⟩ := bind_eq_ok.mp h
      obtain ⟨rest, hrest, h⟩ := bind_eq_ok.mp h
      cases h
      refine List.forall_mem_cons.mpr ⟨?_, ih hrest hfs hgs⟩
      rw [define] at hfirst
      split at hfirst
      · cases hfirst
        exact hg
      · obtain ⟨blocks, hblocks, hfirst⟩ := bind_eq_ok.mp hfirst
        cases hfirst
        exact ended_of_emitBlocks hblocks hf

/-- If all blocks are closed, what is emitted has a text. -/
theorem exists_targetText {m : Code.Module} {t : Module} (h : m.emit = .ok t)
    (hclosed : ∀ f ∈ m.functions, ∀ b ∈ f.blocks, Code.Closed b.instrs) :
    ∃ text, m.targetText = .ok text := by
  have hended : ∀ g ∈ t.functions, g.IsEnded := by
    rw [Code.Module.emit] at h
    split at h
    · cases h
    · next hdeclare =>
      obtain ⟨rfl, -, -⟩ := eq_of_declare hdeclare
      obtain ⟨functions, hfunctions, h⟩ := bind_eq_ok.mp h
      cases h
      refine ended_of_defineAll hfunctions hclosed fun g hg => ?_
      obtain ⟨f, -, rfl⟩ := List.mem_map.mp hg
      simp [Function.IsEnded, header]
  obtain ⟨text, htext⟩ := Module.print_ok hended
  exact ⟨text, by simp [Code.Module.targetText, h, htext, Except.mapError]⟩

end

end Straightline.Target
