import Mathlib
import Straightline.Code.Verify
import Straightline.Proofs.Code.Sound

/-!
# What verification accepts

`Function.check_eq_nil_iff` says what a function is like that verification finds
nothing wrong with: it is external and has no code, or it has code, all of its
blocks are closed, and the operands of every instruction fit. Sound modules are
of that kind (`Module.IsSound.verify`).
-/

namespace Straightline.Code

/-! ## Lists of findings -/

theorem flatten_mapM_eq_nil_iff {α β : Type} {l : List α}
    {f : α → Except Fault (List β)} :
    (do return (← l.mapM f).flatten : Except Fault (List β)) = .ok [] ↔
      ∀ a ∈ l, f a = .ok [] := by
  induction l with
  | nil => simp [pure, Except.pure, bind, Except.bind]
  | cons a l ih =>
    simp only [List.mapM_cons, List.forall_mem_cons]
    cases ha : f a with
    | error fault => simp [bind, Except.bind]
    | ok xs =>
      cases hl : l.mapM f with
      | error fault =>
        rw [hl] at ih
        simp only [bind, Except.bind, reduceCtorEq, false_iff] at ih ⊢
        exact fun h => ih h.2
      | ok xss =>
        rw [hl] at ih
        simp only [bind, Except.bind, pure, Except.pure, Except.ok.injEq,
          List.flatten_cons, List.append_eq_nil_iff] at ih ⊢
        rw [ih]

/-! ## Blocks -/

/-- Whether only the last of some instructions may be a return. -/
def EndsOnce (is : List Instr) : Prop := is.Pairwise fun i _ => i.isTerminator = false

theorem checkInstrs_eq_nil_iff {fn label : String} {is : List Instr} :
    checkInstrs fn label is = .ok [] ↔ (∀ i ∈ is, i.check = .ok none) ∧
      EndsOnce is := by
  induction is with
  | nil => simp [checkInstrs, EndsOnce, pure, Except.pure]
  | cons i rest ih =>
    rw [checkInstrs]
    by_cases hearly : (i.isTerminator && !rest.isEmpty) = true
    · -- An early return is a finding, and it is what the right side rules out.
      rw [if_pos hearly]
      simp only [Bool.and_eq_true, Bool.not_eq_true', List.isEmpty_eq_false_iff]
        at hearly
      obtain ⟨j, hj⟩ := List.exists_mem_of_ne_nil rest hearly.2
      simp only [pure, Except.pure, Except.ok.injEq, reduceCtorEq, false_iff, not_and]
      intro _ hends
      have := (List.pairwise_cons.mp hends).1 j hj
      rw [hearly.1] at this
      cases this
    · rw [if_neg hearly]
      have hfirst : ∀ j ∈ rest, i.isTerminator = false := by
        intro j hj
        cases hterm : i.isTerminator with
        | false => rfl
        | true => exact absurd (by simp [hterm, List.ne_nil_of_mem hj]) hearly
      rw [EndsOnce, List.pairwise_cons, and_iff_right hfirst,
        List.forall_mem_cons, and_assoc]
      change _ ↔ _ ∧ (∀ i ∈ rest, i.check = .ok none) ∧ EndsOnce rest
      rw [← ih]
      cases hi : i.check with
      | error fault => simp [bind, Except.bind]
      | ok e =>
        cases hrest : checkInstrs fn label rest with
        | error fault => cases e <;> simp [bind, Except.bind]
        | ok errors => cases e <;> simp [bind, Except.bind, pure, Except.pure]

theorem closed_iff {b : Block} :
    Closed b.instrs ↔ EndsOnce b.instrs ∧ b.isTerminated = true := by
  constructor
  · intro h
    refine ⟨?_, h.isTerminated⟩
    obtain ⟨init, value, heq, hinit⟩ := h
    rw [heq, EndsOnce, List.pairwise_append]
    refine ⟨?_, List.pairwise_singleton _ _, fun i hi _ _ => hinit i hi⟩
    exact List.Pairwise.imp_of_mem (fun hi _ _ => hinit _ hi)
      (List.pairwise_of_forall (fun _ _ => trivial))
  · rintro ⟨hends, hterm⟩
    rcases List.eq_nil_or_concat b.instrs with hnil | ⟨init, last, heq⟩
    · simp [Block.isTerminated, Block.terminator?, hnil] at hterm
    · rw [List.concat_eq_append] at heq
      have hlast : last.isTerminator = true := by
        simpa [Block.isTerminated, Block.terminator?, heq] using hterm
      cases last with
      | ret value =>
        rw [heq, EndsOnce, List.pairwise_append] at hends
        exact ⟨init, value, heq, fun i hi => hends.2.2 i hi _ List.mem_cons_self⟩
      | _ => cases hlast

theorem Block.check_eq_nil_iff {fn : String} {b : Block} :
    b.check fn = .ok [] ↔ (∀ i ∈ b.instrs, i.check = .ok none) ∧ Closed b.instrs := by
  rw [closed_iff, ← and_assoc, ← @checkInstrs_eq_nil_iff fn b.label b.instrs,
    Block.check]
  cases hcheck : checkInstrs fn b.label b.instrs with
  | error fault => simp [bind, Except.bind]
  | ok errors =>
    cases hterm : b.isTerminated <;> simp [bind, Except.bind, pure, Except.pure]

/-! ## Functions and modules -/

theorem Function.check_eq_nil_iff {f : Function} :
    f.check = .ok [] ↔ (f.blocks = [] ↔ f.isExternal = true) ∧
      ∀ b ∈ f.blocks, (∀ i ∈ b.instrs, i.check = .ok none) ∧ Closed b.instrs := by
  rw [Function.check]
  cases hext : f.isExternal with
  | true =>
    rw [if_pos rfl]
    cases f.blocks with
    | nil => simp [pure, Except.pure]
    | cons b rest => simp [pure, Except.pure]
  | false =>
    rw [if_neg Bool.false_ne_true]
    cases hblocks : f.blocks with
    | nil => simp [pure, Except.pure]
    | cons b rest =>
      rw [if_neg (by simp), flatten_mapM_eq_nil_iff]
      simp only [Block.check_eq_nil_iff]
      simp

theorem Module.verify_eq_nil_iff {m : Module} :
    m.verify = .ok [] ↔ ∀ f ∈ m.functions, f.check = .ok [] := flatten_mapM_eq_nil_iff

theorem Value.isAbsent_of_requireType {v : Value} {type : Ty}
    (h : v.requireType = .ok type) : v.isAbsent = false := by
  cases v with
  | absent => cases h
  | _ => rfl

/-! ## Sound modules -/

theorem Value.IsReady.requireType {texts : Nat} {past : List Temp} {v : Value}
    (h : v.IsReady texts past) : v.requireType = .ok v.type := by
  cases v with
  | absent => cases h
  | _ => rfl

theorem checkArgs_eq_none {texts : Nat} {past : List Temp} {args : List Value}
    (h : ∀ a ∈ args, a.IsReady texts past) (number : Nat) :
    checkArgs number args (args.map Value.type) = .ok none := by
  induction args generalizing number with
  | nil => rfl
  | cons a args ih =>
    rw [List.forall_mem_cons] at h
    simp [checkArgs, h.1.requireType, bind, Except.bind, ih h.2]

/-- The callees of a module are functions, with the parameter types that are listed. -/
theorem Module.mem_callees {m : Module} {callee : Value} {types : List Ty}
    (h : (callee, types) ∈ m.context.callees) :
    ∃ f ∈ m.functions, callee = f.value ∧ types = f.params.map (·.type) := by
  obtain ⟨f, hf, heq⟩ := List.mem_map.mp h
  cases heq
  exact ⟨f, hf, rfl, rfl⟩

theorem Instr.IsSound.check {m : Module} {past : List Temp} {i : Instr}
    (h : i.IsSound m.context past) : i.check = .ok none := by
  cases i with
  | alloca dest type => rfl
  | load dest address =>
    obtain ⟨hready, htype, _⟩ := h
    simp [Instr.check, hready.requireType, htype, bind, Except.bind, pure, Except.pure]
  | store value address =>
    obtain ⟨hvalue, haddress, htype⟩ := h
    simp [Instr.check, hvalue.requireType, haddress.requireType, htype, bind,
      Except.bind, pure, Except.pure]
  | binary op dest left right =>
    obtain ⟨_, hleft, hright, htypes⟩ := h
    simp [Instr.check, hleft.requireType, hright.requireType, htypes, bind,
      Except.bind, pure, Except.pure]
  | call dest callee args =>
    obtain ⟨_, hcallee, hargs⟩ := h
    obtain ⟨f, _, rfl, htypes⟩ := Module.mem_callees hcallee
    have hlength : args.length = f.params.length := by
      simpa using congrArg List.length htypes
    have hcheck := checkArgs_eq_none hargs 1
    rw [htypes] at hcheck
    simpa [Instr.check, Function.value, Value.requireType, Value.isAbsent,
      Value.type, Function.type, hlength, bind, Except.bind] using hcheck
  | ret value => rfl
  | foreign text sort dest => exact h.elim

theorem Module.IsSound.verify {m : Module} (h : m.IsSound) : m.verify = .ok [] := by
  rw [verify_eq_nil_iff]
  intro f hf
  have hsound := h.functions f hf
  rw [Function.check_eq_nil_iff]
  refine ⟨hsound.blocks, fun b hb => ⟨fun i hi => ?_, hsound.closed b hb⟩⟩
  have hmem : i ∈ f.instrs := List.mem_flatMap.mpr ⟨b, hb, hi⟩
  obtain ⟨past, hi⟩ := hsound.code.of_mem hmem
  exact hi.check

end Straightline.Code
