import Mathlib
import Straightline.Proofs.Sequences
import Straightline.Workbench

/-!
# What holds of every function that was put together at the workbench

A step that builds, as opposed to one that runs passes, adds a function or
changes one in a few ways: it marks it as external or not, adds a block, makes a
temporary, or makes an instruction and adds it to a block. A property of
functions that these changes keep is an invariant (`IsInvariant`), and holds of
all functions after any steps that build (`IsInvariant.carryOut`).

One such property is that the builder is the one who hands out temporaries
(`IsNumbered`): no two instructions that it made have the same one, and the
result of arithmetic has the type of the left side. Calls that were put together
by hand are not made by the builder; they may make their result in any value.
-/

namespace Straightline

open Code Optimize

/-! ## Temporaries of the builder -/

/-- The temporary that an instruction makes, unless it is a call. -/
def Code.Instr.made? : Instr → Option Temp
  | .alloca dest _ => some dest
  | .load dest _ => some dest
  | .binary _ dest _ _ => some dest
  | _ => none

/-- Whether an order leaves it to the builder to make temporaries. -/
def Code.Order.isPlain : Order → Bool
  | .ready i => i.made?.isNone
  | _ => true

namespace Workbench

/-- Whether a step leaves the passes alone. -/
def Step.builds : Step → Bool
  | .pass .. | .optimize | .optimizeFunction .. => false
  | _ => true

/-! ## Actions that keep a property -/

section Keeps

variable {α β : Type} {P : Workbench → Prop} {Q : α → Prop} {R : β → Prop}

/-- Whether an action that is given a workbench as `P` says leaves it as `P`
says, and gives what `Q` says. -/
def Keeps (P : Workbench → Prop) (x : Bench α) (Q : α → Prop) : Prop :=
  ∀ w, P w → ∀ a w', x w = .ok (a, w') → P w' ∧ Q a

theorem Keeps.pure {a : α} (h : Q a) : Keeps P (pure a) Q := by
  intro w hw _ _ heq
  cases heq
  exact ⟨hw, h⟩

theorem Keeps.imp {x : Bench α} {Q' : α → Prop} (hx : Keeps P x Q)
    (h : ∀ a, Q a → Q' a) : Keeps P x Q' := by
  intro w hw a w' heq
  obtain ⟨hw', ha⟩ := hx w hw a w' heq
  exact ⟨hw', h a ha⟩

theorem Keeps.bind {x : Bench α} {next : α → Bench β} (hx : Keeps P x Q)
    (hnext : ∀ a, Q a → Keeps P (next a) R) : Keeps P (x >>= next) R := by
  intro w hw b w' h
  obtain ⟨⟨a, v⟩, ha, hb⟩ := bind_eq_ok.mp h
  obtain ⟨hv, hqa⟩ := hx w hw a v ha
  exact hnext a hqa v hv b w' hb

theorem Keeps.get : Keeps P (get : Bench Workbench) P := by
  intro w hw _ _ heq
  cases heq
  exact ⟨hw, hw⟩

theorem Keeps.modify {change : Workbench → Workbench} (h : ∀ w, P w → P (change w)) :
    Keeps P (modify change : Bench Unit) fun _ => True := by
  intro w hw _ _ heq
  cases heq
  exact ⟨h w hw, trivial⟩

theorem Keeps.set {w : Workbench} (h : P w) :
    Keeps P (set w : Bench PUnit) fun _ => True := by
  intro _ _ _ _ heq
  cases heq
  exact ⟨h, trivial⟩

theorem Keeps.modifyGet {change : Workbench → α × Workbench}
    (h : ∀ w, P w → P (change w).2) :
    Keeps P (modifyGet change : Bench α) fun _ => True := by
  intro w hw a w' heq
  have hpair : change w = (a, w') := Except.ok.inj heq
  have hw' := h w hw
  rw [hpair] at hw'
  exact ⟨hw', trivial⟩

theorem Keeps.lift (x : Except Fault α) :
    Keeps P (liftM x : Bench α) fun a => x = .ok a := by
  intro w hw a w' h
  obtain ⟨a', ha', heq⟩ := bind_eq_ok.mp h
  cases heq
  exact ⟨hw, ha'⟩

theorem Keeps.throw (f : Fault) : Keeps P (throw f : Bench α) Q := by
  intro w _ a w' h
  cases h

theorem Keeps.need (o : Option α) : Keeps P (need o) fun a => o = some a := by
  cases o with
  | none => exact .throw _
  | some a => exact .pure rfl

theorem Keeps.mapM {γ : Type} {act : γ → Bench α} {Q : α → Prop}
    (h : ∀ c, Keeps P (act c) Q) (cs : List γ) :
    Keeps P (cs.mapM act) fun _ => True := by
  induction cs with
  | nil =>
    rw [List.mapM_nil]
    exact .pure trivial
  | cons c cs ih =>
    rw [List.mapM_cons]
    exact .bind (h c) fun _ _ => .bind ih fun _ _ => .pure trivial

theorem Keeps.forIn {γ : Type} {act : γ → Bench Unit}
    (h : ∀ c, Keeps P (act c) fun _ => True) (cs : List γ) :
    Keeps P (forIn cs PUnit.unit fun c _ => do act c; return .yield PUnit.unit)
      fun _ => True := by
  induction cs with
  | nil =>
    rw [List.forIn_nil]
    exact .pure trivial
  | cons c cs ih =>
    rw [List.forIn_cons]
    refine .bind (Q := fun step => step = .yield PUnit.unit) ?_ ?_
    · exact .bind (h c) fun _ _ => .pure rfl
    · rintro _ rfl
      exact ih

end Keeps

/-! ## Invariants of functions -/

/-- Whether every function on the workbench is as `P` says. -/
def AllFunctions (P : Function → Prop) (w : Workbench) : Prop :=
  ∀ f ∈ w.module.functions, P f

/-- A property of functions that holds of a new one, and that survives whatever
a step may do to a function. -/
structure IsInvariant (P : Function → Prop) : Prop where
  declared (m : Module) (name : String) (ret : Ty) (params : List (String × Ty))
    (isExternal : Bool) : P (m.declared name ret params isExternal)
  external {f : Function} (value : Bool) : P f → P { f with isExternal := value }
  newBlock {f : Function} (label : String) : P f → P (f.newBlock label)
  newTemp {f : Function} (name : String) (type : Ty) : P f → P (f.newTemp name type).2
  /-- The block of a new instruction may be gone. -/
  make {f f' : Function} {order : Order} {i : Instr} : order.isPlain →
    order.make f = .ok (i, f') → P f → P f'
  push {f f' : Function} {order : Order} {i : Instr} (index : Nat) :
    order.isPlain → order.make f = .ok (i, f') → P f → P (f'.pushAt index i)

section Actions

variable {P : Function → Prop}

theorem keeps_functionOf (handle : String) :
    Keeps (AllFunctions P) (functionOf handle) P := by
  refine .bind .get fun w hw => .bind (.need _) fun place _ => ?_
  exact (Keeps.need _).imp fun f hf => hw f (List.mem_of_getElem? hf)

theorem keeps_putFunction {f : Function} (hf : P f) :
    Keeps (AllFunctions P) (putFunction f) fun _ => True := by
  refine .modify fun w hw g hg => ?_
  obtain ⟨place, hg⟩ := List.mem_iff_getElem?.mp hg
  simp only [Module.modify, List.getElem?_modify, Option.map_eq_map,
    Option.map_eq_some_iff] at hg
  obtain ⟨old, hold, rfl⟩ := hg
  split
  · exact hf
  · exact hw old (List.mem_of_getElem? hold)

theorem keeps_bindValue (handle : String) (v : Value) :
    Keeps (AllFunctions P) (bindValue handle v) fun _ => True :=
  .modify fun _ hw => hw

theorem keeps_bindValue? (handle : Option String) (v : Option Value) :
    Keeps (AllFunctions P) (bindValue? handle v) fun _ => True := by
  unfold bindValue?
  split
  · exact keeps_bindValue _ _
  · exact .pure trivial

theorem keeps_valueOf (o : Operand) :
    Keeps (AllFunctions P) (valueOf o) fun _ => True := by
  cases o with
  | int n => exact .pure trivial
  | absent => exact .pure trivial
  | handle handle =>
    refine .bind .get fun w _ => ?_
    split
    · exact .pure trivial
    · exact .bind (keeps_functionOf _) fun _ _ => .pure trivial
  | fresh kind name type id content => exact .modifyGet fun _ hw => hw

theorem keeps_valueOf? (o : Operand) :
    Keeps (AllFunctions P) (valueOf? o) fun _ => True :=
  .bind (keeps_valueOf o) fun _ _ => .pure trivial

theorem keeps_orderOf (entry : Entry) :
    Keeps (AllFunctions P) (orderOf entry) fun o => o.isPlain = true := by
  cases entry with
  | alloca name type => exact .pure rfl
  | load name type address => exact .bind (keeps_valueOf _) fun _ _ => .pure rfl
  | store value address =>
    exact .bind (keeps_valueOf _) fun _ _ =>
      .bind (keeps_valueOf _) fun _ _ => .pure rfl
  | binary op left right =>
    exact .bind (keeps_valueOf _) fun _ _ =>
      .bind (keeps_valueOf _) fun _ _ => .pure rfl
  | call function args =>
    exact .bind (keeps_functionOf _) fun _ _ =>
      .bind (.mapM keeps_valueOf _) fun _ _ => .pure rfl
  | ret value => exact .bind (keeps_valueOf? _) fun _ _ => .pure rfl
  | callAny callee args dest =>
    refine .bind (keeps_valueOf? _) fun _ _ => .bind (keeps_valueOf _) fun _ _ => ?_
    exact .bind (.mapM keeps_valueOf _) fun _ _ => .pure rfl
  | foreign text sort dest => exact .bind (keeps_valueOf? _) fun _ _ => .pure rfl

end Actions

namespace IsInvariant

variable {P : Function → Prop} (hP : IsInvariant P)

include hP

theorem addInstr (block : String) (entry : Entry) (handle : Option String) :
    Keeps (AllFunctions P) (addInstr block entry handle) fun _ => True := by
  refine .bind (keeps_orderOf entry) fun order hplain => .bind .get fun w hw =>
    .bind (.need _) fun b _ => ?_
  refine .bind (.need _) fun f hf => .bind (.lift _) fun ⟨i, f'⟩ hmake => ?_
  have hf := hw f (List.mem_of_getElem? hf)
  refine .bind (Q := fun _ => True) ?_ fun _ _ => ?_
  · split
    · exact keeps_putFunction (hP.push _ hplain hmake hf)
    · exact keeps_putFunction (hP.make hplain hmake hf)
  · split
    · exact .bind (keeps_bindValue? _ _) fun _ _ => .pure trivial
    · exact .throw _

theorem addFunction (handle name : String) (ret : Ty) (params : List ParamEntry)
    (isExternal : Bool) :
    Keeps (AllFunctions P) (addFunction handle name ret params isExternal) fun _ =>
      True := by
  refine .bind .get fun w hw => .bind (.set ?_) fun _ _ => ?_
  · intro f hf
    obtain hf | hf := List.mem_append.mp hf
    · exact hw f hf
    · exact List.mem_singleton.mp hf ▸ hP.declared ..
  · exact .bind (.forIn (fun _ => keeps_bindValue? _ _) _) fun _ _ => .pure trivial

/-- A step that builds keeps an invariant of functions. -/
theorem perform {step : Step} (h : step.builds = true) :
    Keeps (AllFunctions P) (perform step) fun _ => True := by
  cases step with
  | function handle name ret params isExternal =>
    exact hP.addFunction handle name ret params isExternal
  | setExternal function value =>
    refine .bind (keeps_functionOf function) fun f hf => ?_
    exact .bind (keeps_putFunction (hP.external value hf)) fun _ _ => .pure trivial
  | find name => exact .bind .get fun _ _ => .pure trivial
  | block function label handle =>
    refine .bind (keeps_functionOf function) fun f hf => ?_
    refine .bind (keeps_putFunction (hP.newBlock label hf)) fun _ _ => ?_
    exact .bind (.modify fun _ hw => hw) fun _ _ => .pure trivial
  | text data handle =>
    refine .bind (.modifyGet fun _ hw => hw) fun _ _ => ?_
    exact .bind (keeps_bindValue _ _) fun _ _ => .pure trivial
  | temp function name type handle =>
    refine .bind (keeps_functionOf function) fun f hf => ?_
    refine .bind (keeps_putFunction (hP.newTemp name type hf)) fun _ _ => ?_
    exact .bind (keeps_bindValue _ _) fun _ _ => .pure trivial
  | value operand handle =>
    refine .bind (keeps_valueOf? operand) fun _ _ => .bind (.need _) fun _ _ => ?_
    exact .bind (keeps_bindValue? _ _) fun _ _ => .pure trivial
  | instr block entry handle => exact hP.addInstr block entry handle
  | verify => exact .bind .get fun _ _ => .bind (.lift _) fun _ _ => .pure trivial
  | print => exact .bind .get fun _ _ => .pure trivial
  | printFunction function => exact .bind (keeps_functionOf _) fun _ _ => .pure trivial
  | blocks function => exact .bind (keeps_functionOf _) fun _ _ => .pure trivial
  | emit =>
    refine .bind .get fun w _ => ?_
    split
    · exact .pure trivial
    · exact .pure trivial
    · exact .throw _
  | newOptimizer => exact .bind (.modify fun _ hw => hw) fun _ _ => .pure trivial
  | addPass pass => exact .bind (.modify fun _ hw => hw) fun _ _ => .pure trivial
  | setLimit limit => exact .bind (.modify fun _ hw => hw) fun _ _ => .pure trivial
  | setLogging on => exact .bind (.modify fun _ hw => hw) fun _ _ => .pure trivial
  | pass pass function => cases h
  | optimize => cases h
  | optimizeFunction function => cases h

end IsInvariant

/-! ## Whole runs -/

/-- The workbench after some steps. -/
def carryOut : Workbench → List Step → Except Fault Workbench
  | w, [] => .ok w
  | w, step :: rest => do
    let (_, w) ← perform step w
    carryOut w rest

theorem IsInvariant.carryOut {P : Function → Prop} (hP : IsInvariant P)
    {w w' : Workbench} {steps : List Step}
    (hbuilds : ∀ step ∈ steps, step.builds = true) (h : carryOut w steps = .ok w')
    (hw : AllFunctions P w) : AllFunctions P w' := by
  induction steps generalizing w with
  | nil =>
    cases h
    exact hw
  | cons step rest ih =>
    obtain ⟨hstep, hrest⟩ := List.forall_mem_cons.mp hbuilds
    obtain ⟨⟨answer, v⟩, hv, h⟩ := bind_eq_ok.mp h
    exact ih hrest h (hP.perform hstep w hw answer v hv).1

end Workbench

/-! ## What the builder makes -/

namespace Code

/-- Whether the temporaries of a function are handed out by the builder, calls
put together by hand apart. -/
structure Function.IsNumbered (f : Function) : Prop where
  fresh : ∀ t ∈ f.instrs.filterMap Instr.made?, t.id < f.temps
  nodup : (f.instrs.filterMap Instr.made?).Nodup
  types : ∀ op dest left right, .binary op dest left right ∈ f.instrs →
    dest.type = left.type

/-- What the builder does for a plain order: the function keeps its code, and a
temporary that is made is new. -/
structure Order.Makes (f : Function) (i : Instr) (f' : Function) : Prop where
  blocks : f'.blocks = f.blocks
  temps : f.temps ≤ f'.temps
  fresh : ∀ t ∈ i.made?, t.id = f.temps ∧ f.temps < f'.temps
  type : ∀ op dest left right, i = .binary op dest left right → dest.type = left.type

theorem Order.makes_of_make {f f' : Function} {order : Order} {i : Instr}
    (hplain : order.isPlain = true) (h : order.make f = .ok (i, f')) :
    Makes f i f' := by
  cases order with
  | alloca name type =>
    cases h
    exact ⟨rfl, Nat.le_succ _, by simp [Instr.made?], by simp⟩
  | load name type address =>
    cases h
    exact ⟨rfl, Nat.le_succ _, by simp [Instr.made?], by simp⟩
  | store value address =>
    cases h
    exact ⟨rfl, le_rfl, by simp [Instr.made?], by simp⟩
  | binary op left right =>
    rw [Order.make] at h
    split at h
    · cases h
    · cases h
      refine ⟨rfl, Nat.le_succ _, by simp [Instr.made?], ?_⟩
      rintro _ _ _ _ ⟨⟩
      rfl
  | call callee args =>
    rw [Order.make] at h
    split at h
    · cases h
    · cases h
      exact ⟨rfl, le_rfl, by simp [Instr.made?], by simp⟩
    · cases h
      exact ⟨rfl, Nat.le_succ _, by simp [Instr.made?], by simp⟩
  | ret value =>
    cases h
    exact ⟨rfl, le_rfl, by simp [Instr.made?], by simp⟩
  | ready j =>
    have hnone : j.made? = none := Option.isNone_iff_eq_none.mp hplain
    cases h
    refine ⟨rfl, le_rfl, by simp [hnone], ?_⟩
    rintro _ _ _ _ rfl
    cases hnone

/-- An instruction goes behind those of its block, or nowhere if
there is no such block. -/
theorem Function.instrs_pushAt (f : Function) (index : Nat) (i : Instr) :
    (f.pushAt index i).instrs = f.instrs ∨
      (f.pushAt index i).instrs.Perm (i :: f.instrs) := by
  suffices h : ∀ bs : List Block, let bs' := bs.modify index (·.push i)
      bs'.flatMap (·.instrs) = bs.flatMap (·.instrs) ∨
        (bs'.flatMap (·.instrs)).Perm (i :: bs.flatMap (·.instrs)) from h f.blocks
  intro bs
  induction bs generalizing index with
  | nil => exact .inl (by simp)
  | cons b bs ih =>
    cases index with
    | zero =>
      refine .inr ?_
      simp only [List.modify_zero_cons, List.flatMap_cons, Block.push,
        List.append_assoc, List.singleton_append]
      exact List.perm_middle
    | succ index =>
      rcases ih index with h | h
      · exact .inl (by simp [h])
      · refine .inr ?_
        simp only [List.modify_succ_cons, List.flatMap_cons]
        exact (h.append_left _).trans List.perm_middle

namespace Function.IsNumbered

theorem of_instrs {f f' : Function} (h : f.IsNumbered)
    (hinstrs : f'.instrs = f.instrs) (htemps : f.temps ≤ f'.temps) :
    f'.IsNumbered where
  fresh t ht := lt_of_lt_of_le (h.fresh t (hinstrs ▸ ht)) htemps
  nodup := hinstrs ▸ h.nodup
  types := hinstrs ▸ h.types

/-- With a new instruction, wherever it goes. -/
theorem push {f f' : Function} {i : Instr} (h : f.IsNumbered)
    (hmakes : Order.Makes f i f') (index : Nat) :
    (f'.pushAt index i).IsNumbered := by
  have hsame : f'.instrs = f.instrs :=
    congrArg (List.flatMap Block.instrs) hmakes.blocks
  rcases f'.instrs_pushAt index i with hinstrs | hperm
  · exact h.of_instrs (hinstrs.trans hsame) hmakes.temps
  · rw [hsame] at hperm
    have hmade := hperm.filterMap Instr.made?
    refine ⟨fun t ht => ?_, hmade.nodup_iff.mpr ?_, fun op dest left right hmem => ?_⟩
    · obtain ⟨j, hj, hjt⟩ := List.mem_filterMap.mp (hmade.mem_iff.mp ht)
      rcases List.mem_cons.mp hj with rfl | hj
      · obtain ⟨hid, hlt⟩ := hmakes.fresh t hjt
        exact hid ▸ hlt
      · exact lt_of_lt_of_le (h.fresh t (List.mem_filterMap.mpr ⟨j, hj, hjt⟩))
          hmakes.temps
    · cases hi : i.made? with
      | none => rw [List.filterMap_cons_none hi]; exact h.nodup
      | some t =>
        rw [List.filterMap_cons_some hi, List.nodup_cons]
        refine ⟨fun ht => ?_, h.nodup⟩
        exact absurd (h.fresh t ht) (by rw [(hmakes.fresh t hi).1]; exact lt_irrefl _)
    · rcases List.mem_cons.mp (hperm.mem_iff.mp hmem) with hi | hmem
      · exact hmakes.type op dest left right hi.symm
      · exact h.types op dest left right hmem

end Function.IsNumbered

/-- Whatever is done at the workbench, it is the builder who hands out temporaries. -/
theorem isInvariant_isNumbered : Workbench.IsInvariant Function.IsNumbered where
  declared m name ret params isExternal := ⟨by simp [Module.declared, Function.instrs],
    by simp [Module.declared, Function.instrs], by
      simp [Module.declared, Function.instrs]⟩
  external value h := h.of_instrs rfl le_rfl
  newBlock label h := h.of_instrs (by simp [Function.instrs, Function.newBlock]) le_rfl
  newTemp name type h := h.of_instrs rfl (Nat.le_succ _)
  make hplain hmake h :=
    have hmakes := Order.makes_of_make hplain hmake
    h.of_instrs (congrArg (List.flatMap Block.instrs) hmakes.blocks) hmakes.temps
  push index hplain hmake h := h.push (Order.makes_of_make hplain hmake) index

end Code

end Straightline
