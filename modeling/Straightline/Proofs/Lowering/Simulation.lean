import Mathlib
import Straightline.Proofs.Lowering.Sound
import Straightline.Proofs.Meaning
import Straightline.Proofs.Sequences

/-!
# Lowered code does what the statements say

The run of lowered code is tied to the direct run of the statements it comes
from. `Tracks` says that the cells of the direct run are what memory has in the
slots of the variables. An expression leaves slots and events alone (`Leaves`)
and ends in the value that it means, or traps in the operation that traps
(`Mirrors`). Statements change cells and memory in step (`Simulates`). The code
behind the first return goes into other blocks, which are never run.
`compile_preserves_runs` puts bodies back into their modules.
-/

namespace Straightline.Lowering

open Code Draft Execution

/-! ## What expressions leave alone -/

/-- A value that code added to the draft does not make. -/
def Draft.IsPast (d : Draft) (v : Value) : Prop := ∀ t, v = .temp t → t ∈ made d.instrs

section
variable {d d' : Draft} {s s' s'' : Execution.State}

theorem Draft.Holds.isPast {v : Value} (h : d.Holds v) : d.IsPast v := by
  rintro t rfl
  exact h

theorem Draft.IsPast.grows {v : Value} (h : d.IsPast v) (hgrows : Grows d d') :
    d'.IsPast v := by
  rintro t rfl
  have hmade : d.Holds (.temp t) := h t rfl
  exact hmade.grows hgrows

theorem Draft.Grows.notMem_made (hgrows : Grows d d') {t : Temp}
    (ht : t ∉ made d'.instrs) : t ∉ made d.instrs := by
  intro hmem
  have hholds : d.Holds (.temp t) := hmem
  exact ht (hholds.grows hgrows)

/-- Two states that differ in what code added to the draft makes,
and in nothing else. -/
abbrev Leaves (d : Draft) (s s' : Execution.State) : Prop := Agree d.IsPast s s'

theorem Leaves.next (h : Leaves d s s') (hgrows : Grows d d')
    (h' : Leaves d' s' s'') : Leaves d s s'' :=
  h.trans (h'.mono fun _ hv => hv.grows hgrows)

theorem Leaves.write {t : Temp} (ht : t ∉ made d.instrs) (s : Execution.State)
    (x : Datum) : Leaves d s (s.write (.temp t) x) :=
  .write_of_not (fun hv => absurd (hv t rfl) ht) s x

/-- Cells that are what memory has in the slots of their names; string
constants are in place. -/
structure Tracks (texts : List (List UInt8)) (d : Draft) (s : Execution.State)
    (cells : Meaning.Cells) : Prop where
  slots : ∀ x slot, d.scope.storage? x = some slot →
    s.values (.temp slot) = .slot slot ∧ cells x = some (s.memory (.slot slot))
  texts : ∀ i bytes, texts[i]? = some bytes → s.values (.text i) = .text bytes

theorem Tracks.leaves {callees : List (Value × List Ty)} {texts : List (List UInt8)}
    {cells : Meaning.Cells} (h : Tracks texts d s cells) (hd : d.IsSound callees)
    (hscope : d'.scope = d.scope) (hleaves : Leaves d s s') :
    Tracks texts d' s' cells where
  slots x slot hslot := by
    rw [hscope] at hslot
    obtain ⟨haddress, hcell⟩ := h.slots x slot hslot
    have hmade : d.Holds (.temp slot) := (hd.slots x slot hslot).1
    rw [hleaves.values _ hmade.isPast, hleaves.memory]
    exact ⟨haddress, hcell⟩
  texts i bytes hi := by
    rw [hleaves.values _ (by rintro t ⟨⟩)]
    exact h.texts i bytes hi

end

/-! ## Expressions -/

/-- A direct evaluation and a run of code that come to the same: a value, read
off the last state by `get`, or a trap. `places` says which operations of the
code belong to which places of the expression. -/
def Mirrors {α π : Type} (d : Draft) (s : Execution.State) (get : Execution.State → α)
    (places : List (Temp × π)) :
    Except (Outcome π) α → Except (Run Event Temp) Execution.State → Prop
  | .ok a, .ok s' => Leaves d s s' ∧ get s' = a
  | .error (.trapped p), .error r =>
    ∃ t, r = { events := s.events, outcome := .trapped t } ∧ (t, p) ∈ places
  | _, _ => False

section
variable {α β π ρ : Type} {w : World} {d d₁ : Draft} {s s₁ : Execution.State}
  {get : Execution.State → α} {get' : Execution.State → β} {places : List (Temp × π)}

/-- A part seen from the whole: its places have other names there. -/
theorem Mirrors.within {m : Except (Outcome π) α}
    {x : Except (Run Event Temp) Execution.State} (h : Mirrors d s get places m x)
    {f : π → ρ} {places' : List (Temp × ρ)}
    (hplaces : ∀ t p, (t, p) ∈ places → (t, f p) ∈ places') :
    Mirrors d s get places' (m.mapError (.map f)) x := by
  match m, x, h with
  | .ok a, .ok s', h => exact h
  | .error (.trapped p), .error r, h =>
    obtain ⟨t, hr, hmem⟩ := h
    exact ⟨t, hr, hplaces t p hmem⟩

theorem Mirrors.mono {m : Except (Outcome π) α}
    {x : Except (Run Event Temp) Execution.State} (h : Mirrors d s get places m x)
    {places' : List (Temp × π)} (hplaces : ∀ y ∈ places, y ∈ places') :
    Mirrors d s get places' m x := by
  match m, x, h with
  | .ok a, .ok s', h => exact h
  | .error (.trapped p), .error r, h =>
    obtain ⟨t, hr, hmem⟩ := h
    exact ⟨t, hr, hplaces _ hmem⟩

/-- A later part seen from the start. -/
theorem Mirrors.after {m : Except (Outcome π) α}
    {x : Except (Run Event Temp) Execution.State} (h : Mirrors d₁ s₁ get places m x)
    (hgrows : Grows d d₁) (hleaves : Leaves d s s₁) :
    Mirrors d s get places m x := by
  match m, x, h with
  | .ok a, .ok s', h => exact ⟨hleaves.next hgrows h.1, h.2⟩
  | .error (.trapped p), .error r, h =>
    obtain ⟨t, hr, hmem⟩ := h
    exact ⟨t, hleaves.events ▸ hr, hmem⟩

/-- Two parts one after the other. -/
theorem Mirrors.bind {m : Except (Outcome π) α} {next : α → Except (Outcome π) β}
    {is js : List Instr} (first : Mirrors d s get places m (exec w s is))
    (rest : ∀ a s₁, Leaves d s s₁ → get s₁ = a →
      Mirrors d s get' places (next a) (exec w s₁ js)) :
    Mirrors d s get' places (m.bind next) (exec w s (is ++ js)) := by
  rw [exec_append]
  cases hx : exec w s is with
  | ok s₁ =>
    rw [hx] at first
    match m, first with
    | .ok a, first => exact rest a s₁ first.1 first.2
  | error r =>
    rw [hx] at first
    match m, first with
    | .error (.trapped p), first => exact first

/-- What is read off the last state may be put together from what a part gave. -/
theorem Mirrors.map {m : Except (Outcome π) α}
    {x : Except (Run Event Temp) Execution.State} (h : Mirrors d s get places m x)
    (f : α → β) (hget : ∀ s', Leaves d s s' → get' s' = f (get s')) :
    Mirrors d s get' places (m.bind fun a => .ok (f a)) x := by
  match m, x, h with
  | .ok a, .ok s', h => exact ⟨h.1, (hget s' h.1).trans (congrArg f h.2)⟩
  | .error (.trapped p), .error r, h => exact h

end

/-- Code that computes the value of an expression, with one operation
for every operation in it. -/
structure Computes {α π : Type} (w : World) (texts : List (List UInt8)) (d : Draft)
    (meaning : Meaning.Cells → Except (Outcome π) α) (places : List π)
    (get : Execution.State → α) (is : List Instr) : Prop where
  slotless : slots is = []
  count : (operations is).length = places.length
  mirrors : ∀ s cells, Tracks texts d s cells →
    Mirrors d s get ((operations is).zip places) (meaning cells) (exec w s is)

section
variable {w : World} {texts : List (List UInt8)} {callees : List (Value × List Ty)}

/-- An operation computes the result of its operands, or traps if there is none. -/
theorem mirrors_operation {d : Draft} {s : Execution.State} {op : Operator}
    {t : Temp} {a b : Value} {x y : Datum} {places : List (Temp × Meaning.Path)}
    (ht : t ∉ made d.instrs) (hx : s.read a = x) (hy : s.read b = y)
    (hplace : (t, []) ∈ places) :
    Mirrors d s (State.read · (.temp t)) places
      (match op.result? x.word y.word with
        | some n => .ok (.int n)
        | none => .error (.trapped []))
      (exec w s [.binary (.arith op) t a b]) := by
  cases hresult : op.result? x.word y.word with
  | some n =>
    have hexec : exec w s [.binary (.arith op) t a b] =
        .ok (s.write (.temp t) (.int n)) := by
      simp only [exec, step, World.compute, hx, hy, hresult]
    rw [hexec]
    refine ⟨.write ht s _, ?_⟩
    simp [State.write_temp]
  | none =>
    have hexec : exec w s [.binary (.arith op) t a b] =
        .error { events := s.events, outcome := .trapped t } := by
      simp only [exec, step, World.compute, hx, hy, hresult]
    rw [hexec]
    exact ⟨t, rfl, hplace⟩

/-- The code of an expression computes its value. -/
theorem Lowered.computes {e : Expr} {d d' : Draft} {v : Value}
    (h : Lowered e d v d') (hd : d.IsSound callees) (htexts : d'.texts <+: texts) :
    ∃ is, d'.code = d.code ++ is ∧
      Computes w texts d (Meaning.value · e) (Meaning.operations e)
        (State.read · v) is := by
  -- Along the rules; the state is only fixed once the code is known, in `mirrors`.
  induction h with
  | @int pos n d =>
    exact ⟨[], by simp, rfl, rfl, fun s cells htracks => ⟨.refl _ s, rfl⟩⟩
  | @text pos t d =>
    refine ⟨[], by simp [addText], rfl, rfl, fun s cells htracks => ⟨.refl _ s, ?_⟩⟩
    have hbytes : texts[d.texts.length]? = some (Rune.utf8 t) := by
      obtain ⟨more, hmore⟩ := htexts
      simp [← hmore, addText]
    exact htracks.texts _ _ hbytes
  | @ident pos x d slot type hslot htype =>
    refine ⟨[.load (d.nextTemp x type) (.temp slot)], rfl, rfl, rfl,
      fun s cells htracks => ?_⟩
    obtain ⟨haddress, hcell⟩ := htracks.slots x slot hslot
    have hvalue : Meaning.value cells (.ident pos x) = .ok (s.memory (.slot slot)) := by
      simp [Meaning.value, hcell]
    rw [hvalue]
    refine ⟨.write (hd.nextTemp_notMem x type) s _, ?_⟩
    simp [State.write_temp, haddress]
  | @binary op pos l r d a d₁ b d₂ hl hr ha hb ihl ihr =>
    have hd₁ := (hl.sound hd).1
    have hd₂ := (hr.sound hd₁).1
    have hgrows := hl.grows.trans hr.grows
    obtain ⟨is, hcode, hslots, hcount, hmirrors⟩ :=
      ihl hd (hr.grows.texts_prefix.trans htexts)
    obtain ⟨js, hcode', hslots', hcount', hmirrors'⟩ := ihr hd₁ htexts
    refine ⟨is ++ (js ++ [.binary (.arith op) (d₂.nextTemp "" .i32) a b]),
      ?_, ?_, ?_, ?_⟩
    · simp [emit, hcode', hcode]
    · simp [hslots, hslots']
      rfl
    · simp [operations_append, Meaning.operations, hcount, hcount']
      rfl
    · intro s cells htracks
      have hplaces : (operations
          (is ++ (js ++ [.binary (.arith op) (d₂.nextTemp "" .i32) a b]))).zip
          (Meaning.operations (.binary (.arith op) pos l r)) =
          (operations is ++ (operations js ++ [d₂.nextTemp "" .i32])).zip
            ((Meaning.operations l).map (.left :: ·) ++
              ((Meaning.operations r).map (.right :: ·) ++ [[]])) := by
        simp [operations, Meaning.operations]
      have hleft :
          (operations is).length =
            ((Meaning.operations l).map (Meaning.Side.left :: ·)).length := by
        simpa using hcount
      have hright :
          (operations js).length =
            ((Meaning.operations r).map (Meaning.Side.right :: ·)).length := by
        simpa using hcount'
      rw [hplaces]
      refine Mirrors.bind ((hmirrors s cells htracks).within fun t p hp =>
        mem_zip_append_left hleft (mem_zip_map _ hp)) fun x s₁ hleaves hx => ?_
      have htracks₁ : Tracks texts d₁ s₁ cells :=
        htracks.leaves hd hl.grows.scope_eq hleaves
      refine Mirrors.after ?_ hl.grows hleaves
      refine Mirrors.bind ((hmirrors' s₁ cells htracks₁).within fun t p hp =>
        mem_zip_append_right hleft (mem_zip_append_left hright (mem_zip_map _ hp)))
        fun y s₂ hleaves₂ hy => ?_
      -- The right side leaves the value of the left side alone.
      have hread : s₂.read a = x := (hleaves₂.read (hl.sound hd).2.isPast).trans hx
      refine Mirrors.after (mirrors_operation (hd₂.nextTemp_notMem _ _) hread hy ?_)
        hr.grows hleaves₂
      exact mem_zip_append_right hleft (mem_zip_append_right hright (by simp))

/-- The code of expressions computes their values from left to right. -/
theorem LoweredAll.computes {es : List Expr} {d d' : Draft} {vs : List Value}
    (h : LoweredAll es d vs d') (hd : d.IsSound callees)
    (htexts : d'.texts <+: texts) (k : Nat) :
    ∃ is, d'.code = d.code ++ is ∧
      Computes w texts d (Meaning.values · k es) (Meaning.operationsFrom k es)
        (fun s => vs.map s.read) is := by
  induction h generalizing k with
  | @nil d => exact ⟨[], by simp, rfl, rfl, fun s cells htracks => ⟨.refl _ s, rfl⟩⟩
  | @cons e es d v d₁ vs d₂ hv hvs ih =>
    obtain ⟨hd₁, hholds⟩ := hv.sound hd
    obtain ⟨is, hcode, hslots, hcount, hmirrors⟩ :=
      hv.computes hd (hvs.grows.texts_prefix.trans htexts)
    obtain ⟨js, hcode', hslots', hcount', hmirrors'⟩ := ih hd₁ htexts (k + 1)
    have hfirst : (operations is).length =
        ((Meaning.operations e).map (k, ·)).length := by
      simpa using hcount
    refine ⟨is ++ js, by simp [hcode', hcode], by simp [hslots, hslots'], ?_, ?_⟩
    · rw [operations_append, Meaning.operationsFrom, List.length_append,
        List.length_append, hfirst, hcount']
    · intro s cells htracks
      rw [operations_append]
      refine Mirrors.bind ((hmirrors s cells htracks).within fun t p hp =>
        mem_zip_append_left hfirst (mem_zip_map _ hp)) fun x s₁ hleaves hx => ?_
      have htracks₁ : Tracks texts d₁ s₁ cells :=
        htracks.leaves hd hv.grows.scope_eq hleaves
      have hrest : ∀ y ∈ (operations js).zip (Meaning.operationsFrom (k + 1) es),
          y ∈ (operations is ++ operations js).zip
            (Meaning.operationsFrom k (e :: es)) :=
        fun y hy => mem_zip_append_right hfirst hy
      have hmirrors₁ := (hmirrors' s₁ cells htracks₁).mono hrest
      refine Mirrors.after (hmirrors₁.map (x :: ·) fun s' hleaves' => ?_)
        hv.grows hleaves
      rw [List.map_cons, hleaves'.read hholds.isPast, hx]

end

/-! ## Statements -/

/-- The calls among events. -/
def callsOf (events : List Event) : List Meaning.Call :=
  events.filterMap fun
    | .call callee _ args => some ⟨callee.name, args⟩
    | .store _ _ => none

@[simp] theorem callsOf_store (events : List Event) (address x : Datum) :
    callsOf (events ++ [.store address x]) = callsOf events := by
  simp [callsOf]

@[simp] theorem callsOf_call (events : List Event) (callee : Value) (target : Datum)
    (args : List Datum) :
    callsOf (events ++ [.call callee target args]) =
      callsOf events ++ [⟨callee.name, args⟩] := by
  simp [callsOf]

/-- A run of code and a direct run in the same place. `slots` are all
slots that the code makes; those that are still to come have what
they are to start with. -/
structure Simulates (slots : List Temp) (contents : Nat → Datum)
    (texts : List (List UInt8)) (d : Draft) (s : Execution.State)
    (σ : Meaning.State) : Prop where
  tracks : Tracks texts d s σ.cells
  calls : callsOf s.events = σ.calls
  declared : (Execution.slots d.code).length = σ.declared
  fresh : ∀ k t, slots[k]? = some t → t ∉ made d.instrs →
    s.memory (.slot t) = contents k

/-- Two outcomes that come to the same. `places` says which traps do. -/
def Alike {π : Type} (places : List (Temp × π)) : Outcome Temp → Outcome π → Prop
  | .returned a, .returned b => a = b
  | .trapped t, .trapped p => (t, p) ∈ places
  | _, _ => False

/-- A direct step and a run of the code for it that come to the same. -/
def StepsAlike {π : Type} (next : Execution.State → Meaning.State → Prop)
    (calls : List Meaning.Call) (places : List (Temp × π)) :
    Except (Outcome π) Meaning.State → Except (Run Event Temp) Execution.State → Prop
  | .ok σ, .ok s => next s σ
  | .error o, .error r => callsOf r.events = calls ∧ Alike places r.outcome o
  | _, _ => False

section
variable {w : World} {texts : List (List UInt8)} {callees : List (Value × List Ty)}
  {slots : List Temp} {contents : Nat → Datum} {d d₁ : Draft}
  {s s₁ : Execution.State} {σ : Meaning.State}

/-- The code of an expression leaves a run in the same place. -/
theorem Simulates.leaves (h : Simulates slots contents texts d s σ)
    (hd : d.IsSound callees) (hgrows : Grows d d₁) {is : List Instr}
    (hcode : d₁.code = d.code ++ is) (hslots : Execution.slots is = [])
    (hleaves : Leaves d s s₁) : Simulates slots contents texts d₁ s₁ σ where
  tracks := h.tracks.leaves hd hgrows.scope_eq hleaves
  calls := by rw [hleaves.events, h.calls]
  declared := by rw [hcode, slots_append, hslots, List.append_nil, h.declared]
  fresh k t hk ht := by
    rw [hleaves.memory]
    exact h.fresh k t hk (hgrows.notMem_made ht)

/-- A statement whose expressions are computed first: it comes to the
same if what follows does. -/
theorem Computes.stepsAlike {α π : Type}
    {meaning : Meaning.Cells → Except (Outcome π) α} {ps : List π}
    {get : Execution.State → α} {is js : List Instr}
    (h : Computes w texts d meaning ps get is)
    (hsim : Simulates slots contents texts d s σ)
    {next : Execution.State → Meaning.State → Prop}
    {rest : α → Except (Outcome π) Meaning.State}
    (hrest : ∀ s₁, Leaves d s s₁ → StepsAlike next σ.calls ((operations is).zip ps)
      (rest (get s₁)) (exec w s₁ js)) :
    StepsAlike next σ.calls ((operations is).zip ps) ((meaning σ.cells).bind rest)
      (exec w s (is ++ js)) := by
  have hmirrors := h.mirrors s σ.cells hsim.tracks
  rw [exec_append]
  cases hx : exec w s is with
  | ok s₁ =>
    rw [hx] at hmirrors
    match hm : meaning σ.cells, hmirrors with
    | .ok a, hmirrors =>
      obtain ⟨hleaves, rfl⟩ := hmirrors
      exact hrest s₁ hleaves
  | error r =>
    rw [hx] at hmirrors
    match hm : meaning σ.cells, hmirrors with
    | .error (.trapped p), hmirrors =>
      obtain ⟨t, rfl, hmem⟩ := hmirrors
      exact ⟨hsim.calls, hmem⟩

/-- Declaring a variable makes the slot whose turn it is. -/
theorem Simulates.declare (h : Simulates slots contents texts d s σ)
    (hd : d.IsSound callees) {x : String} {type : Option DataType} {machine : Ty}
    {pos : Position}
    (hslot : slots[σ.declared]? = some (d.nextTemp x (.ptr machine))) :
    Simulates slots contents texts
      ((d.emit x (.ptr machine) (.alloca · machine)).bind
        { name := x, type, storage := some (d.nextTemp x (.ptr machine)), pos })
      (s.write (.temp (d.nextTemp x (.ptr machine)))
        (.slot (d.nextTemp x (.ptr machine))))
      { σ with
        cells := Function.update σ.cells x (some (contents σ.declared))
        declared := σ.declared + 1 } := by
  let t := d.nextTemp x (.ptr machine)
  have hnew : t ∉ made d.instrs := hd.nextTemp_notMem x _
  have hleaves : Leaves d s (s.write (.temp t) (.slot t)) := .write hnew s _
  refine ⟨⟨fun y slot hy => ?_, fun i bytes hi => ?_⟩, h.calls, ?_, fun k u hk hu => ?_⟩
  · by_cases hyx : y = x
    · subst hyx
      have hself :=
        d.scope.find?_declare_self { name := y, type, storage := some t, pos }
      simp only [Draft.bind, emit, Scope.storage?, t] at hy hself
      rw [hself] at hy
      cases hy
      refine ⟨Function.update_self _ _ _, (Function.update_self _ _ _).trans ?_⟩
      exact congrArg some (h.fresh _ _ hslot hnew).symm
    · have hother :=
        d.scope.find?_declare_of_ne { name := x, type, storage := some t, pos } hyx
      simp only [Draft.bind, emit, Scope.storage?, t] at hy hother
      rw [hother] at hy
      obtain ⟨haddress, hcell⟩ := (h.tracks.leaves hd rfl hleaves).slots y slot hy
      exact ⟨haddress, (Function.update_of_ne hyx _ _).trans hcell⟩
  · rw [hleaves.values _ (by rintro u ⟨⟩)]
    exact h.tracks.texts i bytes hi
  · show (Execution.slots (d.code ++ [.alloca t machine])).length = σ.declared + 1
    rw [slots_append, List.length_append, h.declared]
    rfl
  · have hgrows := Grows.emit d x (.ptr machine) (.alloca · machine)
    exact h.fresh k u hk (hgrows.notMem_made hu)

/-- Storing into the slot of a variable changes its cell and no other. -/
theorem Simulates.store (h : Simulates slots contents texts d s σ)
    (hd : d.IsSound callees) {x : String} {slot : Temp}
    (hslot : d.scope.storage? x = some slot) (v : Value) (a : Datum) :
    Simulates slots contents texts (d.push (.store v (.temp slot)))
      (s.store (.slot slot) a)
      { σ with cells := Function.update σ.cells x (some a) } := by
  refine ⟨⟨fun y other hy => ?_, h.tracks.texts⟩, ?_, ?_, fun k t hk ht => ?_⟩
  · obtain ⟨haddress, hcell⟩ := h.tracks.slots y other hy
    refine ⟨haddress, ?_⟩
    by_cases hyx : y = x
    · subst hyx
      have heq : some slot = some other := hslot.symm.trans hy
      cases heq
      simp [State.store]
    · have hother : other ≠ slot := by
        rintro rfl
        exact hyx (hd.apart y x other hy hslot)
      simp [State.store, hyx, hother, hcell]
  · rw [← h.calls]
    exact callsOf_store _ _ _
  · show (Execution.slots (d.code ++ [.store v (.temp slot)])).length = σ.declared
    rw [slots_append, List.length_append, h.declared]
    rfl
  · have hother : t ≠ slot := by
      rintro rfl
      have hholds : d.Holds (.temp t) := (hd.slots x t hslot).1
      exact ht (hholds.grows (.push d _))
    -- A slot that is still to be made is not the one that is stored into.
    rw [← h.fresh k t hk ((Grows.push d (.store v (.temp slot))).notMem_made ht)]
    simp [State.store, hother]

/-- A callee does not touch slots, since it is given no address of one. -/
def KeepsSlots (w : World) : Prop :=
  ∀ events memory t, (w.reply events memory).2 (.slot t) = memory (.slot t)

theorem Simulates.call (h : Simulates slots contents texts d s σ)
    (hw : KeepsSlots w) (callee : Value) (vs : List Value) (args : List Datum) :
    Simulates slots contents texts (d.push (.call none callee vs))
      (s.call w callee args none)
      { σ with calls := σ.calls ++ [⟨callee.name, args⟩] } := by
  have hmemory (t : Temp) : (s.call w callee args none).memory (.slot t) =
    s.memory (.slot t) := hw _ _ t
  refine ⟨⟨fun y slot hy => ?_, h.tracks.texts⟩, ?_, ?_, fun k t hk ht => ?_⟩
  · rw [hmemory]
    exact h.tracks.slots y slot hy
  · rw [← h.calls]
    exact callsOf_call _ _ _ _
  · show (Execution.slots (d.code ++ [.call none callee vs])).length = σ.declared
    rw [slots_append, List.length_append, h.declared]
    rfl
  · rw [hmemory]
    have hgrows := Grows.push d (.call none callee vs)
    exact h.fresh k t hk (hgrows.notMem_made ht)

/-- The only expression of a statement. -/
theorem Computes.only {e : Expr} {get : Execution.State → Datum} {is : List Instr}
    (h : Computes w texts d (Meaning.value · e) (Meaning.operations e) get is) :
    Computes w texts d
      (fun cells => (Meaning.value cells e).mapError
        (.map ((0, ·) : _ → Nat × Meaning.Path)))
      (Meaning.operationsFrom 0 [e]) get is := by
  have hplaces : Meaning.operationsFrom 0 [e] = (Meaning.operations e).map (0, ·) := by
    simp [Meaning.operationsFrom]
  rw [hplaces]
  refine ⟨h.slotless, by simpa using h.count, fun s cells htracks => ?_⟩
  exact (h.mirrors s cells htracks).within fun t p hp => mem_zip_map _ hp

/-- The code of a statement does what the statement says. -/
theorem Done.simulates {m : Module} {stmt : Stmt} {d' : Draft}
    (h : Done m stmt d d') (hd : d.IsSound callees) (htexts : d'.texts <+: texts)
    (hw : KeepsSlots w) :
    ∃ is, d'.code = d.code ++ is ∧
      (operations is).length = (Meaning.operationsFrom 0 stmt.exprs).length ∧
      ∀ later s σ, Simulates (Execution.slots d'.code ++ later) contents texts d s σ →
        StepsAlike (Simulates (Execution.slots d'.code ++ later) contents texts d')
          σ.calls
          ((operations is).zip (Meaning.operationsFrom 0 stmt.exprs))
            (Meaning.statement contents σ stmt)
          (exec w s is) := by
  cases h with
  | @decl pos x type machine d htype =>
    refine ⟨[.alloca (d.nextTemp x (.ptr machine)) machine], rfl, rfl,
      fun later s σ hsim => ?_⟩
    refine hsim.declare hd ?_
    -- The new slot stands behind those made so far.
    show (Execution.slots (d.code ++ [.alloca (d.nextTemp x (.ptr machine)) machine]) ++
      later)[σ.declared]? = _
    rw [slots_append, ← hsim.declared, List.append_assoc,
      List.getElem?_append_right (Nat.le_refl _)]
    simp [Execution.slots]
  | @assign pos x e d slot v d₁ hslot hv htype =>
    obtain ⟨is, hcode, hcomputes⟩ := hv.computes (w := w) hd htexts
    have hcomputes := hcomputes.only
    have hops : operations (is ++ [.store v (.temp slot)]) = operations is := by
      simp [operations]
    refine ⟨is ++ [.store v (.temp slot)], by simp [Draft.push, hcode], ?_,
      fun later s σ hsim => ?_⟩
    · exact (congrArg List.length hops).trans hcomputes.count
    rw [hops]
    refine hcomputes.stepsAlike hsim fun s₁ hleaves => ?_
    have hsim₁ := hsim.leaves hd hv.grows hcode hcomputes.slotless hleaves
    have hslot₁ : d₁.scope.storage? x = some slot := hv.grows.scope_eq ▸ hslot
    obtain ⟨haddress, hcell⟩ := hsim₁.tracks.slots x slot hslot₁
    simp only [hcell]
    show Simulates _ contents texts _ (s₁.store (s₁.values (.temp slot)) (s₁.read v)) _
    rw [haddress]
    exact hsim₁.store (hv.sound hd).1 hslot₁ v _
  | @call pos x es d vs d₁ callee hvs hcallee harity hargs =>
    obtain ⟨is, hcode, hcomputes⟩ := hvs.computes (w := w) hd htexts 0
    have hops : operations (is ++ [.call none callee.value vs]) =
      operations is := by simp [operations]
    refine ⟨is ++ [.call none callee.value vs], by simp [Draft.push, hcode], ?_,
      fun later s σ hsim => ?_⟩
    · exact (congrArg List.length hops).trans hcomputes.count
    rw [hops]
    refine hcomputes.stepsAlike hsim fun s₁ hleaves => ?_
    have hsim₁ := hsim.leaves hd hvs.grows hcode hcomputes.slotless hleaves
    have hname : callee.value.name = x := find?_name hcallee
    rw [← hname]
    exact hsim₁.call hw callee.value vs _
  | ret =>
    exact ⟨[.ret none], rfl, rfl, fun later s σ hsim => ⟨hsim.calls, rfl⟩⟩
  | @retValue pos e d v d₁ hv =>
    obtain ⟨is, hcode, hcomputes⟩ := hv.computes (w := w) hd htexts
    have hcomputes := hcomputes.only
    have hops : operations (is ++ [.ret (some v)]) = operations is := by
      simp [operations]
    refine ⟨is ++ [.ret (some v)], by simp [Draft.push, hcode], ?_,
      fun later s σ hsim => ?_⟩
    · exact (congrArg List.length hops).trans hcomputes.count
    rw [hops]
    refine hcomputes.stepsAlike hsim fun s₁ hleaves => ⟨?_, rfl⟩
    exact (congrArg callsOf hleaves.events).trans hsim.calls

end

/-! ## Bodies -/

section
variable {m : Module} {d d' : Draft} {body : List Stmt}

theorem blocks_prefix_reopen (d : Draft) :
    d.function.blocks <+: d.reopen.function.blocks := by
  unfold reopen
  split
  · exact List.prefix_append _ _
  · exact List.prefix_refl _

/-- Blocks that are closed stay what they are. -/
theorem Body.blocks_prefix (h : Body m body d d') :
    d.reopen.function.blocks <+: d'.finish.result.blocks := by
  induction h with
  | @nil d =>
    unfold reopen finish
    split
    · exact List.prefix_refl _
    · exact List.prefix_append _ _
  | @done stmt rest d d₁ d₂ hs _ ih =>
    rw [← hs.blocks_eq]
    exact (blocks_prefix_reopen d₁).trans ih
  | @dropped stmt rest d err d₁ d₂ hs _ ih =>
    rw [← hs.grows.blocks_eq]
    exact (blocks_prefix_reopen (d₁.report err)).trans ih

end

theorem exec_ok_unended {w : World} {s s' : Execution.State} {is : List Instr}
    (h : exec w s is = .ok s') : ∀ i ∈ is, i.isTerminator = false := by
  induction is generalizing s with
  | nil => simp
  | cons i is ih =>
    rw [exec] at h
    cases hstep : step w s i with
    | error outcome => rw [hstep] at h; cases h
    | ok s₁ =>
      rw [hstep] at h
      refine List.forall_mem_cons.mpr ⟨?_, ih h⟩
      cases i with
      | ret value => cases hstep
      | _ => rfl

/-- The places of a run in a whole body. -/
theorem Alike.within {π ρ : Type} {places : List (Temp × π)} {o : Outcome Temp}
    {o' : Outcome π} (h : Alike places o o') {f : π → ρ} {places' : List (Temp × ρ)}
    (hplaces : ∀ t p, (t, p) ∈ places → (t, f p) ∈ places') :
    Alike places' o (o'.map f) := by
  match o, o', h with
  | .returned a, .returned b, h => exact h
  | .trapped t, .trapped p, h => exact hplaces t p h

theorem Alike.mono {π : Type} {places places' : List (Temp × π)} {o : Outcome Temp}
    {o' : Outcome π} (h : Alike places o o') (hplaces : ∀ x ∈ places, x ∈ places') :
    Alike places' o o' := by
  match o, o', h with
  | .returned a, .returned b, h => exact h
  | .trapped t, .trapped p, h => exact hplaces _ h

/-- A run of code and a direct run that come to the same: the same calls,
and ends that are alike. -/
structure RunsAlike {π : Type} (places : List (Temp × π)) (r : Run Event Temp)
    (r' : Run Meaning.Call π) : Prop where
  calls : callsOf r.events = r'.events
  outcome : Alike places r.outcome r'.outcome

theorem RunsAlike.mono {π : Type} {places places' : List (Temp × π)}
    {r : Run Event Temp} {r' : Run Meaning.Call π} (h : RunsAlike places r r')
    (hplaces : ∀ x ∈ places, x ∈ places') :
    RunsAlike places' r r' := ⟨h.calls, h.outcome.mono hplaces⟩

/-- A statement in front of others: a run goes on in step, unless it ends in step. -/
theorem StepsAlike.run {w : World} {contents : Nat → Datum} {stmt : Stmt}
    {rest : List Stmt} {is js : List Instr} {s : Execution.State}
    {σ : Meaning.State} {next : Execution.State → Meaning.State → Prop}
    (hcount : (operations is).length = (Meaning.operationsFrom 0 stmt.exprs).length)
    (h : StepsAlike next σ.calls
      ((operations is).zip (Meaning.operationsFrom 0 stmt.exprs))
      (Meaning.statement contents σ stmt) (exec w s is))
    (k : Nat)
    (hrest : ∀ s₁ σ₁, exec w s is = .ok s₁ → next s₁ σ₁ →
      RunsAlike ((operations js).zip (Meaning.sitesFrom (k + 1) rest)) (run w s₁ js)
      (Meaning.runFrom contents (k + 1) σ₁ rest)) :
    RunsAlike ((operations (is ++ js)).zip (Meaning.sitesFrom k (stmt :: rest)))
      (run w s (is ++ js)) (Meaning.runFrom contents k σ (stmt :: rest)) := by
  let site (p : Nat × Meaning.Path) : Meaning.Site := ⟨k, p.1, p.2⟩
  have hlength : (operations is).length =
      ((Meaning.operationsFrom 0 stmt.exprs).map site).length := by
    simpa using hcount
  rw [run_append, Meaning.runFrom, operations_append]
  generalize Meaning.statement contents σ stmt = direct,
    exec w s is = machine at h hrest
  match direct, machine, h with
  | .ok σ₁, .ok s₁, hnext =>
    exact (hrest s₁ σ₁ rfl hnext).mono fun x hx => mem_zip_append_right hlength hx
  | .error o, .error r, ⟨hcalls, houtcome⟩ =>
    exact ⟨hcalls, houtcome.within fun t p hp =>
      mem_zip_append_left hlength (mem_zip_map site hp)⟩

/-- The code of a body does what its statements say, if none of them is wrong. -/
theorem Body.simulates {w : World} {texts : List (List UInt8)}
    {callees : List (Value × List Ty)} {contents : Nat → Datum} {m : Module}
    (hm : m.context.callees = callees) {body : List Stmt} {d d' : Draft}
    (h : Body m body d d') (hd : d.IsSound callees)
    (hblocks : d.function.blocks = []) (herrors : d'.errors = d.errors)
    (htexts : d'.texts <+: texts) (hw : KeepsSlots w) (k : Nat) :
    ∃ is entry, d'.finish.result.blocks.head? = some entry ∧
      entry.instrs = d.code ++ is ∧
      ∀ s σ, Simulates (Execution.slots (d.code ++ is)) contents texts d s σ →
        RunsAlike ((operations is).zip (Meaning.sitesFrom k body)) (run w s is)
          (Meaning.runFrom contents k σ body) := by
  -- Until the first return the entry is the block at hand; `is` is what
  -- is still to be added to it.
  induction h generalizing k with
  | @nil d =>
    refine ⟨[.ret none], { label := d.label, instrs := d.code ++ [.ret none] },
      ?_, rfl, ?_⟩
    · rw [finish, hd.isTerminated]
      simp [result, Draft.push, hblocks, block]
    · intro s σ hsim
      exact ⟨hsim.calls, rfl⟩
  | @dropped stmt rest d err d₁ d₂ hs hrest ih =>
    exact absurd herrors (hrest.errors_ne_of_dropped hs)
  | @done stmt rest d d₁ d₂ hs hrest ih =>
    have hreopen : d.reopen = d := by rw [reopen, hd.isTerminated]; rfl
    rw [hreopen] at hs
    obtain ⟨is, hcode, hcount, hstep⟩ :=
      hs.simulates hd (hrest.texts_prefix.trans htexts) hw
    rcases hs.sound hm hd with hd₁ | ⟨d₀, value, hd₀, -, rfl⟩
    · obtain ⟨js, entry, hentry, hinstrs, hrun⟩ :=
        ih hd₁ (hs.blocks_eq.trans hblocks) (herrors.trans hs.errors_eq.symm)
          htexts (k + 1)
      refine ⟨is ++ js, entry, hentry, by rw [hinstrs, hcode, List.append_assoc],
        fun s σ hsim => ?_⟩
      rw [← List.append_assoc, ← hcode, slots_append] at hsim
      refine (hstep (Execution.slots js) s σ hsim).run hcount k fun s₁ σ₁ _ hsim₁ => ?_
      exact hrun s₁ σ₁ (slots_append .. ▸ hsim₁)
    · -- The block ends with this statement; what follows goes into other
      -- blocks, and nothing runs them.
      have hentry := hrest.blocks_prefix
      rw [reopen, isTerminated_push_ret, if_pos rfl, hs.blocks_eq, hblocks] at hentry
      obtain ⟨others, hothers⟩ := hentry
      refine ⟨is, (d₀.push (.ret value)).block, by rw [← hothers]; rfl, hcode,
        fun s σ hsim => ?_⟩
      rw [← hcode] at hsim
      have halike := hstep [] s σ (by rwa [List.append_nil])
      rw [← List.append_nil is]
      refine halike.run hcount k fun s₁ σ₁ hok _ => ?_
      have hret : .ret value ∈ d.code ++ is :=
        hcode ▸ List.mem_append_right _ (List.mem_singleton_self _)
      rcases List.mem_append.mp hret with hret | hret
      · exact absurd (hd.unended _ hret) (by simp [Instr.isTerminator])
      · exact absurd (exec_ok_unended hok _ hret) (by simp [Instr.isTerminator])

/-! ## Modules -/

/-- A world as a compiled function finds it: string constants are in place, the
`k`-th slot starts with `contents k`, and callees leave slots alone. -/
structure Hosts (w : World) (texts : List (List UInt8)) (slots : List Temp)
    (contents : Nat → Datum) : Prop where
  texts : ∀ i bytes, texts[i]? = some bytes → w.values (.text i) = .text bytes
  slots : ∀ k t, slots[k]? = some t → w.memory (.slot t) = contents k
  reply : KeepsSlots w

/-- Slots may start with anything, as long as no two are the same. -/
theorem exists_hosts (texts : List (List UInt8)) {slots : List Temp}
    (hslots : slots.Nodup) (contents : Nat → Datum) :
    ∃ w, Hosts w texts slots contents := by
  let w : World := {
    values := fun v => match v with
      | .text i => .text (texts.getD i [])
      | _ => .int 0
    memory := fun a => match a with
      | .slot t => contents (slots.idxOf t)
      | _ => .int 0
    reply := fun _ memory => (.int 0, memory)
    foreign := fun _ => .int 0
    unknown := fun _ _ _ => 0 }
  refine ⟨w, fun i bytes hi => ?_, fun k t hk => ?_, fun _ _ _ => rfl⟩
  · show Datum.text (texts.getD i []) = .text bytes
    rw [List.getD_eq_getElem?_getD, hi, Option.getD_some]
  · show contents (slots.idxOf t) = contents k
    obtain ⟨hlt, rfl⟩ := List.getElem?_eq_some_iff.mp hk
    rw [hslots.idxOf_getElem k hlt]

theorem slots_sublist_made (is : List Instr) :
    (Execution.slots is).Sublist (made is) := by
  induction is with
  | nil => exact .slnil
  | cons i is ih =>
    rw [made_cons]
    cases i with
    | alloca dest type => exact ih.cons_cons dest
    | _ => exact ih.trans (List.sublist_append_right _ _)

theorem operations_sublist_made (is : List Instr) :
    (operations is).Sublist (made is) := by
  induction is with
  | nil => exact .slnil
  | cons i is ih =>
    rw [made_cons]
    cases i with
    | binary op dest left right => exact ih.cons_cons dest
    | _ => exact ih.trans (List.sublist_append_right _ _)

/-- Lowering keeps what functions do. Of a tree without errors, every function
is in the module, and in every world that can host it its run and the direct run
of its statements come to the same: the same calls, and the same end. If that is
a trap, it is in the operation made for the one that traps in the direct run. -/
theorem compile_preserves_runs {t : Tree} {c : Compiled} (hc : t.compile = .ok c)
    (herrors : c.errors = []) {pos : Position} {name : String}
    {params : List Variable} {body : List Stmt}
    (hmem : .func pos name params body ∈ t.globals) :
    ∃ f entry, c.module.find? name = some f ∧ f.entry? = some entry ∧
      (operations entry.instrs).Nodup ∧
      ∀ contents, (∃ w, Hosts w c.module.texts
        (Execution.slots entry.instrs) contents) ∧
        ∀ w, Hosts w c.module.texts (Execution.slots entry.instrs) contents →
          RunsAlike ((operations entry.instrs).zip (Meaning.sites body)) (f.run w)
            (Meaning.run contents body) := by
  have hdefined := t.compile_rules
  rw [hc] at hdefined
  have hproper := t.declared_proper
  have hsound := Tree.compile_sound hc
  have hdeclared : t.declared.errors = [] := by
    simpa [herrors] using hdefined.errors_prefix
  obtain ⟨place, g, hbody, hg, hname⟩ := Tree.accepts_of_mem hdeclared hmem
  obtain ⟨m, texts, d, hm, hrules, hresult, htexts, hlength⟩ :=
    hdefined.lowered hproper.once hbody hg
  have hbare := hproper.bare g (List.mem_of_getElem? hg)
  have hblocks : g.blocks = [] := by rw [← hbare]; rfl
  have hno : d.errors = [] := by simpa [herrors] using hlength
  obtain ⟨entry, hentry⟩ : ∃ entry, d.finish.result.blocks.head? = some entry :=
    Option.ne_none_iff_exists'.mp (by simp [result])
  have hmade : (made entry.instrs).Nodup := by
    have hcode := (hsound.functions _ (List.mem_of_getElem? hresult)).code
    exact nodup_made_entry hentry (by simpa using hcode.nodup List.nodup_nil)
  refine ⟨d.finish.result, entry, ?_, hentry,
    (operations_sublist_made _).nodup hmade, fun contents => ?_⟩
  · have hsame : d.finish.result.header.name = g.header.name := by
      rw [header_result, hrules.header_eq]
    rw [← hname]
    exact hsame ▸ find?_of_getElem? hsound.names hresult
  refine ⟨exists_hosts _ ((slots_sublist_made _).nodup hmade) contents, fun w hw => ?_⟩
  -- The entry does not depend on the world, so it is the one found before.
  obtain ⟨is, entry', hentry', hinstrs, hrun⟩ :=
    hrules.simulates (w := w) rfl (isSound_opened hbare texts)
    hblocks hno htexts hw.reply 0
  cases hentry.symm.trans hentry'
  have hstart :
      Simulates (Execution.slots entry.instrs) contents c.module.texts
        (opened g texts) w.start {} :=
    ⟨⟨fun x slot hslot => (by cases hslot), hw.texts⟩, rfl, rfl, fun k t hk _ =>
      hw.slots k t hk⟩
  have hinstrs : entry.instrs = is := hinstrs
  rw [Function.run_of_entry hentry, hinstrs]
  exact hrun w.start {} (hinstrs ▸ hstart)

/-- A name that is declared twice, a division by zero in a return, and a
call that is never made. -/
def dividing : List Stmt := [
  .decl {} "x" (some .int),
  .decl {} "s" (some .str),
  .assign {} "s" [.text {} "a"],
  .call {} "puts" [.ident {} "s"],
  .decl {} "x" (some .int),
  .assign {} "x" [.binary (.arith .add) {} (.ident {} "x") (.int {} 1)],
  .ret {} [.binary (.arith .div) {} (.int {} 10)
    (.binary (.arith .sub) {} (.ident {} "x") (.int {} 3))],
  .call {} "puts" [.text {} "b"]]

def divided : Tree where
  filename := "divided"
  globals := [.func {} "main" [] dividing, .external {} "puts" [⟨"s", some .str, {}⟩]]

/-- When the variables start with 0, 1 and 2, the run traps behind its first call. -/
theorem compile_preserves_runs_divided :
    ∃ c f w place, divided.compile = .ok c ∧ c.errors = [] ∧
      c.module.find? "main" = some f ∧
      callsOf (f.run w).events = [⟨"puts", [.text [97]]⟩] ∧
      (f.run w).outcome = .trapped place := by
  have hno : (divided.compile.toOption.map (·.errors.length)) = some 0 := by
    decide +kernel
  cases hc : divided.compile with
  | error fault => rw [hc] at hno; cases hno
  | ok c =>
    rw [hc] at hno
    have herrors : c.errors = [] := List.length_eq_zero_iff.mp (Option.some.inj hno)
    obtain ⟨f, entry, hfind, -, -, hruns⟩ :=
      compile_preserves_runs hc herrors (List.mem_cons_self ..)
    obtain ⟨⟨w, hw⟩, hruns⟩ := hruns fun k => .int (.ofNat k)
    obtain ⟨hcalls, houtcome⟩ := hruns w hw
    have hdirect : Meaning.run (fun k => .int (.ofNat k)) dividing =
        { events := [⟨"puts", [.text [97]]⟩], outcome := .trapped ⟨6, 0, []⟩ } := by
      decide
    rw [hdirect] at hcalls houtcome
    generalize houtcome' : (f.run w).outcome = outcome at houtcome
    match outcome, houtcome with
    | .trapped place, _ =>
      exact ⟨c, f, w, place, rfl, herrors, hfind, hcalls, houtcome'⟩

end Straightline.Lowering
