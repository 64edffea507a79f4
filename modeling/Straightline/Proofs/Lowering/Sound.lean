import Mathlib
import Straightline.Proofs.Lowering.Modules

/-!
# Lowering makes sound code

`Draft.IsSound` is what lowering keeps, whether statements are right or
wrong: the code made so far is sound, closed blocks are closed,
temporaries are numbered in order, and every variable in scope has a slot
of its own that is made and fits its type. A wrong statement leaves behind
what was made before the error was found; that is sound too.
`Tree.compile_sound` is the result for modules.
-/

namespace Straightline.Lowering

open Code Draft

/-! ## Drafts -/

namespace Draft

/-- The instructions made so far, from the entry on. -/
def instrs (d : Draft) : List Instr := d.function.instrs ++ d.code

/-- What the code of a draft can refer to, given what can be called. -/
def context (callees : List (Value × List Ty)) (d : Draft) : Context :=
  { callees, texts := d.texts.length }

/-- What lowering keeps while the block at hand has not come to its end. -/
structure IsSound (callees : List (Value × List Ty)) (d : Draft) : Prop where
  code : Sound (d.context callees) [] d.instrs
  closed : ∀ b ∈ d.function.blocks, Closed b.instrs
  unended : ∀ i ∈ d.code, i.isTerminator = false
  numbered : ∀ t ∈ made d.instrs, t.id < d.function.temps
  slots : ∀ x slot, d.scope.storage? x = some slot → slot ∈ made d.instrs ∧
    ∃ type, machineType (d.scope.type? x) = .ok type ∧ slot.type = .ptr type
  apart : ∀ x y slot, d.scope.storage? x = some slot →
    d.scope.storage? y = some slot → x = y

/-- Whether a value can be read in a draft. -/
def Holds (d : Draft) (v : Value) : Prop := v.IsReady d.texts.length (made d.instrs)

variable {callees : List (Value × List Ty)} {d : Draft}

theorem instrs_grow (d : Draft) (is : List Instr) (ts : List (List UInt8)) (n : Nat) :
    (d.grow is ts n).instrs = d.instrs ++ is := by
  simp [instrs, grow, Function.instrs]

/-- What can be read can still be read when something is added. -/
theorem Holds.grow {v : Value} (h : d.Holds v) (is : List Instr)
    (ts : List (List UInt8)) (n : Nat) : (d.grow is ts n).Holds v := by
  refine Value.IsReady.mono h ?_ fun t _ ht => ?_
  · simp [Draft.grow]
  · rw [instrs_grow, made_append]
    exact List.mem_append_left _ ht

theorem Holds.grows {d' : Draft} {v : Value} (h : d.Holds v) (hgrows : Grows d d') :
    d'.Holds v := by
  obtain ⟨is, ts, n, rfl⟩ := hgrows
  exact h.grow is ts n

/-- The next temporary is new. -/
theorem IsSound.nextTemp_notMem (h : d.IsSound callees) (name : String) (type : Ty) :
    d.nextTemp name type ∉ made d.instrs :=
  fun hmem => Nat.lt_irrefl _ (h.numbered _ hmem)

/-- The next temporary can be read once an instruction has made it. -/
theorem holds_emit {name : String} {type : Ty} {i : Temp → Instr}
    (hi : (i (d.nextTemp name type)).temp? = some (d.nextTemp name type)) :
    (d.emit name type i).Holds (.temp (d.nextTemp name type)) := by
  show _ ∈ made _
  rw [emit_eq_grow, instrs_grow, made_append, made_cons, hi]
  simp

theorem isTerminator_of_temp? {i : Instr} {t : Temp} (h : i.temp? = some t) :
    i.isTerminator = false := by
  cases i with
  | ret value => cases h
  | _ => rfl

/-- A sound instruction may be added to a draft, with the temporary that it makes. -/
theorem IsSound.emit (h : d.IsSound callees) {name : String} {type : Ty}
    {i : Temp → Instr}
    (hi : (i (d.nextTemp name type)).IsSound (d.context callees) (made d.instrs))
    (htemp : (i (d.nextTemp name type)).temp? = some (d.nextTemp name type)) :
    (d.emit name type i).IsSound callees := by
  have hinstrs : (d.emit name type i).instrs =
      d.instrs ++ [i (d.nextTemp name type)] := by
    rw [emit_eq_grow, instrs_grow]
  have hmade : made (d.emit name type i).instrs =
      made d.instrs ++ [d.nextTemp name type] := by
    rw [hinstrs, made_append, made_cons, htemp]
    rfl
  refine ⟨?_, h.closed, ?_, ?_, ?_, h.apart⟩
  · rw [hinstrs, sound_append, List.nil_append, sound_singleton]
    refine ⟨h.code, hi, fun t ht => ?_⟩
    rw [htemp] at ht
    cases ht
    exact h.nextTemp_notMem name type
  · intro j hj
    rcases List.mem_append.mp hj with hj | hj
    · exact h.unended j hj
    · rw [List.mem_singleton.mp hj]
      exact isTerminator_of_temp? htemp
  · intro t ht
    rw [hmade, List.mem_append, List.mem_singleton] at ht
    rcases ht with ht | rfl
    · exact Nat.lt_succ_of_lt (h.numbered t ht)
    · exact Nat.lt_succ_self _
  · intro x slot hslot
    obtain ⟨hmem, hfits⟩ := h.slots x slot hslot
    exact ⟨hmade ▸ List.mem_append_left _ hmem, hfits⟩

/-- A sound instruction that makes nothing may be added to a draft. -/
theorem IsSound.push (h : d.IsSound callees) {i : Instr}
    (hi : i.IsSound (d.context callees) (made d.instrs)) (htemp : i.temp? = none)
    (hterm : i.isTerminator = false) : (d.push i).IsSound callees := by
  have hinstrs : (d.push i).instrs = d.instrs ++ [i] := by
    rw [push_eq_grow, instrs_grow]
  have hmade : made (d.push i).instrs = made d.instrs := by
    rw [hinstrs, made_append, made_cons, htemp]
    simp
  refine ⟨?_, h.closed, ?_, hmade ▸ h.numbered, hmade ▸ h.slots, h.apart⟩
  · rw [hinstrs, sound_append, List.nil_append, sound_singleton]
    exact ⟨h.code, hi, by simp [htemp]⟩
  · intro j hj
    rcases List.mem_append.mp hj with hj | hj
    · exact h.unended j hj
    · rw [List.mem_singleton.mp hj]
      exact hterm

theorem IsSound.addText (h : d.IsSound callees) (s : String) :
    (d.addText s).IsSound callees :=
  ⟨h.code.mono rfl (by simp [context, Draft.addText]), h.closed, h.unended,
    h.numbered, h.slots, h.apart⟩

/-- A variable may be declared with a slot that is made and that
no other variable has. -/
theorem IsSound.bind (h : d.IsSound callees) {x : String} {type : Option DataType}
    {machine : Ty} {slot : Temp} (htype : machineType type = .ok machine)
    (hslot : slot.type = .ptr machine) (hmade : slot ∈ made d.instrs)
    (new : ∀ y, d.scope.storage? y ≠ some slot) (pos : Position) :
    (d.bind { name := x, type, storage := some slot, pos }).IsSound callees := by
  have hself :=
    d.scope.find?_declare_self { name := x, type, storage := some slot, pos }
  have hother {y : String} (hy : y ≠ x) :=
    d.scope.find?_declare_of_ne { name := x, type, storage := some slot, pos } hy
  refine ⟨h.code, h.closed, h.unended, h.numbered, ?_, ?_⟩
  · intro y t hy
    by_cases hyx : y = x
    · subst hyx
      simp only [Draft.bind, Scope.storage?, hself, Option.bind_some,
        Option.some.injEq] at hy
      subst hy
      exact ⟨hmade, machine, by simp [Draft.bind, Scope.type?, hself, htype], hslot⟩
    · simp only [Draft.bind, Scope.storage?, Scope.type?, hother hyx] at hy ⊢
      exact h.slots y t hy
  · intro y z t hy hz
    simp only [Draft.bind, Scope.storage?] at hy hz
    by_cases hyx : y = x
    · by_cases hzx : z = x
      · rw [hyx, hzx]
      · rw [hyx, hself] at hy
        rw [hother hzx] at hz
        cases hy
        exact absurd hz (new z)
    · rw [hother hyx] at hy
      by_cases hzx : z = x
      · rw [hzx, hself] at hz
        cases hz
        exact absurd hy (new y)
      · rw [hother hzx] at hz
        exact h.apart y z t hy hz

theorem IsSound.report (h : d.IsSound callees) (err : SemanticError) :
    (d.report err).IsSound callees :=
  ⟨h.code, h.closed, h.unended, h.numbered, h.slots, h.apart⟩

/-! ### Ends of blocks -/

/-- A draft whose block was just brought to its end. -/
def Ends (callees : List (Value × List Ty)) (d : Draft) : Prop :=
  ∃ (d₁ : Draft) (value : Option Value),
    d₁.IsSound callees ∧ (∀ v ∈ value, d₁.Holds v) ∧ d = d₁.push (.ret value)

/-- What lowering keeps from one statement to the next. -/
def Rests (callees : List (Value × List Ty)) (d : Draft) : Prop :=
  d.IsSound callees ∨ d.Ends callees

theorem IsSound.isTerminated (h : d.IsSound callees) :
    d.block.isTerminated = false := by
  simp only [Block.isTerminated, Block.terminator?, block, Option.isSome_eq_false_iff,
    Option.isNone_iff_eq_none, Option.filter_eq_none_iff]
  intro i hi
  simp [h.unended i (List.mem_of_getLast? hi)]

theorem isTerminated_push_ret (d : Draft) (value : Option Value) :
    (d.push (.ret value)).block.isTerminated = true := by
  simp [Block.isTerminated, Block.terminator?, block, push, Instr.isTerminator]

theorem instrs_reopen (d : Draft) : d.reopen.instrs = d.instrs := by
  unfold reopen
  split
  · simp [instrs, Function.instrs, block]
  · rfl

theorem Rests.reopen (h : d.Rests callees) : d.reopen.IsSound callees := by
  rcases h with h | ⟨d₁, value, h, hvalue, rfl⟩
  · rw [Draft.reopen, h.isTerminated]
    exact h
  · obtain ⟨-, htexts, hscope, -, htemps⟩ := reopen_frame (d₁.push (.ret value))
    have hinstrs : (d₁.push (.ret value)).reopen.instrs =
        d₁.instrs ++ [.ret value] := by
      rw [instrs_reopen, push_eq_grow, instrs_grow]
    have hmade : made (d₁.push (.ret value)).reopen.instrs = made d₁.instrs := by
      rw [hinstrs, made_append]
      exact List.append_nil _
    refine ⟨?_, ?_, ?_, ?_, ?_, ?_⟩
    · rw [context, htexts, hinstrs, sound_append, sound_singleton]
      exact ⟨h.code, hvalue, by simp [Instr.temp?, Instr.result]⟩
    · intro b hb
      rw [Draft.reopen, isTerminated_push_ret] at hb
      rcases List.mem_append.mp hb with hb | hb
      · exact h.closed b hb
      · rw [List.mem_singleton.mp hb]
        exact ⟨d₁.code, value, rfl, h.unended⟩
    · rw [Draft.reopen, isTerminated_push_ret]
      simp
    · rw [hmade, htemps]
      exact h.numbered
    · rw [hmade, hscope]
      exact h.slots
    · rw [hscope]
      exact h.apart

theorem Rests.report (h : d.Rests callees) (err : SemanticError) :
    (d.report err).Rests callees := by
  rcases h with h | ⟨d₁, value, h, hvalue, rfl⟩
  · exact .inl (h.report err)
  · exact .inr ⟨d₁.report err, value, h.report err, hvalue, rfl⟩

theorem Rests.finish (h : d.Rests callees) : d.finish.Ends callees := by
  rcases h with h | ⟨d₁, value, h, hvalue, rfl⟩
  · rw [Draft.finish, h.isTerminated]
    exact ⟨d, none, h, by simp, rfl⟩
  · rw [Draft.finish, isTerminated_push_ret, if_pos rfl]
    exact ⟨d₁, value, h, hvalue, rfl⟩

/-- The function that comes out at the end has sound code in closed blocks. -/
theorem Ends.result (h : d.Ends callees) :
    Sound (d.context callees) [] d.result.instrs ∧
      ∀ b ∈ d.result.blocks, Closed b.instrs := by
  obtain ⟨d₁, value, h, hvalue, rfl⟩ := h
  constructor
  · have hinstrs : (d₁.push (.ret value)).result.instrs =
        d₁.instrs ++ [.ret value] := by
      simp [Draft.result, Function.instrs, instrs, block, push]
    rw [hinstrs, sound_append, sound_singleton]
    exact ⟨h.code, hvalue, by simp [Instr.temp?, Instr.result]⟩
  · intro b hb
    rcases List.mem_append.mp hb with hb | hb
    · exact h.closed b hb
    · rw [List.mem_singleton.mp hb]
      exact ⟨d₁.code, value, rfl, h.unended⟩

/-- A draft without code is sound. -/
theorem isSound_opened {f : Function} (hf : f.header = f) (texts : List (List UInt8)) :
    (opened f texts).IsSound callees := by
  have hblocks : f.blocks = [] := by rw [← hf]; rfl
  have hinstrs : (opened f texts).instrs = [] := by
    simp [instrs, Function.instrs, hblocks]
  refine ⟨?_, by simp [hblocks], by simp, ?_, ?_, ?_⟩
  · rw [hinstrs]
    trivial
  · rw [hinstrs]
    simp
  · intro x slot h
    cases h
  · intro x y slot h
    cases h

end Draft

/-! ## Expressions -/

section
variable {callees : List (Value × List Ty)}

theorem Lowered.sound {e : Expr} {d d' : Draft} {v : Value} (h : Lowered e d v d')
    (hd : d.IsSound callees) : d'.IsSound callees ∧ d'.Holds v := by
  induction h with
  | int => exact ⟨hd, trivial⟩
  | @text pos s d => exact ⟨hd.addText s, by simp [Holds, Value.IsReady, addText]⟩
  | @ident pos x d slot type hslot htype =>
    obtain ⟨hmade, type', htype', hptr⟩ := hd.slots x slot hslot
    rw [htype] at htype'
    cases htype'
    have hload : (Instr.load (d.nextTemp x type) (.temp slot)).IsSound
        (d.context callees)
        (made d.instrs) := ⟨hmade, hptr, machineType_storable htype⟩
    exact ⟨hd.emit hload rfl, holds_emit rfl⟩
  | @binary op pos l r d a d₁ b d₂ hl hr ha hb ihl ihr =>
    -- What the left side made can still be read behind the right side.
    obtain ⟨hd₁, hholds⟩ := ihl hd
    obtain ⟨hd₂, hholds'⟩ := ihr hd₁
    have hop : (Instr.binary (.arith op) (d₂.nextTemp "" .i32) a b).IsSound
        (d₂.context callees)
        (made d₂.instrs) := ⟨⟨op, rfl⟩, hholds.grows hr.grows, hholds', ha, hb, rfl⟩
    exact ⟨hd₂.emit hop rfl, holds_emit rfl⟩

theorem Refused.sound {e : Expr} {d d' : Draft} {err : SemanticError}
    (h : Refused e d err d') (hd : d.IsSound callees) : d'.IsSound callees := by
  induction h with
  | undeclared => exact hd
  | variableType => exact hd
  | left _ ih => exact ih hd
  | right hl _ ih => exact ih (hl.sound hd).1
  | operandTypes hl hr => exact (hr.sound (hl.sound hd).1).1
  | unknownOperator hl hr => exact (hr.sound (hl.sound hd).1).1

theorem LoweredAll.sound {es : List Expr} {d d' : Draft} {vs : List Value}
    (h : LoweredAll es d vs d') (hd : d.IsSound callees) :
    d'.IsSound callees ∧ ∀ v ∈ vs, d'.Holds v := by
  induction h with
  | nil => exact ⟨hd, by simp⟩
  | cons hv hvs ih =>
    obtain ⟨hd₁, hholds⟩ := hv.sound hd
    obtain ⟨hd₂, hall⟩ := ih hd₁
    refine ⟨hd₂, fun u hu => ?_⟩
    rcases List.mem_cons.mp hu with rfl | hu
    · exact hholds.grows hvs.grows
    · exact hall u hu

theorem RefusedAll.sound {es : List Expr} {d d' : Draft} {err : SemanticError}
    (h : RefusedAll es d err d') (hd : d.IsSound callees) : d'.IsSound callees := by
  induction h with
  | head hv => exact hv.sound hd
  | tail hv _ ih => exact ih (hv.sound hd).1

/-! ## Statements -/

/-- The types of the arguments of a call are those that its callee takes. -/
theorem badArgument?_none {number : Nat} {es : List Expr} {vs : List Value}
    {ps : List Param} (hes : es.length = vs.length) (hps : vs.length = ps.length)
    (h : badArgument? number es vs ps = none) :
    vs.map Value.type = ps.map (·.type) := by
  induction es generalizing number vs ps with
  | nil =>
    obtain rfl : vs = [] := List.length_eq_zero_iff.mp hes.symm
    obtain rfl : ps = [] := List.length_eq_zero_iff.mp hps.symm
    rfl
  | cons e es ih =>
    match vs, ps, hes, hps with
    | v :: vs, p :: ps, hes, hps =>
      rw [badArgument?] at h
      by_cases htype : v.type = p.type
      · rw [if_pos htype] at h
        simp only [List.length_cons, Nat.succ.injEq] at hes hps
        rw [List.map_cons, List.map_cons, htype, ih hes hps h]
      · rw [if_neg htype] at h
        cases h

theorem LoweredAll.length_eq {es : List Expr} {d d' : Draft} {vs : List Value}
    (h : LoweredAll es d vs d') : es.length = vs.length := by
  induction h with
  | nil => rfl
  | cons _ _ ih => rw [List.length_cons, List.length_cons, ih]

theorem Done.sound {m : Module} (hm : m.context.callees = callees) {s : Stmt}
    {d d' : Draft} (h : Done m s d d') (hd : d.IsSound callees) :
    d'.Rests callees := by
  cases h with
  | @decl pos x type machine d htype =>
    have halloca : (Instr.alloca (d.nextTemp x (.ptr machine)) machine).IsSound
        (d.context callees) (made d.instrs) := ⟨machineType_storable htype, rfl⟩
    refine .inl ((hd.emit (i := (.alloca · machine)) halloca rfl).bind htype rfl
      (holds_emit rfl) ?_ pos)
    -- Slots of other variables are made already, and this one is not.
    intro y hy
    exact hd.nextTemp_notMem _ _ (hd.slots y _ hy).1
  | @assign pos x e d slot v d₁ hslot hv htype =>
    obtain ⟨hd₁, hholds⟩ := hv.sound hd
    obtain ⟨hmade, type, _, hptr⟩ := hd.slots x slot hslot
    have haddress : d.Holds (.temp slot) := hmade
    refine .inl (hd₁.push ⟨hholds, haddress.grows hv.grows, ?_⟩ rfl rfl)
    rw [hptr] at htype
    show slot.type = .ptr v.type
    rw [hptr, htype]
    rfl
  | @call pos x es d vs d₁ callee hvs hcallee harity hargs =>
    obtain ⟨hd₁, hall⟩ := hvs.sound hd
    have hmem : callee ∈ m.functions := by
      unfold Module.find? at hcallee
      exact List.mem_reverse.mp (List.mem_of_find?_eq_some hcallee)
    refine .inl (hd₁.push ⟨rfl, ?_, hall⟩ rfl rfl)
    rw [badArgument?_none hvs.length_eq harity hargs]
    exact hm ▸ List.mem_map_of_mem hmem
  | ret => exact .inr ⟨_, none, hd, by simp, rfl⟩
  | @retValue pos e d v d₁ hv =>
    obtain ⟨hd₁, hholds⟩ := hv.sound hd
    refine .inr ⟨d₁, some v, hd₁, fun u hu => ?_, rfl⟩
    cases hu
    exact hholds

theorem Dropped.sound {m : Module} {s : Stmt} {d d' : Draft} {err : SemanticError}
    (h : Dropped m s d err d') (hd : d.IsSound callees) : d'.Rests callees := by
  cases h with
  | variableType => exact .inl hd
  | undeclared => exact .inl hd
  | noValue => exact .inl hd
  | manyValues => exact .inl hd
  | assigned _ hv => exact .inl (hv.sound hd)
  | assignType _ hv => exact .inl (hv.sound hd).1
  | argument hvs => exact .inl (hvs.sound hd)
  | unknownCallee hvs => exact .inl (hvs.sound hd).1
  | callArity hvs => exact .inl (hvs.sound hd).1
  | callArgument hvs => exact .inl (hvs.sound hd).1
  | returned hv => exact .inl (hv.sound hd)
  -- The return is there before its values are counted.
  | manyReturns => exact .inr ⟨_, none, hd, by simp, rfl⟩

/-! ## Bodies and modules -/

theorem Body.sound {m : Module} (hm : m.context.callees = callees)
    {body : List Stmt} {d d' : Draft} (h : Body m body d d')
    (hd : d.Rests callees) : d'.Rests callees := by
  induction h with
  | nil => exact hd
  | done hs _ ih => exact ih (hs.sound hm hd.reopen)
  | dropped hs _ ih => exact ih ((hs.sound hd.reopen).report _)

end

end Straightline.Lowering

namespace Straightline

open Code Lowering

/-- Every function of a compiled module is one that was declared. Either it is
external and left as it was, or its code is what a body was lowered to. -/
theorem Tree.compile_functions {t : Tree} {c : Compiled} (hc : t.compile = .ok c)
    {f : Function} (hf : f ∈ c.module.functions) :
    ∃ g ∈ t.declared.module.functions, f.header = g ∧
      ((f = g ∧ g.isExternal = true) ∨
        g.isExternal = false ∧ ∃ (m : Module) (texts : List (List UInt8))
          (body : List Stmt) (d : Draft),
          m.context.callees = c.module.context.callees ∧
          Body m body (.opened g texts) d ∧
          f = d.finish.result ∧ d.texts <+: c.module.texts ∧
          d.errors.length ≤ c.errors.length) := by
  have hdefined := t.compile_rules
  rw [hc] at hdefined
  have hproper := t.declared_proper
  have hheaders : headers c.module = headers t.declared.module := hdefined.headers_eq
  obtain ⟨i, hi⟩ := List.getElem?_of_mem hf
  obtain ⟨g, hg, hheader⟩ : ∃ g, t.declared.module.functions[i]? = some g ∧
      g.header = f.header := by
    have hget := congrArg (·[i]?) hheaders
    simp only [headers, List.getElem?_map, hi, Option.map_some] at hget
    exact Option.map_eq_some_iff.mp hget.symm
  have hmem := List.mem_of_getElem? hg
  refine ⟨g, hmem, hheader.symm.trans (hproper.bare g hmem), ?_⟩
  -- Bodies are kept with the places of their functions, so the place decides.
  by_cases hplace : i ∈ t.declared.bodies.map (·.1)
  · obtain ⟨⟨place, body⟩, hbody, rfl⟩ := List.mem_map.mp hplace
    obtain ⟨m, texts, d, hm, hrules, hresult, hrest⟩ :=
      hdefined.lowered hproper.once hbody hg
    obtain ⟨g', hg', hinternal⟩ := (hproper.bodies place).mp hplace
    rw [hg] at hg'
    cases hg'
    rw [hresult] at hi
    cases hi
    exact .inr ⟨hinternal, m, texts, body, d,
      callees_of_headers (hm.trans hheaders.symm), hrules, rfl, hrest⟩
  · have hsame : f = g :=
      Option.some.inj ((hi.symm.trans (hdefined.unchanged hplace)).trans hg)
    refine .inl ⟨hsame, ?_⟩
    by_contra hnot
    exact hplace ((hproper.bodies i).mpr ⟨g, hg, by simpa using hnot⟩)

/-- Whatever a tree says, the module that is made from it is sound. -/
theorem Tree.compile_sound {t : Tree} {c : Compiled} (hc : t.compile = .ok c) :
    c.module.IsSound := by
  have hproper := t.declared_proper
  constructor
  · have hdefined := t.compile_rules
    rw [hc] at hdefined
    rw [names_of_headers hdefined.headers_eq]
    exact hproper.names
  · intro f hf
    obtain ⟨g, hg, rfl, hcases⟩ := Tree.compile_functions hc hf
    have hbare := hproper.bare _ hg
    have hvoid : f.ret = .void := hproper.void f.header hg
    have hparams : ∀ p ∈ f.params, p.type.IsStorable := hproper.params f.header hg
    rcases hcases with ⟨hsame, hexternal⟩ |
      ⟨hinternal, m, texts, body, d, hcallees, hrules, hresult, htexts, -⟩
    · have hblocks : f.blocks = [] := by rw [hsame]; rfl
      have hexternal : f.isExternal = true := hexternal
      exact ⟨hvoid, hparams, by simp [hblocks, hexternal], by simp [Function.instrs,
        hblocks, Sound], by simp [hblocks]⟩
    · have hrests := hrules.sound hcallees (.inl (Draft.isSound_opened hbare texts))
      obtain ⟨hcode, hclosed⟩ := hrests.finish.result
      have hinternal : f.isExternal = false := hinternal
      subst hresult
      refine ⟨hvoid, hparams, ?_, hcode.mono rfl ?_, hclosed⟩
      · rw [hinternal]
        simp [Draft.result]
      · -- String constants may be added behind those of the function.
        show d.finish.texts.length ≤ c.module.texts.length
        rw [(finish_frame d).2.1]
        exact htexts.length_le

end Straightline
