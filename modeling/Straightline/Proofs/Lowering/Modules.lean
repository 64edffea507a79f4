import Mathlib
import Straightline.Proofs.Code.Sound
import Straightline.Proofs.Lowering.Rules

/-!
# What lowering leaves alone, and how bodies make up a module

Lowering an expression only adds to a draft (`Lowered.grow`, `Refused.grow`),
and lowering a body leaves the header of its function as it was
(`Body.header_eq`). So a module keeps its headers while bodies are put into it
one after the other, and `compile_rules` follows `Tree.compile` through all of
them: what every body is lowered from (`Defined`) and what the declarations
leave to start with (`Proper`).
-/

namespace Straightline

open Code

namespace Lowering

/-! ## Growth -/

namespace Draft

/-- Adds instructions and string constants, and counts temporaries. -/
def grow (d : Draft) (is : List Instr) (ts : List (List UInt8)) (n : Nat) : Draft :=
  { d with
    function := { d.function with temps := d.function.temps + n }
    texts := d.texts ++ ts
    code := d.code ++ is }

theorem grow_nil (d : Draft) : d.grow [] [] 0 = d := by simp [grow]

theorem grow_grow (d : Draft) (is js : List Instr) (ts us : List (List UInt8))
    (n k : Nat) :
    (d.grow is ts n).grow js us k = d.grow (is ++ js) (ts ++ us) (n + k) := by
  simp [grow, Nat.add_assoc]

theorem emit_eq_grow (d : Draft) (name : String) (type : Ty) (i : Temp → Instr) :
    d.emit name type i = d.grow [i (d.nextTemp name type)] [] 1 := by
  simp [emit, grow]

theorem addText_eq_grow (d : Draft) (s : String) :
    d.addText s = d.grow [] [Rune.utf8 s] 0 := by
  simp [addText, grow]

theorem push_eq_grow (d : Draft) (i : Instr) : d.push i = d.grow [i] [] 0 := by
  simp [push, grow]

/-- `d'` is `d` with something added. -/
def Grows (d d' : Draft) : Prop := ∃ is ts n, d' = d.grow is ts n

theorem Grows.refl (d : Draft) : Grows d d := ⟨[], [], 0, (grow_nil d).symm⟩

theorem Grows.trans {d₁ d₂ d₃ : Draft} (h₁ : Grows d₁ d₂) (h₂ : Grows d₂ d₃) :
    Grows d₁ d₃ := by
  obtain ⟨is, ts, n, rfl⟩ := h₁
  obtain ⟨js, us, k, rfl⟩ := h₂
  exact ⟨_, _, _, grow_grow d₁ is js ts us n k⟩

theorem Grows.emit (d : Draft) (name : String) (type : Ty) (i : Temp → Instr) :
    Grows d (d.emit name type i) := ⟨_, _, _, emit_eq_grow d name type i⟩

theorem Grows.push (d : Draft) (i : Instr) : Grows d (d.push i) :=
  ⟨_, _, _, push_eq_grow d i⟩

theorem Grows.header_eq {d d' : Draft} (h : Grows d d') :
    d'.function.header = d.function.header := by
  obtain ⟨is, ts, n, rfl⟩ := h
  rfl

theorem Grows.scope_eq {d d' : Draft} (h : Grows d d') : d'.scope = d.scope := by
  obtain ⟨is, ts, n, rfl⟩ := h
  rfl

theorem Grows.errors_eq {d d' : Draft} (h : Grows d d') : d'.errors = d.errors := by
  obtain ⟨is, ts, n, rfl⟩ := h
  rfl

theorem Grows.blocks_eq {d d' : Draft} (h : Grows d d') :
    d'.function.blocks = d.function.blocks := by
  obtain ⟨is, ts, n, rfl⟩ := h
  rfl

theorem Grows.texts_prefix {d d' : Draft} (h : Grows d d') : d.texts <+: d'.texts := by
  obtain ⟨is, ts, n, rfl⟩ := h
  exact List.prefix_append _ _

end Draft

open Draft

theorem Lowered.grows {e : Expr} {d d' : Draft} {v : Value} (h : Lowered e d v d') :
    Grows d d' := by
  induction h with
  | int => exact .refl _
  | @text pos s d => exact ⟨_, _, _, addText_eq_grow d s⟩
  | ident => exact .emit _ _ _ _
  | binary _ _ _ _ ihl ihr => exact ihl.trans (ihr.trans (.emit _ _ _ _))

theorem Refused.grows {e : Expr} {d d' : Draft} {err : SemanticError}
    (h : Refused e d err d') : Grows d d' := by
  induction h with
  | undeclared => exact .refl _
  | variableType => exact .refl _
  | left _ ih => exact ih
  | right hl _ ih => exact hl.grows.trans ih
  | operandTypes hl hr => exact hl.grows.trans hr.grows
  | unknownOperator hl hr => exact hl.grows.trans hr.grows

theorem LoweredAll.grows {es : List Expr} {d d' : Draft} {vs : List Value}
    (h : LoweredAll es d vs d') : Grows d d' := by
  induction h with
  | nil => exact .refl _
  | cons hv _ ih => exact hv.grows.trans ih

theorem RefusedAll.grows {es : List Expr} {d d' : Draft} {err : SemanticError}
    (h : RefusedAll es d err d') : Grows d d' := by
  induction h with
  | head hv => exact hv.grows
  | tail hv _ ih => exact hv.grows.trans ih

/-- A statement that is wrong adds something, and declares nothing. -/
theorem Dropped.grows {m : Module} {s : Stmt} {d d' : Draft} {err : SemanticError}
    (h : Dropped m s d err d') : Grows d d' := by
  cases h with
  | variableType => exact .refl _
  | undeclared => exact .refl _
  | noValue => exact .refl _
  | manyValues => exact .refl _
  | assigned _ hv => exact hv.grows
  | assignType _ hv => exact hv.grows
  | argument hvs => exact hvs.grows
  | unknownCallee hvs => exact hvs.grows
  | callArity hvs => exact hvs.grows
  | callArgument hvs => exact hvs.grows
  | returned hv => exact hv.grows
  | manyReturns => exact .push _ _

/-- A statement that is lowered adds something; a declaration then binds its name. -/
theorem Done.grows {m : Module} {s : Stmt} {d d' : Draft} (h : Done m s d d') :
    ∃ d₁, Grows d d₁ ∧ (d' = d₁ ∨ ∃ symbol, d' = d₁.bind symbol) := by
  cases h with
  | decl => exact ⟨_, .emit _ _ _ _, .inr ⟨_, rfl⟩⟩
  | assign _ hv => exact ⟨_, hv.grows.trans (.push _ _), .inl rfl⟩
  | call hvs => exact ⟨_, hvs.grows.trans (.push _ _), .inl rfl⟩
  | ret => exact ⟨_, .push _ _, .inl rfl⟩
  | retValue hv => exact ⟨_, hv.grows.trans (.push _ _), .inl rfl⟩

theorem Done.header_eq {m : Module} {s : Stmt} {d d' : Draft} (h : Done m s d d') :
    d'.function.header = d.function.header := by
  obtain ⟨d₁, hgrows, rfl | ⟨symbol, rfl⟩⟩ := h.grows
  · exact hgrows.header_eq
  · exact hgrows.header_eq

theorem Done.errors_eq {m : Module} {s : Stmt} {d d' : Draft} (h : Done m s d d') :
    d'.errors = d.errors := by
  obtain ⟨d₁, hgrows, rfl | ⟨symbol, rfl⟩⟩ := h.grows
  · exact hgrows.errors_eq
  · exact hgrows.errors_eq

theorem Done.texts_prefix {m : Module} {s : Stmt} {d d' : Draft} (h : Done m s d d') :
    d.texts <+: d'.texts := by
  obtain ⟨d₁, hgrows, rfl | ⟨symbol, rfl⟩⟩ := h.grows
  · exact hgrows.texts_prefix
  · exact hgrows.texts_prefix

theorem Done.blocks_eq {m : Module} {s : Stmt} {d d' : Draft} (h : Done m s d d') :
    d'.function.blocks = d.function.blocks := by
  obtain ⟨d₁, hgrows, rfl | ⟨symbol, rfl⟩⟩ := h.grows
  · exact hgrows.blocks_eq
  · exact hgrows.blocks_eq

/-! ## Opening and closing blocks -/

/-- Closing a block changes where its instructions stand and nothing else. -/
theorem reopen_frame (d : Draft) :
    d.reopen.function.header = d.function.header ∧ d.reopen.texts = d.texts ∧
      d.reopen.scope = d.scope ∧ d.reopen.errors = d.errors ∧
      d.reopen.function.temps = d.function.temps := by
  unfold reopen
  split
  · exact ⟨rfl, rfl, rfl, rfl, rfl⟩
  · exact ⟨rfl, rfl, rfl, rfl, rfl⟩

theorem finish_frame (d : Draft) :
    d.finish.function = d.function ∧ d.finish.texts = d.texts ∧
      d.finish.errors = d.errors := by
  unfold finish
  split
  · exact ⟨rfl, rfl, rfl⟩
  · exact ⟨rfl, rfl, rfl⟩

theorem Body.header_eq {m : Module} {body : List Stmt} {d d' : Draft}
    (h : Body m body d d') : d'.function.header = d.function.header := by
  induction h with
  | nil => rfl
  | done hs _ ih => rw [ih, hs.header_eq, (reopen_frame _).1]
  | dropped hs _ ih => rw [ih]; exact hs.grows.header_eq.trans (reopen_frame _).1

theorem Body.texts_prefix {m : Module} {body : List Stmt} {d d' : Draft}
    (h : Body m body d d') : d.texts <+: d'.texts := by
  induction h with
  | nil => exact List.prefix_refl _
  | @done s rest d d₁ d₂ hs _ ih =>
    have := hs.texts_prefix
    rw [(reopen_frame d).2.1] at this
    exact this.trans ih
  | @dropped s rest d err d₁ d₂ hs _ ih =>
    have := hs.grows.texts_prefix
    rw [(reopen_frame d).2.1] at this
    exact this.trans ih

theorem Body.errors_prefix {m : Module} {body : List Stmt} {d d' : Draft}
    (h : Body m body d d') : d.errors <+: d'.errors := by
  induction h with
  | nil => exact List.prefix_refl _
  | @done s rest d d₁ d₂ hs _ ih =>
    rwa [hs.errors_eq, (reopen_frame d).2.2.2.1] at ih
  | @dropped s rest d err d₁ d₂ hs _ ih =>
    refine List.IsPrefix.trans ?_ ih
    rw [← (reopen_frame d).2.2.2.1, ← hs.grows.errors_eq]
    exact List.prefix_append _ _

/-- A wrong statement is reported, and the report stays. -/
theorem Body.errors_ne_of_dropped {m : Module} {s : Stmt} {rest : List Stmt}
    {err : SemanticError} {d d₁ d₂ : Draft} (hrest : Body m rest (d₁.report err) d₂)
    (hs : Dropped m s d.reopen err d₁) : d₂.errors ≠ d.errors := by
  intro herrors
  have hlength := hrest.errors_prefix.length_le
  rw [herrors, ← (reopen_frame d).2.2.2.1, ← hs.grows.errors_eq] at hlength
  simp [report] at hlength

/-! ## Putting bodies into a module -/

theorem find?_header (m : Module) (x : String) :
    (m.find? x).map Function.header = (headers m).reverse.find? (·.name == x) := by
  rw [headers, ← List.map_reverse, List.find?_map]
  rfl

/-- Modules with the same headers find the same functions, but for their code. -/
theorem find?_of_headers {m m' : Module} (h : headers m' = headers m) {x : String}
    {f : Function} (hf : m.find? x = some f) :
    ∃ f', m'.find? x = some f' ∧ f'.header = f.header := by
  have hmap := find?_header m' x
  rw [h, ← find?_header, hf] at hmap
  exact Option.map_eq_some_iff.mp hmap

theorem find?_none_of_headers {m m' : Module} (h : headers m' = headers m) {x : String}
    (hf : m.find? x = none) : m'.find? x = none := by
  have hmap := find?_header m' x
  rw [h, ← find?_header, hf] at hmap
  exact Option.map_eq_none_iff.mp hmap

theorem ReturnsNothing.of_headers {m m' : Module} (h : headers m' = headers m)
    (hm : ReturnsNothing m) : ReturnsNothing m' := by
  intro f hf
  have : f.header ∈ headers m := h ▸ List.mem_map_of_mem hf
  obtain ⟨g, hg, heq⟩ := List.mem_map.mp this
  show f.header.ret = .void
  rw [← heq]
  exact hm g hg

/-- The module with the function at `place` as it was lowered in `d`. -/
def Compiled.install (c : Compiled) (place : Nat) (d : Draft) : Compiled :=
  { module := { c.module.modify place fun _ => d.finish.result with texts := d.texts }
    errors := c.errors ++ d.errors }

theorem getElem?_install (c : Compiled) (place : Nat) (d : Draft) {f : Function}
    (hf : c.module.functions[place]? = some f) (i : Nat) :
    (c.install place d).module.functions[i]? =
      if i = place then some d.finish.result else c.module.functions[i]? := by
  simp only [Compiled.install, Module.modify, List.getElem?_modify]
  by_cases h : i = place
  · subst h
    simp [hf]
  · simp [h, Ne.symm h]

theorem header_result (d : Draft) : d.finish.result.header = d.function.header := by
  rw [result, (finish_frame d).1]
  rfl

theorem headers_install {c : Compiled} {place : Nat} {d : Draft} {f : Function}
    (hf : c.module.functions[place]? = some f) (hd : d.function.header = f.header) :
    headers (c.install place d).module = headers c.module := by
  apply List.ext_getElem?
  intro i
  simp only [headers, List.getElem?_map, getElem?_install c place d hf]
  by_cases h : i = place
  · subst h
    rw [if_pos rfl, hf, Option.map_some, Option.map_some, header_result, hd]
  · rw [if_neg h]

/-- The draft that a body is lowered from. -/
abbrev Draft.opened (f : Function) (texts : List (List UInt8)) : Draft :=
  { function := f, texts }

/-- The rules by which bodies are put into a module. -/
inductive Defined : Compiled → List (Nat × List Stmt) → Compiled → Prop
  | nil {c} : Defined c [] c
  | cons {c place body rest f d c'} : c.module.functions[place]? = some f →
      Body c.module body (.opened f c.module.texts) d →
      Defined (c.install place d) rest c' → Defined c ((place, body) :: rest) c'

theorem define_rules {c : Compiled} (hm : ReturnsNothing c.module) {place : Nat}
    {f : Function} (hf : c.module.functions[place]? = some f) (body : List Stmt) :
    match c.define place body with
    | .ok c' => ∃ d, Body c.module body (.opened f c.module.texts) d ∧
      c' = c.install place d
    | .error _ => body.all Stmt.isComplete = false := by
  have hbody := statements_rules hm body (.opened f c.module.texts)
  simp only [Compiled.define, hf]
  cases hrun : statements c.module body (.opened f c.module.texts) with
  | ok d =>
    rw [hrun] at hbody
    refine ⟨d, hbody, ?_⟩
    simp only [Compiled.install, (finish_frame d).2.1, (finish_frame d).2.2]
  | error fault =>
    rw [hrun] at hbody
    exact hbody

/-- Lowering bodies follows the rules; it is at fault only if one of them has a gap. -/
theorem defineAll_rules (bodies : List (Nat × List Stmt)) {c : Compiled}
    (hm : ReturnsNothing c.module)
    (valid : ∀ p ∈ bodies, p.1 < c.module.functions.length) :
    match c.defineAll bodies with
    | .ok c' => Defined c bodies c'
    | .error _ => ∃ p ∈ bodies, p.2.all Stmt.isComplete = false := by
  -- Each body changes the module, but not its headers, and those
  -- are all that is asked of it.
  induction bodies generalizing c with
  | nil => exact .nil
  | cons p rest ih =>
    obtain ⟨place, body⟩ := p
    obtain ⟨f, hf⟩ : ∃ f, c.module.functions[place]? = some f :=
      ⟨_, List.getElem?_eq_getElem (valid (place, body) List.mem_cons_self)⟩
    have hdef := define_rules hm hf body
    rw [Compiled.defineAll]
    cases hrun : c.define place body with
    | error fault =>
      rw [hrun] at hdef
      exact ⟨(place, body), List.mem_cons_self, hdef⟩
    | ok c₁ =>
      rw [hrun] at hdef
      obtain ⟨d, hbody, rfl⟩ := hdef
      have hheaders := headers_install (c := c) hf hbody.header_eq
      have hlength : (c.install place d).module.functions.length =
          c.module.functions.length := by
        simpa [headers] using congrArg List.length hheaders
      have hrest := ih (hm.of_headers hheaders) fun q hq =>
        hlength ▸ valid q (List.mem_cons_of_mem _ hq)
      show match (c.install place d).defineAll rest with
        | .ok c' => Defined c ((place, body) :: rest) c'
        | .error _ => ∃ p ∈ (place, body) :: rest, p.2.all Stmt.isComplete = false
      cases hall : (c.install place d).defineAll rest with
      | ok c' =>
        rw [hall] at hrest
        exact .cons hf hbody hrest
      | error fault =>
        rw [hall] at hrest
        obtain ⟨q, hq, hgap⟩ := hrest
        exact ⟨q, List.mem_cons_of_mem _ hq, hgap⟩

theorem Defined.headers_eq {c c' : Compiled} {bodies : List (Nat × List Stmt)}
    (h : Defined c bodies c') : headers c'.module = headers c.module := by
  induction h with
  | nil => rfl
  | cons hf hbody _ ih => rw [ih, headers_install hf hbody.header_eq]

theorem Defined.texts_prefix {c c' : Compiled} {bodies : List (Nat × List Stmt)}
    (h : Defined c bodies c') : c.module.texts <+: c'.module.texts := by
  induction h with
  | nil => exact List.prefix_refl _
  | cons hf hbody _ ih => exact hbody.texts_prefix.trans ih

theorem Defined.errors_prefix {c c' : Compiled} {bodies : List (Nat × List Stmt)}
    (h : Defined c bodies c') : c.errors <+: c'.errors := by
  induction h with
  | nil => exact List.prefix_refl _
  | cons _ _ _ ih => exact (List.prefix_append _ _).trans ih

/-- A function without a body to be lowered stays as it is. -/
theorem Defined.unchanged {c c' : Compiled} {bodies : List (Nat × List Stmt)}
    (h : Defined c bodies c') {i : Nat} (hi : i ∉ bodies.map (·.1)) :
    c'.module.functions[i]? = c.module.functions[i]? := by
  induction h with
  | nil => rfl
  | @cons c place body rest f d c' hf _ _ ih =>
    rw [List.map_cons, List.mem_cons, not_or] at hi
    rw [ih hi.2, getElem?_install c place d hf, if_neg hi.1]

/-- What becomes of a function with a body: it is lowered once, in a module with
the same headers, and string constants may be added behind its own. -/
theorem Defined.lowered {c c' : Compiled} {bodies : List (Nat × List Stmt)}
    (h : Defined c bodies c') (once : (bodies.map (·.1)).Nodup) {place : Nat}
    {body : List Stmt} (hmem : (place, body) ∈ bodies) {f : Function}
    (hf : c.module.functions[place]? = some f) :
    ∃ (m : Module) (texts : List (List UInt8)) (d : Draft),
      headers m = headers c.module ∧ Body m body (.opened f texts) d ∧
      c'.module.functions[place]? = some d.finish.result ∧ d.texts <+: c'.module.texts ∧
      d.errors.length ≤ c'.errors.length := by
  induction h with
  | nil => cases hmem
  | @cons c place₁ body₁ rest f₁ d c' hf₁ hbody hrest ih =>
    have hheaders := headers_install (c := c) hf₁ hbody.header_eq
    rw [List.map_cons, List.nodup_cons] at once
    rcases List.mem_cons.mp hmem with heq | hrestMem
    · -- Places differ, so later bodies leave this function alone.
      cases heq
      rw [hf] at hf₁
      cases hf₁
      refine ⟨c.module, c.module.texts, d, rfl, hbody, ?_, hrest.texts_prefix, ?_⟩
      · rw [hrest.unchanged once.1, getElem?_install c place d hf, if_pos rfl]
      · refine le_trans ?_ hrest.errors_prefix.length_le
        show d.errors.length ≤ (c.errors ++ d.errors).length
        simp
    · have hne : place ≠ place₁ := by
        rintro rfl
        exact once.1 (List.mem_map.mpr ⟨_, hrestMem, rfl⟩)
      have hf' : (c.install place₁ d).module.functions[place]? = some f := by
        rw [getElem?_install c place₁ d hf₁, if_neg hne, hf]
      obtain ⟨m, texts, d', hm, hrules⟩ := ih once.2 hrestMem hf'
      exact ⟨m, texts, d', hm.trans hheaders, hrules⟩

/-! ## Declaring globals -/

theorem machineType_storable {type : Option DataType} {t : Ty}
    (h : machineType type = .ok t) : t.IsStorable := by
  cases type with
  | none => cases h
  | some type =>
    rw [machineType] at h
    split at h
    · cases h
      exact .inl rfl
    · split at h
      · cases h
        exact .inr rfl
      · cases h

/-- What holds of the declarations of a module, whatever globals they come from. -/
structure Proper (d : Declared) : Prop where
  place : ∀ (i : Nat) (f : Function), d.module.functions[i]? = some f → f.place = i
  bare : ∀ f ∈ d.module.functions, f.header = f
  void : ReturnsNothing d.module
  params : ∀ f ∈ d.module.functions, ∀ p ∈ f.params, p.type.IsStorable
  names : (d.module.functions.map (·.name)).Nodup
  bodies : ∀ i : Nat, i ∈ d.bodies.map (·.1) ↔
    ∃ f, d.module.functions[i]? = some f ∧ f.isExternal = false
  once : (d.bodies.map (·.1)).Nodup

theorem Proper.start (name : String) : Proper { module := { name } } where
  place := by simp
  bare := by simp
  void := by simp [ReturnsNothing]
  params := by simp
  names := by simp
  bodies := by simp
  once := by simp

theorem find?_name {m : Module} {x : String} {f : Function}
    (h : m.find? x = some f) : f.name = x := by
  simpa using List.find?_some h

/-- If names differ, a function is found by its name. -/
theorem find?_of_getElem? {m : Module} (names : (m.functions.map (·.name)).Nodup)
    {i : Nat} {f : Function} (hf : m.functions[i]? = some f) :
    m.find? f.name = some f := by
  have hmem : f ∈ m.functions := List.mem_of_getElem? hf
  cases hfind : m.find? f.name with
  | none =>
    exact absurd (List.find?_eq_none.mp hfind f (List.mem_reverse.mpr hmem)) (by simp)
  | some g =>
    have hgmem : g ∈ m.functions :=
      List.mem_reverse.mp (List.mem_of_find?_eq_some hfind)
    rw [List.inj_on_of_nodup_map names hgmem hmem (find?_name hfind)]

theorem find?_eq_none_iff {m : Module} {x : String} :
    m.find? x = none ↔ x ∉ m.functions.map (·.name) := by
  simp [Module.find?, List.find?_eq_none]

theorem parameterTypes_storable {ps : List Variable} {types : List (String × Ty)}
    (h : parameterTypes ps = .ok types) : ∀ t ∈ types, t.2.IsStorable := by
  induction ps generalizing types with
  | nil => cases h; simp
  | cons p ps ih =>
    rw [parameterTypes] at h
    cases hp : machineType p.type with
    | error problem => rw [hp] at h; cases h
    | ok t =>
      rw [hp] at h
      cases hps : parameterTypes ps with
      | error bad => rw [hps] at h; cases h
      | ok rest =>
        rw [hps] at h
        cases h
        intro u hu
        rcases List.mem_cons.mp hu with rfl | hu
        · exact machineType_storable hp
        · exact ih hps u hu

/-- A function that is declared anew, with or without a body that is still to come. -/
theorem Proper.declare {d : Declared} (h : Proper d) {name : String}
    {types : List (String × Ty)} (new : d.module.find? name = none)
    (htypes : ∀ t ∈ types, t.2.IsStorable) (isExternal : Bool)
    (body : List (Nat × List Stmt))
    (hbody : body.map (·.1) = if isExternal then [] else [d.module.functions.length]) :
    Proper { d with
      module := d.module.declare name .void types isExternal, bodies :=
        d.bodies ++ body } where
  place := by
    intro i f hf
    simp only [Module.declare, List.getElem?_append] at hf
    split at hf
    · exact h.place i f hf
    · obtain ⟨hi, rfl⟩ := List.getElem?_eq_some_iff.mp hf
      simp only [List.length_singleton] at hi
      simp only [Module.declared, List.getElem_singleton]
      omega
  bare := by
    intro f hf
    rcases List.mem_append.mp hf with hf | hf
    · exact h.bare f hf
    · rw [List.mem_singleton.mp hf]; rfl
  void := by
    intro f hf
    rcases List.mem_append.mp hf with hf | hf
    · exact h.void f hf
    · rw [List.mem_singleton.mp hf]; rfl
  params := by
    intro f hf p hp
    rcases List.mem_append.mp hf with hf | hf
    · exact h.params f hf p hp
    · rw [List.mem_singleton.mp hf] at hp
      obtain ⟨i, hi, rfl⟩ := List.mem_mapIdx.mp hp
      exact htypes _ (List.getElem_mem hi)
  names := by
    have hnew : name ∉ d.module.functions.map (·.name) := find?_eq_none_iff.mp new
    simp only [Module.declare, List.map_append, List.map_cons, List.map_nil,
      Module.declared]
    exact List.nodup_append.mpr ⟨h.names, List.nodup_singleton _, fun a ha b hb => by
      rw [List.mem_singleton.mp hb]; exact fun heq => hnew (heq ▸ ha)⟩
  bodies := by
    intro i
    simp only [List.map_append, List.mem_append, hbody, h.bodies i, Module.declare,
      List.getElem?_append]
    constructor
    · rintro (⟨f, hf, hint⟩ | hi)
      · have hlt := (List.getElem?_eq_some_iff.mp hf).1
        exact ⟨f, by rw [if_pos hlt]; exact hf, hint⟩
      · cases isExternal with
        | true => simp at hi
        | false =>
          obtain rfl : i = d.module.functions.length := by simpa using hi
          exact ⟨d.module.declared name .void types false, by simp, rfl⟩
    · rintro ⟨f, hf, hint⟩
      split at hf
      · exact .inl ⟨f, hf, hint⟩
      · right
        obtain ⟨hi, rfl⟩ := List.getElem?_eq_some_iff.mp hf
        simp only [List.length_singleton] at hi
        simp only [List.getElem_singleton, Module.declared] at hint
        subst hint
        simp only [Bool.false_eq_true, if_false, List.mem_singleton]
        omega
  once := by
    rw [List.map_append, hbody]
    cases isExternal with
    | true => simpa using h.once
    | false =>
      refine List.nodup_append.mpr ⟨h.once, List.nodup_singleton _, fun a ha b hb => ?_⟩
      obtain ⟨f, hf, _⟩ := (h.bodies a).mp ha
      have := (List.getElem?_eq_some_iff.mp hf).1
      rw [List.mem_singleton.mp hb]
      omega

theorem Proper.add {d : Declared} (h : Proper d) (g : Global) : Proper (d.add g) := by
  unfold Declared.add
  cases hfind : d.module.find? g.name with
  | some f => exact { h with }
  | none =>
    cases g with
    | func pos name params body =>
      exact h.declare hfind (by simp) false [(d.module.functions.length, body)] rfl
    | external pos name params =>
      simp only [Option.isSome_none, Bool.false_eq_true, if_false]
      cases hparams : parameterTypes params with
      | error bad => exact { h with }
      | ok types =>
        have hfind' : d.module.find? name = none := hfind
        simpa using h.declare hfind' (parameterTypes_storable hparams) true [] rfl

/-- Whether a function definition was accepted: its body is to be lowered for
a function of its name. -/
def Declared.Accepts (d : Declared) (name : String) (body : List Stmt) : Prop :=
  ∃ place f, (place, body) ∈ d.bodies ∧ d.module.functions[place]? = some f ∧
    f.name = name

theorem Declared.Accepts.add {d : Declared} {name : String} {body : List Stmt}
    (h : d.Accepts name body) (g : Global) : (d.add g).Accepts name body := by
  obtain ⟨place, f, hbody, hf, hname⟩ := h
  have hlt := (List.getElem?_eq_some_iff.mp hf).1
  unfold Declared.add
  split
  · exact ⟨place, f, hbody, hf, hname⟩
  · cases g with
    | func pos x params stmts =>
      refine ⟨place, f, List.mem_append_left _ hbody, ?_, hname⟩
      rw [← hf]
      exact List.getElem?_append_left hlt
    | external pos x params =>
      simp only
      split
      · exact ⟨place, f, hbody, hf, hname⟩
      · refine ⟨place, f, hbody, ?_, hname⟩
        rw [← hf]
        exact List.getElem?_append_left hlt

theorem Declared.errors_prefix_add (d : Declared) (g : Global) :
    d.errors <+: (d.add g).errors := by
  unfold Declared.add
  split
  · exact List.prefix_append _ _
  · cases g with
    | func => exact List.prefix_refl _
    | external pos x params =>
      simp only
      split
      · exact List.prefix_append _ _
      · exact List.prefix_refl _

/-- A function definition is accepted unless there is an error. -/
theorem Declared.accepts_add {d : Declared} {pos : Position} {name : String}
    {params : List Variable} {body : List Stmt}
    (h : (d.add (.func pos name params body)).errors = []) :
    (d.add (.func pos name params body)).Accepts name body := by
  unfold Declared.add at h ⊢
  split at h
  · simp at h
  · next hnew =>
    rw [if_neg hnew]
    exact ⟨d.module.functions.length, d.module.declared name .void [] false,
      by simp, by simp [Module.declare], rfl⟩

/-- Declaring a global changes nothing of a module but its functions. -/
theorem Declared.module_add (d : Declared) (g : Global) :
    (d.add g).module = { d.module with functions := (d.add g).module.functions } := by
  unfold Declared.add
  split
  · rfl
  · cases g with
    | func => rfl
    | external pos name params =>
      simp only
      split <;> rfl

theorem Declared.mem_bodies_add {d : Declared} {g : Global} {p : Nat × List Stmt}
    (hp : p ∈ (d.add g).bodies) : p ∈ d.bodies ∨ g.body = p.2 := by
  unfold Declared.add at hp
  split at hp
  · exact .inl hp
  · cases g with
    | func pos name params body =>
      rcases List.mem_append.mp hp with hp | hp
      · exact .inl hp
      · rw [List.mem_singleton.mp hp]
        exact .inr rfl
    | external pos name params =>
      simp only at hp
      split at hp
      · exact .inl hp
      · exact .inl hp

end Lowering

open Lowering

/-- The declarations of a tree. -/
def Tree.declared (t : Tree) : Declared :=
  t.globals.foldl Declared.add { module := { name := t.filename } }

theorem Tree.declared_proper (t : Tree) : Proper t.declared :=
  List.foldlRecOn t.globals Declared.add (Proper.start _) fun _ h g _ => h.add g

/-- Declaring makes a module of functions, without string constants. -/
theorem Tree.module_declared (t : Tree) :
    t.declared.module =
      { name := t.filename, functions := t.declared.module.functions } := by
  refine List.foldlRecOn
    (motive := fun d : Declared =>
      d.module = { name := t.filename, functions := d.module.functions })
    t.globals Declared.add rfl fun d hd g _ => ?_
  rw [d.module_add g, hd]

theorem Tree.texts_declared (t : Tree) : t.declared.module.texts = [] := by
  rw [t.module_declared]

theorem Tree.accepts_of_mem {t : Tree} (herrors : t.declared.errors = [])
    {pos : Position} {name : String} {params : List Variable} {body : List Stmt}
    (hmem : .func pos name params body ∈ t.globals) :
    t.declared.Accepts name body := by
  -- Errors are only ever added, so there were none at any point of the fold.
  suffices ∀ (gs : List Global) (d : Declared), (gs.foldl Declared.add d).errors = [] →
      d.errors = [] ∧ (d.Accepts name body ∨ .func pos name params body ∈ gs →
        (gs.foldl Declared.add d).Accepts name body) from
    (this t.globals _ herrors).2 (.inr hmem)
  intro gs
  induction gs with
  | nil => exact fun d h => ⟨h, fun haccepts => haccepts.elim id (by simp)⟩
  | cons g gs ih =>
    intro d h
    obtain ⟨hadd, hrest⟩ := ih (d.add g) h
    refine ⟨List.prefix_nil.mp (hadd ▸ d.errors_prefix_add g), fun haccepts => hrest ?_⟩
    rcases haccepts with haccepts | hmem
    · exact .inl (haccepts.add g)
    · rcases List.mem_cons.mp hmem with rfl | hmem
      · exact .inl (Declared.accepts_add hadd)
      · exact .inr hmem

/-- The bodies to be lowered are those of the globals. -/
theorem Tree.mem_declared_bodies (t : Tree) :
    ∀ p ∈ t.declared.bodies, ∃ g ∈ t.globals, g.body = p.2 := by
  unfold Tree.declared
  refine List.foldlRecOn
    (motive := fun d : Declared => ∀ p ∈ d.bodies, ∃ g ∈ t.globals, g.body = p.2)
      _ _ ?_ ?_
  · simp
  · intro d hd g hg p hp
    rcases Declared.mem_bodies_add hp with hp | hbody
    · exact hd p hp
    · exact ⟨g, hg, hbody⟩

/-- Compiling a tree follows the rules; it is at fault only if a body has a gap. -/
theorem Tree.compile_rules (t : Tree) :
    match t.compile with
    | .ok c => Defined { module := t.declared.module, errors := t.declared.errors }
      t.declared.bodies c
    | .error _ => ∃ p ∈ t.declared.bodies, p.2.all Stmt.isComplete = false := by
  have h := t.declared_proper
  refine defineAll_rules t.declared.bodies h.void fun p hp => ?_
  obtain ⟨f, hf, _⟩ := (h.bodies p.1).mp (List.mem_map_of_mem hp)
  exact (List.getElem?_eq_some_iff.mp hf).1

/-- A tree without gaps is compiled. -/
theorem Tree.compile_of_complete {t : Tree} (h : t.isComplete) :
    ∃ c, t.compile = .ok c ∧
      Defined { module := t.declared.module, errors := t.declared.errors }
        t.declared.bodies c := by
  have hrules := t.compile_rules
  cases hc : t.compile with
  | ok c =>
    rw [hc] at hrules
    exact ⟨c, rfl, hrules⟩
  | error fault =>
    rw [hc] at hrules
    obtain ⟨p, hp, hgap⟩ := hrules
    obtain ⟨g, hg, hbody⟩ := t.mem_declared_bodies p hp
    have hcomplete : g.isComplete := List.all_eq_true.mp h g hg
    rw [Global.isComplete, hbody, hgap] at hcomplete
    cases hcomplete

end Straightline
