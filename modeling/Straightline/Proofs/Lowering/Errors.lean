import Mathlib
import Straightline.Proofs.Lowering.Modules
import Straightline.Proofs.Typing

/-!
# Lowering reports what the type checker reports

Errors are found in the middle of making code, through slots and machine types.
`Agrees` ties a scope to an environment of data types: a name has a slot exactly
if it has a type, and the slot is one for that type. Lowering an expression
gives a value of the machine type that stands for its data type, or the error
that the checker gives (`Lowered.typeOf`, `Refused.typeOf`); statements and
globals follow. `compile_errors_eq` is the result for trees.
-/

namespace Straightline.Lowering

open Code Typing

/-! ## Scopes and environments -/

/-- A scope that stands for an environment. -/
def Agrees (scope : Scope) (Γ : Env) : Prop :=
  ∀ x, match Γ x with
    | none => scope.storage? x = none
    | some t => IsVariableType t ∧ scope.type? x = some t ∧
        ∃ slot, scope.storage? x = some slot ∧ slot.type = .ptr t.machine

theorem Agrees.empty : Agrees {} fun _ => none := fun _ => rfl

theorem Agrees.grows {d d' : Draft} {Γ : Env} (h : Agrees d.scope Γ)
    (hgrows : Draft.Grows d d') : Agrees d'.scope Γ := hgrows.scope_eq ▸ h

/-- A name that has a slot has the type that the slot is for. -/
theorem Agrees.of_storage {scope : Scope} {Γ : Env} (h : Agrees scope Γ)
    {x : String} {slot : Temp} (hslot : scope.storage? x = some slot) :
    ∃ t, Γ x = some t ∧ IsVariableType t ∧ scope.type? x = some t ∧
      slot.type = .ptr t.machine := by
  have hx := h x
  cases hΓ : Γ x with
  | none => rw [hΓ] at hx; rw [hslot] at hx; cases hx
  | some t =>
    rw [hΓ] at hx
    obtain ⟨hvar, htype, slot', hslot', hptr⟩ := hx
    rw [hslot] at hslot'
    cases hslot'
    exact ⟨t, rfl, hvar, htype, hptr⟩

/-- A name without a slot has no type. -/
theorem Agrees.of_storage_none {scope : Scope} {Γ : Env} (h : Agrees scope Γ)
    {x : String} (hslot : scope.storage? x = none) : Γ x = none := by
  have hx := h x
  cases hΓ : Γ x with
  | none => rfl
  | some t =>
    rw [hΓ] at hx
    obtain ⟨_, _, slot, hslot', _⟩ := hx
    rw [hslot] at hslot'
    cases hslot'

/-- Declaring a variable binds its name and leaves the others. -/
theorem Agrees.declare {scope : Scope} {Γ : Env} (h : Agrees scope Γ) {x : String}
    {t : DataType} (hvar : IsVariableType t) {slot : Temp}
    (hslot : slot.type = .ptr t.machine) (pos : Position) :
    Agrees (scope.declare { name := x, type := some t, storage := some slot, pos })
      (Function.update Γ x (some t)) := by
  intro y
  by_cases hy : y = x
  · subst hy
    have hfind :=
      scope.find?_declare_self { name := y, type := some t, storage := some slot, pos }
    rw [Function.update_self]
    exact ⟨hvar, by simp [Scope.type?, hfind],
      slot, by simp [Scope.storage?, hfind], hslot⟩
  · have hfind := scope.find?_declare_of_ne
      { name := x, type := some t, storage := some slot, pos } hy
    rw [Function.update_of_ne hy]
    simpa only [Scope.storage?, Scope.type?, hfind] using h y

/-- A variable can have a type exactly if there is a machine type for it. -/
theorem machineType_eq (type : Option DataType) :
    machineType type = (variableType type).map DataType.machine := by
  cases type with
  | none => rfl
  | some t =>
    rw [machineType, variableType]
    by_cases hint : t = .int
    · subst hint
      rfl
    · rw [if_neg (mt DataType.isInteger_iff.mp hint)]
      by_cases hstr : t = .str
      · subst hstr
        rfl
      · have hnot : ¬ IsVariableType t := not_or.mpr ⟨hint, hstr⟩
        rw [if_neg (mt DataType.isString_iff.mp hstr), if_neg hnot]
        rfl

theorem variableType_of_isVariableType {t : DataType} (h : IsVariableType t) :
    variableType (some t) = .ok t := if_pos h

theorem isVariableType_of_variableType {type : Option DataType} {t : DataType}
    (h : variableType type = .ok t) : type = some t ∧ IsVariableType t := by
  cases type with
  | none => cases h
  | some u =>
    simp only [variableType] at h
    by_cases hu : IsVariableType u
    · rw [if_pos hu] at h
      cases h
      exact ⟨rfl, hu⟩
    · rw [if_neg hu] at h
      cases h

/-! ## Expressions -/

/-- An expression that is lowered has a type, and its value has
the machine type for it. -/
theorem Lowered.typeOf {e : Expr} {d d' : Draft} {v : Value} (h : Lowered e d v d')
    {Γ : Env} (agrees : Agrees d.scope Γ) :
    ∃ t, Typing.typeOf Γ e = .ok t ∧ v.type = t.machine := by
  induction h with
  | int => exact ⟨.int, rfl, rfl⟩
  | text => exact ⟨.str, rfl, rfl⟩
  | @ident pos x d slot type hslot htype =>
    obtain ⟨t, hΓ, hvar, hscope, _⟩ := agrees.of_storage hslot
    refine ⟨t, by simp [Typing.typeOf, hΓ], ?_⟩
    rw [hscope, machineType_eq, variableType_of_isVariableType hvar] at htype
    cases htype
    rfl
  | @binary op pos l r d a d₁ b d₂ hl hr ha hb ihl ihr =>
    obtain ⟨t, ht, hat⟩ := ihl agrees
    obtain ⟨u, hu, hbu⟩ := ihr (agrees.grows hl.grows)
    obtain rfl : t = .int := DataType.machine_injective (hat.symm.trans ha)
    obtain rfl : u = .int := DataType.machine_injective (hbu.symm.trans hb)
    refine ⟨.int, ?_, rfl⟩
    simp [Typing.typeOf, ht, hu, bind, Except.bind, operationType]

/-- An expression that is refused is wrong in the same way for the checker. -/
theorem Refused.typeOf {e : Expr} {d d' : Draft} {err : SemanticError}
    (h : Refused e d err d') {Γ : Env} (agrees : Agrees d.scope Γ) :
    Typing.typeOf Γ e = .error err := by
  induction h with
  | undeclared hslot => simp [Typing.typeOf, agrees.of_storage_none hslot]
  | variableType hslot htype =>
    -- This cannot happen: only what has a machine type is ever declared.
    obtain ⟨t, _, hvar, hscope, _⟩ := agrees.of_storage hslot
    rw [hscope, machineType_eq, variableType_of_isVariableType hvar] at htype
    cases htype
  | left _ ih => simp [Typing.typeOf, ih agrees, bind, Except.bind]
  | right hl _ ih =>
    obtain ⟨t, ht, _⟩ := hl.typeOf agrees
    simp [Typing.typeOf, ht, ih (agrees.grows hl.grows), bind, Except.bind]
  | operandTypes hl hr htypes =>
    obtain ⟨t, ht, hat⟩ := hl.typeOf agrees
    obtain ⟨u, hu, hbu⟩ := hr.typeOf (agrees.grows hl.grows)
    have hints : ¬(t = .int ∧ u = .int) := by
      rintro ⟨rfl, rfl⟩
      exact htypes ⟨hat, hbu⟩
    simp [Typing.typeOf, ht, hu, bind, Except.bind, operationType, hints, hat, hbu]
  | unknownOperator hl hr ha hb =>
    obtain ⟨t, ht, hat⟩ := hl.typeOf agrees
    obtain ⟨u, hu, hbu⟩ := hr.typeOf (agrees.grows hl.grows)
    obtain rfl : t = .int := DataType.machine_injective (hat.symm.trans ha)
    obtain rfl : u = .int := DataType.machine_injective (hbu.symm.trans hb)
    simp [Typing.typeOf, ht, hu, bind, Except.bind, operationType]

theorem LoweredAll.typesOf {es : List Expr} {d d' : Draft} {vs : List Value}
    (h : LoweredAll es d vs d') {Γ : Env} (agrees : Agrees d.scope Γ) :
    ∃ ts, Typing.typesOf Γ es = .ok ts ∧
      vs.map Value.type = ts.map DataType.machine := by
  induction h with
  | nil => exact ⟨[], rfl, rfl⟩
  | cons hv _ ih =>
    obtain ⟨t, ht, hvt⟩ := hv.typeOf agrees
    obtain ⟨ts, hts, hvts⟩ := ih (agrees.grows hv.grows)
    refine ⟨t :: ts, ?_, by rw [List.map_cons, List.map_cons, hvt, hvts]⟩
    simp [Typing.typesOf, ht, hts, bind, Except.bind, pure, Except.pure]

theorem RefusedAll.typesOf {es : List Expr} {d d' : Draft} {err : SemanticError}
    (h : RefusedAll es d err d') {Γ : Env} (agrees : Agrees d.scope Γ) :
    Typing.typesOf Γ es = .error err := by
  induction h with
  | head hv => simp [Typing.typesOf, hv.typeOf agrees, bind, Except.bind]
  | tail hv _ ih =>
    obtain ⟨t, ht, _⟩ := hv.typeOf agrees
    simp [Typing.typesOf, ht, ih (agrees.grows hv.grows), bind, Except.bind]

/-! ## Statements -/

/-- A module in which the functions that can be called are those of the signatures. -/
def Offers (m : Module) (S : Signatures) : Prop :=
  ∀ x, match S x with
    | none => m.find? x = none
    | some ts =>
      ∃ f, m.find? x = some f ∧ f.params.map (·.type) = ts.map DataType.machine

theorem Offers.of_headers {m m' : Module} {S : Signatures} (h : headers m' = headers m)
    (offers : Offers m S) : Offers m' S := by
  intro x
  have hx := offers x
  cases hS : S x with
  | none => rw [hS] at hx; exact find?_none_of_headers h hx
  | some ts =>
    rw [hS] at hx
    obtain ⟨f, hf, hparams⟩ := hx
    obtain ⟨f', hf', hheader⟩ := find?_of_headers h hf
    refine ⟨f', hf', ?_⟩
    rw [show f'.params = f'.header.params from rfl, hheader]
    exact hparams

/-- A function that is found takes what its signature says. -/
theorem Offers.of_find {m : Module} {S : Signatures} (offers : Offers m S)
    {x : String} {f : Function} (h : m.find? x = some f) :
    ∃ ts, S x = some ts ∧ f.params.map (·.type) = ts.map DataType.machine := by
  have hx := offers x
  cases hS : S x with
  | none => rw [hS] at hx; rw [h] at hx; cases hx
  | some ts =>
    rw [hS] at hx
    obtain ⟨f', hf', hparams⟩ := hx
    rw [h] at hf'
    cases hf'
    exact ⟨ts, rfl, hparams⟩

theorem Offers.of_find_none {m : Module} {S : Signatures} (offers : Offers m S)
    {x : String} (h : m.find? x = none) : S x = none := by
  have hx := offers x
  cases hS : S x with
  | none => rfl
  | some ts =>
    rw [hS] at hx
    obtain ⟨f, hf, _⟩ := hx
    rw [h] at hf
    cases hf

/-- Arguments are as many as parameters on machine types exactly if
they are on data types. -/
theorem arity_iff {vs : List Value} {ps : List Param} {given wants : List DataType}
    (hgiven : vs.map Value.type = given.map DataType.machine)
    (hwants : ps.map (·.type) = wants.map DataType.machine) :
    vs.length = ps.length ↔ given.length = wants.length := by
  have hvs : vs.length = given.length := by simpa using congrArg List.length hgiven
  have hps : ps.length = wants.length := by simpa using congrArg List.length hwants
  rw [hvs, hps]

/-- Comparing machine types finds the same argument as comparing data types. -/
theorem argumentError?_eq (f : String) (number : Nat) (es : List Expr)
    (vs : List Value) (ps : List Param) (given wants : List DataType)
    (hgiven : vs.map Value.type = given.map DataType.machine)
    (hwants : ps.map (·.type) = wants.map DataType.machine) :
    argumentError? f number es given wants =
      (badArgument? number es vs ps).map fun (n, pos, g, w) =>
        ⟨pos, .callArgument f n g w⟩ := by
  induction es generalizing number vs ps given wants with
  | nil => simp [argumentError?, badArgument?]
  | cons e es ih =>
    cases vs with
    | nil =>
      obtain rfl : given = [] := by simpa using hgiven.symm
      simp [argumentError?, badArgument?]
    | cons v vs =>
      cases given with
      | nil => simp at hgiven
      | cons t ts =>
        cases ps with
        | nil =>
          obtain rfl : wants = [] := by simpa using hwants.symm
          simp [argumentError?, badArgument?]
        | cons p ps =>
          cases wants with
          | nil => simp at hwants
          | cons u us =>
            simp only [List.map_cons, List.cons.injEq] at hgiven hwants
            simp only [argumentError?, badArgument?, hgiven.1, hwants.1]
            by_cases htu : t = u
            · rw [if_pos htu, if_pos (by rw [htu])]
              exact ih (number + 1) vs ps ts us hgiven.2 hwants.2
            · rw [if_neg htu, if_neg fun h => htu (DataType.machine_injective h)]
              rfl

/-- A statement that is lowered is right, and its names are bound as
the checker binds them. -/
theorem Done.typing {m : Module} {S : Signatures} (offers : Offers m S) {s : Stmt}
    {d d' : Draft} (h : Done m s d d') {Γ : Env} (agrees : Agrees d.scope Γ) :
    ∃ Γ', Typing.statement S Γ s = .ok Γ' ∧ Agrees d'.scope Γ' := by
  cases h with
  | @decl pos x type machine d htype =>
    rw [machineType_eq] at htype
    obtain ⟨t, hvar, rfl⟩ : ∃ t, variableType type = .ok t ∧ t.machine = machine := by
      cases ht : variableType type with
      | error problem => rw [ht] at htype; cases htype
      | ok t => rw [ht] at htype; cases htype; exact ⟨t, rfl, rfl⟩
    obtain ⟨rfl, hvart⟩ := isVariableType_of_variableType hvar
    exact ⟨_, by simp [Typing.statement, hvar], agrees.declare hvart rfl pos⟩
  | @assign pos x e d slot v d₁ hslot hv htype =>
    obtain ⟨t, hΓ, _, _, hptr⟩ := agrees.of_storage hslot
    obtain ⟨u, hu, hvu⟩ := hv.typeOf agrees
    rw [hvu, hptr] at htype
    obtain rfl : u = t := DataType.machine_injective htype
    exact ⟨Γ, by simp [Typing.statement, hΓ, hu, bind, Except.bind],
      agrees.grows (hv.grows.trans (.push _ _))⟩
  | @call pos x es d vs d₁ callee hvs hcallee harity hargs =>
    obtain ⟨ts, hts, hvts⟩ := hvs.typesOf agrees
    obtain ⟨us, hS, hus⟩ := offers.of_find hcallee
    have hlength : ts.length = us.length := (arity_iff hvts hus).mp harity
    refine ⟨Γ, ?_, agrees.grows (hvs.grows.trans (.push _ _))⟩
    simp [Typing.statement, hts, bind, Except.bind, callError?, hS, hlength,
      argumentError?_eq x 1 es vs callee.params ts us hvts hus, hargs]
  | ret => exact ⟨Γ, rfl, agrees⟩
  | @retValue pos e d v d₁ hv =>
    obtain ⟨t, ht, _⟩ := hv.typeOf agrees
    exact ⟨Γ, by simp [Typing.statement, ht, bind, Except.bind, pure, Except.pure],
      agrees.grows (hv.grows.trans (.push _ _))⟩

/-- A statement that is dropped is wrong in the same way for the checker. -/
theorem Dropped.typing {m : Module} {S : Signatures} (offers : Offers m S)
    {s : Stmt} {d d' : Draft} {err : SemanticError} (h : Dropped m s d err d')
    {Γ : Env} (agrees : Agrees d.scope Γ) :
    Typing.statement S Γ s = .error err := by
  cases h with
  | @variableType pos x type problem d htype =>
    rw [machineType_eq] at htype
    cases ht : Typing.variableType type with
    | error p => rw [ht] at htype; cases htype; simp [Typing.statement, ht]
    | ok t => rw [ht] at htype; cases htype
  | undeclared hslot => simp [Typing.statement, agrees.of_storage_none hslot]
  | noValue hslot =>
    obtain ⟨t, hΓ, _⟩ := agrees.of_storage hslot
    simp [Typing.statement, hΓ]
  | @manyValues pos x es d slot hslot hmany =>
    obtain ⟨t, hΓ, _⟩ := agrees.of_storage hslot
    match es, hmany with
    | _ :: _ :: _, _ => simp [Typing.statement, hΓ]
  | assigned hslot hv =>
    obtain ⟨t, hΓ, _⟩ := agrees.of_storage hslot
    simp [Typing.statement, hΓ, hv.typeOf agrees, bind, Except.bind]
  | @assignType pos x e d slot v d₁ hslot hv htype =>
    obtain ⟨t, hΓ, _, _, hptr⟩ := agrees.of_storage hslot
    obtain ⟨u, hu, hvu⟩ := hv.typeOf agrees
    rw [hvu, hptr] at htype
    have hne : u ≠ t := fun heq => htype (by rw [heq]; rfl)
    simp [Typing.statement, hΓ, hu, bind, Except.bind, hne, hvu, hptr, pointee]
  | argument hvs => simp [Typing.statement, hvs.typesOf agrees, bind, Except.bind]
  | unknownCallee hvs hcallee =>
    obtain ⟨ts, hts, _⟩ := hvs.typesOf agrees
    simp [Typing.statement, hts, bind, Except.bind, callError?,
      offers.of_find_none hcallee]
  | @callArity pos x es d vs d₁ callee hvs hcallee harity =>
    obtain ⟨ts, hts, hvts⟩ := hvs.typesOf agrees
    obtain ⟨us, hS, hus⟩ := offers.of_find hcallee
    have h₁ : vs.length = ts.length := by simpa using congrArg List.length hvts
    have h₂ : callee.params.length = us.length := by
      simpa using congrArg List.length hus
    have hne : ts.length ≠ us.length := fun heq => harity ((arity_iff hvts hus).mpr heq)
    simp [Typing.statement, hts, bind, Except.bind, callError?, hS, hne, h₁, h₂]
  | @callArgument pos x es d vs d₁ callee number argPos given want hvs hcallee
      harity hbad =>
    obtain ⟨ts, hts, hvts⟩ := hvs.typesOf agrees
    obtain ⟨us, hS, hus⟩ := offers.of_find hcallee
    have hlength : ts.length = us.length := (arity_iff hvts hus).mp harity
    simp [Typing.statement, hts, bind, Except.bind, callError?, hS, hlength,
      argumentError?_eq x 1 es vs callee.params ts us hvts hus, hbad]
  | returned hv => simp [Typing.statement, hv.typeOf agrees, bind, Except.bind]
  | @manyReturns pos es d hmany =>
    match es, hmany with
    | _ :: _ :: _, _ => simp [Typing.statement]

/-- A body gives the errors that the checker gives. -/
theorem Body.errors_eq {m : Module} {S : Signatures} (offers : Offers m S)
    {stmts : List Stmt} {d d' : Draft} (h : Body m stmts d d') {Γ : Env}
    (agrees : Agrees d.scope Γ) :
    d'.errors = d.errors ++ Typing.body S Γ stmts := by
  -- The environment moves on with the scope; a statement that is dropped moves neither.
  induction h generalizing Γ with
  | nil => simp [Typing.body]
  | @done s rest d d₁ d₂ hs _ ih =>
    have hframe := reopen_frame d
    obtain ⟨Γ', hΓ', hagrees⟩ := hs.typing offers (hframe.2.2.1 ▸ agrees)
    rw [ih hagrees, hs.errors_eq, hframe.2.2.2.1]
    simp [Typing.body, hΓ']
  | @dropped s rest d err d₁ d₂ hs _ ih =>
    have hframe := reopen_frame d
    have herr := hs.typing offers (hframe.2.2.1 ▸ agrees)
    have hscope : (d₁.report err).scope = d.scope :=
      hs.grows.scope_eq.trans hframe.2.2.1
    rw [ih (hscope ▸ agrees)]
    show d₁.errors ++ [err] ++ _ = _
    rw [hs.grows.errors_eq, hframe.2.2.2.1]
    simp [Typing.body, herr]

/-- Bodies give, one after the other, the errors that the checker gives. -/
theorem Defined.errors_eq {S : Signatures} {c c' : Compiled}
    {bodies : List (Nat × List Stmt)} (h : Defined c bodies c')
    (offers : Offers c.module S) :
    c'.errors = c.errors ++ (bodies.map (·.2)).flatMap
      (Typing.body S fun _ => none) := by
  induction h with
  | nil => simp
  | @cons c place body rest f d c' hf hbody _ ih =>
    have hheaders := headers_install (c := c) hf hbody.header_eq
    rw [ih (offers.of_headers hheaders)]
    show c.errors ++ d.errors ++ _ = _
    rw [hbody.errors_eq offers .empty]
    simp

/-! ## Globals -/

/-- The parameters of a function have machine types exactly if the
checker gives them data types. -/
theorem parameterTypes_eq (f : String) (ps : List Variable) :
    match parameterTypes ps with
    | .ok types => ∃ ts, Typing.parameterTypes f ps = .ok ts ∧
        types.map (·.2) = ts.map DataType.machine
    | .error (p, problem) =>
        Typing.parameterTypes f ps =
          .error ⟨p.pos, .parameterType p.name f problem⟩ := by
  induction ps with
  | nil => exact ⟨[], rfl, rfl⟩
  | cons p ps ih =>
    rw [parameterTypes, machineType_eq]
    cases hp : variableType p.type with
    | error problem => simp [Except.map, Typing.parameterTypes, hp]
    | ok t =>
      cases hps : parameterTypes ps with
      | error bad =>
        rw [hps] at ih
        simp [Except.map, Typing.parameterTypes, hp, ih]
      | ok types =>
        rw [hps] at ih
        obtain ⟨ts, hts, htypes⟩ := ih
        exact ⟨t :: ts, by simp [Typing.parameterTypes, hp, hts,
          Except.map], by simp [htypes]⟩

/-- A function that is declared anew can be called. -/
theorem Offers.declare {m : Module} {S : Signatures} (offers : Offers m S)
    (x : String) {types : List (String × Ty)} {ts : List DataType}
    (htypes : types.map (·.2) = ts.map DataType.machine) (isExternal : Bool) :
    Offers (m.declare x .void types isExternal) (Function.update S x (some ts)) := by
  intro y
  have hfind : (m.declare x .void types isExternal).find? y =
      if x = y then some (m.declared x .void types isExternal) else m.find? y := by
    by_cases hxy : x = y <;> simp [Module.find?, Module.declare, Module.declared, hxy]
  rw [hfind]
  by_cases hxy : x = y
  · subst hxy
    rw [Function.update_self, if_pos rfl]
    refine ⟨_, rfl, ?_⟩
    rw [← htypes]
    apply List.ext_getElem?
    intro i
    simp only [Module.declared, List.getElem?_map, List.getElem?_mapIdx, Option.map_map]
    rfl
  · rw [Function.update_of_ne (Ne.symm hxy), if_neg hxy]
    exact offers y

/-- Declarations that stand for what the checker accepted. -/
structure Matches (d : Declared) (a : Accepted) : Prop where
  offers : Offers d.module a.signatures
  bodies : d.bodies.map (·.2) = a.bodies
  errors : d.errors = a.errors

theorem Matches.add {d : Declared} {a : Accepted} (h : Matches d a) (g : Global) :
    Matches (d.add g) (a.add g) := by
  unfold Declared.add Accepted.add
  have hg := h.offers g.name
  cases hS : a.signatures g.name with
  | some ts =>
    rw [hS] at hg
    obtain ⟨f, hf, _⟩ := hg
    simp only [hf, Option.isSome_some, if_true]
    exact ⟨h.offers, h.bodies, by rw [h.errors]⟩
  | none =>
    rw [hS] at hg
    simp only [hg, Option.isSome_none, Bool.false_eq_true, if_false]
    cases g with
    | func pos x params body =>
      exact ⟨h.offers.declare x rfl false, by simp [h.bodies], h.errors⟩
    | external pos x params =>
      have htypes := parameterTypes_eq x params
      simp only
      cases hparams : parameterTypes params with
      | error bad =>
        rw [hparams] at htypes
        rw [htypes]
        exact ⟨h.offers, h.bodies, by rw [h.errors]⟩
      | ok types =>
        rw [hparams] at htypes
        obtain ⟨ts, hts, htypes⟩ := htypes
        rw [hts]
        exact ⟨h.offers.declare x htypes true, h.bodies, h.errors⟩

/-- Declaring the globals of a tree accepts what the checker accepts. -/
theorem declared_matches (t : Tree) : Matches t.declared t.accepted := by
  -- Both folds go over the same globals, so the relation is carried along them in step.
  suffices ∀ (gs : List Global) (d : Declared) (a : Accepted), Matches d a →
      Matches (gs.foldl Declared.add d) (gs.foldl Accepted.add a) from
    this t.globals _ _ ⟨fun _ => rfl, rfl, rfl⟩
  intro gs
  induction gs with
  | nil =>
    intro d a h
    exact h
  | cons g gs ih =>
    intro d a h
    exact ih _ _ (h.add g)

/-- A tree without gaps is compiled, and the errors are, in order,
those of the type checker. -/
theorem compile_errors_eq (t : Tree) (complete : t.isComplete) :
    ∃ c, t.compile = .ok c ∧ c.errors = t.diagnose := by
  obtain ⟨c, hc, hdefined⟩ := t.compile_of_complete complete
  have hmatches := declared_matches t
  refine ⟨c, hc, ?_⟩
  rw [hdefined.errors_eq hmatches.offers, hmatches.errors, hmatches.bodies]
  rfl

/-- A place in a file without a name. -/
def spot (line column : Nat) : Position := { line, column }

/-- Wrong statements between right ones, and a name that is taken. -/
def tangled : Tree where
  filename := "tangled"
  globals := [
    .func (spot 1 1) "main" [] [
      .decl (spot 2 1) "x" (some .int),
      .assign (spot 3 1) "x" [.text (spot 3 5) "one"],
      .call (spot 4 1) "puts" [.ident (spot 4 6) "x"],
      .decl (spot 5 1) "x" (some .str),
      .call (spot 6 1) "puts" [.ident (spot 6 6) "x"],
      .ret (spot 7 1) [.binary (.arith .add) (spot 7 10) (.int (spot 7 8) 1)
        (.ident (spot 7 12) "y")]],
    .external (spot 8 1) "puts" [⟨"s", some .str, spot 8 6⟩],
    .func (spot 9 1) "puts" [] []]

theorem compile_errors_tangled : tangled.isComplete ∧ ∃ c, tangled.compile = .ok c ∧
    c.errors = [
      ⟨spot 9 1, .redeclared "puts"⟩,
      ⟨spot 3 1, .assignType (.ptr .i8) "x" .i32⟩,
      ⟨spot 4 6, .callArgument "puts" 1 .i32 (.ptr .i8)⟩,
      ⟨spot 7 12, .undeclared "y"⟩] := by
  have complete : tangled.isComplete := by decide
  obtain ⟨c, hc, herrors⟩ := compile_errors_eq tangled complete
  exact ⟨complete, c, hc, herrors.trans (by decide)⟩

end Straightline.Lowering
