import Mathlib
import Straightline.Proofs.Lowering.Sound
import Straightline.Tree.Parser

/-!
# Which names lowering gives

Where there are no errors, names and numbers of a module can be told from its
tree. A function makes a value for every variable that it declares and one for
every variable that it reads, each under the name of the variable, and a value
without a name for every operation; they are numbered in this order
(`Global.valueNames`). It has a block for its entry and one more behind every
return that something follows (`Global.labels`). The string constants are the
literals of the text. `Tree.compile_names` says so of whole modules.
-/

namespace Straightline

open Code

/-! ## Names in a tree -/

namespace Expr

/-- The names of the values that an expression makes, in order. What an
operation makes has no name. -/
def valueNames : Expr → List String
  | .ident _ x => [x]
  | .binary _ _ left right => left.valueNames ++ right.valueNames ++ [""]
  | _ => []

/-- The string literals of an expression, in order. -/
def literals : Expr → List String
  | .text _ s => [s]
  | .binary _ _ left right => left.literals ++ right.literals
  | _ => []

end Expr

namespace Stmt

/-- The variable that a statement declares. -/
def declared? : Stmt → Option String
  | .decl _ x _ => some x
  | _ => none

/-- The names of the values that a statement makes, in order. -/
def valueNames (s : Stmt) : List String :=
  s.declared?.toList ++ s.exprs.flatMap Expr.valueNames

/-- The string literals of a statement, in order. -/
def literals (s : Stmt) : List String := s.exprs.flatMap Expr.literals

/-- Whether a statement returns from its function. -/
def isReturn : Stmt → Bool
  | .ret .. => true
  | _ => false

end Stmt

/-- The label of the `k`-th block that nothing reaches. -/
def deadLabel (k : Nat) : String := "dead." ++ Decimal.ofNat k

/-- The labels of a function with `n` blocks that nothing reaches. -/
def labelsWith (n : Nat) : List String :=
  "entry" :: (List.range n).map fun i => deadLabel (i + 1)

theorem labelsWith_succ (n : Nat) :
    labelsWith (n + 1) = labelsWith n ++ [deadLabel (n + 1)] := by
  simp [labelsWith, List.range_succ]

namespace Global

/-- The names of the values that a function makes, in order. -/
def valueNames (g : Global) : List String := g.body.flatMap Stmt.valueNames

/-- The string literals of a function, in order. -/
def literals (g : Global) : List String := g.body.flatMap Stmt.literals

/-- The names of the parameters that a function is lowered with. Only
an external one has any. -/
def parameterNames : Global → List String
  | .func .. => []
  | .external _ _ params => params.map (·.name)

/-- The names of the parameters and variables of a function. -/
def variableNames (g : Global) : List String :=
  g.parameterNames ++ g.body.filterMap Stmt.declared?

/-- The number of blocks that nothing reaches: one behind every return
but the last statement. -/
def deadBlocks (g : Global) : Nat := g.body.dropLast.countP Stmt.isReturn

/-- The labels of the blocks of a function. -/
def labels (g : Global) : List String :=
  if g.isFunc then labelsWith g.deadBlocks else []

end Global

/-- The string literals of a tree, in order. -/
def Tree.literals (t : Tree) : List String := t.globals.flatMap Global.literals

/-- The names that a tree declares: those of functions, of their
variables and of parameters. -/
def Tree.declaredNames (t : Tree) : List String :=
  t.globals.flatMap fun g => g.name :: g.variableNames

/-- Whether a source is read and lowered without errors, into the tree
`t` and the module `m`. -/
structure Compiles (source : List UInt8) (filename : String) (t : Tree)
    (m : Module) : Prop where
  read : (Parser.parse (Lexer.ofBytes source filename)).errors = []
  tree : (Parser.parse (Lexer.ofBytes source filename)).tree = t
  lowered : t.compile = .ok { module := m, errors := [] }

namespace Lowering

open Draft

/-! ## What is added to a draft -/

/-- The names and numbers of the temporaries that instructions make. -/
def numbers (is : List Instr) : List (String × Nat) :=
  (made is).map fun t => (t.name, t.id)

theorem numbers_append (is js : List Instr) :
    numbers (is ++ js) = numbers is ++ numbers js := by
  simp [numbers]

theorem numbers_singleton (i : Instr) :
    numbers [i] = (i.temp?.map fun t => (t.name, t.id)).toList := by
  cases h : i.temp? <;> simp [numbers, made, h]

/-- `d'` is `d` with values of the given names, numbered on from those of `d`,
and with string constants. -/
structure Adds (names literals : List String) (d d' : Draft) : Prop where
  texts : d'.texts = d.texts ++ literals.map Rune.utf8
  temps : d'.function.temps = d.function.temps + names.length
  numbers : numbers d'.instrs = numbers d.instrs ++ names.zipIdx d.function.temps

namespace Adds

variable {names names' literals literals' : List String} {d d₁ d₂ : Draft}

theorem refl (d : Draft) : Adds [] [] d d := ⟨by simp, by simp, by simp⟩

theorem trans (h : Adds names literals d d₁) (h' : Adds names' literals' d₁ d₂) :
    Adds (names ++ names') (literals ++ literals') d d₂ where
  texts := by rw [h'.texts, h.texts, List.map_append, List.append_assoc]
  temps := by rw [h'.temps, h.temps, List.length_append, Nat.add_assoc]
  numbers := by
    rw [h'.numbers, h.numbers, h.temps, List.zipIdx_append, List.append_assoc]

theorem emit (d : Draft) (x : String) (type : Ty) {i : Temp → Instr}
    (hi : (i (d.nextTemp x type)).temp? = some (d.nextTemp x type)) :
    Adds [x] [] d (d.emit x type i) where
  texts := by simp [Draft.emit]
  temps := rfl
  numbers := by
    rw [emit_eq_grow, instrs_grow, numbers_append, numbers_singleton, hi]
    rfl

theorem push (h : Adds names literals d d₁) {i : Instr} (hi : i.temp? = none) :
    Adds names literals d (d₁.push i) where
  texts := h.texts
  temps := h.temps
  numbers := by
    rw [push_eq_grow, instrs_grow, numbers_append, h.numbers, numbers_singleton, hi]
    exact List.append_nil _

theorem addText (d : Draft) (s : String) : Adds [] [s] d (d.addText s) :=
  ⟨rfl, rfl, by simp [Draft.addText, instrs]⟩

theorem reopen (d : Draft) : Adds [] [] d d.reopen := by
  obtain ⟨-, htexts, -, -, htemps⟩ := reopen_frame d
  refine ⟨by simpa using htexts, htemps, ?_⟩
  rw [instrs_reopen]
  simp

end Adds

theorem Lowered.adds {e : Expr} {d d' : Draft} {v : Value} (h : Lowered e d v d') :
    Adds e.valueNames e.literals d d' := by
  induction h with
  | int => exact .refl _
  | text => exact .addText _ _
  | ident => exact .emit _ _ _ rfl
  | binary _ _ _ _ ihl ihr =>
    simpa [Expr.literals, Expr.valueNames] using (ihl.trans ihr).trans (.emit _ _ _ rfl)

theorem LoweredAll.adds {es : List Expr} {d d' : Draft} {vs : List Value}
    (h : LoweredAll es d vs d') :
    Adds (es.flatMap Expr.valueNames) (es.flatMap Expr.literals) d d' := by
  induction h with
  | nil => exact .refl _
  | cons hv _ ih => exact hv.adds.trans ih

theorem Done.adds {m : Module} {s : Stmt} {d d' : Draft} (h : Done m s d d') :
    Adds s.valueNames s.literals d d' := by
  cases h with
  | @decl pos x type machine d htype =>
    have hemit := Adds.emit d x (.ptr machine) (i := (.alloca · machine)) rfl
    exact ⟨hemit.texts, hemit.temps, hemit.numbers⟩
  | assign _ hv => exact (LoweredAll.cons hv .nil).adds.push rfl
  | call hvs => exact hvs.adds.push rfl
  | ret => exact (Adds.refl d).push rfl
  | retValue hv => exact (LoweredAll.cons hv .nil).adds.push rfl

/-- Where nothing is wrong, the statements of a body are lowered one by one. -/
theorem Body.adds {m : Module} {body : List Stmt} {d d' : Draft}
    (h : Body m body d d') (herrors : d'.errors = d.errors) :
    Adds (body.flatMap Stmt.valueNames) (body.flatMap Stmt.literals) d d' := by
  induction h with
  | nil => exact .refl _
  | @done s rest d d₁ d₂ hs _ ih =>
    have hsame : d₁.errors = d.errors := hs.errors_eq.trans (reopen_frame d).2.2.2.1
    exact ((Adds.reopen d).trans hs.adds).trans (ih (herrors.trans hsame.symm))
  | dropped hs hrest => exact absurd herrors (hrest.errors_ne_of_dropped hs)

/-! ## Blocks -/

/-- The labels of the blocks so far. -/
def Draft.labels (d : Draft) : List String :=
  d.function.blocks.map (·.label) ++ [d.label]

/-- Whether the blocks of a draft are labelled in order. -/
def Draft.IsLabelled (d : Draft) : Prop := d.labels = labelsWith d.dead

theorem Draft.Grows.labels_eq {d d' : Draft} (h : Grows d d') :
    d'.labels = d.labels ∧ d'.dead = d.dead := by
  obtain ⟨is, ts, n, rfl⟩ := h
  exact ⟨rfl, rfl⟩

theorem Done.labels_eq {m : Module} {s : Stmt} {d d' : Draft} (h : Done m s d d') :
    d'.labels = d.labels ∧ d'.dead = d.dead := by
  obtain ⟨d₁, hgrows, rfl | ⟨symbol, rfl⟩⟩ := h.grows
  · exact hgrows.labels_eq
  · exact hgrows.labels_eq

theorem Draft.IsLabelled.reopen {d : Draft} (h : d.IsLabelled) :
    d.reopen.IsLabelled := by
  unfold Draft.reopen
  split
  · show (d.function.blocks ++ [d.block]).map (·.label) ++
      [deadLabel (d.dead + 1)] = labelsWith (d.dead + 1)
    rw [labelsWith_succ, ← h, List.map_append]
    rfl
  · exact h

theorem Body.isLabelled {m : Module} {body : List Stmt} {d d' : Draft}
    (h : Body m body d d') (hd : d.IsLabelled) : d'.IsLabelled := by
  induction h with
  | nil => exact hd
  | done hs _ ih =>
    obtain ⟨hlabels, hdead⟩ := hs.labels_eq
    exact ih (by rw [IsLabelled, hlabels, hdead]; exact hd.reopen)
  | @dropped s rest d err d₁ d₂ hs _ ih =>
    obtain ⟨hlabels, hdead⟩ := hs.grows.labels_eq
    refine ih ?_
    show d₁.labels = labelsWith d₁.dead
    rw [hlabels, hdead]
    exact hd.reopen

theorem isTerminated_push (d : Draft) (i : Instr) :
    (d.push i).block.isTerminated = i.isTerminator := by
  simp only [Block.isTerminated, Block.terminator?, block, Draft.push,
    List.getLast?_append, List.getLast?_singleton, Option.some_or]
  cases h : i.isTerminator <;> simp [h]

/-- A block has come to its end just behind a return. -/
theorem Done.isTerminated {m : Module} {s : Stmt} {d d' : Draft} (h : Done m s d d') :
    d'.block.isTerminated = s.isReturn := by
  cases h with
  | @decl pos x type machine d htype =>
    exact isTerminated_push d (.alloca (d.nextTemp x (.ptr machine)) machine)
  | assign => exact isTerminated_push _ _
  | call => exact isTerminated_push _ _
  | ret => exact isTerminated_push _ _
  | retValue => exact isTerminated_push _ _

theorem dead_reopen (d : Draft) :
    d.reopen.dead = d.dead + [d.block.isTerminated].count true := by
  unfold Draft.reopen
  split
  · next h => rw [h]; rfl
  · next h => rw [Bool.not_eq_true] at h; rw [h]; rfl

/-- A block is opened for every statement behind a return. -/
theorem Body.dead_eq {m : Module} {body : List Stmt} {d d' : Draft}
    (h : Body m body d d') (herrors : d'.errors = d.errors) :
    d'.dead = d.dead + (d.block.isTerminated ::
      body.map Stmt.isReturn).dropLast.count true := by
  induction h with
  | nil => rfl
  | @done s rest d d₁ d₂ hs _ ih =>
    have hsame : d₁.errors = d.errors := hs.errors_eq.trans (reopen_frame d).2.2.2.1
    rw [ih (herrors.trans hsame.symm), hs.labels_eq.2, hs.isTerminated, dead_reopen,
      List.map_cons, List.dropLast_cons_cons, Nat.add_assoc, ← List.count_append,
      List.singleton_append]
  | dropped hs hrest => exact absurd herrors (hrest.errors_ne_of_dropped hs)

/-! ## Variables -/

/-- Whether all variables in scope are among `names`. -/
def Draft.Knows (names : List String) (d : Draft) : Prop :=
  ∀ x slot, d.scope.storage? x = some slot → x ∈ names

theorem Lowered.mem_of_valueNames {e : Expr} {d d' : Draft} {v : Value}
    (h : Lowered e d v d') {names : List String} (hd : d.Knows names) :
    ∀ x ∈ e.valueNames, x = "" ∨ x ∈ names := by
  induction h with
  | int => simp [Expr.valueNames]
  | text => simp [Expr.valueNames]
  | ident hslot => simpa [Expr.valueNames] using .inr (hd _ _ hslot)
  | binary hl _ _ _ ihl ihr =>
    have hd₁ : Knows names _ := fun x slot => hl.grows.scope_eq ▸ hd x slot
    intro x hx
    rw [Expr.valueNames, List.mem_append, List.mem_append, List.mem_singleton] at hx
    rcases hx with (hx | hx) | hx
    · exact ihl hd x hx
    · exact ihr hd₁ x hx
    · exact .inl hx

theorem LoweredAll.mem_of_valueNames {es : List Expr} {d d' : Draft}
    {vs : List Value} (h : LoweredAll es d vs d') {names : List String}
    (hd : d.Knows names) :
    ∀ x ∈ es.flatMap Expr.valueNames, x = "" ∨ x ∈ names := by
  induction h with
  | nil => simp
  | cons hv _ ih =>
    rw [List.flatMap_cons]
    exact List.forall_mem_append.mpr
      ⟨hv.mem_of_valueNames hd, ih fun x slot => hv.grows.scope_eq ▸ hd x slot⟩

/-- A statement reads variables in scope only, and may add one. -/
theorem Done.mem_of_valueNames {m : Module} {s : Stmt} {d d' : Draft}
    (h : Done m s d d') {names : List String} (hd : d.Knows names) :
    (∀ x ∈ s.valueNames, x = "" ∨ x ∈ names ++ s.declared?.toList) ∧
      d'.Knows (names ++ s.declared?.toList) := by
  have hsame {d₁ : Draft} (hgrows : Grows d d₁) :
      d₁.Knows (names ++ []) := fun x slot hslot => by
    rw [hgrows.scope_eq] at hslot
    exact List.mem_append_left _ (hd x slot hslot)
  cases h with
  | @decl pos x type machine d htype =>
    refine ⟨by simp [Stmt.valueNames, Stmt.declared?, Stmt.exprs],
      fun y slot hslot => ?_⟩
    by_cases hyx : y = x
    · simp [hyx, Stmt.declared?]
    · have hother := d.scope.find?_declare_of_ne
        { name := x, type, storage := some (d.nextTemp x (.ptr machine)), pos } hyx
      simp only [Draft.bind, Scope.storage?] at hslot
      rw [show (d.emit x (.ptr machine) (.alloca · machine)).scope = d.scope
        from rfl, hother] at hslot
      exact List.mem_append_left _ (hd y slot hslot)
  | assign _ hv =>
    exact ⟨(LoweredAll.cons hv .nil).mem_of_valueNames (hsame (.refl d)),
      hsame (hv.grows.trans (.push _ _))⟩
  | call hvs =>
    exact ⟨hvs.mem_of_valueNames (hsame (.refl d)), hsame (hvs.grows.trans (.push _ _))⟩
  | ret =>
    exact ⟨by simp [Stmt.valueNames, Stmt.declared?, Stmt.exprs], hsame (.push _ _)⟩
  | retValue hv =>
    exact ⟨(LoweredAll.cons hv .nil).mem_of_valueNames (hsame (.refl d)),
      hsame (hv.grows.trans (.push _ _))⟩

/-- Where nothing is wrong, the values of a body go by the names of
variables that it declares. -/
theorem Body.mem_of_valueNames {m : Module} {body : List Stmt} {d d' : Draft}
    (h : Body m body d d') (herrors : d'.errors = d.errors) {names : List String}
    (hd : d.Knows names) :
    ∀ x ∈ body.flatMap Stmt.valueNames, x = "" ∨
      x ∈ names ++ body.filterMap Stmt.declared? := by
  induction h generalizing names with
  | nil => simp
  | @done s rest d d₁ d₂ hs _ ih =>
    have hopen : d.reopen.Knows names :=
      fun x slot => (reopen_frame d).2.2.1 ▸ hd x slot
    obtain ⟨hnames, hd₁⟩ := hs.mem_of_valueNames hopen
    have hsame : d₁.errors = d.errors := hs.errors_eq.trans (reopen_frame d).2.2.2.1
    have hrest := ih (herrors.trans hsame.symm) hd₁
    have hdeclared : (s :: rest).filterMap Stmt.declared? =
        s.declared?.toList ++ rest.filterMap Stmt.declared? := by
      cases hs : s.declared? <;> simp [hs]
    rw [List.flatMap_cons, hdeclared, ← List.append_assoc]
    refine List.forall_mem_append.mpr ⟨fun x hx => ?_, hrest⟩
    exact (hnames x hx).imp_right (List.mem_append_left _)
  | dropped hs hrest => exact absurd herrors (hrest.errors_ne_of_dropped hs)

/-! ## Functions -/

theorem count_isReturn (body : List Stmt) :
    (false :: body.map Stmt.isReturn).dropLast.count true =
      body.dropLast.countP Stmt.isReturn := by
  cases body with
  | nil => rfl
  | cons s rest =>
    rw [List.map_cons, List.dropLast_cons_cons, ← List.map_cons, ← List.map_dropLast,
      List.count_cons_of_ne (by decide), List.count, List.countP_map]
    exact List.countP_congr fun s _ => by simp

/-- Whether a function goes by the names of the declaration `g`, its code apart. -/
structure Announces (g : Global) (f : Function) : Prop where
  name : f.name = g.name
  external : f.isExternal = !g.isFunc
  params : f.params.map (·.name) = g.parameterNames

/-- Whether a function and all in it go by the names that the
declaration `g` leads to. -/
structure Realizes (g : Global) (f : Function) : Prop extends Announces g f where
  labels : f.blocks.map (·.label) = g.labels
  numbers : numbers f.instrs = g.valueNames.zipIdx
  known : ∀ x ∈ g.valueNames, x = "" ∨ x ∈ g.variableNames

theorem labels_result (d : Draft) :
    d.finish.result.blocks.map (·.label) = d.labels := by
  have hlabel : d.finish.label = d.label := by
    unfold Draft.finish
    split <;> rfl
  rw [Draft.result, (finish_frame d).1, Draft.labels, ← hlabel, List.map_append]
  rfl

theorem numbers_result (d : Draft) :
    numbers d.finish.result.instrs = numbers d.instrs := by
  have hinstrs : d.finish.result.instrs = d.finish.instrs := by
    simp [Draft.result, Draft.instrs, Function.instrs, block]
  rw [hinstrs, Draft.finish]
  split
  · rfl
  · simpa using ((Adds.refl d).push (i := .ret none) rfl).numbers

/-- A function that is lowered from the body of its declaration without errors
goes by the names in it. -/
theorem Realizes.of_body {g : Global} {f : Function} (hg : Announces g f)
    (hfunc : g.isFunc = true) (hbare : f.header = f) {m : Module}
    {texts : List (List UInt8)} {d : Draft}
    (hbody : Body m g.body (.opened f texts) d) (herrors : d.errors = []) :
    Realizes g d.finish.result := by
  have hblocks : f.blocks = [] := by rw [← hbare]; rfl
  have htemps : f.temps = 0 := by rw [← hbare]; rfl
  have hheader : d.finish.result.header = f.header :=
    (header_result d).trans hbody.header_eq
  constructor
  · exact {
      name := (congrArg (·.name) hheader).trans hg.name
      external := (congrArg (·.isExternal) hheader).trans hg.external
      params :=
        (congrArg (fun f : Function => f.params.map (·.name)) hheader).trans hg.params }
  · have hstart : (Draft.opened f texts).IsLabelled := by
      show f.blocks.map (·.label) ++ ["entry"] = labelsWith 0
      rw [hblocks]
      rfl
    have hdead : d.dead = g.deadBlocks :=
      (hbody.dead_eq herrors).trans ((Nat.zero_add _).trans (count_isReturn g.body))
    rw [labels_result, hbody.isLabelled hstart, hdead, Global.labels, if_pos hfunc]
  · rw [numbers_result, (hbody.adds herrors).numbers]
    show Lowering.numbers (f.instrs ++ []) ++ g.valueNames.zipIdx f.temps = _
    rw [htemps, Function.instrs, hblocks]
    rfl
  · have hstart : (Draft.opened f texts).Knows [] := fun x slot hslot => by
      simp [Scope.storage?, Scope.find?] at hslot
    have hparams : g.parameterNames = [] := by
      cases g with
      | func => rfl
      | external => cases hfunc
    rw [Global.variableNames, hparams]
    exact hbody.mem_of_valueNames herrors hstart

/-- An external function has no code. -/
theorem Realizes.of_external {g : Global} {f : Function} (hg : Announces g f)
    (hfunc : g.isFunc = false) (hbare : f.header = f) : Realizes g f := by
  have hblocks : f.blocks = [] := by rw [← hbare]; rfl
  have hbody : g.body = [] := by
    cases g with
    | func => cases hfunc
    | external => rfl
  constructor
  · exact hg
  · rw [hblocks, Global.labels, hfunc]
    rfl
  · rw [Function.instrs, hblocks, Global.valueNames, hbody]
    rfl
  · rw [Global.valueNames, hbody]
    simp

/-! ## Modules -/

theorem names_parameterTypes {ps : List Variable} {types : List (String × Ty)}
    (h : parameterTypes ps = .ok types) : types.map (·.1) = ps.map (·.name) := by
  induction ps generalizing types with
  | nil =>
    cases h
    rfl
  | cons p ps ih =>
    rw [parameterTypes] at h
    cases hp : machineType p.type with
    | error problem => rw [hp] at h; cases h
    | ok t =>
      rw [hp] at h
      cases hps : parameterTypes ps with
      | error bad => rw [hps] at h; cases h
      | ok rest =>
        rw [hps] at h
        cases h
        rw [List.map_cons, List.map_cons, ih hps]

/-- A declaration without an error adds a function, and a body if it has one. -/
theorem Declared.add_eq {d : Declared} {g : Global} (h : (d.add g).errors = []) :
    ∃ f, (d.add g).module.functions = d.module.functions ++ [f] ∧ Announces g f ∧
      (d.add g).bodies.flatMap (·.2) = d.bodies.flatMap (·.2) ++ g.body := by
  unfold Declared.add at h ⊢
  split at h
  · simp at h
  next hnew =>
  rw [if_neg hnew]
  cases g with
  | func pos name params body =>
    exact ⟨d.module.declared name .void [] false, rfl,
      ⟨rfl, rfl, rfl⟩, by simp [Global.body]⟩
  | external pos name params =>
    cases htypes : parameterTypes params with
    | error bad => simp [htypes] at h
    | ok types =>
      simp only [htypes]
      refine ⟨d.module.declared name .void types true, rfl,
        ⟨rfl, rfl, ?_⟩, by simp [Global.body]⟩
      rw [Global.parameterNames, ← names_parameterTypes htypes, Module.declared]
      apply List.ext_getElem?
      intro i
      simp [List.getElem?_mapIdx, Function.comp_def]

/-- Without errors there is a function for every declaration, and the bodies are
those of the declarations. -/
theorem foldl_add_eq {gs : List Global} {d : Declared}
    (h : (gs.foldl Declared.add d).errors = []) :
    d.errors = [] ∧ (∃ fs, (gs.foldl Declared.add d).module.functions =
      d.module.functions ++ fs ∧ List.Forall₂ Announces gs fs) ∧
      (gs.foldl Declared.add d).bodies.flatMap (·.2) =
        d.bodies.flatMap (·.2) ++ gs.flatMap Global.body := by
  induction gs generalizing d with
  | nil => exact ⟨h, ⟨[], by simp, .nil⟩, by simp⟩
  | cons g gs ih =>
    obtain ⟨hadd, ⟨fs, hfs, hrest⟩, hbodies⟩ := ih h
    obtain ⟨f, hf, hannounces, hbody⟩ := Declared.add_eq hadd
    refine ⟨List.prefix_nil.mp (hadd ▸ d.errors_prefix_add g),
      ⟨f :: fs, ?_, .cons hannounces hrest⟩, ?_⟩
    · rw [List.foldl_cons, hfs, hf, List.append_assoc, List.singleton_append]
    · rw [List.foldl_cons, hbodies, hbody, List.append_assoc, List.flatMap_cons]

/-- Where nothing is wrong, the string constants are the literals of the bodies. -/
theorem Defined.texts_eq {c c' : Compiled} {bodies : List (Nat × List Stmt)}
    (h : Defined c bodies c') (herrors : c'.errors = []) :
    c'.module.texts = c.module.texts ++
      ((bodies.flatMap (·.2)).flatMap Stmt.literals).map Rune.utf8 := by
  induction h with
  | nil => simp
  | @cons c place body rest f d c' hf hbody hrest ih =>
    have hnone : c.errors ++ d.errors = [] :=
      List.prefix_nil.mp (herrors ▸ hrest.errors_prefix)
    have htexts := (hbody.adds (List.append_eq_nil_iff.mp hnone).2).texts
    rw [ih herrors, List.flatMap_cons, List.flatMap_append, List.map_append,
      ← List.append_assoc]
    exact congrArg (· ++ _) htexts

end Lowering

open Lowering

/-- The function of a declaration, once all bodies are lowered without errors. -/
theorem Tree.realizes_of_announces {t : Tree} {c : Compiled}
    (h : Defined { module := t.declared.module, errors := t.declared.errors }
      t.declared.bodies c)
    (herrors : c.errors = []) {g : Global} (hg : g ∈ t.globals) {place : Nat}
    {f₀ f : Function} (hf₀ : t.declared.module.functions[place]? = some f₀)
    (hannounces : Announces g f₀) (hf : c.module.functions[place]? = some f) :
    Realizes g f := by
  have hproper := t.declared_proper
  have hnone : t.declared.errors = [] := List.prefix_nil.mp (herrors ▸ h.errors_prefix)
  have hmem₀ := List.mem_of_getElem? hf₀
  have hbare := hproper.bare f₀ hmem₀
  cases hfunc : g.isFunc with
  | false =>
    have hplace : place ∉ t.declared.bodies.map (·.1) := by
      intro hmem
      obtain ⟨f', hf', hinternal⟩ := (hproper.bodies place).mp hmem
      cases hf₀.symm.trans hf'
      have hexternal := hannounces.external
      rw [hinternal, hfunc] at hexternal
      cases hexternal
    rw [h.unchanged hplace] at hf
    cases hf₀.symm.trans hf
    exact .of_external hannounces hfunc hbare
  | true =>
    cases g with
    | external => cases hfunc
    | func pos name params body =>
      -- The body was accepted for a function of this name, and no
      -- other function has it.
      obtain ⟨place', f', hbody, hf', hname⟩ := Tree.accepts_of_mem hnone hg
      obtain rfl : f' = f₀ :=
        List.inj_on_of_nodup_map hproper.names (List.mem_of_getElem? hf') hmem₀
        (hname.trans hannounces.name.symm)
      obtain rfl : place' = place :=
        (hproper.place _ _ hf').symm.trans (hproper.place _ _ hf₀)
      obtain ⟨m', texts, d, -, hlowered, hresult, -, hlength⟩ :=
        h.lowered hproper.once hbody hf₀
      cases hf.symm.trans hresult
      rw [herrors, List.length_nil, Nat.le_zero] at hlength
      exact .of_body hannounces rfl hbare hlowered
        (List.eq_nil_of_length_eq_zero hlength)

/-- A tree without errors gives names and numbers to what it becomes:
every function goes by the names of its declaration, and the string
constants are the literals. -/
theorem Tree.compile_names {t : Tree} {m : Module}
    (h : t.compile = .ok { module := m, errors := [] }) :
    List.Forall₂ Realizes t.globals m.functions ∧
      m.texts = t.literals.map Rune.utf8 := by
  have hdefined := t.compile_rules
  rw [h] at hdefined
  have hnone : t.declared.errors = [] := List.prefix_nil.mp hdefined.errors_prefix
  obtain ⟨-, ⟨fs, hfs, hannounces⟩, hbodies⟩ := foldl_add_eq hnone
  obtain rfl : t.declared.module.functions = fs := hfs
  constructor
  · have hlength : m.functions.length = t.declared.module.functions.length := by
      simpa [headers] using congrArg List.length hdefined.headers_eq
    rw [List.forall₂_iff_get] at hannounces ⊢
    refine ⟨hannounces.1.trans hlength.symm, fun i hi hi' => ?_⟩
    have hannounce := hannounces.2 i hi (hlength ▸ hi')
    exact realizes_of_announces hdefined rfl (List.get_mem _ _)
      (List.getElem?_eq_getElem (hlength ▸ hi')) hannounce
      (List.getElem?_eq_getElem hi')
  · rw [hdefined.texts_eq rfl]
    show t.declared.module.texts ++
      ((t.declared.bodies.flatMap (·.2)).flatMap Stmt.literals).map Rune.utf8 = _
    have hbodies' : t.declared.bodies.flatMap (·.2) =
      t.globals.flatMap Global.body := hbodies
    rw [t.texts_declared, hbodies', List.nil_append, List.flatMap_assoc]
    rfl

end Straightline
