import Mathlib
import Straightline.Proofs.Code.Renumbering
import Straightline.Proofs.Lowering.Sound

/-!
# Functions are lowered one by one and linked

The bodies of a module are lowered one after the other, into one list of
string constants. Still, no body knows of another: lowering a body behind some
string constants gives what it gives without them, but for the numbers of its
own constants, which start behind those (`statements_behind`). All that it
sees of the module is the headers of the functions, and these are there before
the first body is lowered.

So each body can be lowered alone (`IsAlone`), and a module is what
comes of putting the results together (`Compiled.link`);
`Tree.compile_linked` says so of trees.
-/

namespace Straightline.Lowering

open Code Draft

/-! ## Behind other constants -/

/-- String constants are `n` places further on. -/
def moved (n : Nat) : Renumbering := { text := (n + ·) }

namespace Draft

/-- A draft behind other string constants and other errors. -/
def behind (texts : List (List UInt8)) (errors : List SemanticError) (d : Draft) :
    Draft :=
  { d with
    function := (moved texts.length).function d.function
    texts := texts ++ d.texts
    code := d.code.map (moved texts.length).instr
    errors := errors ++ d.errors }

variable (texts : List (List UInt8)) (errors : List SemanticError) (d : Draft)

/-- Behind no string constants only the errors count. -/
theorem behind_nil : d.behind [] errors = { d with errors := errors ++ d.errors } := by
  have hmoved : moved 0 = {} := by simp [moved, funext_iff]
  simp [behind, hmoved]

@[simp] theorem scope_behind : (d.behind texts errors).scope = d.scope := rfl

theorem push_behind (i : Instr) :
    (d.behind texts errors).push ((moved texts.length).instr i) =
      (d.push i).behind texts errors := by
  simp [push, behind]

theorem emit_behind (name : String) (type : Ty) {i i' : Temp → Instr}
    (h : ∀ t, i' t = (moved texts.length).instr (i t)) :
    (d.behind texts errors).emit name type i' =
      (d.emit name type i).behind texts errors := by
  simp [emit, behind, h, nextTemp, Renumbering.function]

theorem addText_behind (s : String) :
    (d.behind texts errors).addText s = (d.addText s).behind texts errors := by
  simp [addText, behind]

theorem report_behind (e : SemanticError) :
    (d.behind texts errors).report e = (d.report e).behind texts errors := by
  simp [report, behind]

theorem isTerminated_behind :
    (d.behind texts errors).block.isTerminated = d.block.isTerminated :=
  (moved texts.length).isTerminated_block d.block

theorem reopen_behind :
    (d.behind texts errors).reopen = d.reopen.behind texts errors := by
  unfold reopen
  rw [isTerminated_behind]
  split
  · simp [behind, Renumbering.function, Renumbering.block, block, moved]
  · rfl

theorem finish_behind :
    (d.behind texts errors).finish = d.finish.behind texts errors := by
  unfold finish
  rw [isTerminated_behind]
  split
  · rfl
  · exact push_behind texts errors d (.ret none)

theorem result_behind :
    (d.behind texts errors).result = (moved texts.length).function d.result := by
  simp [result, behind, Renumbering.function, Renumbering.block, block, moved]

end Draft

section
variable {α β : Type} (texts : List (List UInt8)) (errors : List SemanticError)

/-- What a step comes to, behind other string constants and other errors. -/
def behindResult (g : α → α) : EStateM.Result Stop Draft α → EStateM.Result Stop Draft α
  | .ok a d => .ok (g a) (d.behind texts errors)
  | .error stop d => .error stop (d.behind texts errors)

/-- Whether `p'` does behind other string constants and other errors
what `p` does without them. -/
def Commutes (g : α → α) (p p' : Lower α) : Prop :=
  ∀ d, p' (d.behind texts errors) = behindResult texts errors g (p d)

variable {texts errors}

theorem Commutes.bind {g : α → α} {h : β → β} {p p' : Lower α} {f f' : α → Lower β}
    (hp : Commutes texts errors g p p')
    (hf : ∀ a, Commutes texts errors h (f a) (f' (g a))) :
    Commutes texts errors h (p >>= f) (p' >>= f') := by
  intro d
  show EStateM.bind p' f' (d.behind texts errors) =
    behindResult texts errors h (EStateM.bind p f d)
  unfold EStateM.bind
  rw [hp d]
  cases p d with
  | ok a d₁ => exact hf a d₁
  | error stop d₁ => rfl

theorem Commutes.stop {g : α → α} (pos : Position) (cause : SemanticCause) :
    Commutes texts errors g (stop pos cause) (stop pos cause) := fun _ => rfl

theorem Commutes.push (i : Instr) :
    Commutes texts errors id (push i) (push ((moved texts.length).instr i)) :=
  fun d => congrArg (EStateM.Result.ok ()) (d.push_behind texts errors i)

theorem Commutes.get : Commutes texts errors (Draft.behind texts errors) get get :=
  fun _ => rfl

/-! ## Expressions -/

theorem commutes_readVariable (pos : Position) (x : String) :
    Commutes texts errors (moved texts.length).value (readVariable pos x)
      (readVariable pos x) := by
  intro d
  rw [readVariable_run, readVariable_run, scope_behind]
  cases d.scope.storage? x with
  | none => rfl
  | some slot =>
    cases machineType (d.scope.type? x) with
    | error problem => rfl
    | ok type =>
      exact congrArg (EStateM.Result.ok _)
        (d.emit_behind texts errors x type fun _ => rfl)

theorem commutes_combine (op : OpCode) (pos : Position) (left right : Value) :
    Commutes texts errors (moved texts.length).value (combine op pos left right)
      (combine op pos ((moved texts.length).value left)
        ((moved texts.length).value right)) := by
  unfold combine
  rw [Renumbering.type_value, Renumbering.type_value]
  split
  · cases op with
    | unknown code => exact .stop pos _
    | arith op =>
      intro d
      have hemit :=
        d.emit_behind texts errors "" left.type
          (i := (.binary (.arith op) · left right)) fun _ => rfl
      exact congrArg (EStateM.Result.ok _) hemit
  · exact .stop pos _

/-- An expression is lowered as it is without what stands in front. -/
theorem commutes_value (e : Expr) :
    Commutes texts errors (moved texts.length).value (value e) (value e) := by
  induction e with
  | int pos n => exact fun _ => rfl
  | text pos s =>
    intro d
    show EStateM.Result.ok (Value.text (texts ++ d.texts).length) _ = _
    rw [List.length_append]
    exact congrArg (EStateM.Result.ok _) (d.addText_behind texts errors s)
  | ident pos x => exact commutes_readVariable pos x
  | binary op pos left right ihl ihr =>
    exact ihl.bind fun a => ihr.bind fun b => commutes_combine op pos a b
  | hole => exact fun _ => rfl

theorem commutes_values (es : List Expr) :
    Commutes texts errors (List.map (moved texts.length).value) (values es)
      (values es) := by
  induction es with
  | nil => exact fun _ => rfl
  | cons e es ih => exact (commutes_value e).bind fun v => ih.bind fun vs _ => rfl

/-! ## Statements -/

theorem commutes_declareVariable (pos : Position) (x : String)
    (type : Option DataType) :
    Commutes texts errors id (declareVariable pos x type)
      (declareVariable pos x type) := by
  intro d
  rw [declareVariable_run, declareVariable_run]
  cases machineType type with
  | error problem => rfl
  | ok machine =>
    have hemit :=
      d.emit_behind texts errors x (.ptr machine) (i := (.alloca · machine))
        fun _ => rfl
    exact congrArg (fun d' : Draft => EStateM.Result.ok () (d'.bind _)) hemit

theorem commutes_assignVariable (pos : Position) (x : String) (es : List Expr) :
    Commutes texts errors id (assignVariable pos x es) (assignVariable pos x es) := by
  refine Commutes.get.bind fun d => ?_
  rw [scope_behind]
  cases d.scope.storage? x with
  | none => exact .stop pos _
  | some slot =>
    match es with
    | [] => exact .stop pos _
    | [e] =>
      refine (commutes_value e).bind fun v => ?_
      rw [Renumbering.type_value]
      split
      · exact .push (.store v (.temp slot))
      · exact .stop pos _
    | _ :: _ :: _ => exact .stop pos _

theorem badArgument?_map (r : Renumbering) (number : Nat) (es : List Expr)
    (vs : List Value) (ps : List Param) :
    badArgument? number es (vs.map r.value) ps = badArgument? number es vs ps := by
  induction es generalizing number vs ps with
  | nil => simp [badArgument?]
  | cons e es ih =>
    cases vs with
    | nil => simp [badArgument?]
    | cons v vs =>
      cases ps with
      | nil => simp [badArgument?]
      | cons p ps => simp [badArgument?, ih]

theorem commutes_callFunction {m m' : Module} (h : headers m' = headers m)
    (pos : Position) (x : String) (es : List Expr) :
    Commutes texts errors id (callFunction m pos x es) (callFunction m' pos x es) := by
  refine (commutes_values es).bind fun vs => ?_
  cases hcallee : m.find? x with
  | none =>
    rw [find?_none_of_headers h hcallee]
    exact .stop pos _
  | some callee =>
    -- A call looks at the header of its callee only.
    obtain ⟨callee', hcallee', hheader⟩ := find?_of_headers h hcallee
    have hparams : callee'.params = callee.params := congrArg (·.params) hheader
    have hret : callee'.ret = callee.ret := congrArg (·.ret) hheader
    have hvalue : callee'.header.value = callee.header.value :=
      congrArg Function.value hheader
    replace hvalue : callee'.value = callee.value := hvalue
    simp only [hcallee', hparams, hret, hvalue, List.length_map, badArgument?_map]
    split
    · exact .stop pos _
    · split
      · exact .stop _ _
      · split
        · exact .push (.call none callee.value vs)
        · intro d
          have hemit := d.emit_behind texts errors "" callee.ret
            (i := fun t => .call (some (.temp t)) callee.value vs) fun _ => rfl
          exact congrArg (EStateM.Result.ok _) hemit

theorem commutes_returnValues (pos : Position) (es : List Expr) :
    Commutes texts errors id (returnValues pos es) (returnValues pos es) := by
  match es with
  | [] => exact .push (.ret none)
  | [e] => exact (commutes_value e).bind fun v => .push (.ret (some v))
  | _ :: _ :: _ => exact (Commutes.push (.ret none)).bind fun _ => .stop pos _

variable (texts errors) in
theorem commutes_statement {m m' : Module} (h : headers m' = headers m) (s : Stmt) :
    Commutes texts errors id (statement m s) (statement m' s) := by
  cases s with
  | decl pos x type => exact commutes_declareVariable pos x type
  | assign pos x es => exact commutes_assignVariable pos x es
  | call pos x es => exact commutes_callFunction h pos x es
  | ret pos es => exact commutes_returnValues pos es

variable (texts errors) in
/-- A body is lowered as it is without what stands in front. -/
theorem statements_behind {m m' : Module} (h : headers m' = headers m)
    (body : List Stmt) (d : Draft) :
    statements m' body (d.behind texts errors) =
      (statements m body d).map (Draft.behind texts errors) := by
  induction body generalizing d with
  | nil => rfl
  | cons s rest ih =>
    rw [statements, statements, reopen_behind, commutes_statement texts errors h s]
    cases statement m s d.reopen with
    | ok u d₁ => exact ih d₁
    | error stop d₁ =>
      cases stop with
      | error err =>
        simp only [behindResult, report_behind]
        exact ih (d₁.report err)
      | fault f => rfl

end

/-! ## Putting functions together -/

theorem behind_opened {f : Function} (hf : f.blocks = []) (texts : List (List UInt8)) :
    (opened f []).behind texts [] = opened f texts := by
  obtain ⟨place, name, ret, params, blocks, isExternal, temps⟩ := f
  obtain rfl : blocks = [] := hf
  simp [behind, Renumbering.function]

/-- What is reported for the statements of each body, with the place of its function. -/
def Compiled.reports :
    Compiled → List (Nat × List Stmt) → List (Nat × List SemanticError)
  | _, [] => []
  | c, (place, body) :: rest =>
    match c.define place body with
    | .ok c' => (place, c'.errors.drop c.errors.length) :: c'.reports rest
    | .error _ => []

/-- Whether `p` is what the body `b` comes to if it is lowered alone. -/
structure IsAlone (m : Module) (b : Nat × List Stmt) (p : Nat × Draft) : Prop where
  place : p.1 = b.1
  lowered : ∃ f, m.functions[b.1]? = some f ∧ statements m b.2 (.opened f []) = .ok p.2

theorem IsAlone.map_place {m : Module} {bs : List (Nat × List Stmt)}
    {ps : List (Nat × Draft)} (h : List.Forall₂ (IsAlone m) bs ps) :
    ps.map (·.1) = bs.map (·.1) := by
  induction h with
  | nil => rfl
  | cons hp _ ih => rw [List.map_cons, List.map_cons, hp.place, ih]

theorem IsAlone.body {m : Module} (hm : ReturnsNothing m) {b : Nat × List Stmt}
    {p : Nat × Draft} (h : IsAlone m b p) :
    ∃ f, m.functions[b.1]? = some f ∧ Body m b.2 (.opened f []) p.2 := by
  obtain ⟨-, f, hf, hrun⟩ := h
  have hrules := statements_rules hm b.2 (.opened f [])
  rw [hrun] at hrules
  exact ⟨f, hf, hrules⟩

/-- Puts a function that was lowered alone into a module, behind the string
constants that are there. -/
def Compiled.add (c : Compiled) (p : Nat × Draft) : Compiled :=
  c.install p.1 (p.2.behind c.module.texts [])

/-- Puts functions that were lowered alone into a module, one after the other. -/
def Compiled.link : Compiled → List (Nat × Draft) → Compiled
  | c, [] => c
  | c, p :: ps => (c.add p).link ps

theorem define_eq_add {c : Compiled} {m : Module} (h : headers c.module = headers m)
    {place : Nat} {f : Function} (hf : c.module.functions[place]? = some f)
    (hbare : f.blocks = []) (body : List Stmt) :
    c.define place body = (statements m body (.opened f [])).map fun d =>
      c.add (place, d) := by
  have hrun := statements_behind c.module.texts [] h body (opened f [])
  rw [behind_opened hbare] at hrun
  simp only [Compiled.define, hf, hrun]
  cases statements m body (.opened f []) with
  | error fault => rfl
  | ok d =>
    obtain ⟨-, htexts, herrors⟩ := finish_frame (d.behind c.module.texts [])
    simp only [Except.map, Compiled.add, Compiled.install]
    show Except.ok _ = _
    rw [htexts, herrors]

theorem module_add (c : Compiled) (p : Nat × Draft) :
    (c.add p).module =
      { c.module with
        functions := c.module.functions.modify p.1 fun _ =>
          (moved c.module.texts.length).function p.2.finish.result
        texts := c.module.texts ++ p.2.texts } := by
  rw [Compiled.add, Compiled.install, finish_behind, result_behind]
  rfl

theorem texts_add (c : Compiled) (p : Nat × Draft) :
    (c.add p).module.texts = c.module.texts ++ p.2.texts :=
  rfl

theorem errors_add (c : Compiled) (p : Nat × Draft) :
    (c.add p).errors = c.errors ++ p.2.errors :=
  rfl

/-- A function that was lowered alone differs in the module only by the numbers
of its string constants. -/
theorem getElem?_add {c : Compiled} {p : Nat × Draft} {f : Function}
    (hf : c.module.functions[p.1]? = some f) (i : Nat) :
    (c.add p).module.functions[i]? =
      if i = p.1 then some ((moved c.module.texts.length).function p.2.finish.result)
      else c.module.functions[i]? := by
  rw [Compiled.add, getElem?_install c p.1 _ hf, finish_behind, result_behind]

theorem length_functions_add (c : Compiled) (p : Nat × Draft) :
    (c.add p).module.functions.length = c.module.functions.length :=
  List.length_modify ..

theorem link_append (c : Compiled) (ps qs : List (Nat × Draft)) :
    c.link (ps ++ qs) = (c.link ps).link qs := by
  induction ps generalizing c with
  | nil => rfl
  | cons p ps ih => exact ih (c.add p)

theorem texts_link (c : Compiled) (ps : List (Nat × Draft)) :
    (c.link ps).module.texts = c.module.texts ++ ps.flatMap (·.2.texts) := by
  induction ps generalizing c with
  | nil => simp [Compiled.link]
  | cons p ps ih =>
    rw [Compiled.link, ih, texts_add, List.flatMap_cons, List.append_assoc]

theorem errors_link (c : Compiled) (ps : List (Nat × Draft)) :
    (c.link ps).errors = c.errors ++ ps.flatMap (·.2.errors) := by
  induction ps generalizing c with
  | nil => simp [Compiled.link]
  | cons p ps ih =>
    rw [Compiled.link, ih, errors_add, List.flatMap_cons, List.append_assoc]

theorem length_functions_link (c : Compiled) (ps : List (Nat × Draft)) :
    (c.link ps).module.functions.length = c.module.functions.length := by
  induction ps generalizing c with
  | nil => rfl
  | cons p ps ih => rw [Compiled.link, ih, length_functions_add]

/-- Functions that nothing is put in for stay as they are. -/
theorem getElem?_link_of_notMem {c : Compiled} {ps : List (Nat × Draft)}
    (hvalid : ∀ p ∈ ps, p.1 < c.module.functions.length) {i : Nat}
    (hi : i ∉ ps.map (·.1)) :
    (c.link ps).module.functions[i]? = c.module.functions[i]? := by
  induction ps generalizing c with
  | nil => rfl
  | cons p ps ih =>
    obtain ⟨hp, hps⟩ := List.forall_mem_cons.mp hvalid
    rw [List.map_cons, List.mem_cons, not_or] at hi
    rw [Compiled.link, ih (by rwa [length_functions_add]) hi.2,
      getElem?_add (List.getElem?_eq_getElem hp), if_neg hi.1]

/-- A function stands in the module as it was lowered alone, its string
constants behind those of the functions in front. -/
theorem getElem?_link {c : Compiled} {ps qs : List (Nat × Draft)} {p : Nat × Draft}
    (hvalid : ∀ q ∈ ps ++ p :: qs, q.1 < c.module.functions.length)
    (hp : p.1 ∉ qs.map (·.1)) :
    (c.link (ps ++ p :: qs)).module.functions[p.1]? =
      some ((moved (c.module.texts ++ ps.flatMap (·.2.texts)).length).function
        p.2.finish.result) := by
  obtain ⟨-, hvalid⟩ := List.forall_mem_append.mp hvalid
  rw [← length_functions_link c ps] at hvalid
  obtain ⟨hp', hqs⟩ := List.forall_mem_cons.mp hvalid
  rw [link_append, Compiled.link,
    getElem?_link_of_notMem (by rwa [length_functions_add]) hp,
    getElem?_add (List.getElem?_eq_getElem hp'), if_pos rfl, texts_link]

/-- Lowering bodies one after the other is lowering each of them alone and
putting the functions together. -/
theorem defineAll_linked {m : Module} (hm : ReturnsNothing m)
    {bodies : List (Nat × List Stmt)} {c c' : Compiled}
    (h : c.defineAll bodies = .ok c') (hheaders : headers c.module = headers m)
    (hbare : ∀ b ∈ bodies, ∃ f, c.module.functions[b.1]? = some f ∧
      m.functions[b.1]? = some f ∧ f.blocks = [])
    (once : (bodies.map (·.1)).Nodup) :
    ∃ ps, List.Forall₂ (IsAlone m) bodies ps ∧ c' = c.link ps ∧
      c.reports bodies = ps.map fun p => (p.1, p.2.errors) := by
  induction bodies generalizing c with
  | nil =>
    cases h
    exact ⟨[], .nil, rfl, rfl⟩
  | cons b bodies ih =>
    obtain ⟨place, body⟩ := b
    obtain ⟨⟨f, hf, hmf, hblocks⟩, hbodies⟩ := List.forall_mem_cons.mp hbare
    rw [List.map_cons, List.nodup_cons] at once
    have hdefine := define_eq_add hheaders hf hblocks body
    have hrules := statements_rules hm body (opened f [])
    cases hrun : statements m body (opened f []) with
    | error fault =>
      rw [hrun] at hdefine
      rw [Compiled.defineAll, hdefine] at h
      cases h
    | ok d =>
      rw [hrun] at hdefine hrules
      have hheader : headers (c.add (place, d)).module = headers c.module :=
        headers_install hf hrules.header_eq
      have hother (b : Nat × List Stmt) (hb : b ∈ bodies) :
          (c.add (place, d)).module.functions[b.1]? = c.module.functions[b.1]? := by
        rw [getElem?_add hf, if_neg]
        rintro rfl
        exact once.1 (List.mem_map.mpr ⟨b, hb, rfl⟩)
      rw [Compiled.defineAll, hdefine] at h
      obtain ⟨ps, hps, hlink, hreports⟩ := ih h (hheader.trans hheaders)
        (fun b hb => by rw [hother b hb]; exact hbodies b hb) once.2
      refine ⟨(place, d) :: ps, .cons ⟨rfl, f, hmf, hrun⟩ hps, hlink, ?_⟩
      simp only [Compiled.reports, hdefine, Except.map, hreports, List.map_cons,
        errors_add, List.drop_left]

end Straightline.Lowering

namespace Straightline

open Code Lowering

/-- The compiler's state in front of the first body. -/
def Tree.unlinked (t : Tree) : Compiled :=
  { module := t.declared.module, errors := t.declared.errors }

/-- What is reported for the statements of each function that is lowered, with
the place of the function. -/
def Tree.reports (t : Tree) : List (Nat × List SemanticError) :=
  t.unlinked.reports t.declared.bodies

/-- A function whose body is to be lowered has no code yet. -/
theorem Tree.bare_of_mem_bodies (t : Tree) {place : Nat}
    (h : place ∈ t.declared.bodies.map (·.1)) :
    ∃ f, t.declared.module.functions[place]? = some f ∧ f.blocks = [] := by
  have hproper := t.declared_proper
  obtain ⟨f, hf, -⟩ := (hproper.bodies place).mp h
  refine ⟨f, hf, ?_⟩
  rw [← hproper.bare f (List.mem_of_getElem? hf)]
  rfl

/-- The module of a tree is made of functions that are lowered each alone. -/
theorem Tree.compile_linked {t : Tree} {c : Compiled} (hc : t.compile = .ok c) :
    ∃ ps, List.Forall₂ (IsAlone t.declared.module) t.declared.bodies ps ∧
      c = t.unlinked.link ps ∧ t.reports = ps.map fun p => (p.1, p.2.errors) := by
  have hproper := t.declared_proper
  refine defineAll_linked hproper.void hc rfl (fun b hb => ?_) hproper.once
  obtain ⟨f, hf, hblocks⟩ := t.bare_of_mem_bodies (List.mem_map_of_mem hb)
  exact ⟨f, hf, hf, hblocks⟩

/-- Errors are those of the declarations and then those of each function. -/
theorem Tree.errors_compile {t : Tree} {c : Compiled} (hc : t.compile = .ok c) :
    c.errors = t.declared.errors ++ t.reports.flatMap (·.2) := by
  obtain ⟨ps, -, rfl, hreports⟩ := t.compile_linked hc
  rw [errors_link, hreports, List.flatMap_map]
  rfl

end Straightline
