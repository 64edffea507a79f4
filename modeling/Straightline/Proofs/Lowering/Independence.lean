import Mathlib
import Straightline.Proofs.Lowering.Errors
import Straightline.Proofs.Lowering.Linking
import Straightline.Proofs.Sequences

/-!
# Functions know nothing of each other's bodies

Two trees that differ in the body of one function are compiled to modules that
differ in that function only. Every other function has the same blocks with the
same instructions, temporaries and labels in both, and the same errors are
reported for its statements. What a body can change for the functions behind it
is how many string constants stand in front of theirs; the numbers of those
constants move by that difference, the same for all of them
(`functions_lowered_independently`).

Declaring does not look at bodies (`Parallel`), so every function has its place
in both modules; and the bodies of the others are lowered alone (`IsAlone`), to
the same drafts, before they are put together.
-/

namespace Straightline

open Code

/-- A global without its body. -/
def Global.bare : Global → Global
  | .func pos name params _ => .func pos name params []
  | g => g

namespace Lowering

/-! ## Places -/

namespace Declared

/-- The place of the function that a global defines: none if the name is taken,
or if the function is external. -/
def place? (d : Declared) : Global → Option Nat
  | .func _ name _ _ =>
    if (d.module.find? name).isSome then none else some d.module.functions.length
  | .external .. => none

/-- The place of the function that each of some globals defines. -/
def places : Declared → List Global → List (Option Nat)
  | _, [] => []
  | d, g :: gs => d.place? g :: (d.add g).places gs

@[simp] theorem length_places (d : Declared) (gs : List Global) :
    (d.places gs).length = gs.length := by
  induction gs generalizing d with
  | nil => rfl
  | cons g gs ih => rw [places, List.length_cons, List.length_cons, ih]

theorem places_append (d : Declared) (gs hs : List Global) :
    d.places (gs ++ hs) = d.places gs ++ (gs.foldl add d).places hs := by
  induction gs generalizing d with
  | nil => rfl
  | cons g gs ih =>
    rw [List.cons_append, places, places, ih, List.foldl_cons, List.cons_append]

/-- The bodies of globals whose functions have places. -/
def placed (places : List (Option Nat)) (gs : List Global) : List (Nat × List Stmt) :=
  (places.zip gs).flatMap fun p => p.1.toList.map (·, p.2.body)

theorem placed_append {ps qs : List (Option Nat)} {gs hs : List Global}
    (h : ps.length = gs.length) :
    placed (ps ++ qs) (gs ++ hs) = placed ps gs ++ placed qs hs := by
  rw [placed, List.zip_append h, List.flatMap_append, placed, placed]

theorem placed_cons (p : Option Nat) (ps : List (Option Nat)) (g : Global)
    (gs : List Global) :
    placed (p :: ps) (g :: gs) = p.toList.map (·, g.body) ++ placed ps gs := rfl

theorem mem_placed {ps : List (Option Nat)} {gs : List Global}
    (h : ps.length = gs.length) {i place : Nat} (hi : ps[i]? = some (some place)) :
    ∃ body, (place, body) ∈ placed ps gs := by
  obtain ⟨hlt, hget⟩ := List.getElem?_eq_some_iff.mp hi
  have hlt' : i < gs.length := h ▸ hlt
  have hzip : i < (ps.zip gs).length := by simp [hlt, hlt']
  refine ⟨gs[i].body, List.mem_flatMap.mpr ⟨(ps.zip gs)[i], List.getElem_mem hzip, ?_⟩⟩
  simp [hget]

/-- A body is to be lowered just if its function has a place. -/
theorem bodies_add (d : Declared) (g : Global) :
    (d.add g).bodies = d.bodies ++ (d.place? g).toList.map (·, g.body) := by
  unfold add
  by_cases htaken : (d.module.find? g.name).isSome
  · rw [if_pos htaken]
    cases g with
    | func pos name params body =>
      have hnone : d.place? (.func pos name params body) = none := if_pos htaken
      simp [hnone]
    | external => simp [place?]
  · rw [if_neg htaken]
    cases g with
    | func pos name params body =>
      have hsome : d.place? (.func pos name params body) =
        some d.module.functions.length := if_neg htaken
      rw [hsome]
      rfl
    | external =>
      simp only
      split <;> simp [place?]

theorem bodies_addAll (d : Declared) (gs : List Global) :
    (gs.foldl add d).bodies = d.bodies ++ placed (d.places gs) gs := by
  induction gs generalizing d with
  | nil => simp [placed]
  | cons g gs ih =>
    rw [List.foldl_cons, ih, bodies_add, List.append_assoc]
    rfl

theorem functions_prefix_add (d : Declared) (g : Global) :
    d.module.functions <+: (d.add g).module.functions := by
  unfold add
  split
  · exact List.prefix_refl _
  · cases g with
    | func => exact List.prefix_append _ _
    | external pos name params =>
      simp only
      split
      · exact List.prefix_refl _
      · exact List.prefix_append _ _

theorem functions_prefix_addAll (d : Declared) (gs : List Global) :
    d.module.functions <+: (gs.foldl add d).module.functions :=
  List.foldlRecOn (motive := fun d' : Declared =>
    d.module.functions <+: d'.module.functions) gs add
    (List.prefix_refl _) fun d' h g _ => h.trans (d'.functions_prefix_add g)

theorem getElem?_place {d : Declared} {g : Global} {place : Nat}
    (h : d.place? g = some place) :
    ∃ f, (d.add g).module.functions[place]? = some f ∧ f.name = g.name := by
  cases g with
  | external => cases h
  | func pos name params body =>
    rw [place?] at h
    split at h
    · cases h
    · next hnew =>
      cases h
      have hadd : (d.add (.func pos name params body)).module =
          d.module.declare name .void [] false :=
        congrArg Declared.module (if_neg hnew)
      exact ⟨d.module.declared name .void [] false, by simp [hadd, Module.declare], rfl⟩

/-- At the place of the function that a global defines there is a
function of that name. -/
theorem getElem?_places {d : Declared} {gs : List Global} {i place : Nat}
    (h : (d.places gs)[i]? = some (some place)) :
    ∃ g f, gs[i]? = some g ∧ (gs.foldl add d).module.functions[place]? = some f ∧
      f.name = g.name := by
  induction gs generalizing d i with
  | nil => cases h
  | cons g gs ih =>
    cases i with
    | succ i => exact ih (d := d.add g) h
    | zero =>
      obtain ⟨f, hf, hname⟩ := getElem?_place (Option.some.inj h)
      obtain ⟨later, hlater⟩ := (d.add g).functions_prefix_addAll gs
      refine ⟨g, f, rfl, ?_, hname⟩
      rw [List.foldl_cons, ← hlater,
        List.getElem?_append_left (List.getElem?_eq_some_iff.mp hf).1, hf]

/-- Declarations that differ in bodies only, or in the names of their modules. -/
structure Parallel (d d' : Declared) : Prop where
  functions : d'.module.functions = d.module.functions
  errors : d'.errors = d.errors

variable {d d' : Declared}

theorem Parallel.find? (h : Parallel d d') (x : String) :
    d'.module.find? x = d.module.find? x := by
  rw [Module.find?, Module.find?, h.functions]

theorem Parallel.place? (h : Parallel d d') {g g' : Global} (hg : g'.bare = g.bare) :
    d'.place? g' = d.place? g := by
  cases g <;> cases g' <;> cases hg <;> simp [Declared.place?, h.find?, h.functions]

theorem Parallel.add (h : Parallel d d') {g g' : Global} (hg : g'.bare = g.bare) :
    Parallel (d.add g) (d'.add g') := by
  have hdeclare (name : String) (types : List (String × Ty)) (isExternal : Bool) :
      (d'.module.declare name .void types isExternal).functions =
        (d.module.declare name .void types isExternal).functions := by
    simp [Module.declare, Module.declared, h.functions]
  have hname : g'.name = g.name := by cases g <;> cases g' <;> cases hg <;> rfl
  have hpos : g'.pos = g.pos := by cases g <;> cases g' <;> cases hg <;> rfl
  unfold Declared.add
  rw [hname, hpos, h.find?]
  by_cases htaken : (d.module.find? g.name).isSome
  · rw [if_pos htaken, if_pos htaken]
    exact ⟨h.functions, congrArg (· ++ _) h.errors⟩
  · rw [if_neg htaken, if_neg htaken]
    cases g with
    | func pos name params body =>
      cases g' <;> cases hg
      exact ⟨hdeclare .., h.errors⟩
    | external pos name params =>
      cases g' <;> cases hg
      simp only
      split
      · exact ⟨h.functions, congrArg (· ++ _) h.errors⟩
      · exact ⟨hdeclare .., h.errors⟩

/-- Places, functions and errors do not depend on the bodies of the globals. -/
theorem Parallel.addAll {gs gs' : List Global} (h : Parallel d d')
    (hgs : gs'.map Global.bare = gs.map Global.bare) :
    Parallel (gs.foldl Declared.add d) (gs'.foldl Declared.add d') ∧
      d'.places gs' = d.places gs := by
  induction gs generalizing d d' gs' with
  | nil =>
    cases List.map_eq_nil_iff.mp hgs
    exact ⟨h, rfl⟩
  | cons g gs ih =>
    match gs', hgs with
    | g' :: gs', hgs =>
      obtain ⟨hg, hgs⟩ := List.cons.inj hgs
      obtain ⟨hall, hplaces⟩ := ih (h.add hg) hgs
      exact ⟨hall, by rw [places, places, h.place? hg, hplaces]⟩

end Declared

open Declared Draft

/-! ## Drafts and their place in a module -/

/-- Lowering alone depends on the functions of the module only. -/
theorem IsAlone.of_functions {m m' : Module} (h : m'.functions = m.functions)
    {b : Nat × List Stmt} {p : Nat × Draft} (hp : IsAlone m b p) :
    IsAlone m' b p := by
  obtain ⟨hplace, f, hf, hrun⟩ := hp
  have hheaders : headers m' = headers m := by rw [headers, headers, h]
  have hsame := statements_behind [] [] hheaders b.2 (opened f [])
  rw [behind_nil, hrun, Except.map, behind_nil] at hsame
  exact ⟨hplace, f, h ▸ hf, hsame⟩

theorem IsAlone.rightUnique (m : Module) : Relator.RightUnique (IsAlone m) := by
  rintro b ⟨place, d⟩ ⟨place', d'⟩ ⟨hplace, f, hf, hrun⟩ ⟨hplace', f', hf', hrun'⟩
  rw [hf] at hf'
  cases hf'
  rw [hrun] at hrun'
  cases hrun'
  rw [Prod.mk.injEq]
  exact ⟨hplace.trans hplace'.symm, rfl⟩

/-- The body of a function that has a place is lowered alone, behind others. -/
theorem alone_of_placed {m : Module} {places : List (Option Nat)} {gs : List Global}
    (hlength : places.length = gs.length) {i place : Nat}
    (hi : places[i]? = some (some place)) {ps : List (Nat × Draft)}
    (hps : List.Forall₂ (IsAlone m) (placed places gs) ps) :
    ∃ before stmts after, placed places gs = before ++ (place, stmts) :: after ∧
      ∃ before' p, List.Forall₂ (IsAlone m) before before' ∧
      IsAlone m (place, stmts) p := by
  obtain ⟨stmts, hmem⟩ := mem_placed hlength hi
  obtain ⟨before, after, hplaced⟩ := List.append_of_mem hmem
  rw [hplaced] at hps
  obtain ⟨before', l, -, hbefore, hl⟩ := forall₂_split hps
  cases hl with
  | cons hp _ => exact ⟨before, stmts, after, hplaced, before', _, hbefore, hp⟩

/-! ## Moved functions -/

/-- String constants are `δ` places further on, or further up if `δ` is negative. -/
def shifted (δ : Int) : Renumbering := { text := fun i => (i + δ).toNat }

/-- Whether a function of `m'` is one of `m` but for the numbers of its string
constants. These are `δ` places further on, and stand for the same strings. -/
structure Moved (δ : Int) (m m' : Module) (f f' : Function) : Prop where
  code : f' = (shifted δ).function f
  texts : ∀ i : Nat, .text i ∈ f.instrs.flatMap Instr.operands →
    ∃ (j : Nat) (s : List UInt8), (j : Int) = i + δ ∧ m.texts[i]? = some s ∧
    m'.texts[j]? = some s

theorem shifted_comp_moved (n n' : Nat) :
    (shifted (n' - n)).comp (moved n) = moved n' := by
  simp only [Renumbering.comp, shifted, moved, Renumbering.mk.injEq, funext_iff,
    Function.comp_apply, id]
  refine ⟨fun _ => trivial, fun i => ?_, fun _ => trivial⟩
  omega

/-- The string constants that sound code refers to are there. -/
theorem text_lt_of_sound {m : Module} {texts : Nat} {is : List Instr}
    (h : Sound { callees := m.context.callees, texts } [] is) {i : Nat}
    (hi : .text i ∈ is.flatMap Instr.operands) : i < texts := by
  obtain ⟨j, hj, hmem⟩ := List.mem_flatMap.mp hi
  obtain ⟨past, hsound⟩ := h.of_mem hj
  cases j with
  | alloca dest type => cases hmem
  | load dest address =>
    cases List.mem_singleton.mp hmem
    exact hsound.1
  | store value address =>
    rcases List.mem_cons.mp hmem with rfl | hmem
    · exact hsound.2.1
    · cases List.mem_singleton.mp hmem
      exact hsound.1
  | binary op dest left right =>
    rcases List.mem_cons.mp hmem with rfl | hmem
    · exact hsound.2.1
    · cases List.mem_singleton.mp hmem
      exact hsound.2.2.1
  | call dest callee args =>
    rcases List.mem_cons.mp hmem with rfl | hmem
    · -- What is called is a function.
      obtain ⟨f, -, hf⟩ := List.mem_map.mp hsound.2.1
      cases congrArg Prod.fst hf
    · exact hsound.2.2 _ hmem
  | ret value => exact hsound _ (Option.mem_toList.mp hmem)
  | foreign text sort dest => cases hmem

/-- A function that was lowered alone refers to its own string constants. -/
theorem IsAlone.text_lt {t : Tree} {b : Nat × List Stmt} {p : Nat × Draft}
    (h : IsAlone t.declared.module b p) {i : Nat}
    (hi : .text i ∈ p.2.finish.result.instrs.flatMap Instr.operands) :
    i < p.2.texts.length := by
  obtain ⟨f, hf, hbody⟩ := h.body t.declared_proper.void
  have hrests :=
    hbody.sound rfl (.inl (isSound_opened
      (t.declared_proper.bare f (List.mem_of_getElem? hf)) []))
  have hsound := hrests.finish.result.1
  rw [Draft.context, (finish_frame p.2).2.1] at hsound
  exact text_lt_of_sound hsound hi

/-- A function that is put in behind different functions moves by what its
string constants stand behind. -/
theorem moved_of_alone {m m' : Module} {f f' r : Function}
    {before before' own after after' : List (List UInt8)}
    (htexts : m.texts = before ++ own ++ after)
    (htexts' : m'.texts = before' ++ own ++ after')
    (hf : f = (moved before.length).function r)
    (hf' : f' = (moved before'.length).function r)
    (hown : ∀ i, .text i ∈ r.instrs.flatMap Instr.operands → i < own.length) :
    Moved (before'.length - before.length) m m' f f' where
  code := by rw [hf, ← Renumbering.function_comp, shifted_comp_moved, hf']
  texts := by
    intro i hi
    rw [hf, Renumbering.instrs_function, List.flatMap_map] at hi
    obtain ⟨instr, hinstr, hmem⟩ := List.mem_flatMap.mp hi
    rw [Renumbering.operands_instr] at hmem
    obtain ⟨v, hv, hvalue⟩ := List.mem_map.mp hmem
    cases v with
    | text k =>
      cases hvalue
      have hlt := hown k (List.mem_flatMap.mpr ⟨instr, hinstr, hv⟩)
      have hget (before after : List (List UInt8)) :
          (before ++ own ++ after)[before.length + k]? = some own[k] := by
        rw [List.append_assoc, List.getElem?_append_right (Nat.le_add_right ..),
          Nat.add_sub_cancel_left, List.getElem?_append_left hlt,
          List.getElem?_eq_getElem hlt]
      refine ⟨before'.length + k, own[k], ?_, htexts ▸ hget before after,
        htexts' ▸ hget before' after'⟩
      simp only [moved, Nat.cast_add]
      omega
    | _ => cases hvalue

end Lowering

open Lowering

namespace Tree

/-- The place of the function that each global defines. -/
def places (t : Tree) : List (Option Nat) :=
  Declared.places { module := { name := t.filename } } t.globals

theorem bodies_declared (t : Tree) :
    t.declared.bodies = Declared.placed t.places t.globals :=
  (Declared.bodies_addAll _ t.globals).trans (List.nil_append _)

/-- Whether `f` is the function that the `i`-th global is compiled to, and
`errors` is what is reported for its statements. -/
structure Builds (t : Tree) (c : Compiled) (i : Nat) (f : Function)
    (errors : List SemanticError) : Prop where
  name : ∃ g, t.globals[i]? = some g ∧ f.name = g.name
  place : t.places[i]? = some (some f.place)
  function : c.module.functions[f.place]? = some f
  errors : (f.place, errors) ∈ t.reports

variable {t t' : Tree} {c c' : Compiled}

/-- A function is built from its body lowered alone. -/
theorem builds_of_alone (hc : t.compile = .ok c) {i place : Nat}
    (hplace : t.places[i]? = some (some place))
    {front back : List (Nat × List Stmt)} {body : List Stmt}
    (hbodies : t.declared.bodies = front ++ (place, body) :: back)
    {ps : List (Nat × Draft)} {p : Nat × Draft}
    (hfront : List.Forall₂ (IsAlone t.declared.module) front ps)
    (hp : IsAlone t.declared.module (place, body) p) :
    ∃ f after, t.Builds c i f p.2.errors ∧
      f = (moved (ps.flatMap (·.2.texts)).length).function p.2.finish.result ∧
      c.module.texts = ps.flatMap (·.2.texts) ++ p.2.texts ++ after := by
  have hproper := t.declared_proper
  obtain ⟨qs, hqs, rfl, hreports⟩ := compile_linked hc
  -- The bodies are put together in order, so this one stands between those
  -- in front and those behind.
  have hmap := IsAlone.map_place hqs
  rw [hbodies] at hqs
  obtain ⟨ps', l, rfl, hps', hl⟩ := forall₂_split hqs
  obtain rfl := List.right_unique_forall₂' (IsAlone.rightUnique _) hfront hps'
  cases hl with
  | @cons _ p' _ qs hp' hback =>
    obtain rfl := IsAlone.rightUnique _ hp hp'
    have hvalid : ∀ q ∈ ps ++ p :: qs, q.1 < t.unlinked.module.functions.length := by
      intro q hq
      obtain ⟨f, hf, -⟩ := t.bare_of_mem_bodies (hmap ▸ List.mem_map_of_mem hq)
      exact (List.getElem?_eq_some_iff.mp hf).1
    have honce := hmap ▸ hproper.once
    rw [List.map_append, List.map_cons] at honce
    have hget := getElem?_link hvalid (List.nodup_cons.mp honce.of_append_right).1
    have htexts : t.unlinked.module.texts = [] := t.texts_declared
    rw [htexts, List.nil_append, hp.place] at hget
    refine ⟨_, qs.flatMap (·.2.texts), ?_, rfl, by simp [texts_link, htexts]⟩
    obtain ⟨f, hf, hbody⟩ := hp.body hproper.void
    have hheader : ((moved (ps.flatMap (·.2.texts)).length).function
        p.2.finish.result).header = f.header := by
      rw [Renumbering.header_function, header_result, hbody.header_eq]
    have hown : ((moved (ps.flatMap (·.2.texts)).length).function
        p.2.finish.result).place = place :=
      (congrArg (·.place) hheader).trans (hproper.place place f hf)
    refine ⟨?_, hown ▸ hplace, hown ▸ hget, ?_⟩
    · obtain ⟨g, f', hg, hf', hname⟩ := Declared.getElem?_places hplace
      obtain rfl : f = f' := Option.some.inj (hf.symm.trans hf')
      exact ⟨g, hg, (congrArg (·.name) hheader).trans hname⟩
    · rw [hown, hreports]
      exact List.mem_map.mpr ⟨p, by simp, by rw [hp.place]⟩

/-- A function behind other bodies is the same, but for where its
string constants are. -/
theorem builds_moved (hc : t.compile = .ok c) (hc' : t'.compile = .ok c')
    (hsame : t'.declared.module.functions = t.declared.module.functions)
    {i place : Nat} (hplace : t.places[i]? = some (some place))
    (hplace' : t'.places[i]? = some (some place))
    {front front' back back' : List (Nat × List Stmt)} {body : List Stmt}
    (hbodies : t.declared.bodies = front ++ (place, body) :: back)
    (hbodies' : t'.declared.bodies = front' ++ (place, body) :: back')
    {ps ps' : List (Nat × Draft)} {p : Nat × Draft}
    (hfront : List.Forall₂ (IsAlone t.declared.module) front ps)
    (hfront' : List.Forall₂ (IsAlone t'.declared.module) front' ps')
    (hp : IsAlone t.declared.module (place, body) p) :
    ∃ f f', t.Builds c i f p.2.errors ∧ t'.Builds c' i f' p.2.errors ∧
      Moved ((ps'.flatMap (·.2.texts)).length - (ps.flatMap (·.2.texts)).length)
        c.module c'.module f f' := by
  obtain ⟨f, after, hbuilds, hf, htexts⟩ := builds_of_alone hc hplace hbodies hfront hp
  obtain ⟨f', after', hbuilds', hf', htexts'⟩ :=
    builds_of_alone hc' hplace' hbodies' hfront' (hp.of_functions hsame)
  exact ⟨f, f', hbuilds, hbuilds', moved_of_alone htexts htexts' hf hf' fun i hi =>
    hp.text_lt hi⟩

/-- Declaring does not look at bodies. -/
theorem declared_of_bare
    (h : t'.globals.map Global.bare = t.globals.map Global.bare) :
    t'.declared.module.functions = t.declared.module.functions ∧
      t'.declared.errors = t.declared.errors ∧ t'.places = t.places := by
  have hstart : Declared.Parallel { module := { name := t.filename } }
      { module := { name := t'.filename } } :=
    ⟨rfl, rfl⟩
  obtain ⟨hparallel, hplaces⟩ := hstart.addAll h
  exact ⟨hparallel.functions, hparallel.errors, hplaces⟩

theorem places_split (t : Tree) {front back : List Global} {g : Global}
    (ht : t.globals = front ++ g :: back) :
    ∃ places place? places', t.places = places ++ place? :: places' ∧
      places.length = front.length ∧ places'.length = back.length := by
  have hplaces : t.places = Declared.places { module := { name := t.filename } }
      (front ++ g :: back) := by
    rw [places, ht]
  rw [Declared.places_append, Declared.places] at hplaces
  exact ⟨_, _, _, hplaces, Declared.length_places _ front,
    Declared.length_places _ back⟩

/-- Functions are lowered independently. If two trees differ in the body
of one function, every other function is built the same way in both, and
the same errors are reported for it. Its string constants keep their
numbers if it stands in front of that function; behind it, all of them
move by one and the same shift. -/
theorem functions_lowered_independently {front back : List Global} {pos : Position}
    {name : String} {params : List Variable} {body body' : List Stmt}
    (ht : t.globals = front ++ .func pos name params body :: back)
    (ht' : t'.globals = front ++ .func pos name params body' :: back)
    (hc : t.compile = .ok c) (hc' : t'.compile = .ok c') :
    t'.places = t.places ∧
    c.errors = t.declared.errors ++ t.reports.flatMap (·.2) ∧
    c'.errors = t.declared.errors ++ t'.reports.flatMap (·.2) ∧
    ∃ δ : Int, ∀ i place, i ≠ front.length → t.places[i]? = some (some place) →
      ∃ f f' errors, t.Builds c i f errors ∧ t'.Builds c' i f' errors ∧
        Moved (if i < front.length then 0 else δ) c.module c'.module f f' := by
  have hbare : t'.globals.map Global.bare = t.globals.map Global.bare := by
    simp [ht, ht', Global.bare]
  obtain ⟨hfunctions, herrors, hplaces⟩ := declared_of_bare hbare
  refine ⟨hplaces, errors_compile hc,
    (errors_compile hc').trans (congrArg (· ++ _) herrors), ?_⟩
  -- There are the bodies in front of the one that differs, that
  -- one, and the bodies behind it.
  obtain ⟨places, place?, places', hsplit, hlength, hlength'⟩ := t.places_split ht
  have hbodies := t.bodies_declared
  have hbodies' := t'.bodies_declared
  rw [ht, hsplit, Declared.placed_append hlength, Declared.placed_cons] at hbodies
  rw [ht', hplaces, hsplit, Declared.placed_append hlength, Declared.placed_cons]
    at hbodies'
  obtain ⟨qs, hqs, -, -⟩ := t.compile_linked hc
  obtain ⟨qs', hqs', -, -⟩ := t'.compile_linked hc'
  rw [hbodies] at hqs
  rw [hbodies'] at hqs'
  obtain ⟨ps, qs, -, hps, hqs⟩ := forall₂_split hqs
  obtain ⟨one, rs, -, hone, hrs⟩ := forall₂_split hqs
  obtain ⟨_, qs', -, -, hqs'⟩ := forall₂_split hqs'
  obtain ⟨one', _, -, hone', -⟩ := forall₂_split hqs'
  have hlift {bs : List (Nat × List Stmt)} {ps : List (Nat × Draft)}
      (h : List.Forall₂ (IsAlone t.declared.module) bs ps) :
        List.Forall₂ (IsAlone t'.declared.module) bs ps :=
    h.imp fun _ _ hp => hp.of_functions hfunctions
  -- Only the string constants of the body that differs are counted differently.
  refine ⟨(one'.flatMap (·.2.texts)).length - (one.flatMap (·.2.texts)).length,
    fun i place hi hplace => ?_⟩
  have hplace' : t'.places[i]? = some (some place) := hplaces ▸ hplace
  have hget := hplace
  rcases Nat.lt_or_gt_of_ne hi with hi | hi
  · rw [hsplit, List.getElem?_append_left (hlength ▸ hi)] at hget
    obtain ⟨before, stmts, after, hplaced, before', p, hbefore, hp⟩ :=
      alone_of_placed hlength hget hps
    rw [hplaced, List.append_assoc, List.cons_append] at hbodies hbodies'
    obtain ⟨f, f', hbuilds, hbuilds', hmoved⟩ :=
      builds_moved hc hc' hfunctions hplace hplace' hbodies hbodies' hbefore
        (hlift hbefore) hp
    rw [sub_self] at hmoved
    exact ⟨f, f', _, hbuilds, hbuilds', by rwa [if_pos hi]⟩
  · obtain ⟨j, rfl⟩ := Nat.exists_eq_add_of_lt hi
    rw [hsplit, List.getElem?_append_right (by omega), hlength,
      show front.length + j + 1 - front.length = j + 1 by omega] at hget
    obtain ⟨before, stmts, after, hplaced, before', p, hbefore, hp⟩ :=
      alone_of_placed hlength' hget hrs
    rw [hplaced, ← List.append_assoc, ← List.append_assoc] at hbodies hbodies'
    obtain ⟨f, f', hbuilds, hbuilds', hmoved⟩ :=
      builds_moved hc hc' hfunctions hplace hplace' hbodies hbodies'
      (List.rel_append (List.rel_append hps hone) hbefore)
      (List.rel_append (List.rel_append (hlift hps) hone') (hlift hbefore)) hp
    refine ⟨f, f', _, hbuilds, hbuilds', ?_⟩
    rw [if_neg (by omega)]
    convert hmoved using 1
    simp only [List.flatMap_append, List.length_append, Nat.cast_add]
    omega

/-- Three functions that each return a string, but for the one in the middle. -/
def between (body : List Stmt) : Tree where
  filename := "between"
  globals :=
    [.func (spot 1 1) "first" [] [.ret (spot 2 1) [.text (spot 2 8) "one"]]] ++
    .func (spot 3 1) "second" [] body ::
    [.func (spot 5 1) "third" [] [.ret (spot 6 1) [.text (spot 6 8) "three"],
      .ret (spot 7 1) [.ident (spot 7 8) "x"]]]

theorem functions_lowered_independently_between :
    ∃ c c', (between []).compile = .ok c ∧
      (between [.ret (spot 4 1) [.text (spot 4 8) "two"]]).compile = .ok c' ∧
      ∃ δ : Int, ∀ i place, i ≠ 1 → (between []).places[i]? = some (some place) →
        ∃ f f' errors, (between []).Builds c i f errors ∧
          (between [.ret (spot 4 1) [.text (spot 4 8) "two"]]).Builds c' i f' errors ∧
          Moved (if i < 1 then 0 else δ) c.module c'.module f f' := by
  obtain ⟨c, hc, -⟩ := compile_of_complete (t := between []) (by decide)
  obtain ⟨c', hc', -⟩ :=
    compile_of_complete (t := between [.ret (spot 4 1) [.text (spot 4 8) "two"]])
      (by decide)
  obtain ⟨-, -, -, h⟩ := functions_lowered_independently rfl rfl hc hc'
  exact ⟨c, c', hc, hc', h⟩

end Tree

end Straightline
