import Mathlib
import Straightline.Proofs.Lowering.Naming
import Straightline.Proofs.Optimize.Remains
import Straightline.Proofs.Target.Emission
import Straightline.Proofs.Target.Translation

/-!
# Names that meet in the target

In the target, the labels of a function and the names of its values share one
space, and so do the string constants and functions of a module. Each of the
four sorts is named by a rule of its own, and no rule minds the others. Values
and labels meet where a value is called `dead` and numbered like a block
(`labels_clash_iff`), string constants and functions where a function is called
like a string constant (`symbols_nodup_iff`), and nowhere else.
-/

namespace Straightline

open Code (numbered textName made)

/-! ## Numbered names -/

theorem Decimal.digits_ne_nil (n : Nat) : digits n ≠ [] := by
  rw [digits]
  split <;> simp

theorem Decimal.dot_notMem_digits (n : Nat) : '.' ∉ digits n :=
  fun h => absurd (isDigit_of_mem_digits h) (by decide)

namespace Code

theorem toList_numbered {x : String} (hx : x ≠ "") (k : Nat) :
    (numbered x k).toList = x.toList ++ '.' :: Decimal.digits k := by
  rw [numbered, if_neg hx]
  show (x ++ "." ++ Decimal.ofNat k).toList = _
  simp [Decimal.ofNat]

theorem toList_numbered_empty (k : Nat) :
    (numbered "" k).toList = 't' :: Decimal.digits k := by
  show ("t" ++ Decimal.ofNat k).toList = _
  simp [Decimal.ofNat]

/-- A numbered name tells its name and its number. -/
theorem numbered_injective {x y : String} {k j : Nat}
    (h : numbered x k = numbered y j) : x = y ∧ k = j := by
  -- A name with a dot in it comes from a name, one without from a number alone.
  have apart {x : String} (hx : x ≠ "") (k j : Nat) : numbered x k ≠ numbered "" j := by
    intro heq
    have hdot : '.' ∈ (numbered "" j).toList := by
      rw [← heq, toList_numbered hx]
      simp
    rw [toList_numbered_empty] at hdot
    rcases List.mem_cons.mp hdot with hdot | hdot
    · cases hdot
    · exact Decimal.dot_notMem_digits j hdot
  have same {k j : Nat} (hdigits : Decimal.digits k = Decimal.digits j) : k = j := by
    rw [← Decimal.value_digits k, hdigits, Decimal.value_digits]
  by_cases hx : x = ""
  · subst hx
    by_cases hy : y = ""
    · subst hy
      have hlists := congrArg String.toList h
      rw [toList_numbered_empty, toList_numbered_empty] at hlists
      exact ⟨rfl, same (List.cons_inj_right _ |>.mp hlists)⟩
    · exact absurd h.symm (apart hy j k)
  · by_cases hy : y = ""
    · subst hy
      exact absurd h (apart hx k j)
    · have hlists := congrArg String.toList h
      rw [toList_numbered hx, toList_numbered hy] at hlists
      obtain ⟨hnames, hdigits⟩ :=
        append_cons_inj_of_last (Decimal.dot_notMem_digits k)
          (Decimal.dot_notMem_digits j) hlists
      exact ⟨String.toList_injective hnames, same hdigits⟩

theorem digit_mem_numbered (x : String) (k : Nat) :
    ∃ c ∈ (numbered x k).toList, Decimal.isDigit c = true := by
  obtain ⟨c, hc⟩ := List.exists_mem_of_ne_nil _ (Decimal.digits_ne_nil k)
  refine ⟨c, ?_, Decimal.isDigit_of_mem_digits hc⟩
  by_cases hx : x = ""
  · rw [hx, toList_numbered_empty]
    exact List.mem_cons_of_mem _ hc
  · rw [toList_numbered hx]
    exact List.mem_append_right _ (List.mem_cons_of_mem _ hc)

theorem numbered_ne_entry (x : String) (k : Nat) : numbered x k ≠ "entry" := by
  intro h
  have hnone : ∀ c ∈ "entry".toList, Decimal.isDigit c = false := by
    simp [Decimal.isDigit]
  obtain ⟨c, hc, hdigit⟩ := digit_mem_numbered x k
  rw [h] at hc
  rw [hnone c hc] at hdigit
  cases hdigit

end Code

theorem deadLabel_eq_numbered (k : Nat) : deadLabel k = numbered "dead" k := by
  show "dead." ++ Decimal.ofNat k = "dead" ++ "." ++ Decimal.ofNat k
  rfl

/-- Which numbered names are labels. -/
theorem numbered_mem_labelsWith {x : String} {k n : Nat} :
    numbered x k ∈ labelsWith n ↔ x = "dead" ∧ 1 ≤ k ∧ k ≤ n := by
  simp only [labelsWith, List.mem_cons, Code.numbered_ne_entry, false_or,
    List.mem_map, List.mem_range, deadLabel_eq_numbered]
  constructor
  · rintro ⟨i, hi, heq⟩
    obtain ⟨rfl, rfl⟩ := Code.numbered_injective heq
    exact ⟨rfl, by omega, by omega⟩
  · rintro ⟨rfl, hk, hn⟩
    exact ⟨k - 1, by omega, by rw [Nat.sub_add_cancel hk]⟩

/-! ## Names of a target function -/

namespace Target

/-- The labels of a function, in order. -/
def Function.labels (f : Function) : List String := f.blocks.map (·.label)

/-- The names of the values that a function makes, in order. -/
def Function.localNames (f : Function) : List String :=
  f.blocks.flatMap (·.instrs.filterMap Instr.name?)

/-- Whether a label of a function is also the name of a value in it. -/
def Function.Clashes (f : Function) : Prop := ∃ label ∈ f.labels, label ∈ f.localNames

instance (f : Function) : Decidable f.Clashes :=
  inferInstanceAs (Decidable (∃ label ∈ f.labels, label ∈ f.localNames))

/-- The name of a temporary in the target. -/
def tempName (t : Code.Temp) : String := numbered t.name t.id

variable {m : Code.Module} {f : Code.Function} {out : Function}

theorem InstrImage.name?_eq {R : Code.Value → Operand → Prop} {i : Code.Instr}
    {o : Instr} (h : InstrImage m R i o) {Γ : Code.Context} {past : List Code.Temp}
    (hi : i.IsSound Γ past) : o.name? = i.temp?.map tempName := by
  cases h with
  | alloca => rfl
  | load _ => rfl
  | store _ _ => rfl
  | binary _ _ => rfl
  | call _ _ =>
    obtain ⟨rfl, -⟩ := hi
    rfl

theorem CodeImage.forall₂ {b index : Nat} {is : List Code.Instr} {os : List Instr}
    (h : CodeImage m f out b index is os) :
    List.Forall₂ (fun i o => ∃ p, InstrImage m (Image m f out p) i o) is os :=
  forall₂_of_getElem? h.1 fun j i o hi ho => ⟨_, h.2 j i o hi ho⟩

theorem FunctionImage.forall₂_blocks (h : FunctionImage m f out) :
    List.Forall₂ (fun block block' => ∃ b, BlockImage m f out b block block')
      f.blocks out.blocks :=
  forall₂_of_getElem? h.size fun b block block' hblock hblock' =>
    ⟨b, h.blocks b block block' hblock hblock'⟩

theorem BlockImage.localNames_eq {b : Nat} {block : Code.Block} {out' : Block}
    (h : BlockImage m f out b block out') {Γ : Code.Context}
    (hsound : ∀ i ∈ block.instrs, ∃ past, i.IsSound Γ past) :
    out'.instrs.filterMap Instr.name? = (made block.instrs).map tempName := by
  obtain ⟨-, init, v, t, hinstrs, hcode, -⟩ := h
  have hsound' : ∀ i ∈ init, ∃ past, i.IsSound Γ past :=
    fun i hi => hsound i (hinstrs ▸ List.mem_append_left _ hi)
  have hmap : (init.map fun i => i.temp?.map tempName) =
      out'.instrs.map Instr.name? := by
    refine map_eq_of_forall₂
      (((List.forall₂_and_left _ _).mpr ⟨hsound', hcode.forall₂⟩).imp ?_)
    rintro i o ⟨⟨past, hpast⟩, p, himage⟩
    exact (himage.name?_eq hpast).symm
  have hmade : made block.instrs = made init := by
    rw [hinstrs, Code.made_append]
    exact List.append_nil _
  calc out'.instrs.filterMap Instr.name?
      = (out'.instrs.map Instr.name?).filterMap id := by rw [List.filterMap_map]; rfl
    _ = (init.map fun i => i.temp?.map tempName).filterMap id := by rw [← hmap]
    _ = (made block.instrs).map tempName := by
      rw [hmade, List.filterMap_map, made, List.map_filterMap]
      rfl

theorem FunctionImage.labels_eq (h : FunctionImage m f out) :
    out.labels = f.blocks.map (·.label) :=
  (map_eq_of_forall₂ (h.forall₂_blocks.imp fun _ _ ⟨_, hblock⟩ => hblock.1.symm)).symm

theorem FunctionImage.localNames_eq (h : FunctionImage m f out) {Γ : Code.Context}
    (hf : f.IsSound Γ) : out.localNames = (made f.instrs).map tempName := by
  have hmap : (f.blocks.map fun b => (made b.instrs).map tempName) =
      out.blocks.map fun b => b.instrs.filterMap Instr.name? := by
    refine map_eq_of_forall₂
      (((List.forall₂_and_left _ _).mpr ⟨fun _ hb => hb, h.forall₂_blocks⟩).imp ?_)
    rintro block out' ⟨hblock, b, himage⟩
    exact (himage.localNames_eq fun i hi =>
      hf.code.of_mem (List.mem_flatMap.mpr ⟨block, hblock, hi⟩)).symm
  rw [Function.localNames, List.flatMap_def, ← hmap, made, Code.Function.instrs,
    List.filterMap_flatMap, List.map_flatMap, List.flatMap_def]
  rfl

end Target

/-! ## Emission of sound modules -/

namespace Code

theorem Value.IsReady.isPlain {texts : Nat} {past : List Temp} {v : Value}
    (h : v.IsReady texts past) : v.isPlain = true := by
  cases v with
  | int => rfl
  | temp => rfl
  | text => rfl
  | _ => exact h.elim

theorem Instr.IsSound.isBuilt {m : Module} {past : List Temp} {i : Instr}
    (h : i.IsSound m.context past) : i.isBuilt m = true := by
  have plain {v : Value} (hv : v.IsReady m.context.texts past) := hv.isPlain
  cases i with
  | alloca => rfl
  | load dest address => simp [Instr.isBuilt, Instr.operands, plain h.1]
  | store value address => simp [Instr.isBuilt, Instr.operands, plain h.1, plain h.2.1]
  | binary op dest left right =>
    simp [Instr.isBuilt, Instr.operands, plain h.2.1, plain h.2.2.1]
  | call dest callee args =>
    obtain ⟨rfl, hcallee, hargs⟩ := h
    obtain ⟨g, hg, heq⟩ := List.mem_map.mp hcallee
    have hvalue : callee = g.value := (congrArg Prod.fst heq).symm
    rw [Instr.isBuilt, Bool.and_eq_true, Bool.and_eq_true]
    exact ⟨⟨rfl, List.any_eq_true.mpr ⟨g, hg, by simp [hvalue]⟩⟩,
      List.all_eq_true.mpr fun a ha => plain (hargs a ha)⟩
  | ret value =>
    exact List.all_eq_true.mpr fun v hv => plain (h v (Option.mem_toList.mp hv))
  | foreign => exact h.elim

end Code

open Target

/-- What is emitted for a sound module is its image. -/
theorem Code.Module.IsSound.emit_image {m : Module} (h : m.IsSound) :
    ∃ out, m.emit = .ok out ∧ IsImage m out := by
  obtain ⟨out, hout, -⟩ := h.emit
  refine ⟨out, hout, ?_⟩
  have hchecks := Module.verify_eq_nil_iff.mp h.verify
  have hbuilt : ∀ f ∈ m.functions, ∀ i ∈ f.instrs,
      i.isBuilt m = true := fun f hf i hi => by
    obtain ⟨past, hpast⟩ := (h.functions f hf).code.of_mem hi
    exact hpast.isBuilt
  rw [Module.emit] at hout
  split at hout
  · cases hout
  next declared hdeclared =>
  obtain ⟨rfl, -⟩ := eq_of_declare hdeclared
  obtain ⟨functions, hfunctions, hdone⟩ := bind_eq_ok.mp hout
  cases hdone
  exact ⟨rfl, rfl, defineAll_image h.names hbuilt hchecks hfunctions⟩

/-! ## Sources without errors -/

/-- What is emitted for a source, if it has no errors. -/
def emitted? (source : List UInt8) (filename : String) : Option Target.Module :=
  let r := Parser.parse (Lexer.ofBytes source filename)
  match r.errors, r.tree.compile with
  | [], .ok { module := m, errors := [] } => m.emit.toOption
  | _, _ => none

theorem compiles_of_emitted? {source : List UInt8} {filename : String}
    {out : Target.Module} (h : emitted? source filename = some out) :
    ∃ t m, Compiles source filename t m ∧ m.emit = .ok out := by
  unfold emitted? at h
  dsimp only at h
  split at h
  · next m hread hlowered =>
    refine ⟨_, m, ⟨hread, rfl, hlowered⟩, ?_⟩
    cases hemit : m.emit with
    | error stop =>
      rw [hemit] at h
      cases h
    | ok out' =>
      rw [hemit] at h
      cases h
      rfl
  · cases h

section
variable {source : List UInt8} {filename : String} {t : Tree} {m : Code.Module}

theorem Compiles.isSound (h : Compiles source filename t m) : m.IsSound :=
  Tree.compile_sound h.lowered

/-- The functions of a source, next to those that are emitted for them. -/
theorem Compiles.emit (h : Compiles source filename t m) :
    ∃ out, m.emit = .ok out ∧ IsImage m out ∧
      List.Forall₂ (fun g f => ∃ f₀ ∈ m.functions, Lowering.Realizes g f₀ ∧
        FunctionImage m f₀ f) t.globals out.functions := by
  obtain ⟨out, hout, himage⟩ := h.isSound.emit_image
  obtain ⟨hrealizes, -⟩ := Tree.compile_names h.lowered
  refine ⟨out, hout, himage, ?_⟩
  have hmem : List.Forall₂ (fun f₀ f => f₀ ∈ m.functions ∧ FunctionImage m f₀ f)
      m.functions out.functions :=
    (List.forall₂_and_left _ _).mpr ⟨fun _ hf => hf, himage.functions⟩
  exact forall₂_comp (fun g f₀ f hg hf => ⟨f₀, hf.1, hg, hf.2⟩) hrealizes hmem

/-- The functions that are emitted behind the optimizer stem from
those of the source. -/
theorem Compiles.emit_optimized (h : Compiles source filename t m)
    (logging : Bool) :
    ∃ r out, ({ logging } : Optimize.Optimizer).optimize m = .ok r ∧
      r.error = none ∧ r.code.emit = .ok out ∧
      r.code.IsSound ∧ IsImage r.code out ∧ r.code.texts = m.texts ∧
      List.Forall₂ Optimize.Remains m.functions r.code.functions := by
  obtain ⟨r, hr, herror, hsound, -, htexts, hremains⟩ :=
    Optimize.Optimizer.optimize_remains (o := { logging }) rfl
      (Int.ofNat_succ_pos 9) h.isSound
  obtain ⟨out, hout, himage⟩ := hsound.emit_image
  exact ⟨r, out, hr, herror, hout, hsound, himage, htexts, hremains⟩

end

/-! ## Labels and values -/

theorem Lowering.Realizes.mem_localNames {m : Code.Module} {g : Global}
    {f₀ : Code.Function} {f : Function} (h : Lowering.Realizes g f₀)
    (hsound : f₀.IsSound m.context) (himage : FunctionImage m f₀ f) {x : String} :
    x ∈ f.localNames ↔ ∃ (k : Nat) (name : String), g.valueNames[k]? = some name ∧
      numbered name k = x := by
  have hnames : f.localNames = g.valueNames.zipIdx.map fun p => numbered p.1 p.2 := by
    rw [himage.localNames_eq hsound, ← h.numbers, Lowering.numbers, List.map_map]
    rfl
  rw [hnames, List.mem_map]
  constructor
  · rintro ⟨⟨name, k⟩, hmem, rfl⟩
    exact ⟨k, name, List.mem_zipIdx_iff_getElem?.mp hmem, rfl⟩
  · rintro ⟨k, name, hk, rfl⟩
    exact ⟨(name, k), List.mem_zipIdx_iff_getElem?.mpr hk, rfl⟩

/-- A function has a label that is also the name of a value just if a value is
called `dead` and has the number of a block that nothing reaches. -/
theorem clashes_iff {m : Code.Module} {g : Global} {f₀ : Code.Function}
    {f : Function} (h : Lowering.Realizes g f₀) (hsound : f₀.IsSound m.context)
    (himage : FunctionImage m f₀ f) :
    f.Clashes ↔ ∃ k, g.valueNames[k]? = some "dead" ∧ 1 ≤ k ∧ k ≤ g.deadBlocks := by
  have hlabels : f.labels = g.labels := himage.labels_eq.trans h.labels
  unfold Function.Clashes
  simp only [hlabels, h.mem_localNames hsound himage]
  cases hfunc : g.isFunc with
  | false =>
    have hbody : g.body = [] := by
      cases g with
      | func => cases hfunc
      | external => rfl
    simp [Global.labels, hfunc, Global.valueNames, hbody]
  | true =>
    rw [Global.labels, if_pos hfunc]
    constructor
    · rintro ⟨label, hlabel, k, name, hk, rfl⟩
      obtain ⟨rfl, hbounds⟩ := numbered_mem_labelsWith.mp hlabel
      exact ⟨k, hk, hbounds⟩
    · rintro ⟨k, hk, hbounds⟩
      exact ⟨numbered "dead" k, numbered_mem_labelsWith.mpr ⟨rfl, hbounds⟩, k,
        "dead", hk, rfl⟩

/-- In what is emitted for a source without errors, a label of a function is the
name of a value in it just if a value is called `dead` and has the number of a
block that nothing reaches. Behind the optimizer no label is. -/
theorem labels_clash_iff (source : List UInt8) (filename : String) (t : Tree)
    (m : Code.Module) (logging : Bool) (h : Compiles source filename t m) :
    (∃ out, m.emit = .ok out ∧
      List.Forall₂ (fun g f => f.Clashes ↔ ∃ k, g.valueNames[k]? = some "dead" ∧
        1 ≤ k ∧ k ≤ g.deadBlocks) t.globals out.functions) ∧
    ∃ r out, ({ logging } : Optimize.Optimizer).optimize m = .ok r ∧
      r.error = none ∧ r.code.emit = .ok out ∧
      ∀ f ∈ out.functions, ¬ f.Clashes := by
  constructor
  · obtain ⟨out, hout, -, hfunctions⟩ := h.emit
    refine ⟨out, hout, hfunctions.imp fun g f hf => ?_⟩
    obtain ⟨f₀, hmem, hrealizes, himage⟩ := hf
    exact clashes_iff hrealizes (h.isSound.functions f₀ hmem) himage
  · obtain ⟨r, out, hr, herror, hout, hsound, himage, -, hremains⟩ :=
      h.emit_optimized logging
    refine ⟨r, out, hr, herror, hout, fun f hf => ?_⟩
    obtain ⟨f₁, hf₁, hf⟩ := exists_of_mem_right himage.functions hf
    obtain ⟨f₀, hf₀, hremain⟩ := exists_of_mem_right hremains hf₁
    obtain ⟨g, hg, hrealizes⟩ :=
      exists_of_mem_right (Tree.compile_names h.lowered).1 hf₀
    rintro ⟨label, hlabel, hlocal⟩
    -- The entry is the only label that is left, and no value is called like it.
    rw [hf.labels_eq, hremain.labels, hrealizes.labels] at hlabel
    rw [hf.localNames_eq (hsound.functions f₁ hf₁)] at hlocal
    obtain ⟨temp, -, rfl⟩ := List.mem_map.mp hlocal
    have hentry : ∀ x ∈ g.labels.take 1, x = "entry" := by
      unfold Global.labels
      split <;> simp [labelsWith]
    exact Code.numbered_ne_entry _ _ (hentry _ hlabel)

/-- A function with a value `dead` that comes second and one return too many. -/
theorem labels_clash_iff_returned :
    let source :=
      Rune.utf8 "func f\na: int\ndead: int\nbegin\nreturn dead\nreturn\nend\n"
    ∃ t m, Compiles source "f.ok" t m ∧ ∃ out, m.emit = .ok out ∧
      List.Forall₂ (fun g f => f.Clashes ↔ ∃ k, g.valueNames[k]? = some "dead" ∧
        1 ≤ k ∧ k ≤ g.deadBlocks) t.globals out.functions := by
  intro source
  have hsome : (emitted? source "f.ok").isSome = true := by decide +kernel
  obtain ⟨out, hout⟩ := Option.isSome_iff_exists.mp hsome
  obtain ⟨t, m, h, -⟩ := compiles_of_emitted? hout
  exact ⟨t, m, h, (labels_clash_iff source "f.ok" t m false h).1⟩

/-- A value and a block are both called `dead.1`. -/
theorem exists_label_clash :
    ∃ t m out,
      Compiles (Rune.utf8 "func f\na: int\ndead: int\nbegin\nreturn\nreturn\nend\n")
        "test.ok" t m ∧
      m.emit = .ok out ∧
      ∃ f ∈ out.functions, "dead.1" ∈ f.labels ∧ "dead.1" ∈ f.localNames := by
  have hclash :
      ∃ out ∈ emitted?
          (Rune.utf8 "func f\na: int\ndead: int\nbegin\nreturn\nreturn\nend\n")
          "test.ok",
        ∃ f ∈ out.functions, "dead.1" ∈ f.labels ∧ "dead.1" ∈ f.localNames := by
    decide +kernel
  obtain ⟨out, hout, hclash⟩ := hclash
  obtain ⟨t, m, h, hemit⟩ := compiles_of_emitted? hout
  exact ⟨t, m, out, h, hemit, hclash⟩

/-! ## String constants and functions -/

/-- The names of the string constants and functions of a module. -/
def Code.Module.symbols (m : Module) : List String :=
  (List.range m.texts.length).map textName ++ m.functions.map (·.name)

/-- The names of the string constants and functions of a module. -/
def Target.Module.symbols (m : Module) : List String :=
  (List.range m.texts.length).map textName ++ m.functions.map (·.name)

/-- The names that a tree gives to string constants and functions. -/
def Tree.symbols (t : Tree) : List String :=
  (List.range t.literals.length).map textName ++ t.globals.map Global.name

theorem Target.IsImage.symbols_eq {m : Code.Module} {out : Module}
    (h : IsImage m out) : out.symbols = m.symbols := by
  have hnames : m.functions.map (·.name) = out.functions.map (·.name) :=
    map_eq_of_forall₂ (h.functions.imp fun _ _ hf => hf.name.symm)
  rw [Target.Module.symbols, Code.Module.symbols, h.texts, List.length_map, hnames]

theorem names_of_remains {fs fs' : List Code.Function}
    (h : List.Forall₂ Optimize.Remains fs fs') :
    fs'.map (·.name) = fs.map (·.name) :=
  (map_eq_of_forall₂ (h.imp fun _ _ hf => (congrArg (·.name) hf.header).symm)).symm

section
variable {source : List UInt8} {filename : String} {t : Tree} {m : Code.Module}

theorem Compiles.names_eq (h : Compiles source filename t m) :
    t.globals.map Global.name = m.functions.map (·.name) :=
  map_eq_of_forall₂ ((Tree.compile_names h.lowered).1.imp fun _ _ hf => hf.name.symm)

theorem Compiles.symbols_eq (h : Compiles source filename t m) :
    m.symbols = t.symbols := by
  rw [Code.Module.symbols, Tree.symbols, (Tree.compile_names h.lowered).2,
    List.length_map, h.names_eq]

/-- Functions differ in name from each other, and so do string constants. -/
theorem Compiles.symbols_nodup (h : Compiles source filename t m) :
    t.symbols.Nodup ↔ ∀ g ∈ t.globals, ∀ k < t.literals.length,
      g.name ≠ textName k := by
  have htexts : ((List.range t.literals.length).map textName).Nodup :=
    List.nodup_range.map fun _ _ => textName_injective
  have hnames : (t.globals.map Global.name).Nodup := by
    rw [h.names_eq]
    exact h.isSound.names
  rw [Tree.symbols, List.nodup_append, and_iff_right htexts, and_iff_right hnames]
  constructor
  · intro hapart g hg k hk heq
    exact hapart _ (List.mem_map_of_mem (List.mem_range.mpr hk))
      _ (List.mem_map_of_mem hg) heq.symm
  · intro hapart a ha b hb heq
    obtain ⟨k, hk, rfl⟩ := List.mem_map.mp ha
    obtain ⟨g, hg, rfl⟩ := List.mem_map.mp hb
    exact hapart g hg k (List.mem_range.mp hk) heq.symm

end

/-- The string constants and functions of a source without errors are named one
by one for its literals and its declarations, with or without the optimizer. All
names differ just if no function is called like one of the string constants. -/
theorem symbols_nodup_iff (source : List UInt8) (filename : String) (t : Tree)
    (m : Code.Module) (logging : Bool) (h : Compiles source filename t m) :
    m.symbols = t.symbols ∧ (∃ out, m.emit = .ok out ∧ out.symbols = t.symbols) ∧
      (∃ r out, ({ logging } : Optimize.Optimizer).optimize m = .ok r ∧
        r.error = none ∧ r.code.emit = .ok out ∧ out.symbols = t.symbols) ∧
      (t.symbols.Nodup ↔ ∀ g ∈ t.globals, ∀ k < t.literals.length,
        g.name ≠ textName k) := by
  refine ⟨h.symbols_eq, ?_, ?_, h.symbols_nodup⟩
  · obtain ⟨out, hout, himage, -⟩ := h.emit
    exact ⟨out, hout, himage.symbols_eq.trans h.symbols_eq⟩
  · obtain ⟨r, out, hr, herror, hout, -, himage, htexts, hremains⟩ :=
      h.emit_optimized logging
    refine ⟨r, out, hr, herror, hout, ?_⟩
    rw [himage.symbols_eq, ← h.symbols_eq, Code.Module.symbols, htexts,
      names_of_remains hremains]
    rfl

/-- Two functions and two literals, and one of the functions goes by
the name of a third one. -/
theorem symbols_nodup_iff_third :
    let source :=
      Rune.utf8
        "extern func put(s: str)\nfunc .str.2\nbegin\nput(\"a\");\nput(\"b\");\nend\n"
    ∃ t m, Compiles source "f.ok" t m ∧
      (t.symbols.Nodup ↔ ∀ g ∈ t.globals, ∀ k < t.literals.length,
        g.name ≠ textName k) := by
  intro source
  have hsome : (emitted? source "f.ok").isSome = true := by decide +kernel
  obtain ⟨out, hout⟩ := Option.isSome_iff_exists.mp hsome
  obtain ⟨t, m, h, -⟩ := compiles_of_emitted? hout
  exact ⟨t, m, h, (symbols_nodup_iff source "f.ok" t m false h).2.2.2⟩

/-- A string constant and a function are both called `.str.0`. -/
theorem exists_symbol_clash :
    ∃ t m out,
      Compiles
        (Rune.utf8 "extern func puts(s: str)\nfunc .str.0\nbegin\nputs(\"hi\");\nend\n")
        "test.ok" t m ∧
      m.emit = .ok out ∧ out.symbols = [".str.0", "puts", ".str.0"] := by
  have hclash :
      ∃ out ∈ emitted?
          (Rune.utf8
            "extern func puts(s: str)\nfunc .str.0\nbegin\nputs(\"hi\");\nend\n")
          "test.ok",
        out.symbols = [".str.0", "puts", ".str.0"] := by
    decide +kernel
  obtain ⟨out, hout, hclash⟩ := hclash
  obtain ⟨t, m, h, hemit⟩ := compiles_of_emitted? hout
  exact ⟨t, m, out, h, hemit, hclash⟩

end Straightline
