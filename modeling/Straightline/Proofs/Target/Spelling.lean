import Mathlib
import Straightline.Proofs.Target.Symbols
import Straightline.Proofs.Target.Written
import Straightline.Proofs.Tree.Names

/-!
# How names are spelled

The target knows two spellings of a name: bare, with name characters only and
no digit in front, and in quotes, with escapes. A name is written in quotes
if one of its characters asks for them or if it is a number. A digit in front
is not looked at. So the text for a source has names that are not legal just
if the source declares a name that starts with a digit and has name
characters only (`names_legal_iff`).
-/

namespace Straightline

open Code (numbered textName made)

/-! ## Legal names -/

namespace Target

/-- Whether a text is a bare name. -/
def isBareName : List Char → Bool
  | [] => false
  | c :: cs => isNameChar c && !Decimal.isDigit c && cs.all isNameChar

/-- Whether a text may stand inside quotes: it has printable characters
and hexadecimal escapes. -/
def isEscaped : List Char → Bool
  | [] => true
  | '\\' :: c :: d :: cs => isHexDigit c && isHexDigit d && isEscaped cs
  | c :: cs => isPrintable c && isEscaped cs

/-- Whether a text is a name in quotes. -/
def isQuotedName : List Char → Bool
  | '"' :: cs => cs.getLast? == some '"' && isEscaped cs.dropLast
  | _ => false

/-- Whether the target reads a text behind a sigil as a name. -/
def isLegalName (w : List Char) : Bool := isBareName w || isQuotedName w

/-- Whether a name starts with a digit, and no character of it asks for quotes. -/
def isDigitLed (x : String) : Bool :=
  x.toList.head?.any Decimal.isDigit && x.toList.all isNameChar

theorem isEscaped_escapeByte (b : UInt8) (cs : List Char) :
    isEscaped (escapeByte b ++ cs) = isEscaped cs := by
  rcases escapeByte_cases b with ⟨c, hc, hb⟩ | ⟨c, d, hc, hd, hb⟩
  · rw [hb, List.singleton_append, isEscaped, hc, Bool.true_and]
    rintro - - - rfl
    cases hc
  · rw [hb]
    show (isHexDigit c && isHexDigit d && isEscaped cs) = isEscaped cs
    rw [hc, hd, Bool.true_and, Bool.true_and]

theorem isEscaped_flatMap (bs : List UInt8) :
    isEscaped (bs.flatMap escapeByte) = true := by
  induction bs with
  | nil => rfl
  | cons b bs ih => rw [List.flatMap_cons, isEscaped_escapeByte, ih]

theorem isLegalName_quoteBytes (bs : List UInt8) :
    isLegalName (quoteBytes bs).toList = true := by
  rw [quoteBytes, String.toList_ofList, isLegalName, List.cons_append]
  simp [isQuotedName, isEscaped_flatMap]

theorem isNumeral_of_isName {x : String} (h : IsName x) : isNumeral x = false := by
  obtain ⟨c, hc, hdigit⟩ := h
  have hall : x.toList.all Decimal.isDigit = false :=
    List.all_eq_false.mpr ⟨c, hc, by simp [hdigit]⟩
  rw [isNumeral, hall, Bool.and_false, Bool.false_and]

/-- A name is written so that it can be read, unless it is led by a digit. -/
theorem isLegalName_writeName {x : String} (h : IsName x) :
    isLegalName (writeName x).toList = true ↔ isDigitLed x = false := by
  rw [writeName, isNumeral_of_isName h, Bool.false_or]
  by_cases hall : x.toList.all isNameChar = true
  · rw [if_neg (by simp [hall])]
    cases hchars : x.toList with
    | nil => exact absurd (String.toList_injective hchars) h.ne_empty
    | cons c cs =>
      rw [hchars, List.all_cons, Bool.and_eq_true] at hall
      have hquoted : isQuotedName (c :: cs) = false := by
        rw [isQuotedName]
        intro cs' heq
        cases heq
        cases hall.1
      simp [isLegalName, isBareName, isDigitLed, hquoted, hchars, hall.1, hall.2]
  · rw [if_pos (by simpa using hall)]
    rw [Bool.not_eq_true] at hall
    simp [quote, isLegalName_quoteBytes, isDigitLed, hall]

/-! ## Made-up names -/

theorem isName_numbered (x : String) (k : Nat) : IsName (numbered x k) := by
  by_cases hx : x = ""
  · subst hx
    exact ⟨'t', by rw [Code.toList_numbered_empty]; exact List.mem_cons_self, rfl⟩
  · exact ⟨'.', by rw [Code.toList_numbered hx]; simp, rfl⟩

theorem isDigitLed_numbered {x : String} (hx : x ≠ "") (k : Nat) :
    isDigitLed (numbered x k) = isDigitLed x := by
  have hdigits : (Decimal.digits k).all isNameChar = true :=
    List.all_eq_true.mpr fun c hc => by
      simp [isNameChar, Decimal.isDigit_of_mem_digits hc]
  have hdot : isNameChar '.' = true := rfl
  have hne : x.toList ≠ [] := fun hnil => hx (String.toList_injective hnil)
  rw [isDigitLed, isDigitLed, Code.toList_numbered hx,
    List.head?_append_of_ne_nil _ hne, List.all_append, List.all_cons, hdot,
    hdigits, Bool.and_true, Bool.and_true]

theorem isDigitLed_numbered_empty (k : Nat) : isDigitLed (numbered "" k) = false := by
  rw [isDigitLed, Code.toList_numbered_empty]
  rfl

theorem toList_textName (k : Nat) :
    (textName k).toList = '.' :: 's' :: 't' :: 'r' :: '.' :: Decimal.digits k := by
  show (".str." ++ Decimal.ofNat k).toList = _
  simp [Decimal.ofNat]

theorem isName_textName (k : Nat) : IsName (textName k) :=
  ⟨'.', by rw [toList_textName]; exact List.mem_cons_self, rfl⟩

theorem isDigitLed_textName (k : Nat) : isDigitLed (textName k) = false := by
  rw [isDigitLed, toList_textName]
  rfl

/-! ## Names in the image of a module -/

/-- The names that are in reach of a function: string constants and functions of
its module, and what it has itself. -/
inductive NameOf (m : Code.Module) (f : Code.Function) : String → Prop
  | text (k : Nat) : NameOf m f (textName k)
  | function {g : Code.Function} : g ∈ m.functions → NameOf m f g.name
  | param {p : Code.Param} : p ∈ f.params → NameOf m f p.name
  | temp {t : Code.Temp} : t ∈ made f.instrs → NameOf m f (tempName t)

section
variable {m : Code.Module} {f : Code.Function} {out : Function}

theorem mem_instrs_of_instr? {p : Place} {i : Code.Instr}
    (h : f.instr? p = some i) : i ∈ f.instrs := by
  obtain ⟨block, hblock, hi⟩ := Option.bind_eq_some_iff.mp h
  exact List.mem_flatMap.mpr ⟨block, List.mem_of_getElem? hblock,
    List.mem_of_getElem? hi⟩

theorem mem_made_of_result {i : Code.Instr} (hi : i ∈ f.instrs) {t : Code.Temp}
    (ht : i.temp? = some t) : t ∈ made f.instrs :=
  List.mem_filterMap.mpr ⟨i, hi, ht⟩

theorem Image.nameOf {p : Place} {v : Code.Value} {o : Operand}
    (h : Image m f out p v o)
    (hparams : out.params = f.params.map fun p => (p.name, p.type))
    (functions : List String) :
    ∀ x ∈ o.mentions { functions, params := out.params.map (·.1) }, NameOf m f x := by
  intro x hx
  cases h with
  | int => cases hx
  | text =>
    obtain rfl := List.mem_singleton.mp hx
    exact .text _
  | @param k q hq =>
    have hname : (out.params.map (·.1)).getD k "" = q.name := by simp [hparams, hq]
    obtain rfl := List.mem_singleton.mp hx
    rw [hname]
    exact .param (List.mem_of_getElem? hq)
  | @temp t q i hlast _ =>
    obtain rfl := List.mem_singleton.mp hx
    obtain ⟨i, hi, hresult⟩ := hlast.makes
    exact .temp (mem_made_of_result (mem_instrs_of_instr? hi)
      (by rw [Code.Instr.temp?, hresult]; rfl))

theorem InstrImage.nameOf {R : Code.Value → Operand → Prop} {i : Code.Instr}
    {o : Instr} (h : InstrImage m R i o) (hm : m.IsSound) {past : List Code.Temp}
    (hsound : i.IsSound m.context past) (hi : i ∈ f.instrs) {names : Names}
    (hfunctions : names.functions = m.functions.map (·.name))
    (hR : ∀ v o, R v o → ∀ x ∈ o.mentions names, NameOf m f x) :
    ∀ x ∈ o.mentions names, NameOf m f x := by
  intro x hx
  cases h with
  | alloca =>
    obtain rfl := List.mem_singleton.mp hx
    exact .temp (mem_made_of_result hi rfl)
  | load ha =>
    rcases List.mem_cons.mp hx with rfl | hx
    · exact .temp (mem_made_of_result hi rfl)
    · exact hR _ _ ha x hx
  | store hv ha =>
    rcases List.mem_append.mp hx with hx | hx
    · exact hR _ _ hv x hx
    · exact hR _ _ ha x hx
  | binary hv hw =>
    rcases List.mem_cons.mp hx with rfl | hx
    · exact .temp (mem_made_of_result hi rfl)
    rcases List.mem_append.mp hx with hx | hx
    · exact hR _ _ hv x hx
    · exact hR _ _ hw x hx
  | @call dest k g args args' hg hargs =>
    -- No function of a sound module returns anything, so that a call takes no name.
    have hvoid : g.ret = .void := (hm.functions g (List.mem_of_getElem? hg)).void
    rw [Instr.mentions, if_pos hvoid, List.nil_append, hfunctions] at hx
    have hcallee : (m.functions.map (·.name)).getD k "" = g.name := by simp [hg]
    rcases List.mem_cons.mp hx with rfl | hx
    · rw [hcallee]
      exact .function (List.mem_of_getElem? hg)
    · obtain ⟨o, ho, hx⟩ := List.mem_flatMap.mp hx
      obtain ⟨v, -, hv⟩ := exists_of_mem_right hargs ho
      exact hR v o hv x hx

/-- What an instruction makes is named where the instruction is. -/
theorem InstrImage.tempName_mem {R : Code.Value → Operand → Prop} {i : Code.Instr}
    {o : Instr} (h : InstrImage m R i o) {past : List Code.Temp}
    (hsound : i.IsSound m.context past) {t : Code.Temp} (ht : i.temp? = some t)
    (names : Names) : tempName t ∈ o.mentions names := by
  cases h with
  | store => cases ht
  | call =>
    obtain ⟨rfl, -⟩ := hsound
    cases ht
  | _ =>
    cases ht
    exact List.mem_cons_self

namespace FunctionImage

variable (h : FunctionImage m f out)
include h

/-- A function mentions what is in its reach, and nothing else. -/
theorem nameOf (hm : m.IsSound) (hf : f ∈ m.functions) :
    ∀ x ∈ out.mentions (m.functions.map (·.name)), NameOf m f x := by
  intro x hx
  rcases List.mem_cons.mp hx with rfl | hx
  · rw [h.name]
    exact .function hf
  rcases List.mem_append.mp hx with hx | hx
  · rw [h.params, List.map_map] at hx
    obtain ⟨p, hp, rfl⟩ := List.mem_map.mp hx
    exact .param hp
  obtain ⟨block', hblock', hx⟩ := List.mem_flatMap.mp hx
  obtain ⟨block, hblock, b, -, init, v, t, hinstrs, hcode, hend, hendImage⟩ :=
    exists_of_mem_right h.forall₂_blocks hblock'
  rcases List.mem_append.mp hx with hx | hx
  · obtain ⟨o, ho, hx⟩ := List.mem_flatMap.mp hx
    obtain ⟨i, hi, p, himage⟩ := exists_of_mem_right hcode.forall₂ ho
    have hi : i ∈ f.instrs :=
      List.mem_flatMap.mpr ⟨block, hblock, hinstrs ▸ List.mem_append_left _ hi⟩
    obtain ⟨past, hpast⟩ := (hm.functions f hf).code.of_mem hi
    exact himage.nameOf hm hpast hi rfl (fun v o hv => hv.nameOf h.params _) x hx
  · rw [hend, Option.toList_some, List.flatMap_singleton] at hx
    cases hendImage with
    | nothing => cases hx
    | void => cases hx
    | value _ hv => exact hv.nameOf h.params _ x hx

theorem tempName_mem (hf : f.IsSound m.context) {t : Code.Temp}
    (ht : t ∈ made f.instrs) (functions : List String) :
    tempName t ∈ out.mentions functions := by
  obtain ⟨i, hi, htemp⟩ := List.mem_filterMap.mp ht
  obtain ⟨past, hpast⟩ := hf.code.of_mem hi
  obtain ⟨block, hblock, hi⟩ := List.mem_flatMap.mp hi
  obtain ⟨block', hblock', b, -, init, v, e, hinstrs, hcode, -⟩ :=
    exists_of_mem_right h.forall₂_blocks.flip hblock
  have hinit : i ∈ init := by
    rw [hinstrs] at hi
    rcases List.mem_append.mp hi with hi | hi
    · exact hi
    · cases List.mem_singleton.mp hi
      cases htemp
  obtain ⟨o, ho, p, himage⟩ := exists_of_mem_right hcode.forall₂.flip hinit
  refine List.mem_cons_of_mem
    _ (List.mem_append_right _ (List.mem_flatMap.mpr ⟨block', hblock', ?_⟩))
  exact List.mem_append_left
    _ (List.mem_flatMap.mpr ⟨o, ho, himage.tempName_mem hpast htemp _⟩)

end FunctionImage

end

/-- What the image of a sound module mentions is a string constant or
in reach of a function. -/
theorem IsImage.nameOf {m : Code.Module} {out : Module} (h : IsImage m out)
    (hm : m.IsSound) :
    ∀ x ∈ out.mentions, (∃ k, x = textName k) ∨ ∃ f ∈ m.functions, NameOf m f x := by
  intro x hx
  rcases List.mem_append.mp hx with hx | hx
  · obtain ⟨k, -, rfl⟩ := List.mem_map.mp hx
    exact .inl ⟨k, rfl⟩
  · obtain ⟨f', hf', hx⟩ := List.mem_flatMap.mp hx
    obtain ⟨f, hf, himage⟩ := exists_of_mem_right h.functions hf'
    have hnames : out.functions.map (·.name) = m.functions.map (·.name) :=
      (map_eq_of_forall₂ (h.functions.imp fun _ _ hf => hf.name.symm)).symm
    rw [hnames] at hx
    exact .inr ⟨f, hf, himage.nameOf hm hf x hx⟩

end Target

open Target

/-! ## Texts of sources without errors -/

theorem Code.Module.IsSound.targetText_image {m : Module} (h : m.IsSound) :
    ∃ out text, m.emit = .ok out ∧ IsImage m out ∧ out.print = .ok text ∧
      m.targetText = .ok text := by
  obtain ⟨out, hout, himage⟩ := h.emit_image
  obtain ⟨out', hout', text, htext⟩ := h.emit
  obtain rfl : out' = out := Except.ok.inj (hout'.symm.trans hout)
  exact ⟨out', text, hout, himage,
    htext, by simp [Module.targetText, hout, htext, Except.mapError]⟩

section
variable {out : Target.Module} {text : String} (hprint : out.print = .ok text)
  (hnames : ∀ x ∈ out.mentions, IsName x)
include hprint hnames

theorem Target.Module.namesIn_eq :
    namesIn text.toList = out.mentions.map fun x => (writeName x).toList :=
  out.namesIn_print hprint fun hempty => (hnames "" hempty).ne_empty rfl

/-- The names in a text are legal just if none that the module
mentions is led by a digit. -/
theorem Target.Module.isLegalName_iff :
    (∀ w ∈ namesIn text.toList, isLegalName w = true) ↔
      ∀ x ∈ out.mentions, isDigitLed x = false := by
  rw [namesIn_eq hprint hnames, List.forall_mem_map]
  exact forall₂_congr fun x hx => isLegalName_writeName (hnames x hx)

end

theorem Target.NameOf.of_remains {m m' : Code.Module} {f f' : Code.Function}
    {x : String} (hx : NameOf m' f' x)
    (hall : List.Forall₂ Optimize.Remains m.functions m'.functions)
    (h : Optimize.Remains f f') : NameOf m f x := by
  cases hx with
  | text k => exact .text k
  | @function g hg =>
    obtain ⟨g₀, hg₀, hremains⟩ := exists_of_mem_right hall hg
    have hname : g.name = g₀.name := congrArg (·.name) hremains.header
    rw [hname]
    exact .function hg₀
  | param hp =>
    have hparams : f'.params = f.params := congrArg (·.params) h.header
    exact .param (hparams ▸ hp)
  | temp ht => exact .temp (h.made.subset ht)

/-- A variable is the first value of the statement that declares it. -/
theorem Lowering.Realizes.exists_temp {g : Global} {f : Code.Function}
    (h : Realizes g f) {x : String} (hx : x ∈ g.body.filterMap Stmt.declared?) :
    ∃ temp ∈ made f.instrs, temp.name = x := by
  obtain ⟨s, hs, hdeclared⟩ := List.mem_filterMap.mp hx
  have hvalue : x ∈ g.valueNames :=
    List.mem_flatMap.mpr ⟨s, hs,
      List.mem_append_left _ (Option.mem_toList.mpr hdeclared)⟩
  obtain ⟨k, hk⟩ := List.mem_iff_getElem?.mp hvalue
  have hnumber : (x, k) ∈ Lowering.numbers f.instrs := by
    rw [h.numbers]
    exact List.mem_zipIdx_iff_getElem?.mpr hk
  obtain ⟨temp, htemp, heq⟩ := List.mem_map.mp hnumber
  exact ⟨temp, htemp, congrArg Prod.fst heq⟩

/-- Whether a name is led by a digit only if a declared name is. -/
def Tree.Spells (t : Tree) (x : String) : Prop :=
  IsName x ∧ (isDigitLed x = true → ∃ y ∈ t.declaredNames, isDigitLed y = true)

section
variable {source : List UInt8} {filename : String} {t : Tree} {m : Code.Module}

theorem Compiles.isName (h : Compiles source filename t m) {x : String}
    (hx : x ∈ t.declaredNames) : IsName x := by
  rw [← h.tree] at hx
  exact Parser.isName_of_mem_declaredNames hx

theorem Compiles.spells_of_declared (h : Compiles source filename t m) {x : String}
    (hx : x ∈ t.declaredNames) : t.Spells x :=
  ⟨h.isName hx, fun hled => ⟨x, hx, hled⟩⟩

theorem Tree.mem_declaredNames {g : Global} (hg : g ∈ t.globals) {x : String}
    (hx : x ∈ g.name :: g.variableNames) : x ∈ t.declaredNames :=
  List.mem_flatMap.mpr ⟨g, hg, hx⟩

theorem Tree.spells_textName (k : Nat) : t.Spells (textName k) :=
  ⟨isName_textName k, fun hled => by rw [isDigitLed_textName] at hled; cases hled⟩

/-- What is in reach of a function is spelled like a declared name, or made up. -/
theorem Compiles.spells (h : Compiles source filename t m) {f : Code.Function}
    (hf : f ∈ m.functions) {x : String} (hx : NameOf m f x) : t.Spells x := by
  have hrealizes := (Tree.compile_names h.lowered).1
  obtain ⟨g, hg, hreal⟩ := exists_of_mem_right hrealizes hf
  cases hx with
  | text k => exact Tree.spells_textName k
  | function hf' =>
    obtain ⟨g', hg', hreal'⟩ := exists_of_mem_right hrealizes hf'
    rw [hreal'.name]
    exact h.spells_of_declared (Tree.mem_declaredNames hg' List.mem_cons_self)
  | param hp =>
    have hparam := List.mem_map_of_mem (f := Code.Param.name) hp
    rw [hreal.params] at hparam
    exact h.spells_of_declared
      (Tree.mem_declaredNames hg
        (List.mem_cons_of_mem _ (List.mem_append_left _ hparam)))
  | @temp temp ht =>
    have hnumber : (temp.name, temp.id) ∈ g.valueNames.zipIdx := by
      rw [← hreal.numbers]
      exact List.mem_map.mpr ⟨temp, ht, rfl⟩
    have hvalue : temp.name ∈ g.valueNames :=
      List.mem_of_getElem? (List.mem_zipIdx_iff_getElem?.mp hnumber)
    refine ⟨isName_numbered _ _, fun hled => ?_⟩
    rcases hreal.known _ hvalue with hempty | hvariable
    · rw [tempName, hempty, isDigitLed_numbered_empty] at hled
      cases hled
    · have hdeclared := Tree.mem_declaredNames hg (List.mem_cons_of_mem _ hvariable)
      rw [tempName, isDigitLed_numbered (h.isName hdeclared).ne_empty] at hled
      exact ⟨temp.name, hdeclared, hled⟩

theorem Compiles.spells_mentions (h : Compiles source filename t m)
    {out : Target.Module} (himage : IsImage m out) :
    ∀ x ∈ out.mentions, t.Spells x := by
  intro x hx
  rcases himage.nameOf h.isSound x hx with ⟨k, rfl⟩ | ⟨f, hf, hname⟩
  · exact Tree.spells_textName k
  · exact h.spells hf hname

/-- A declared name is mentioned as it is or with a number behind it. -/
theorem Compiles.mentions_declared (h : Compiles source filename t m)
    {out : Target.Module} (himage : IsImage m out) {x : String}
    (hx : x ∈ t.declaredNames) :
    ∃ y ∈ out.mentions, isDigitLed y = isDigitLed x := by
  obtain ⟨g, hg, hmem⟩ := List.mem_flatMap.mp hx
  obtain ⟨f, hf, hreal⟩ := exists_of_mem_right (Tree.compile_names h.lowered).1.flip hg
  obtain ⟨f', hf', hf'image⟩ := exists_of_mem_right himage.functions.flip hf
  have hmention {y : String} (hy : y ∈ f'.mentions (out.functions.map (·.name))) :
      y ∈ out.mentions := by
    rw [Target.Module.mentions, List.mem_append, List.mem_flatMap]
    exact .inr ⟨f', hf', hy⟩
  rcases List.mem_cons.mp hmem with rfl | hmem
  · have hname : f'.name = g.name := hf'image.name.trans hreal.name
    exact ⟨f'.name, hmention List.mem_cons_self, congrArg isDigitLed hname⟩
  rcases List.mem_append.mp hmem with hparam | hvariable
  · have hparams : f'.params.map (·.1) = g.parameterNames := by
      rw [hf'image.params, List.map_map, ← hreal.params]
      rfl
    rw [← hparams] at hparam
    exact ⟨x, hmention (List.mem_cons_of_mem _ (List.mem_append_left _ hparam)), rfl⟩
  · obtain ⟨temp, htemp, rfl⟩ := hreal.exists_temp hvariable
    refine ⟨tempName temp, hmention
      (hf'image.tempName_mem (h.isSound.functions f hf) htemp _), ?_⟩
    exact isDigitLed_numbered (h.isName hx).ne_empty temp.id

end

/-- The names in the text for a source without errors are those that the emitted
module mentions, each as it is written. They are all legal just if the source
declares no name that is led by a digit. If it declares none, they are legal
behind the optimizer too. -/
theorem names_legal_iff (source : List UInt8) (filename : String) (t : Tree)
    (m : Code.Module) (logging : Bool) (h : Compiles source filename t m) :
    (∃ out text, m.emit = .ok out ∧ m.targetText = .ok text ∧
      (namesIn text.toList = out.mentions.map fun x => (writeName x).toList) ∧
      ((∀ w ∈ namesIn text.toList, isLegalName w = true) ↔
        ∀ x ∈ t.declaredNames, isDigitLed x = false)) ∧
    ∃ r out text, ({ logging } : Optimize.Optimizer).optimize m = .ok r ∧
      r.error = none ∧ r.code.emit = .ok out ∧
      r.code.targetText = .ok text ∧
      (namesIn text.toList = out.mentions.map fun x => (writeName x).toList) ∧
      ((∀ x ∈ t.declaredNames, isDigitLed x = false) → ∀ w ∈ namesIn text.toList,
        isLegalName w = true) := by
  -- No name is led by a digit if no declared one is.
  have hnone {x : String} (hx : t.Spells x)
      (hdeclared : ∀ y ∈ t.declaredNames, isDigitLed y = false) :
      isDigitLed x = false := by
    by_contra hled
    obtain ⟨y, hy, hledy⟩ := hx.2 (Bool.not_eq_false _ ▸ hled)
    rw [hdeclared y hy] at hledy
    cases hledy
  constructor
  · obtain ⟨out, text, hout, himage, hprint, htext⟩ := h.isSound.targetText_image
    have hspells := h.spells_mentions himage
    have hnames : ∀ x ∈ out.mentions, IsName x := fun x hx => (hspells x hx).1
    refine ⟨out, text, hout, htext, Target.Module.namesIn_eq hprint hnames, ?_⟩
    rw [Target.Module.isLegalName_iff hprint hnames]
    constructor
    · intro hmentions x hx
      obtain ⟨y, hy, heq⟩ := h.mentions_declared himage hx
      rw [← heq]
      exact hmentions y hy
    · exact fun hdeclared x hx => hnone (hspells x hx) hdeclared
  · obtain ⟨r, -, hr, herror, -, hsound, -, -, hremains⟩ := h.emit_optimized logging
    obtain ⟨out, text, hout, himage, hprint, htext⟩ := hsound.targetText_image
    have hspells : ∀ x ∈ out.mentions, t.Spells x := by
      intro x hx
      rcases himage.nameOf hsound x hx with ⟨k, rfl⟩ | ⟨f', hf', hname⟩
      · exact Tree.spells_textName k
      · obtain ⟨f, hf, hremain⟩ := exists_of_mem_right hremains hf'
        exact h.spells hf (hname.of_remains hremains hremain)
    have hnames : ∀ x ∈ out.mentions, IsName x := fun x hx => (hspells x hx).1
    refine ⟨r, out, text, hr, herror, hout, htext,
      Target.Module.namesIn_eq hprint hnames, fun hdeclared => ?_⟩
    rw [Target.Module.isLegalName_iff hprint hnames]
    exact fun x hx => hnone (hspells x hx) hdeclared

/-- A function whose name starts with a digit and is written in quotes. -/
theorem names_legal_iff_quoted :
    let source :=
      Rune.utf8 "extern func put(n: int)\nfunc 1é\nn: int\nbegin\nput(n);\nend\n"
    ∃ t m, Compiles source "f.ok" t m ∧ ∃ out text, m.emit = .ok out ∧
      m.targetText = .ok text ∧
      (namesIn text.toList = out.mentions.map fun x => (writeName x).toList) ∧
      ((∀ w ∈ namesIn text.toList, isLegalName w = true) ↔
        ∀ x ∈ t.declaredNames, isDigitLed x = false) := by
  intro source
  have hsome : (emitted? source "f.ok").isSome = true := by decide +kernel
  obtain ⟨out, hout⟩ := Option.isSome_iff_exists.mp hsome
  obtain ⟨t, m, h, -⟩ := compiles_of_emitted? hout
  exact ⟨t, m, h, (names_legal_iff source "f.ok" t m false h).1⟩

/-- The name `1a` is written bare. -/
theorem exists_illegal_name :
    ∃ t m text, Compiles (Rune.utf8 "func 1a\nbegin\nend\n") "test.ok" t m ∧
      m.targetText = .ok text ∧
      ['1', 'a'] ∈ namesIn text.toList ∧ isLegalName ['1', 'a'] = false := by
  have hmention : ∃ out ∈ emitted? (Rune.utf8 "func 1a\nbegin\nend\n") "test.ok",
      "1a" ∈ out.mentions := by
    decide +kernel
  obtain ⟨out, hout, hmention⟩ := hmention
  obtain ⟨t, m, h, hemit⟩ := compiles_of_emitted? hout
  obtain ⟨out', text, hout', himage, hprint, htext⟩ := h.isSound.targetText_image
  obtain rfl : out' = out := Except.ok.inj (hout'.symm.trans hemit)
  refine ⟨t, m, text, h, htext, ?_, by decide⟩
  rw [Target.Module.namesIn_eq hprint fun x hx => (h.spells_mentions himage x hx).1]
  exact List.mem_map.mpr ⟨"1a", hmention, by decide +kernel⟩

end Straightline
