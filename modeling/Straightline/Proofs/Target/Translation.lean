import Mathlib
import Straightline.Proofs.Code.Verify
import Straightline.Proofs.Sequences
import Straightline.Target

/-!
# Emission translates faithfully

What is emitted for a module has the same functions, blocks and instructions,
each in the same order, and every operand is the image of the one it stands for
(`emit_isImage`). The image of a temporary is the instruction that was emitted
for the place where the temporary was made last (`MadeLast`); it may be in an
earlier block. Nothing here is said in terms of what emission keeps on its way:
names of functions and string constants, and the local values made so far.
-/

namespace Straightline

/-! ## Places -/

/-- A place in the code of a function. -/
structure Place where
  block : Nat
  index : Nat

/-- Whether one place comes before another. -/
def Place.Before (p q : Place) : Prop :=
  p.block < q.block ∨ p.block = q.block ∧ p.index < q.index

/-- The instruction at a place. -/
def Code.Function.instr? (f : Function) (p : Place) : Option Instr :=
  f.blocks[p.block]?.bind (·.instrs[p.index]?)

/-- The instruction at a place. -/
def Target.Function.instr? (f : Function) (p : Place) : Option Instr :=
  f.blocks[p.block]?.bind (·.instrs[p.index]?)

namespace Code

/-- Whether `q` is where the temporary `t` was made last before `p`. -/
structure MadeLast (f : Function) (t : Temp) (p q : Place) : Prop where
  before : q.Before p
  makes : ∃ i, f.instr? q = some i ∧ i.result = some (.temp t)
  last : ∀ r i, q.Before r → r.Before p → f.instr? r = some i →
    i.result ≠ some (.temp t)

/-! ## Code that was built for its module -/

/-- Whether a value is an integer, a string constant, a parameter or a temporary. -/
def Value.isPlain : Value → Bool
  | .int _ | .text _ | .param _ | .temp _ => true
  | _ => false

/-- Whether an instruction makes temporaries only, calls functions of its module
only, and reads plain values otherwise. -/
def Instr.isBuilt (m : Module) : Instr → Bool
  | .call dest callee args =>
    dest.all (·.temp?.isSome) && m.functions.any (callee == ·.value) &&
      args.all Value.isPlain
  | i => i.operands.all Value.isPlain

/-- Whether all code of a module was built for it. -/
def Module.isBuilt (m : Module) : Bool :=
  m.functions.all fun f => f.instrs.all (Instr.isBuilt m)

theorem isBuilt_call {m : Module} {dest : Option Value} {callee : Value}
    {args : List Value} (h : (Instr.call dest callee args).isBuilt m = true) :
    (∀ v ∈ dest, ∃ t, v = .temp t) ∧ (∃ g ∈ m.functions, callee = g.value) ∧
      ∀ a ∈ args, a.isPlain = true := by
  rw [Instr.isBuilt, Bool.and_eq_true, Bool.and_eq_true] at h
  obtain ⟨⟨hdest, hcallee⟩, hargs⟩ := h
  refine ⟨fun v hv => ?_, ?_, List.all_eq_true.mp hargs⟩
  · rw [Option.mem_def.mp hv] at hdest
    cases v with
    | temp t => exact ⟨t, rfl⟩
    | _ => cases hdest
  · obtain ⟨g, hg, heq⟩ := List.any_eq_true.mp hcallee
    exact ⟨g, hg, eq_of_beq heq⟩

end Code

namespace Target

open Code (Ty Value Temp MadeLast)

/-! ## Images -/

/-- Which operand a value becomes at the place `p` of a function `f`
that is emitted as `out`. -/
inductive Image (m : Code.Module) (f : Code.Function) (out : Function) (p : Place) :
    Value → Operand → Prop
  | int (n : Int32) : Image m f out p (.int n) (.int n)
  | text {k : Nat} {data : List UInt8} : m.texts[k]? = some data →
      Image m f out p (.text k) (.text k (data.length + 1))
  | param {k : Nat} {q : Code.Param} : f.params[k]? = some q →
      Image m f out p (.param q) (.param k q.type)
  | temp {t : Temp} {q : Place} {i : Instr} : MadeLast f t p q → out.instr? q = some i →
      Image m f out p (.temp t) (.result q.block q.index (localName (.temp t)) i.type)

/-- Which instruction an instruction becomes, if operands become what `R` says. -/
inductive InstrImage (m : Code.Module) (R : Value → Operand → Prop) :
    Code.Instr → Instr → Prop
  | alloca {dest : Temp} {type : Ty} :
      InstrImage m R (.alloca dest type) (.alloca (localName (.temp dest)) type)
  | load {dest : Temp} {a : Value} {a' : Operand} : R a a' →
      InstrImage m R (.load dest a) (.load (localName (.temp dest)) dest.type a')
  | store {v a : Value} {v' a' : Operand} : R v v' → R a a' →
      InstrImage m R (.store v a) (.store v' a')
  | binary {op : Operator} {dest : Temp} {v w : Value} {v' w' : Operand} :
      R v v' → R w w' →
      InstrImage m R (.binary (.arith op) dest v w)
        (.binary op (localName (.temp dest)) v' w')
  | call {dest : Option Value} {k : Nat} {g : Code.Function} {args : List Value}
      {args' : List Operand} :
      m.functions[k]? = some g → List.Forall₂ R args args' →
      InstrImage m R (.call dest g.value args)
        (.call (dest.map localName) g.ret k args')

/-- How a block ends whose return is given `v`, in a function that returns `ret`. -/
inductive EndImage (ret : Ty) (R : Value → Operand → Prop) :
    (v : Option Value) → Terminator → Prop
  | nothing : EndImage ret R none .retVoid
  | void {v : Value} : ret = .void → EndImage ret R (some v) .retVoid
  | value {v : Value} {o : Operand} : ret ≠ .void → R v o →
      EndImage ret R (some v) (.ret o)

/-- Whether instructions `is` from the place `⟨b, index⟩` on become `os`, one by one. -/
def CodeImage (m : Code.Module) (f : Code.Function) (out : Function) (b index : Nat)
    (is : List Code.Instr) (os : List Instr) : Prop :=
  os.length = is.length ∧
    ∀ j i o, is[j]? = some i → os[j]? = some o →
    InstrImage m (Image m f out ⟨b, index + j⟩) i o

/-- Whether the `b`-th block of a function becomes `out'`: the same label, one
instruction for each but the return, and an end for the return. -/
def BlockImage (m : Code.Module) (f : Code.Function) (out : Function) (b : Nat)
    (block : Code.Block) (out' : Block) : Prop :=
  out'.label = block.label ∧ ∃ init v t, block.instrs = init ++ [.ret v] ∧
    CodeImage m f out b 0 init out'.instrs ∧
    out'.terminator = some t ∧ EndImage f.ret (Image m f out ⟨b, init.length⟩) v t

/-- Whether a function becomes `out`. -/
structure FunctionImage (m : Code.Module) (f : Code.Function) (out : Function) :
    Prop where
  name : out.name = f.name
  ret : out.ret = f.ret
  params : out.params = f.params.map fun p => (p.name, p.type)
  external : f.isExternal = true → out.blocks = []
  size : out.blocks.length = f.blocks.length
  blocks : ∀ b block out', f.blocks[b]? = some block → out.blocks[b]? = some out' →
    BlockImage m f out b block out'

/-- Whether a module becomes `out`: string constants with a closing zero byte,
and functions in order. -/
structure IsImage (m : Code.Module) (out : Module) : Prop where
  name : out.name = m.name
  texts : out.texts = m.texts.map (· ++ [0])
  functions : List.Forall₂ (FunctionImage m) m.functions out.functions

/-! ## Steps that succeed -/

theorem orError_eq_ok {α : Type} {e : InstrError} {a? : Option α} {a : α} :
    orError e a? = .ok a ↔ a? = some a := by
  cases a? <;> simp [orError]

/-! ## Declarations -/

/-- A function without its code. -/
def header (f : Code.Function) : Function :=
  { name := f.name, ret := f.ret, params := f.params.map fun p => (p.name, p.type) }

theorem eq_of_declareParams {function : String} {ps : List Code.Param}
    {params : List (String × Ty)} (h : declareParams function ps = .ok params) :
    params = ps.map fun p => (p.name, p.type) := by
  induction ps generalizing params with
  | nil =>
    cases h
    rfl
  | cons p ps ih =>
    rw [declareParams] at h
    split at h
    · cases h
    · obtain ⟨rest, hrest, h⟩ := bind_eq_ok.mp h
      cases h
      rw [ih hrest, List.map_cons]

/-- Declarations are made for functions of different names, and say
what their headers say. -/
theorem eq_of_declare {taken : List String} {fs : List Code.Function}
    {gs : List Function} (h : declare taken fs = .ok gs) :
    gs = fs.map header ∧ (fs.map (·.name)).Nodup ∧ ∀ f ∈ fs, f.name ∉ taken := by
  induction fs generalizing taken gs with
  | nil =>
    cases h
    exact ⟨rfl, .nil, by simp⟩
  | cons f fs ih =>
    rw [declare] at h
    split at h
    · cases h
    next hnew =>
    split at h
    · cases h
    obtain ⟨params, hparams, h⟩ := bind_eq_ok.mp h
    obtain ⟨rest, hrest, h⟩ := bind_eq_ok.mp h
    cases h
    obtain ⟨rfl, hnodup, hfresh⟩ := ih hrest
    refine ⟨?_, ?_, ?_⟩
    · rw [List.map_cons, header, eq_of_declareParams hparams]
    · rw [List.map_cons, List.nodup_cons]
      refine ⟨fun hmem => ?_, hnodup⟩
      obtain ⟨g, hg, hname⟩ := List.mem_map.mp hmem
      exact hfresh g hg (by simp [hname])
    · intro g hg
      rcases List.mem_cons.mp hg with rfl | hg
      · exact hnew
      · exact fun hmem => hfresh g hg (List.mem_cons_of_mem _ hmem)

/-! ## Operands -/

/-- What the code of a module refers to while it is emitted. -/
def surroundings (m : Code.Module) : Surroundings :=
  { texts := m.texts.map (· ++ [0]), functions := m.functions.map header }

theorem textName_injective {k k' : Nat} (h : Code.textName k = Code.textName k') :
    k = k' :=
  Decimal.ofNat_injective ((String.append_right_inj ".str.").mp h)

theorem text?_surroundings {m : Code.Module} {k : Nat} {o : Operand}
    (h : (surroundings m).text? (Code.textName k) = some o) :
    ∃ data, m.texts[k]? = some data ∧ o = .text k (data.length + 1) := by
  obtain ⟨index, hindex, h⟩ := Option.bind_eq_some_iff.mp h
  obtain ⟨closed, hclosed, h⟩ := Option.bind_eq_some_iff.mp h
  obtain rfl : index = k := textName_injective (by simpa using List.find?_some hindex)
  rw [surroundings, List.getElem?_map] at hclosed
  obtain ⟨data, hdata, rfl⟩ := Option.map_eq_some_iff.mp hclosed
  cases h
  exact ⟨data, hdata, by simp⟩

/-- Under different names, a function that is looked up by name is
found where it stands. -/
theorem function?_surroundings {m : Code.Module}
    (hnames : (m.functions.map (·.name)).Nodup) {g : Code.Function}
    (hg : g ∈ m.functions) {k : Nat} {h : Function}
    (hfound : (surroundings m).function? g.name = some (k, h)) :
    m.functions[k]? = some g ∧ h = header g := by
  obtain ⟨index, hindex, hfound⟩ := Option.bind_eq_some_iff.mp hfound
  obtain ⟨h', hh', hfound⟩ := Option.bind_eq_some_iff.mp hfound
  cases hfound
  obtain ⟨hlt, hname, -⟩ := List.findIdx?_eq_some_iff_getElem.mp hindex
  rw [List.getElem?_eq_getElem hlt] at hh'
  cases hh'
  simp only [surroundings, List.length_map] at hlt
  simp only [surroundings, List.getElem_map, header, beq_iff_eq] at hname ⊢
  have hsame : m.functions[k] = g :=
    List.inj_on_of_nodup_map hnames (List.getElem_mem hlt) hg hname
  exact ⟨by rw [List.getElem?_eq_getElem hlt, hsame], by rw [hsame]⟩

/-- Local values that are images of what they stand for at `p`. -/
def Bound (m : Code.Module) (f : Code.Function) (out : Function) (p : Place)
    (locals : Locals) : Prop :=
  ∀ v o, locals.lookup v = some o → Image m f out p v o

section
variable {m : Code.Module} {f : Code.Function} {out : Function} {p : Place}
  {locals : Locals}

theorem operand_image (hlocals : Bound m f out p locals) {v : Value}
    (hv : v.isPlain = true) {o : Operand}
    (h : operand (surroundings m) locals v = .ok o) : Image m f out p v o := by
  cases v with
  | int n =>
    cases h
    exact .int n
  | text k =>
    obtain ⟨data, hdata, rfl⟩ := text?_surroundings (orError_eq_ok.mp h)
    exact .text hdata
  | param q => exact hlocals _ _ (orError_eq_ok.mp h)
  | temp t => exact hlocals _ _ (orError_eq_ok.mp h)
  | _ => cases hv

/-! ## Instructions -/

theorem eq_of_checkType {t t' : Ty} (h : checkType t = .ok t') : t' = t := by
  unfold checkType at h
  split at h <;> cases h
  rfl

theorem eq_of_storeTo {v a : Operand} {step : Step} (h : storeTo v a = .ok step) :
    step = .instr (.store v a) none := by
  unfold storeTo at h
  split at h
  · split at h <;> cases h
    rfl
  · cases h

/-- What one instruction becomes: its image, which makes the same value,
or the end of its block. -/
theorem emitInstr_image (hnames : (m.functions.map (·.name)).Nodup)
    (hlocals : Bound m f out p locals) {ret : Ty} {i : Code.Instr}
    (hi : i.isBuilt m = true) {step : Step}
    (h : emitInstr (surroundings m) ret locals i = .ok step) :
    (∃ o, step = .instr o i.result ∧ InstrImage m (Image m f out p) i o) ∨
      ∃ v t, i = .ret v ∧ step = .terminator t ∧
      EndImage ret (Image m f out p) v t := by
  cases i with
  | alloca dest type =>
    obtain ⟨_, htype, hstep⟩ := bind_eq_ok.mp h
    obtain rfl := eq_of_checkType htype
    cases hstep
    exact .inl ⟨_, rfl, .alloca⟩
  | load dest a =>
    have plain := List.all_eq_true.mp hi
    obtain ⟨_, htype, h⟩ := bind_eq_ok.mp h
    obtain ⟨a', ha, hstep⟩ := bind_eq_ok.mp h
    obtain rfl := eq_of_checkType htype
    cases hstep
    have ha' := operand_image hlocals (plain a (by simp [Code.Instr.operands])) ha
    exact .inl ⟨_, rfl, .load ha'⟩
  | store v a =>
    have plain := List.all_eq_true.mp hi
    obtain ⟨v', hv, h⟩ := bind_eq_ok.mp h
    obtain ⟨a', ha, hstep⟩ := bind_eq_ok.mp h
    obtain rfl := eq_of_storeTo hstep
    have hv' := operand_image hlocals (plain v (by simp [Code.Instr.operands])) hv
    have ha' := operand_image hlocals (plain a (by simp [Code.Instr.operands])) ha
    exact .inl ⟨_, rfl, .store hv' ha'⟩
  | binary op dest v w =>
    have plain := List.all_eq_true.mp hi
    obtain ⟨v', hv, h⟩ := bind_eq_ok.mp h
    obtain ⟨w', hw, h⟩ := bind_eq_ok.mp h
    cases op with
    | unknown code => cases h
    | arith op =>
      cases h
      have hv' := operand_image hlocals (plain v (by simp [Code.Instr.operands])) hv
      have hw' := operand_image hlocals (plain w (by simp [Code.Instr.operands])) hw
      exact .inl ⟨_, rfl, .binary hv' hw'⟩
  | call dest callee args =>
    -- The callee goes by its name, which only one function of the module has.
    obtain ⟨-, ⟨g, hg, rfl⟩, hargs⟩ := Code.isBuilt_call hi
    obtain ⟨⟨k, g'⟩, hfound, h⟩ := bind_eq_ok.mp h
    obtain ⟨args', hargs', hstep⟩ := bind_eq_ok.mp h
    obtain ⟨hk, rfl⟩ := function?_surroundings hnames hg (orError_eq_ok.mp hfound)
    cases hstep
    refine .inl ⟨_, rfl, .call hk ?_⟩
    exact ((List.forall₂_and_left _ _).mpr ⟨hargs, mapM_eq_ok hargs'⟩).imp fun a o h =>
      operand_image hlocals h.1 h.2
  | ret v =>
    cases v with
    | none =>
      cases h
      exact .inr ⟨_, _, rfl, rfl, .nothing⟩
    | some v =>
      rw [emitInstr] at h
      split at h
      · next hvoid =>
        cases h
        exact .inr ⟨_, _, rfl, rfl, .void hvoid⟩
      · next hvoid =>
        obtain ⟨o, ho, h⟩ := bind_eq_ok.mp h
        cases h
        have hv := List.all_eq_true.mp hi v (by simp [Code.Instr.operands])
        exact .inr ⟨_, _, rfl, rfl, .value hvoid (operand_image hlocals hv ho)⟩
  | foreign text sort dest => cases h

end

/-! ## Local values along the code -/

section
variable {m : Code.Module} {f : Code.Function} {out : Function} {b j : Nat}
  {t : Temp} {q : Place}

theorem madeLast_next (h : MadeLast f t ⟨b, j⟩ q)
    (hother : ∀ i, f.instr? ⟨b, j⟩ = some i → i.result ≠ some (.temp t)) :
    MadeLast f t ⟨b, j + 1⟩ q := by
  obtain ⟨hbefore, hmakes, hlast⟩ := h
  refine ⟨?_, hmakes, fun r i hqr hrp hi => ?_⟩
  · unfold Place.Before at *
    dsimp only at *
    omega
  · obtain ⟨rb, rj⟩ := r
    by_cases hr : rb = b ∧ rj = j
    · obtain ⟨rfl, rfl⟩ := hr
      exact hother i hi
    · refine hlast ⟨rb, rj⟩ i hqr ?_ hi
      unfold Place.Before at *
      dsimp only at *
      omega

theorem madeLast_nextBlock (h : MadeLast f t ⟨b, j⟩ q)
    (hend : ∀ k, j ≤ k → f.instr? ⟨b, k⟩ = none) : MadeLast f t ⟨b + 1, 0⟩ q := by
  obtain ⟨hbefore, hmakes, hlast⟩ := h
  refine ⟨?_, hmakes, fun r i hqr hrp hi => ?_⟩
  · unfold Place.Before at *
    dsimp only at *
    omega
  · obtain ⟨rb, rj⟩ := r
    by_cases hr : rb = b ∧ j ≤ rj
    · obtain ⟨rfl, hj⟩ := hr
      rw [hend rj hj] at hi
      cases hi
    · refine hlast ⟨rb, rj⟩ i hqr ?_ hi
      unfold Place.Before at *
      dsimp only at *
      omega

/-- An image stays one at a place where the same instructions made
the temporaries last. -/
theorem Image.move {p p' : Place} {v : Value} {o : Operand}
    (h : Image m f out p v o)
    (hmove : ∀ t q, v = .temp t → MadeLast f t p q → MadeLast f t p' q) :
    Image m f out p' v o := by
  cases h with
  | int n => exact .int n
  | text hdata => exact .text hdata
  | param hq => exact .param hq
  | temp hlast hi => exact .temp (hmove _ _ rfl hlast) hi

variable {locals : Locals}

theorem Bound.next (h : Bound m f out ⟨b, j⟩ locals) {i : Code.Instr}
    (hi : f.instr? ⟨b, j⟩ = some i) (hresult : i.result = none) :
    Bound m f out ⟨b, j + 1⟩ locals := by
  intro v o hv
  refine (h v o hv).move fun t q _ hlast => madeLast_next hlast fun i' hi' => ?_
  cases hi.symm.trans hi'
  rw [hresult]
  exact (Option.some_ne_none _).symm

theorem Bound.nextBlock (h : Bound m f out ⟨b, j⟩ locals)
    (hend : ∀ k, j ≤ k → f.instr? ⟨b, k⟩ = none) :
    Bound m f out ⟨b + 1, 0⟩ locals :=
  fun v o hv => (h v o hv).move fun _ _ _ hlast => madeLast_nextBlock hlast hend

/-- Behind an instruction the value it makes is bound to what was emitted for
it, and the others stay. -/
theorem Bound.bind (h : Bound m f out ⟨b, j⟩ locals) {i : Code.Instr} {o : Instr}
    (hi : f.instr? ⟨b, j⟩ = some i) (ho : out.instr? ⟨b, j⟩ = some o)
    (hresult : ∀ v ∈ i.result, ∃ t, v = .temp t) :
    Bound m f out ⟨b, j + 1⟩ (Target.bind locals b j o i.result) := by
  cases hdest : i.result with
  | none => exact h.next hi hdest
  | some dest =>
    obtain ⟨t, rfl⟩ := hresult dest hdest
    intro v o' hv
    rw [Target.bind, List.lookup_cons] at hv
    by_cases hvt : v = .temp t
    · subst hvt
      rw [beq_self_eq_true] at hv
      cases hv
      have hlast : MadeLast f t ⟨b, j + 1⟩ ⟨b, j⟩ := by
        refine ⟨.inr ⟨rfl, Nat.lt_succ_self j⟩, ⟨i, hi, hdest⟩,
          fun r i' hjr hrj _ => ?_⟩
        unfold Place.Before at hjr hrj
        dsimp only at hjr hrj
        omega
      exact .temp hlast ho
    · -- Any other temporary was made last where it was before.
      rw [beq_false_of_ne hvt] at hv
      refine (h v o' hv).move fun t' q ht' hlast => madeLast_next hlast fun i' hi' => ?_
      cases hi.symm.trans hi'
      rw [hdest]
      rintro ⟨⟩
      exact hvt ht'

/-! ## Blocks -/

theorem result_of_instrImage {R : Value → Operand → Prop} {i : Code.Instr}
    {o : Instr} (h : InstrImage m R i o) (hi : i.isBuilt m = true) :
    ∀ v ∈ i.result, ∃ t, v = .temp t := by
  cases h with
  | alloca => exact fun v hv => ⟨_, (Option.some.inj hv).symm⟩
  | load _ => exact fun v hv => ⟨_, (Option.some.inj hv).symm⟩
  | store _ _ => exact fun v hv => nomatch hv
  | binary _ _ => exact fun v hv => ⟨_, (Option.some.inj hv).symm⟩
  | call _ _ => exact (Code.isBuilt_call hi).1

theorem CodeImage.cons {index : Nat} {i : Code.Instr} {o : Instr}
    {is : List Code.Instr} {os : List Instr}
    (h : InstrImage m (Image m f out ⟨b, index⟩) i o)
    (hrest : CodeImage m f out b (index + 1) is os) :
    CodeImage m f out b index (i :: is) (o :: os) := by
  refine ⟨by simp [hrest.1], fun j i' o' hi' ho' => ?_⟩
  cases j with
  | zero =>
    cases hi'
    cases ho'
    exact h
  | succ j =>
    have hplace : index + (j + 1) = index + 1 + j := by omega
    rw [hplace]
    exact hrest.2 j i' o' hi' ho'

/-- The instructions of a block become their images, one by one, and its
return becomes its end. -/
theorem emitInstrs_image (hnames : (m.functions.map (·.name)).Nodup) {ret : Ty}
    {index : Nat} {init : List Code.Instr} {v : Option Value} {r : Emitted}
    (hlocals : Bound m f out ⟨b, index⟩ locals)
    (hcode : ∀ k, f.instr? ⟨b, index + k⟩ = (init ++ [.ret v])[k]?)
    (hout : ∀ k, out.instr? ⟨b, index + k⟩ = r.instrs[k]?)
    (hbuilt : ∀ i ∈ init ++ [.ret v], i.isBuilt m = true)
    (hinit : ∀ i ∈ init, i.isTerminator = false)
    (h : emitInstrs (surroundings m) ret b locals index (init ++ [.ret v]) = .ok r) :
    CodeImage m f out b index init r.instrs ∧
      (∃ t, r.terminator = some t ∧
        EndImage ret (Image m f out ⟨b, index + init.length⟩) v t) ∧
      Bound m f out ⟨b + 1, 0⟩ r.locals := by
  -- Code and output are tied to their places in the whole function, so what is
  -- left of both moves on together.
  induction init generalizing index locals r with
  | nil =>
    obtain ⟨step, hstep, hrest⟩ := bind_eq_ok.mp h
    have hret := hbuilt (.ret v) (by simp)
    rcases emitInstr_image hnames hlocals hret hstep
      with ⟨o, -, himage⟩ | ⟨v', t, heq, rfl, hend⟩
    · cases himage
    · cases heq
      cases hrest
      have hbound := hlocals.next (hcode 0) rfl
      refine ⟨⟨rfl, fun j i o hi _ => nomatch hi⟩, ⟨t, rfl, hend⟩,
        hbound.nextBlock fun k hk => ?_⟩
      obtain ⟨d, rfl⟩ := Nat.exists_eq_add_of_le hk
      have hplace : index + 1 + d = index + (d + 1) := by omega
      rw [hplace, hcode]
      rfl
  | cons i init ih =>
    obtain ⟨step, hstep, hrest⟩ := bind_eq_ok.mp h
    rw [List.forall_mem_cons] at hinit
    obtain ⟨hi, hbuilt⟩ := List.forall_mem_cons.mp hbuilt
    rcases emitInstr_image hnames hlocals hi hstep
      with ⟨o, rfl, himage⟩ | ⟨v', t, rfl, -, -⟩
    · obtain ⟨r', hr', hr⟩ := bind_eq_ok.mp hrest
      cases hr
      have hbound := hlocals.bind (hcode 0) (hout 0) (result_of_instrImage himage hi)
      have hplace (k : Nat) : index + 1 + k = index + (k + 1) := by omega
      obtain ⟨hcodes, hend, hafter⟩ := ih hbound (fun k => by rw [hplace, hcode]; rfl)
        (fun k => by rw [hplace, hout]; rfl) hbuilt hinit.2 hr'
      rw [List.length_cons, ← hplace]
      exact ⟨.cons himage hcodes, hend, hafter⟩
    · cases hinit.1

/-! ## Functions and modules -/

theorem emitBlocks_image (hnames : (m.functions.map (·.name)).Nodup) {name : String}
    {blocks : List Code.Block} {bs : List Block}
    (hlocals : Bound m f out ⟨b, 0⟩ locals)
    (hcode : ∀ k, f.blocks[b + k]? = blocks[k]?)
    (hout : ∀ k, out.blocks[b + k]? = bs[k]?)
    (hbuilt : ∀ block ∈ blocks, ∀ i ∈ block.instrs, i.isBuilt m = true)
    (hclosed : ∀ block ∈ blocks, Code.Closed block.instrs)
    (h : emitBlocks (surroundings m) name f.ret locals b blocks = .ok bs) :
    bs.length = blocks.length ∧ ∀ k block out', blocks[k]? = some block →
      bs[k]? = some out' → BlockImage m f out (b + k) block out' := by
  induction blocks generalizing locals b bs with
  | nil =>
    cases h
    exact ⟨rfl, fun k block _ hblock => nomatch hblock⟩
  | cons block blocks ih =>
    rw [List.forall_mem_cons] at hbuilt hclosed
    rw [emitBlocks] at h
    split at h
    · cases h
    · cases h
    next r hr =>
    obtain ⟨bs, hbs, hdone⟩ := bind_eq_ok.mp h
    cases hdone
    obtain ⟨init, v, hinstrs, hinit⟩ := hclosed.1
    rw [hinstrs] at hr hbuilt
    have hcode' (k : Nat) : f.instr? ⟨b, 0 + k⟩ = (init ++ [.ret v])[k]? := by
      rw [← hinstrs, Nat.zero_add, Code.Function.instr?]
      show f.blocks[b + 0]?.bind _ = _
      rw [hcode]
      rfl
    have hout' (k : Nat) : out.instr? ⟨b, 0 + k⟩ = r.instrs[k]? := by
      rw [Nat.zero_add, Function.instr?]
      show out.blocks[b + 0]?.bind _ = _
      rw [hout]
      rfl
    obtain ⟨hcodes, ⟨t, ht, hend⟩, hafter⟩ :=
      emitInstrs_image hnames hlocals hcode' hout' hbuilt.1 hinit hr
    have hplace (k : Nat) : b + 1 + k = b + (k + 1) := by omega
    obtain ⟨hlength, hblocks⟩ := ih hafter (fun k => by rw [hplace, hcode]; rfl)
      (fun k => by rw [hplace, hout]; rfl) hbuilt.2 hclosed.2 hbs
    refine ⟨by simp [hlength], fun k block' out' hblock' hout' => ?_⟩
    cases k with
    | zero =>
      cases hblock'
      cases hout'
      rw [Nat.zero_add] at hend
      exact ⟨rfl, init, v, t, hinstrs, hcodes, ht, hend⟩
    | succ k =>
      rw [← hplace]
      exact hblocks k block' out' hblock' hout'

/-- A function starts with its parameters. -/
theorem bound_parameters : Bound m f out ⟨0, 0⟩ (parameters f) := by
  intro v o hv
  obtain ⟨l, l', hlocals, -⟩ := List.lookup_eq_some_iff.mp hv
  have hmem : (v, o) ∈ parameters f := by simp [hlocals]
  obtain ⟨k, hk, heq⟩ := List.mem_mapIdx.mp (List.mem_reverse.mp hmem)
  cases heq
  exact .param (List.getElem?_eq_getElem hk)

theorem define_image (hnames : (m.functions.map (·.name)).Nodup)
    (hbuilt : ∀ i ∈ f.instrs, i.isBuilt m = true) (hcheck : f.check = .ok [])
    (h : define (surroundings m) f (header f) = .ok out) :
    FunctionImage m f out := by
  obtain ⟨hexternal, hblocks⟩ := Code.Function.check_eq_nil_iff.mp hcheck
  rw [define] at h
  split at h
  · next hext =>
    cases h
    have hnil := hexternal.mpr hext
    exact ⟨rfl, rfl, rfl, fun _ => rfl, by rw [hnil]; rfl,
      fun b block out' hb => by simp [hnil] at hb⟩
  · next hext =>
    obtain ⟨bs, hbs, hdone⟩ := bind_eq_ok.mp h
    cases hdone
    have hbuilt' : ∀ block ∈ f.blocks, ∀ i ∈ block.instrs,
        i.isBuilt m = true := fun block hblock i hi =>
      hbuilt i (List.mem_flatMap.mpr ⟨block, hblock, hi⟩)
    have hclosed : ∀ block ∈ f.blocks, Code.Closed block.instrs :=
      fun block hblock => (hblocks block hblock).2
    have hcode (k : Nat) : f.blocks[0 + k]? = f.blocks[k]? := by rw [Nat.zero_add]
    have hout (k : Nat) : ({ header f with blocks := bs } :
        Function).blocks[0 + k]? = bs[k]? := by
      rw [Nat.zero_add]
    obtain ⟨hlength, himage⟩ :=
      emitBlocks_image hnames bound_parameters hcode hout hbuilt' hclosed hbs
    refine ⟨rfl, rfl, rfl, fun hext' => absurd hext' hext, hlength,
      fun b block out' hb hout' => ?_⟩
    rw [← Nat.zero_add b]
    exact himage b block out' hb hout'

theorem defineAll_image (hnames : (m.functions.map (·.name)).Nodup)
    {fs : List Code.Function}
    (hbuilt : ∀ f ∈ fs, ∀ i ∈ f.instrs, i.isBuilt m = true)
    (hcheck : ∀ f ∈ fs, f.check = .ok []) {outs : List Function}
    (h : defineAll (surroundings m) fs (fs.map header) = .ok outs) :
    List.Forall₂ (FunctionImage m) fs outs := by
  induction fs generalizing outs with
  | nil =>
    cases h
    exact .nil
  | cons f fs ih =>
    rw [List.forall_mem_cons] at hbuilt hcheck
    rw [List.map_cons, defineAll] at h
    obtain ⟨out, hout, hrest⟩ := bind_eq_ok.mp h
    obtain ⟨outs, houts, hdone⟩ := bind_eq_ok.mp hrest
    cases hdone
    exact .cons (define_image hnames hbuilt.1 hcheck.1 hout)
      (ih hbuilt.2 hcheck.2 houts)

end

/-- Whatever is emitted for a module that keeps the rules and was built
as a whole is its image. -/
theorem emit_isImage (m : Code.Module) (out : Module) (hverify : m.verify = .ok [])
    (hbuilt : m.isBuilt = true) (hemit : m.emit = .ok out) : IsImage m out := by
  rw [Code.Module.verify_eq_nil_iff] at hverify
  rw [Code.Module.emit] at hemit
  split at hemit
  · cases hemit
  next declared hdeclared =>
  obtain ⟨rfl, hnames, -⟩ := eq_of_declare hdeclared
  obtain ⟨functions, hfunctions, hdone⟩ := bind_eq_ok.mp hemit
  cases hdone
  have hcode : ∀ f ∈ m.functions, ∀ i ∈ f.instrs, i.isBuilt m = true := fun f hf =>
    List.all_eq_true.mp (List.all_eq_true.mp hbuilt f hf)
  exact ⟨rfl, rfl, defineAll_image hnames hcode hverify hfunctions⟩

/-- A module with a string constant, an external function, a call of a function
further down, and a second block that reads what the first one made. -/
def linked : Code.Module :=
  let put : Code.Function :=
    { place := 0, name := "put", ret := .void, params := [⟨0, 0, "s", .ptr .i8⟩],
      isExternal := true }
  let n : Code.Param := ⟨1, 0, "n", .i32⟩
  let k : Code.Param := ⟨2, 0, "k", .i32⟩
  let twice : Code.Function :=
    { place := 2, name := "twice", ret := .i32, params := [k], temps := 1
      blocks := [{ label := "entry"
                   instrs :=
                     [.binary (.arith .add) ⟨2, 0, "", .i32⟩ (.param k) (.param k),
                       .ret (some (.temp ⟨2, 0, "", .i32⟩))] }] }
  let x : Temp := ⟨1, 0, "x", .ptr .i32⟩
  let main : Code.Function :=
    { place := 1, name := "main", ret := .i32, params := [n], temps := 3
      blocks := [{ label := "entry"
                   instrs :=
                     [.alloca x .i32, .store (.param n) (.temp x),
                       .ret (some (.int 0))] },
        { label := "next"
          instrs := [.load ⟨1, 1, "", .i32⟩ (.temp x),
            .call (some (.temp ⟨1, 2, "", .i32⟩)) twice.value [.temp ⟨1, 1, "", .i32⟩],
            .call none put.value [.text 0],
            .ret (some (.temp ⟨1, 2, "", .i32⟩))] }] }
  { name := "linked", texts := [[104, 105]], functions := [put, main, twice] }

theorem emit_isImage_linked :
    linked.verify = .ok [] ∧ linked.isBuilt = true ∧ ∃ out, linked.emit = .ok out ∧
      IsImage linked out := by
  have hverify : linked.verify = .ok [] := by rfl
  have hbuilt : linked.isBuilt = true := by decide +kernel
  have hemit : linked.emit.toBool = true := by decide +kernel
  refine ⟨hverify, hbuilt, ?_⟩
  cases h : linked.emit with
  | error stop => rw [h] at hemit; cases hemit
  | ok out => exact ⟨out, rfl, emit_isImage linked out hverify hbuilt h⟩

end Target

end Straightline
