import Mathlib
import Straightline.Proofs.Code.Verify
import Straightline.Target

/-!
# Sound modules can be emitted

Emission looks every operand up: temporaries among those made so far, string
constants and functions by name. On sound code each lookup finds something of
the type it should have, so no instruction is refused and no store is at fault
(`emitInstr_ok`). The blocks that come out all end, so they can be printed as
well: `Module.IsSound.emit` gives both.
-/

namespace Straightline.Target

open Code (Ty Value Temp Sound Closed made)

/-! ## Operands -/

/-- Surroundings in which everything of a module is found. -/
structure Covers (s : Surroundings) (m : Code.Module) : Prop where
  texts : s.texts.length = m.texts.length
  functions : ∀ f ∈ m.functions, ∃ p, s.function? f.name = some p

/-- Local values among which the temporaries of `past` are found, with their types. -/
def Knows (locals : Locals) (past : List Temp) : Prop :=
  ∀ t ∈ past, ∃ o, locals.lookup (.temp t) = some o ∧ o.type = t.type

theorem text?_of_lt {s : Surroundings} {index : Nat} (h : index < s.texts.length) :
    ∃ i size, s.text? (Code.textName index) = some (.text i size) := by
  have hfind : ((List.range s.texts.length).find?
      (Code.textName · == Code.textName index)).isSome := by
    rw [List.find?_isSome]
    exact ⟨index, List.mem_range.mpr h, beq_self_eq_true _⟩
  obtain ⟨i, hi⟩ := Option.isSome_iff_exists.mp hfind
  have hlt : i < s.texts.length := List.mem_range.mp (List.mem_of_find?_eq_some hi)
  refine ⟨i, s.texts[i].length, ?_⟩
  simp [Surroundings.text?, hi, List.getElem?_eq_getElem hlt]

section
variable {s : Surroundings} {m : Code.Module} (hs : Covers s m)
include hs

theorem operand_ok {locals : Locals} {past : List Temp}
    (hlocals : Knows locals past) {v : Value}
    (hv : v.IsReady m.context.texts past) :
    ∃ o, operand s locals v = .ok o ∧ o.type = v.type := by
  cases v with
  | int n => exact ⟨.int n, rfl, rfl⟩
  | temp t =>
    obtain ⟨o, hlookup, htype⟩ := hlocals t hv
    exact ⟨o, by simp [operand, localOperand, hlookup, orError], htype⟩
  | text index =>
    have hlt : index < s.texts.length := by
      rw [hs.texts]
      exact hv
    obtain ⟨i, size, htext⟩ := text?_of_lt hlt
    exact ⟨.text i size, by simp [operand, textOperand, htext, orError], rfl⟩
  | _ => exact hv.elim

theorem operands_ok {locals : Locals} {past : List Temp} (hlocals : Knows locals past)
    {vs : List Value} (hvs : ∀ v ∈ vs, v.IsReady m.context.texts past) :
    ∃ os, vs.mapM (operand s locals) = .ok os := by
  induction vs with
  | nil => exact ⟨[], rfl⟩
  | cons v vs ih =>
    rw [List.forall_mem_cons] at hvs
    obtain ⟨o, ho, _⟩ := operand_ok hs hlocals hvs.1
    obtain ⟨os, hos⟩ := ih hvs.2
    exact ⟨o :: os, by simp [List.mapM_cons, ho, hos, Bind.bind, Except.bind, pure,
      Except.pure]⟩

/-! ## Instructions -/

omit hs in
theorem typeGap?_of_isStorable {t : Ty} (h : t.IsStorable) : typeGap? t = none := by
  rcases h with rfl | rfl <;> rfl

/-- A sound instruction becomes the end of its block or an
instruction of the same type. -/
theorem emitInstr_ok {locals : Locals} {past : List Temp} (hlocals : Knows locals past)
    {i : Code.Instr} (hi : i.IsSound m.context past) :
    if i.isTerminator then emitInstr s .void locals i = .ok (.terminator .retVoid)
    else ∃ out, emitInstr s .void locals i = .ok (.instr out (i.temp?.map .temp)) ∧
      ∀ t ∈ i.temp?, out.type = t.type := by
  cases i with
  | alloca dest type =>
    obtain ⟨htype, hdest⟩ := hi
    refine ⟨.alloca (localName (.temp dest)) type, ?_, ?_⟩
    · simp [emitInstr, checkType, typeGap?_of_isStorable htype, Bind.bind,
        Except.bind, pure, Except.pure, Code.Instr.temp?, Code.Instr.result,
        Value.temp?]
    · intro t ht
      cases ht
      exact hdest.symm
  | load dest address =>
    obtain ⟨haddress, _, htype⟩ := hi
    obtain ⟨o, ho, _⟩ := operand_ok hs hlocals haddress
    refine ⟨.load (localName (.temp dest)) dest.type o, ?_, ?_⟩
    · simp [emitInstr, checkType, typeGap?_of_isStorable htype, ho, Bind.bind,
        Except.bind, pure, Except.pure, Code.Instr.temp?, Code.Instr.result,
        Value.temp?]
    · intro t ht
      cases ht
      rfl
  | store value address =>
    obtain ⟨hvalue, haddress, htype⟩ := hi
    obtain ⟨o, ho, hot⟩ := operand_ok hs hlocals hvalue
    obtain ⟨o', ho', hot'⟩ := operand_ok hs hlocals haddress
    rw [htype] at hot'
    refine ⟨.store o o', ?_, by simp [Code.Instr.temp?, Code.Instr.result]⟩
    simp [emitInstr, ho, ho', storeTo, hot, hot', Bind.bind, Except.bind,
      Code.Instr.temp?, Code.Instr.result]
  | binary op dest left right =>
    obtain ⟨⟨op, rfl⟩, hleft, hright, htype, _, hdest⟩ := hi
    obtain ⟨o, ho, hot⟩ := operand_ok hs hlocals hleft
    obtain ⟨o', ho', _⟩ := operand_ok hs hlocals hright
    refine ⟨.binary op (localName (.temp dest)) o o', ?_, ?_⟩
    · simp [emitInstr, ho, ho', Bind.bind, Except.bind, pure, Except.pure,
        Code.Instr.temp?, Code.Instr.result, Value.temp?]
    · intro t ht
      cases ht
      exact hot.trans (htype.trans hdest.symm)
  | call dest callee args =>
    -- The callee is looked up by its name, which some function of the module has.
    obtain ⟨rfl, hcallee, hargs⟩ := hi
    obtain ⟨f, hf, rfl, _⟩ := Code.Module.mem_callees hcallee
    obtain ⟨⟨index, g⟩, hfound⟩ := hs.functions f hf
    obtain ⟨os, hos⟩ := operands_ok hs hlocals hargs
    refine ⟨.call none g.ret index os,
      ?_, by simp [Code.Instr.temp?, Code.Instr.result]⟩
    simp [emitInstr, Code.Function.value, Value.isAbsent, Value.name, hfound,
      orError, hos, Bind.bind, Except.bind, pure, Except.pure, Code.Instr.temp?,
      Code.Instr.result]
  | ret value => cases value <;> rfl
  | foreign text sort dest => exact hi.elim

omit hs in
theorem Knows.bind {locals : Locals} {past : List Temp} (h : Knows locals past)
    (block index : Nat) {out : Instr} {t? : Option Temp}
    (htype : ∀ t ∈ t?, out.type = t.type) :
    Knows (Target.bind locals block index out (t?.map .temp)) (past ++ t?.toList) := by
  cases t? with
  | none => simpa [Target.bind] using h
  | some t =>
    intro u hu
    by_cases hut : u = t
    · subst hut
      exact ⟨.result block index (localName (.temp u))
        out.type, by simp [Target.bind], htype u rfl⟩
    · have hpast : u ∈ past := by simpa [hut] using hu
      obtain ⟨o, ho, hot⟩ := h u hpast
      have hne : (Value.temp u == Value.temp t) = false := by simpa using hut
      exact ⟨o, by simpa [Target.bind, List.lookup, hne] using ho, hot⟩

theorem emitInstrs_ok (block : Nat) {locals : Locals} {past : List Temp}
    (hlocals : Knows locals past) (index : Nat) {is : List Code.Instr}
    (his : Sound m.context past is) :
    ∃ r, emitInstrs s .void block locals index is = .ok r ∧
      Knows r.locals (past ++ made is) ∧
      ((∃ i ∈ is, i.isTerminator = true) → r.terminator.isSome) := by
  -- Locals grow with the temporaries made so far, so both are
  -- generalized along the code.
  induction is generalizing locals past index with
  | nil => exact ⟨_, rfl, by simpa using hlocals, by simp⟩
  | cons i rest ih =>
    obtain ⟨hi, _, hrest⟩ := his
    have hemit := emitInstr_ok hs hlocals hi
    rw [Code.made_cons, ← List.append_assoc]
    -- A return is kept apart from the other instructions and takes no number.
    by_cases hterm : i.isTerminator = true
    · rw [if_pos hterm] at hemit
      have hnone : i.temp? = none := by
        cases i with
        | ret value => rfl
        | _ => cases hterm
      rw [hnone, Option.toList_none, List.append_nil] at hrest ⊢
      obtain ⟨r, hr, hknows, _⟩ := ih hlocals index hrest
      refine ⟨{ r with terminator := r.terminator.or (some .retVoid) }, ?_,
        hknows, by simp⟩
      simp [emitInstrs, hemit, hr, Bind.bind, Except.bind, pure, Except.pure]
    · rw [if_neg hterm] at hemit
      obtain ⟨out, hout, htype⟩ := hemit
      obtain ⟨r, hr, hknows, hsome⟩ :=
        ih (hlocals.bind block index htype) (index + 1) hrest
      refine ⟨{ r with instrs := out :: r.instrs }, ?_, hknows, ?_⟩
      · simp [emitInstrs, hout, hr, Bind.bind, Except.bind, pure, Except.pure]
      · rintro ⟨j, hj, hjterm⟩
        rcases List.mem_cons.mp hj with rfl | hj
        · exact absurd hjterm hterm
        · exact hsome ⟨j, hj, hjterm⟩

/-! ## Functions -/

theorem emitBlocks_ok (name : String) {locals : Locals} {past : List Temp}
    (hlocals : Knows locals past) (block : Nat) {blocks : List Code.Block}
    (hcode : Sound m.context past (blocks.flatMap (·.instrs)))
    (hclosed : ∀ b ∈ blocks, Closed b.instrs) :
    ∃ bs, emitBlocks s name .void locals block blocks = .ok bs ∧
      ∀ b ∈ bs, b.terminator.isSome := by
  induction blocks generalizing locals past block with
  | nil => exact ⟨[], rfl, by simp⟩
  | cons b rest ih =>
    rw [List.flatMap_cons, Code.sound_append] at hcode
    rw [List.forall_mem_cons] at hclosed
    obtain ⟨r, hr, hknows, hsome⟩ := emitInstrs_ok hs block hlocals 0 hcode.1
    obtain ⟨bs, hbs, hends⟩ := ih hknows (block + 1) hcode.2 hclosed.2
    have hend : r.terminator.isSome := by
      obtain ⟨init, value, heq, _⟩ := hclosed.1
      exact hsome ⟨.ret value, by simp [heq], rfl⟩
    refine
      ⟨{ label := b.label, instrs := r.instrs, terminator := r.terminator } :: bs,
        ?_, ?_⟩
    · simp [emitBlocks, hr, hbs, Bind.bind, Except.bind, pure, Except.pure]
    · rw [List.forall_mem_cons]
      exact ⟨hend, hends⟩

/-- A function whose blocks all end. -/
def Function.IsEnded (f : Function) : Prop := ∀ b ∈ f.blocks, b.terminator.isSome

theorem define_ok {f : Code.Function} (hf : f.IsSound m.context)
    {declared : Function} (hdeclared : declared.IsEnded) :
    ∃ out, define s f declared = .ok out ∧ out.IsEnded := by
  rw [define]
  by_cases hext : f.isExternal = true
  · rw [if_pos hext]
    exact ⟨declared, rfl, hdeclared⟩
  · rw [if_neg hext, hf.void]
    have hknows : Knows (parameters f) [] := by simp [Knows]
    obtain ⟨bs, hbs, hends⟩ := emitBlocks_ok hs f.name hknows 0 hf.code hf.closed
    exact ⟨{ declared with blocks := bs }, by simp [hbs, Bind.bind, Except.bind,
      pure, Except.pure], hends⟩

theorem defineAll_ok {fs : List Code.Function} (hfs : ∀ f ∈ fs, f.IsSound m.context)
    {declared : List Function} (hdeclared : ∀ g ∈ declared, g.IsEnded) :
    ∃ outs, defineAll s fs declared = .ok outs ∧ ∀ g ∈ outs, g.IsEnded := by
  induction fs generalizing declared with
  | nil => exact ⟨[], by simp [defineAll, pure, Except.pure], by simp⟩
  | cons f fs ih =>
    cases declared with
    | nil => exact ⟨[], rfl, by simp⟩
    | cons g gs =>
      rw [List.forall_mem_cons] at hfs hdeclared
      obtain ⟨out, hout, hended⟩ := define_ok hs hfs.1 hdeclared.1
      obtain ⟨outs, houts, hall⟩ := ih hfs.2 hdeclared.2
      refine ⟨out :: outs, ?_, ?_⟩
      · simp [defineAll, hout, houts, Bind.bind, Except.bind, pure, Except.pure]
      · rw [List.forall_mem_cons]
        exact ⟨hended, hall⟩

end

theorem declareParams_ok (function : String) {ps : List Code.Param}
    (h : ∀ p ∈ ps, p.type.IsStorable) :
    ∃ params, declareParams function ps = .ok params := by
  induction ps with
  | nil => exact ⟨[], rfl⟩
  | cons p ps ih =>
    rw [List.forall_mem_cons] at h
    obtain ⟨params, hparams⟩ := ih h.2
    refine ⟨(p.name, p.type) :: params, ?_⟩
    simp [declareParams, typeGap?_of_isStorable h.1, hparams, Bind.bind,
      Except.bind, pure, Except.pure]

/-- Functions of different names are declared under these names, without code so far. -/
theorem declare_ok {taken : List String} {fs : List Code.Function}
    {Γ : Code.Context} (hfs : ∀ f ∈ fs, f.IsSound Γ)
    (once : (fs.map (·.name)).Nodup) (new : ∀ f ∈ fs, f.name ∉ taken) :
    ∃ gs, declare taken fs = .ok gs ∧ gs.map (·.name) = fs.map (·.name) ∧
      ∀ g ∈ gs, g.IsEnded := by
  induction fs generalizing taken with
  | nil => exact ⟨[], rfl, rfl, by simp⟩
  | cons f fs ih =>
    rw [List.forall_mem_cons] at hfs new
    rw [List.map_cons, List.nodup_cons] at once
    obtain ⟨params, hparams⟩ := declareParams_ok f.name hfs.1.params
    -- The names that are taken grow by one that no later function has.
    have new' : ∀ g ∈ fs, g.name ∉ f.name :: taken := by
      intro g hg hmem
      rcases List.mem_cons.mp hmem with heq | hmem
      · exact once.1 (heq ▸ List.mem_map_of_mem hg)
      · exact new.2 g hg hmem
    obtain ⟨gs, hgs, hnames, hended⟩ := ih hfs.2 once.2 new'
    refine ⟨{ name := f.name, ret := f.ret, params } :: gs, ?_, by simp [hnames], ?_⟩
    · rw [declare, if_neg new.1, hfs.1.void]
      simp [typeGap?, hparams, hgs, Bind.bind, Except.bind, pure, Except.pure]
    · rw [List.forall_mem_cons]
      exact ⟨by simp [Function.IsEnded], hended⟩

theorem function?_of_mem {s : Surroundings} {name : String}
    (h : name ∈ s.functions.map (·.name)) : ∃ p, s.function? name = some p := by
  obtain ⟨f, hf, rfl⟩ := List.mem_map.mp h
  have hfind : (s.functions.findIdx? (·.name == f.name)).isSome := by
    rw [List.findIdx?_isSome, List.any_eq_true]
    exact ⟨f, hf, beq_self_eq_true _⟩
  obtain ⟨index, hindex⟩ := Option.isSome_iff_exists.mp hfind
  have hlt : index < s.functions.length :=
    (List.findIdx?_eq_some_iff_getElem.mp hindex).1
  exact ⟨(index, s.functions[index]), by
    simp [Surroundings.function?, hindex, List.getElem?_eq_getElem hlt]⟩

/-! ## Printing -/

theorem Block.print_ok (names : Names) (number : Nat) {b : Block}
    (h : b.terminator.isSome) : ∃ r, b.print names number = .ok r := by
  obtain ⟨t, ht⟩ := Option.isSome_iff_exists.mp h
  rw [Block.print, ht]
  exact ⟨_, rfl⟩

theorem printBlocks_ok (names : Names) (number : Nat) {bs : List Block}
    (h : ∀ b ∈ bs, b.terminator.isSome) :
    ∃ texts, printBlocks names number bs = .ok texts := by
  induction bs generalizing number with
  | nil => exact ⟨[], rfl⟩
  | cons b bs ih =>
    rw [List.forall_mem_cons] at h
    obtain ⟨⟨text, next⟩, htext⟩ := b.print_ok names number h.1
    obtain ⟨texts, htexts⟩ := ih next h.2
    exact ⟨text :: texts, by
      simp [printBlocks, htext, htexts, Bind.bind, Except.bind, pure, Except.pure]⟩

theorem Function.print_ok (names : List String) (index : Nat) {f : Function}
    (h : f.IsEnded) : ∃ text, f.print names index = .ok text := by
  rw [Function.print]
  by_cases hempty : f.blocks.isEmpty = true
  · rw [if_pos hempty]
    exact ⟨_, rfl⟩
  · rw [if_neg hempty]
    obtain ⟨texts, htexts⟩ :=
      printBlocks_ok { functions := names, params := f.params.map (·.1) }
      ((f.params.map (·.1)).count "") h
    rw [htexts]
    exact ⟨_, rfl⟩

theorem printFunctions_ok (names : List String) (index : Nat) {fs : List Function}
    (h : ∀ f ∈ fs, f.IsEnded) : ∃ texts, printFunctions names index fs = .ok texts := by
  induction fs generalizing index with
  | nil => exact ⟨[], rfl⟩
  | cons f fs ih =>
    rw [List.forall_mem_cons] at h
    obtain ⟨text, htext⟩ := f.print_ok names index h.1
    obtain ⟨texts, htexts⟩ := ih (index + 1) h.2
    exact ⟨text :: texts, by
      simp [printFunctions, htext, htexts, Bind.bind, Except.bind, pure, Except.pure]⟩

theorem Module.print_ok {m : Module} (h : ∀ f ∈ m.functions, f.IsEnded) :
    ∃ text, m.print = .ok text := by
  obtain ⟨texts, htexts⟩ := printFunctions_ok (m.functions.map (·.name)) 0 h
  rw [Module.print, htexts]
  exact ⟨_, rfl⟩

end Straightline.Target

namespace Straightline

open Target

/-- A sound module is emitted, and what is emitted has a text. -/
theorem Code.Module.IsSound.emit {m : Module} (h : m.IsSound) :
    ∃ t, m.emit = .ok t ∧ ∃ text, t.print = .ok text := by
  obtain ⟨declared, hdeclared, hnames, hended⟩ :=
    @declare_ok [] _ _ h.functions h.names (by simp)
  have hcovers : Covers { texts := m.texts.map (· ++ [0]), functions := declared }
      m := by
    refine ⟨by simp, fun f hf => function?_of_mem ?_⟩
    rw [hnames]
    exact List.mem_map_of_mem hf
  obtain ⟨functions, hfunctions, hended⟩ := defineAll_ok hcovers h.functions hended
  refine ⟨{ name := m.name, texts := m.texts.map (· ++ [0]), functions }, ?_,
    Module.print_ok hended⟩
  simp [Module.emit, hdeclared, hfunctions, Bind.bind, Except.bind, pure, Except.pure]

theorem Code.Module.IsSound.targetText {m : Module} (h : m.IsSound) :
    ∃ text, m.targetText = .ok text := by
  obtain ⟨t, ht, text, htext⟩ := h.emit
  exact ⟨text, by simp [Module.targetText, ht, htext, Except.mapError]⟩

end Straightline
