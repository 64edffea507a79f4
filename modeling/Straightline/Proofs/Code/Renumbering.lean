import Mathlib
import Straightline.Proofs.Code.Sound

/-!
# Renumbered code

Temporaries, string constants and blocks are told apart by numbers that say
nothing about what the code does. A `Renumbering` gives them other numbers, in a
value, an instruction, a block or a function. Types, kinds of instructions and
ends of blocks stay as they are, and so do the headers of functions.
-/

namespace Straightline.Code

/-- Other numbers for temporaries and string constants, and other labels for blocks. -/
structure Renumbering where
  temp : Nat → Nat := id
  text : Nat → Nat := id
  label : String → String := id

namespace Renumbering

variable (r : Renumbering)

/-- A temporary under its new number. -/
def temporary (t : Temp) : Temp := { t with id := r.temp t.id }

/-- A value under its new number. -/
def value : Value → Value
  | .temp t => .temp (r.temporary t)
  | .text index => .text (r.text index)
  | v => v

/-- An instruction on renumbered values. -/
def instr : Instr → Instr
  | .alloca dest type => .alloca (r.temporary dest) type
  | .load dest address => .load (r.temporary dest) (r.value address)
  | .store value address => .store (r.value value) (r.value address)
  | .binary op dest left right =>
    .binary op (r.temporary dest) (r.value left) (r.value right)
  | .call dest callee args =>
    .call (dest.map r.value) (r.value callee) (args.map r.value)
  | .ret value => .ret (value.map r.value)
  | .foreign text sort dest => .foreign text sort (dest.map r.value)

/-- A block of renumbered instructions under its new label. -/
def block (b : Block) : Block :=
  { label := r.label b.label, instrs := b.instrs.map r.instr }

/-- A function with renumbered code. -/
def function (f : Function) : Function := { f with blocks := f.blocks.map r.block }

@[simp] theorem type_value (v : Value) : (r.value v).type = v.type := by
  cases v <;> rfl

@[simp] theorem isTerminator_instr (i : Instr) :
    (r.instr i).isTerminator = i.isTerminator := by
  cases i <;> rfl

@[simp] theorem isTerminated_block (b : Block) :
    (r.block b).isTerminated = b.isTerminated := by
  simp only [Block.isTerminated, Block.terminator?, block, List.getLast?_map]
  cases b.instrs.getLast? with
  | none => rfl
  | some i => cases h : i.isTerminator <;> simp [h]

@[simp] theorem header_function (f : Function) : (r.function f).header = f.header := rfl

theorem instrs_function (f : Function) :
    (r.function f).instrs = f.instrs.map r.instr := by
  simp [Function.instrs, function, block, List.flatMap_map, List.map_flatMap]

theorem operands_instr (i : Instr) : (r.instr i).operands = i.operands.map r.value := by
  cases i with
  | ret value => cases value <;> rfl
  | _ => rfl

/-! ## Numbers that stay, and one renumbering behind another -/

@[simp] theorem value_refl : ({} : Renumbering).value = id := by
  funext v
  cases v <;> rfl

@[simp] theorem instr_refl : ({} : Renumbering).instr = id := by
  funext i
  cases i <;> simp [instr, temporary]

@[simp] theorem block_refl : ({} : Renumbering).block = id := by
  funext b
  simp [block]

@[simp] theorem function_refl (f : Function) : ({} : Renumbering).function f = f := by
  simp [function]

/-- The new numbers of new numbers. -/
def comp (r s : Renumbering) : Renumbering where
  temp := r.temp ∘ s.temp
  text := r.text ∘ s.text
  label := r.label ∘ s.label

theorem value_comp (r s : Renumbering) : (r.comp s).value = r.value ∘ s.value := by
  funext v
  cases v <;> rfl

theorem instr_comp (r s : Renumbering) : (r.comp s).instr = r.instr ∘ s.instr := by
  have htemporary (t : Temp) : (r.comp s).temporary t =
    r.temporary (s.temporary t) := rfl
  funext i
  cases i <;> simp [instr, htemporary, value_comp]

theorem block_comp (r s : Renumbering) : (r.comp s).block = r.block ∘ s.block := by
  funext b
  simp only [block, instr_comp, Function.comp_apply, List.map_map]
  rfl

theorem function_comp (r s : Renumbering) (f : Function) :
    (r.comp s).function f = r.function (s.function f) := by
  simp only [function, block_comp, List.map_map]

end Renumbering

/-! ## Modules up to numbers -/

/-- Whether `f'` is `f` up to the numbers of temporaries and the labels of
blocks, given the numbers of string constants. -/
structure Function.Renumbered (text : Nat → Nat) (f f' : Function) : Prop where
  header : f'.header = f.header
  blocks : ∃ r : Renumbering, r.text = text ∧ Function.Injective r.temp ∧
    Function.Injective r.label ∧ f'.blocks = f.blocks.map r.block

/-- Whether `m'` is `m` up to the numbers of temporaries and string constants
and the labels of blocks. -/
structure Module.Renumbered (m m' : Module) : Prop where
  name : m'.name = m.name
  code : ∃ text : Equiv.Perm Nat, (∀ i, m'.texts[text i]? = m.texts[i]?) ∧
    List.Forall₂ (Function.Renumbered text) m.functions m'.functions

/-- The number of instructions and string constants of a module. -/
def Module.size (m : Module) : Nat :=
  (m.functions.map (·.instrs.length)).sum + m.texts.length

theorem Function.Renumbered.refl (f : Function) : f.Renumbered id f :=
  ⟨rfl, {}, rfl, Function.injective_id, Function.injective_id, by simp⟩

theorem Module.Renumbered.refl (m : Module) : m.Renumbered m :=
  ⟨rfl, 1, fun _ => rfl, List.forall₂_same.mpr fun f _ => .refl f⟩

theorem Function.Renumbered.length_instrs {text : Nat → Nat} {f f' : Function}
    (h : f.Renumbered text f') : f'.instrs.length = f.instrs.length := by
  obtain ⟨-, r, -, -, -, hblocks⟩ := h
  have hinstrs : f'.instrs = (r.function f).instrs :=
    congrArg (List.flatMap Block.instrs) hblocks
  rw [hinstrs, Renumbering.instrs_function, List.length_map]

theorem Function.Renumbered.map_length_instrs {text : Nat → Nat}
    {fs fs' : List Function} (h : List.Forall₂ (Function.Renumbered text) fs fs') :
    fs'.map (·.instrs.length) = fs.map (·.instrs.length) := by
  induction h with
  | nil => rfl
  | cons hf _ ih => rw [List.map_cons, List.map_cons, hf.length_instrs, ih]

/-- Other numbers for some things are as many as those things. -/
theorem eq_of_lt_iff_lt {e : Equiv.Perm Nat} {n n' : Nat}
    (h : ∀ i, e i < n' ↔ i < n) : n' = n := by
  have hrange : (Finset.range n).map e.toEmbedding = Finset.range n' := by
    ext j
    rw [Finset.mem_map_equiv, Finset.mem_range, Finset.mem_range, ← h,
      Equiv.apply_symm_apply]
  rw [← Finset.card_range n', ← hrange, Finset.card_map, Finset.card_range]

theorem Module.Renumbered.size_eq {m m' : Module} (h : m.Renumbered m') :
    m'.size = m.size := by
  obtain ⟨-, text, htexts, hfunctions⟩ := h
  have hlength : m'.texts.length = m.texts.length := eq_of_lt_iff_lt
      (e := text) fun i => by
    rw [← not_le, ← not_le, ← List.getElem?_eq_none_iff,
      ← List.getElem?_eq_none_iff, htexts]
  rw [size, size, hlength, Function.Renumbered.map_length_instrs hfunctions]

end Straightline.Code
