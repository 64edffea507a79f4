import Mathlib
import Straightline.Code.Function

/-!
# Sound code

Code that nothing can go wrong with: every temporary is made by one instruction
and read only behind it, operands have the types that their instruction moves or
computes with, a call passes what its callee takes, and a block has its only
return at its end. `Sound Γ past is` says so of the instructions `is` behind
others that made the temporaries `past`; `Module.IsSound` says so of a module.

Verification, emission and the optimizer are all shown to succeed on sound
modules, so lowering has to be shown to make such modules, and the
optimizer to keep them, once.
-/

namespace Straightline.Code

/-- The types that variables and parameters have. -/
def Ty.IsStorable (t : Ty) : Prop := t = .i32 ∨ t = .ptr .i8

/-! ## Temporaries -/

/-- The temporary that a value is, if it is one. -/
def Value.temp? : Value → Option Temp
  | .temp t => some t
  | _ => none

/-- The temporary that an instruction makes, if any. -/
def Instr.temp? (i : Instr) : Option Temp := i.result.bind Value.temp?

/-- The temporaries that instructions make, in order. -/
def made (is : List Instr) : List Temp := is.filterMap Instr.temp?

@[simp] theorem made_nil : made [] = [] := rfl

@[simp] theorem made_append (is js : List Instr) :
    made (is ++ js) = made is ++ made js :=
  List.filterMap_append ..

theorem made_cons (i : Instr) (is : List Instr) :
    made (i :: is) = i.temp?.toList ++ made is := by
  cases h : i.temp? <;> simp [made, h]

/-! ## Instructions -/

/-- What code can refer to: the functions it can call, with what they
take, and string constants. -/
structure Context where
  callees : List (Value × List Ty)
  texts : Nat

/-- Whether a value is there to be read behind code that made the temporaries `past`. -/
def Value.IsReady (texts : Nat) (past : List Temp) : Value → Prop
  | .int _ => True
  | .temp t => t ∈ past
  | .text index => index < texts
  | _ => False

/-- Whether nothing can go wrong with an instruction behind code that made
the temporaries `past`. -/
def Instr.IsSound (Γ : Context) (past : List Temp) : Instr → Prop
  | .alloca dest type => type.IsStorable ∧ dest.type = .ptr type
  | .load dest address =>
    address.IsReady Γ.texts past ∧ address.type = .ptr dest.type ∧ dest.type.IsStorable
  | .store value address =>
    value.IsReady Γ.texts past ∧ address.IsReady Γ.texts past ∧
      address.type = .ptr value.type
  | .binary op dest left right =>
    (∃ o, op = .arith o) ∧ left.IsReady Γ.texts past ∧ right.IsReady Γ.texts past ∧
      left.type = .i32 ∧ right.type = .i32 ∧ dest.type = .i32
  | .call dest callee args =>
    dest = none ∧ (callee, args.map Value.type) ∈ Γ.callees ∧
      ∀ a ∈ args, a.IsReady Γ.texts past
  | .ret value => ∀ v ∈ value, v.IsReady Γ.texts past
  | .foreign _ _ _ => False

theorem Value.IsReady.mono {texts texts' : Nat} {past past' : List Temp} {v : Value}
    (h : v.IsReady texts past) (htexts : texts ≤ texts')
    (hpast : ∀ t, .temp t = v → t ∈ past → t ∈ past') : v.IsReady texts' past' := by
  cases v with
  | int n => trivial
  | temp t => exact hpast t rfl h
  | text index => exact Nat.lt_of_lt_of_le h htexts
  | _ => exact h.elim

/-- A sound instruction stays sound behind other code that made
the temporaries it reads. -/
theorem Instr.IsSound.mono {Γ Γ' : Context} {past past' : List Temp} {i : Instr}
    (h : i.IsSound Γ past) (hcallees : Γ.callees = Γ'.callees)
    (htexts : Γ.texts ≤ Γ'.texts)
    (hpast : ∀ t, .temp t ∈ i.operands → t ∈ past → t ∈ past') :
    i.IsSound Γ' past' := by
  have ready {v : Value} (hv : v.IsReady Γ.texts past) (hmem : v ∈ i.operands) :
      v.IsReady Γ'.texts past' :=
    hv.mono htexts fun t ht => hpast t (ht ▸ hmem)
  cases i with
  | alloca dest type => exact h
  | load dest address => exact ⟨ready h.1 (by simp [operands]), h.2⟩
  | store value address =>
    exact ⟨ready h.1 (by simp [operands]), ready h.2.1 (by simp [operands]), h.2.2⟩
  | binary op dest left right =>
    exact ⟨h.1, ready h.2.1 (by simp [operands]),
      ready h.2.2.1 (by simp [operands]), h.2.2.2⟩
  | call dest callee args =>
    exact ⟨h.1, hcallees ▸ h.2.1, fun a ha =>
      ready (h.2.2 a ha) (by simp [operands, ha])⟩
  | ret value =>
    intro v hv
    exact ready (h v hv) (by simpa [operands] using hv)
  | foreign text sort dest => exact h

/-! ## Code -/

/-- Whether nothing can go wrong with instructions behind code that made
the temporaries `past`. -/
def Sound (Γ : Context) : (past : List Temp) → List Instr → Prop
  | _, [] => True
  | past, i :: rest =>
    i.IsSound Γ past ∧ (∀ t ∈ i.temp?, t ∉ past) ∧ Sound Γ (past ++ i.temp?.toList) rest

theorem sound_append {Γ : Context} {past : List Temp} {is js : List Instr} :
    Sound Γ past (is ++ js) ↔ Sound Γ past is ∧ Sound Γ (past ++ made is) js := by
  induction is generalizing past with
  | nil => simp [Sound]
  | cons i is ih =>
    simp only [List.cons_append, Sound, ih, made_cons, List.append_assoc, and_assoc]

theorem sound_singleton {Γ : Context} {past : List Temp} {i : Instr} :
    Sound Γ past [i] ↔ i.IsSound Γ past ∧ ∀ t ∈ i.temp?, t ∉ past := by
  simp [Sound]

theorem Sound.mono {Γ Γ' : Context} {past : List Temp} {is : List Instr}
    (h : Sound Γ past is) (hcallees : Γ.callees = Γ'.callees)
    (htexts : Γ.texts ≤ Γ'.texts) : Sound Γ' past is := by
  induction is generalizing past with
  | nil => trivial
  | cons i is ih =>
    exact ⟨h.1.mono hcallees htexts fun _ _ ht => ht, h.2.1, ih h.2.2⟩

/-- Sound code makes every temporary once. -/
theorem Sound.nodup {Γ : Context} {past : List Temp} {is : List Instr}
    (h : Sound Γ past is) (hpast : past.Nodup) : (past ++ made is).Nodup := by
  induction is generalizing past with
  | nil => simpa using hpast
  | cons i is ih =>
    rw [made_cons, ← List.append_assoc]
    refine ih h.2.2 ?_
    cases htemp : i.temp? with
    | none => simpa using hpast
    | some t =>
      have hnew : t ∉ past := h.2.1 t htemp
      simpa [List.nodup_append] using ⟨hpast, fun a ha heq => hnew (heq ▸ ha)⟩

/-- Every instruction of sound code is sound where it stands. -/
theorem Sound.of_mem {Γ : Context} {past : List Temp} {is : List Instr}
    (h : Sound Γ past is) {i : Instr} (hi : i ∈ is) :
    ∃ past', i.IsSound Γ past' := by
  induction is generalizing past with
  | nil => cases hi
  | cons j is ih =>
    rcases List.mem_cons.mp hi with rfl | hi
    · exact ⟨past, h.1⟩
    · exact ih h.2.2 hi

/-! ## Blocks -/

/-- Whether instructions end with a return and have none before. -/
def Closed (is : List Instr) : Prop :=
  ∃ init value, is = init ++ [.ret value] ∧ ∀ i ∈ init, i.isTerminator = false

theorem Closed.isTerminated {b : Block} (h : Closed b.instrs) :
    b.isTerminated = true := by
  obtain ⟨init, value, heq, _⟩ := h
  simp [Block.isTerminated, Block.terminator?, heq, Instr.isTerminator]

/-- The code of an entry makes every temporary once, if the function does. -/
theorem nodup_made_entry {f : Function} {entry : Block} (hentry : f.entry? = some entry)
    (h : (made f.instrs).Nodup) : (made entry.instrs).Nodup := by
  obtain ⟨others, hblocks⟩ := List.head?_eq_some_iff.mp hentry
  rw [Function.instrs, hblocks, List.flatMap_cons, made_append] at h
  exact h.of_append_left

/-! ## Modules -/

/-- A function without its code. -/
def Function.header (f : Function) : Function := { f with blocks := [], temps := 0 }

/-- The functions of a module without their code. -/
def headers (m : Module) : List Function := m.functions.map Function.header

theorem names_of_headers {m m' : Module} (h : headers m' = headers m) :
    m'.functions.map (·.name) = m.functions.map (·.name) := by
  have hnames := congrArg (List.map (·.name)) h
  rw [headers, headers, List.map_map, List.map_map] at hnames
  exact hnames

/-- What the code of a module can refer to. -/
def Module.context (m : Module) : Context where
  callees := m.functions.map fun f => (f.value, f.params.map (·.type))
  texts := m.texts.length

theorem callees_of_headers {m m' : Module} (h : headers m' = headers m) :
    m'.context.callees = m.context.callees := by
  have hcallees := congrArg (List.map fun f => (f.value, f.params.map (·.type))) h
  rw [headers, headers, List.map_map, List.map_map] at hcallees
  exact hcallees

/-- Whether the code of a function is sound and its blocks are closed. -/
structure Function.IsSound (Γ : Context) (f : Function) : Prop where
  void : f.ret = .void
  params : ∀ p ∈ f.params, p.type.IsStorable
  blocks : f.blocks = [] ↔ f.isExternal = true
  code : Sound Γ [] f.instrs
  closed : ∀ b ∈ f.blocks, Closed b.instrs

/-- Whether the functions of a module are sound and go by names of their own. -/
structure Module.IsSound (m : Module) : Prop where
  names : (m.functions.map (·.name)).Nodup
  functions : ∀ f ∈ m.functions, f.IsSound m.context

end Straightline.Code
