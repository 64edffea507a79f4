import Mathlib
import Straightline.Proofs.Lowering.Pruning

/-!
# What wrong statements leave behind

A statement that is wrong is reported and binds nothing, but what was made for
its operands before the error was found stays: loads, operations and string
constants. So the module of a tree is not always that of the tree without its
wrong statements. `leftovers_iff` says by how much they differ, and that they
are the same just if nothing is left behind: then they are equal, and otherwise
no renumbering makes them so.
-/

namespace Straightline.Lowering

open Code Draft Typing

/-! ## Drafts that grow -/

namespace Draft

/-- The number of instructions and string constants so far. -/
def size (d : Draft) : Nat := d.instrs.length + d.texts.length

/-- `d'` is `d` with `n` instructions and string constants added, and
the block at hand goes on. -/
def GrowsBy (n : Nat) (d d' : Draft) : Prop :=
  ∃ is ts k, d' = d.grow is ts k ∧ k ≤ is.length ∧ is.length + ts.length = n ∧
    ∀ i ∈ is, i.isTerminator = false

namespace GrowsBy

variable {n n' : Nat} {d d₁ d₂ : Draft}

theorem refl (d : Draft) : GrowsBy 0 d d :=
  ⟨[], [], 0, (grow_nil d).symm, by simp, rfl, by simp⟩

theorem trans (h : GrowsBy n d d₁) (h' : GrowsBy n' d₁ d₂) : GrowsBy (n + n') d d₂ := by
  obtain ⟨is, ts, k, rfl, hk, hn, his⟩ := h
  obtain ⟨js, us, k', rfl, hk', hn', hjs⟩ := h'
  refine ⟨is ++ js, ts ++ us, k + k', grow_grow .., ?_, ?_,
    List.forall_mem_append.mpr ⟨his, hjs⟩⟩
  · rw [List.length_append]
    omega
  · rw [List.length_append, List.length_append]
    omega

theorem emit (d : Draft) (name : String) (type : Ty) {i : Temp → Instr}
    (hi : (i (d.nextTemp name type)).isTerminator = false) :
    GrowsBy 1 d (d.emit name type i) :=
  ⟨_, _, _, emit_eq_grow d name type i, le_rfl, rfl, by simpa using hi⟩

theorem addText (d : Draft) (s : String) : GrowsBy 1 d (d.addText s) :=
  ⟨_, _, _, addText_eq_grow d s, le_rfl, rfl, by simp⟩

theorem size_eq (h : GrowsBy n d d₁) : d₁.size = d.size + n := by
  obtain ⟨is, ts, k, rfl, -, hn, -⟩ := h
  rw [size, size, instrs_grow, ← hn]
  simp only [grow, List.length_append]
  omega

theorem eq_of_zero (h : GrowsBy 0 d d₁) : d₁ = d := by
  obtain ⟨is, ts, k, rfl, hk, hn, -⟩ := h
  obtain rfl : is = [] := List.length_eq_zero_iff.mp (by omega)
  obtain rfl : ts = [] := List.length_eq_zero_iff.mp (by omega)
  obtain rfl : k = 0 := Nat.le_zero.mp hk
  exact grow_nil d

/-- What is added does not end a block. -/
theorem isTerminated (h : GrowsBy n d d₁) (hd : d.block.isTerminated = false) :
    d₁.block.isTerminated = false := by
  obtain ⟨is, ts, k, rfl, -, -, his⟩ := h
  rcases List.eq_nil_or_concat is with rfl | ⟨init, last, rfl⟩
  · simpa [grow, block] using hd
  · have hlast : last.isTerminator = false := his last (by simp)
    simp [Block.isTerminated, Block.terminator?, block, grow, hlast]

end GrowsBy

theorem size_push (d : Draft) (i : Instr) : (d.push i).size = d.size + 1 := by
  rw [size, push_eq_grow, instrs_grow, List.length_append, size]
  simp only [grow, List.append_nil, List.length_singleton]
  omega

theorem size_reopen (d : Draft) : d.reopen.size = d.size := by
  rw [size, instrs_reopen, (reopen_frame d).2.1, size]

theorem isTerminated_reopen (d : Draft) : d.reopen.block.isTerminated = false := by
  unfold reopen
  split
  · rfl
  · next h => exact Bool.not_eq_true _ |>.mp h

end Draft

/-! ## Operands -/

section
variable {Γ : Env}

/-- What is made for an expression that is lowered is counted as such. -/
theorem Lowered.growsBy {e : Expr} {d d' : Draft} {v : Value} (h : Lowered e d v d')
    (agrees : Agrees d.scope Γ) : GrowsBy (expense Γ e) d d' := by
  induction h with
  | int => exact .refl _
  | text => exact .addText _ _
  | @ident pos x d slot type hslot htype =>
    obtain ⟨t, hΓ, -⟩ := agrees.of_storage hslot
    rw [expense, hΓ]
    exact .emit _ _ _ rfl
  | @binary op pos l r d a d₁ b d₂ hl hr ha hb ihl ihr =>
    obtain ⟨t, ht, -⟩ := hl.typeOf agrees
    have hwhole : Lowered (.binary (.arith op) pos l r) d _ _ := .binary hl hr ha hb
    obtain ⟨u, hu, -⟩ := hwhole.typeOf agrees
    rw [expense, ht, hu]
    exact ((ihl agrees).trans (ihr (agrees.grows hl.grows))).trans (.emit _ _ _ rfl)

/-- What is made for an expression before it is found wrong is counted as such. -/
theorem Refused.growsBy {e : Expr} {d d' : Draft} {err : SemanticError}
    (h : Refused e d err d') (agrees : Agrees d.scope Γ) :
    GrowsBy (expense Γ e) d d' := by
  have herr := h.typeOf agrees
  induction h with
  | undeclared hslot =>
    rw [expense, agrees.of_storage_none hslot]
    exact .refl _
  | @variableType pos x d slot problem hslot =>
    obtain ⟨t, hΓ, -⟩ := agrees.of_storage hslot
    simp [Typing.typeOf, hΓ] at herr
  | left hl ih =>
    have hleft := hl.typeOf agrees
    rw [expense, hleft]
    exact ih agrees hleft
  | right hl hr ih =>
    obtain ⟨t, ht, -⟩ := hl.typeOf agrees
    have hagrees := agrees.grows hl.grows
    rw [expense, ht, herr]
    exact (hl.growsBy agrees).trans (ih hagrees (hr.typeOf hagrees))
  | operandTypes hl hr =>
    obtain ⟨t, ht, -⟩ := hl.typeOf agrees
    rw [expense, ht, herr]
    exact (hl.growsBy agrees).trans (hr.growsBy (agrees.grows hl.grows))
  | unknownOperator hl hr =>
    obtain ⟨t, ht, -⟩ := hl.typeOf agrees
    rw [expense, ht, herr]
    exact (hl.growsBy agrees).trans (hr.growsBy (agrees.grows hl.grows))

theorem LoweredAll.growsBy {es : List Expr} {d d' : Draft} {vs : List Value}
    (h : LoweredAll es d vs d') (agrees : Agrees d.scope Γ) :
    GrowsBy (expenses Γ es) d d' := by
  induction h with
  | nil => exact .refl _
  | cons hv _ ih =>
    obtain ⟨t, ht, -⟩ := hv.typeOf agrees
    rw [expenses, ht]
    exact (hv.growsBy agrees).trans (ih (agrees.grows hv.grows))

theorem RefusedAll.growsBy {es : List Expr} {d d' : Draft} {err : SemanticError}
    (h : RefusedAll es d err d') (agrees : Agrees d.scope Γ) :
    GrowsBy (expenses Γ es) d d' := by
  induction h with
  | head hv =>
    rw [expenses, hv.typeOf agrees]
    exact hv.growsBy agrees
  | tail hv _ ih =>
    obtain ⟨t, ht, -⟩ := hv.typeOf agrees
    rw [expenses, ht]
    exact (hv.growsBy agrees).trans (ih (agrees.grows hv.grows))

/-! ## Statements -/

/-- A statement takes what its operands take, and one instruction. -/
theorem Done.size_eq {m : Module} {s : Stmt} {d d' : Draft} (h : Done m s d d')
    (agrees : Agrees d.scope Γ) : d'.size = d.size + (operandExpense Γ s + 1) := by
  cases h with
  | @decl pos x type machine d htype =>
    exact (GrowsBy.emit d x (.ptr machine) (i := (.alloca · machine)) rfl).size_eq
  | assign hslot hv =>
    obtain ⟨t, hΓ, -⟩ := agrees.of_storage hslot
    rw [size_push, (hv.growsBy agrees).size_eq, operandExpense, hΓ]
    rfl
  | call hvs =>
    rw [size_push, (hvs.growsBy agrees).size_eq]
    rfl
  | ret => exact size_push _ _
  | retValue hv =>
    rw [size_push, (hv.growsBy agrees).size_eq]
    rfl

/-- A wrong statement leaves behind what was made for its operands. A return of
too many values returns. -/
theorem Dropped.leaves {m : Module} {s : Stmt} {d d' : Draft} {err : SemanticError}
    (h : Dropped m s d err d') (agrees : Agrees d.scope Γ) :
    s.amended = [] ∧ GrowsBy (operandExpense Γ s) d d' ∨
      ∃ pos, s.amended = [.ret pos []] ∧ operandExpense Γ s = 0 ∧
      d' = d.push (.ret none) := by
  cases h with
  | variableType => exact .inl ⟨rfl, .refl _⟩
  | @undeclared pos x es d hslot =>
    refine .inl ⟨rfl, ?_⟩
    have hΓ := agrees.of_storage_none hslot
    match es with
    | [] => exact .refl _
    | [e] =>
      rw [operandExpense, hΓ]
      exact .refl _
    | _ :: _ :: _ => exact .refl _
  | noValue => exact .inl ⟨rfl, .refl _⟩
  | @manyValues pos x es d slot hslot hmany =>
    match es, hmany with
    | _ :: _ :: _, _ => exact .inl ⟨rfl, .refl _⟩
  | assigned hslot hv =>
    obtain ⟨t, hΓ, -⟩ := agrees.of_storage hslot
    refine .inl ⟨rfl, ?_⟩
    rw [operandExpense, hΓ]
    exact hv.growsBy agrees
  | assignType hslot hv =>
    obtain ⟨t, hΓ, -⟩ := agrees.of_storage hslot
    refine .inl ⟨rfl, ?_⟩
    rw [operandExpense, hΓ]
    exact hv.growsBy agrees
  | argument hvs => exact .inl ⟨rfl, hvs.growsBy agrees⟩
  | unknownCallee hvs => exact .inl ⟨rfl, hvs.growsBy agrees⟩
  | callArity hvs => exact .inl ⟨rfl, hvs.growsBy agrees⟩
  | callArgument hvs => exact .inl ⟨rfl, hvs.growsBy agrees⟩
  | returned hv => exact .inl ⟨rfl, hv.growsBy agrees⟩
  | @manyReturns pos es d hmany =>
    match es, hmany with
    | _ :: _ :: _, _ => exact .inr ⟨pos, rfl, rfl, rfl⟩

/-- A wrong statement binds nothing. -/
theorem scope_of_error {m : Module} (hm : ReturnsNothing m) {s : Stmt}
    {d d' : Draft} {err : SemanticError}
    (h : statement m s d = .error (.error err) d') : d'.scope = d.scope := by
  have hrules := statement_rules hm s d
  rw [h] at hrules
  exact (Dropped.grows hrules).scope_eq

/-! ## Bodies -/

variable {S : Signatures}

/-- A body takes what is counted for its statements, and the block at hand has
come to its end just behind a return that stays. -/
theorem Body.size_eq {m : Module} (offers : Offers m S) {body : List Stmt}
    {d d' : Draft} (h : Body m body d d') (agrees : Agrees d.scope Γ) :
    d'.size = d.size + cost (judge S Γ body) ∧
      d'.block.isTerminated = ((judge S Γ body).map Judged.returns).getLastD
        d.block.isTerminated := by
  induction h generalizing Γ with
  | nil => exact ⟨rfl, rfl⟩
  | @done s rest d d₁ d₂ hs _ ih =>
    have hagrees : Agrees d.reopen.scope Γ := (reopen_frame d).2.2.1 ▸ agrees
    obtain ⟨Γ', hΓ', hagrees'⟩ := hs.typing offers hagrees
    obtain ⟨hsize, hended⟩ := ih hagrees'
    have hreturns : Judged.returns ⟨Γ, s, false⟩ = s.isReturn := Bool.or_false _
    rw [judge_of_ok rest hΓ', cost_cons, List.map_cons, List.getLastD_cons, hreturns]
    rw [hs.size_eq hagrees, size_reopen] at hsize
    rw [hs.isTerminated] at hended
    refine ⟨?_, hended⟩
    rw [hsize, Nat.add_assoc]
    rfl
  | @dropped s rest d err d₁ d₂ hs _ ih =>
    have hagrees : Agrees d.reopen.scope Γ := (reopen_frame d).2.2.1 ▸ agrees
    have herr := hs.typing offers hagrees
    have hagrees' : Agrees d₁.scope Γ := hagrees.grows hs.grows
    obtain ⟨hsize, hended⟩ := ih hagrees'
    replace hsize : d₂.size = d₁.size + cost (judge S Γ rest) := hsize
    replace hended : d₂.block.isTerminated =
      ((judge S Γ rest).map Judged.returns).getLastD d₁.block.isTerminated := hended
    rw [judge_of_error rest herr, cost_cons, List.map_cons, List.getLastD_cons]
    have hexpense : Judged.expense ⟨Γ, s, true⟩ = operandExpense Γ s := rfl
    rcases hs.leaves hagrees with ⟨hnone, hgrows⟩ | ⟨pos, hret, hfree, rfl⟩
    · have hkept : Judged.kept ⟨Γ, s, true⟩ = [] := hnone
      rw [hgrows.size_eq, size_reopen] at hsize
      rw [hgrows.isTerminated (isTerminated_reopen d)] at hended
      rw [Judged.returns, hkept, hexpense, hsize, hended]
      exact ⟨Nat.add_assoc .., rfl⟩
    · have hkept : Judged.kept ⟨Γ, s, true⟩ = [.ret pos []] := hret
      rw [size_push, size_reopen] at hsize
      rw [isTerminated_push_ret] at hended
      rw [Judged.returns, hkept, hexpense, hfree, hsize, hended]
      exact ⟨by rw [List.length_singleton]; omega, rfl⟩

/-- The number of instructions and string constants of a finished function. -/
def Draft.weight (d : Draft) : Nat := d.finish.result.instrs.length + d.texts.length

theorem Draft.weight_eq (d : Draft) :
    d.weight = d.size + (!d.block.isTerminated).toNat := by
  have hresult (d : Draft) : d.result.instrs = d.instrs := by
    simp [result, Function.instrs, Draft.instrs, block]
  rw [weight, hresult, finish]
  cases h : d.block.isTerminated with
  | true => rfl
  | false => exact size_push d (.ret none)

/-- A body takes what the pruned body takes, and what its wrong
statements leave behind. -/
theorem weight_prune {m : Module} (offers : Offers m S) {body : List Stmt}
    {d d₁ d₂ : Draft} (h : Body m body d d₁) (h' : Body m (prune S Γ body) d d₂)
    (agrees : Agrees d.scope Γ) (hd : d.block.isTerminated = false) :
    d₁.weight = d₂.weight + residue S Γ body := by
  obtain ⟨hsize, hended⟩ := h.size_eq offers agrees
  obtain ⟨hsize', hended'⟩ := h'.size_eq offers agrees
  have hcost := cost_judge S Γ body
  rw [hd] at hended hended'
  replace hended : d₁.block.isTerminated = endsInReturn (judge S Γ body) := hended
  replace hended' : d₂.block.isTerminated =
    endsInReturn (judge S Γ (prune S Γ body)) := hended'
  have hends : endsInReturn (judge S Γ body) →
    endsInReturn (judge S Γ (prune S Γ body)) := returns_prune id
  rw [weight_eq, weight_eq, residue, hsize, hsize', hended, hended', hcost]
  cases hbody : endsInReturn (judge S Γ body) with
  | true =>
    rw [hends hbody]
    exact (Nat.add_assoc ..).symm
  | false =>
    -- A body that ends in a return only when it is pruned takes another one.
    cases endsInReturn (judge S Γ (prune S Γ body)) <;> simp <;> omega

/-! ## Drafts but for their errors -/

/-- A draft without its errors. -/
def Draft.quiet (d : Draft) : Draft := { d with errors := [] }

theorem quiet_behind (d : Draft) (errors : List SemanticError) :
    (d.behind [] errors).quiet = d.quiet := by
  rw [behind_nil]
  rfl

theorem behind_quiet (d : Draft) : d.quiet.behind [] d.errors = d := by
  rw [behind_nil, quiet, List.append_nil]

theorem quiet_reopen (d : Draft) : d.reopen.quiet = d.quiet.reopen := by
  unfold reopen
  split
  · next h => rw [if_pos (by exact h)]; rfl
  · next h => rw [if_neg (by exact h)]

theorem reopen_reopen (d : Draft) : d.reopen.reopen = d.reopen := by
  rw [reopen, isTerminated_reopen]
  rfl

/-- Errors so far do not matter to a statement that is lowered. -/
theorem statement_of_quiet {m : Module} {s : Stmt} {d d' d₁ : Draft}
    (h : d.quiet = d'.quiet) (hs : statement m s d = .ok () d₁) :
    ∃ d₁', statement m s d' = .ok () d₁' ∧ d₁.quiet = d₁'.quiet := by
  have hrun := commutes_statement [] d.errors (m := m) rfl s d.quiet
  have hrun' := commutes_statement [] d'.errors (m := m) rfl s d'.quiet
  rw [behind_quiet] at hrun hrun'
  rw [hs, h] at hrun
  cases hquiet : statement m s d'.quiet with
  | error stop d₂ =>
    rw [hquiet] at hrun
    cases hrun
  | ok u d₂ =>
    rw [hquiet] at hrun hrun'
    cases hrun
    exact ⟨_, hrun', by rw [quiet_behind, quiet_behind]⟩

/-- If nothing is made for wrong statements, lowering the pruned body comes
to the same, but for the errors; only that a block may have been opened for
wrong statements at the end. -/
theorem statements_prune {m : Module} (hm : ReturnsNothing m) (offers : Offers m S)
    {body : List Stmt} {d d' d₁ : Draft} (hrun : statements m body d = .ok d₁)
    (hd : d.quiet = d'.quiet ∨ d.quiet = d'.reopen.quiet)
    (agrees : Agrees d.scope Γ) (hwaste : waste (judge S Γ body) = 0) :
    ∃ d₁', statements m (prune S Γ body) d' = .ok d₁' ∧
      (d₁.quiet = d₁'.quiet ∨ d₁.quiet = d₁'.reopen.quiet) := by
  induction body generalizing Γ d d' with
  | nil =>
    cases hrun
    exact ⟨d', rfl, hd⟩
  | cons s rest ih =>
    have hquiet : d.reopen.quiet = d'.reopen.quiet := by
      rcases hd with hd | hd
      · rw [quiet_reopen, quiet_reopen, hd]
      · rw [quiet_reopen, hd, ← quiet_reopen, reopen_reopen]
    have hagrees : Agrees d.reopen.scope Γ := (reopen_frame d).2.2.1 ▸ agrees
    have hrules := statement_rules hm s d.reopen
    rw [statements] at hrun
    cases hstep : statement m s d.reopen with
    | ok u d₂ =>
      rw [hstep] at hrun hrules
      obtain ⟨Γ', hΓ', hagrees'⟩ := Done.typing offers hrules hagrees
      obtain ⟨d₂', hstep', hquiet'⟩ := statement_of_quiet hquiet hstep
      rw [judge_of_ok rest hΓ', waste_cons] at hwaste
      rw [prune_of_ok rest hΓ', statements, hstep']
      exact ih hrun (.inl hquiet') hagrees' (Nat.eq_zero_of_add_eq_zero_left hwaste)
    | error stop d₂ =>
      rw [hstep] at hrun hrules
      cases stop with
      | fault f => cases hrun
      | error err =>
        have hrules : Dropped m s d.reopen err d₂ := hrules
        have herr := hrules.typing offers hagrees
        have hagrees' : Agrees d₂.scope Γ := hagrees.grows hrules.grows
        rw [judge_of_error rest herr, waste_cons, if_pos rfl] at hwaste
        rw [prune_of_error rest herr]
        have hrest : waste (judge S Γ rest) = 0 :=
          Nat.eq_zero_of_add_eq_zero_left hwaste
        have hnothing : operandExpense Γ s = 0 :=
          Nat.eq_zero_of_add_eq_zero_right hwaste
        rcases hrules.leaves hagrees with ⟨hnone, hgrows⟩ | ⟨pos, hret, -, rfl⟩
        · rw [hnothing] at hgrows
          obtain rfl := hgrows.eq_of_zero
          rw [hnone]
          exact ih hrun (.inr hquiet) hagrees' hrest
        · rw [hret]
          have hpush : (d.reopen.push (.ret none)).quiet =
              (d'.reopen.push (.ret none)).quiet :=
            congrArg (·.push (.ret none)) hquiet
          exact ih hrun (.inl hpush) hagrees' hrest

theorem result_of_quiet {d d' : Draft} (h : d.quiet = d'.quiet) :
    d.finish.result = d'.finish.result ∧ d.texts = d'.texts := by
  have hresult (d : Draft) : d.quiet.finish.result = d.finish.result := by
    unfold finish
    split
    · next hd => rw [if_pos (by exact hd)]; rfl
    · next hd => rw [if_neg (by exact hd)]; rfl
  have htexts : d.quiet.texts = d'.quiet.texts := congrArg Draft.texts h
  exact ⟨by rw [← hresult d, h, hresult], htexts⟩

/-- If nothing is left behind, a body comes to the function that
the pruned body comes to. -/
theorem result_prune {m : Module} (hm : ReturnsNothing m) (offers : Offers m S)
    {body : List Stmt} {d d₁ d₂ : Draft} (h : statements m body d = .ok d₁)
    (h' : statements m (prune S Γ body) d = .ok d₂) (agrees : Agrees d.scope Γ)
    (hd : d.block.isTerminated = false) (hresidue : residue S Γ body = 0) :
    d₁.finish.result = d₂.finish.result ∧ d₁.texts = d₂.texts := by
  obtain ⟨hwaste, hopened⟩ := Nat.add_eq_zero_iff.mp hresidue
  obtain ⟨d₂', hrun, hquiet⟩ := statements_prune hm offers h (.inl rfl) agrees hwaste
  rw [h'] at hrun
  cases hrun
  rcases hquiet with hquiet | hquiet
  · exact result_of_quiet hquiet
  · by_cases hended : d₂.block.isTerminated
    · -- A block that was opened at the end would be counted.
      have hbody := statements_rules hm body d
      have hbody' := statements_rules hm (prune S Γ body) d
      rw [h] at hbody
      rw [h'] at hbody'
      have hends := (hbody.size_eq offers agrees).2
      have hends' := (hbody'.size_eq offers agrees).2
      have hreopened : d₁.block.isTerminated = false :=
        (congrArg (·.block.isTerminated) hquiet).trans (isTerminated_reopen d₂)
      rw [hd, hreopened] at hends
      rw [hd, hended] at hends'
      rw [endsInReturn, endsInReturn, ← hends, ← hends'] at hopened
      cases hopened
    · rw [reopen, if_neg hended] at hquiet
      exact result_of_quiet hquiet

end

/-! ## Modules -/

theorem sum_instrs_modify {fs : List Function} {i : Nat} {f : Function}
    (hf : fs[i]? = some f) (hbare : f.blocks = []) (g : Function) :
    ((fs.modify i fun _ => g).map (·.instrs.length)).sum =
      (fs.map (·.instrs.length)).sum + g.instrs.length := by
  induction fs generalizing i with
  | nil => cases hf
  | cons f' fs ih =>
    cases i with
    | zero =>
      cases hf
      have hnone : f.instrs.length = 0 := by simp [Function.instrs, hbare]
      simp only [List.modify_zero_cons, List.map_cons, List.sum_cons, hnone]
      omega
    | succ i =>
      simp only [List.modify_succ_cons, List.map_cons, List.sum_cons, ih hf]
      omega

/-- Putting in a function adds what it takes. -/
theorem size_add {c : Compiled} {p : Nat × Draft} {f : Function}
    (hf : c.module.functions[p.1]? = some f) (hbare : f.blocks = []) :
    (c.add p).module.size = c.module.size + p.2.weight := by
  rw [module_add, Module.size, sum_instrs_modify hf hbare,
    Renumbering.instrs_function, List.length_map, List.length_append,
    Module.size, weight]
  omega

theorem size_link {c : Compiled} {ps : List (Nat × Draft)}
    (hbare : ∀ p ∈ ps, ∃ f, c.module.functions[p.1]? = some f ∧ f.blocks = [])
    (once : (ps.map (·.1)).Nodup) :
    (c.link ps).module.size = c.module.size + (ps.map (·.2.weight)).sum := by
  induction ps generalizing c with
  | nil => rfl
  | cons p ps ih =>
    obtain ⟨⟨f, hf, hblocks⟩, hps⟩ := List.forall_mem_cons.mp hbare
    rw [List.map_cons, List.nodup_cons] at once
    have hother : ∀ q ∈ ps, ∃ f, (c.add p).module.functions[q.1]? = some f ∧
        f.blocks = [] := by
      intro q hq
      have hne : q.1 ≠ p.1 := fun heq => once.1 (heq ▸ List.mem_map_of_mem hq)
      rw [getElem?_add hf, if_neg hne]
      exact hps q hq
    rw [Compiled.link, ih hother once.2, size_add hf hblocks, List.map_cons,
      List.sum_cons, Nat.add_assoc]

/-- A module is made of finished functions and their string constants. -/
theorem link_congr {ps qs : List (Nat × Draft)}
    (h : List.Forall₂ (fun p q => p.1 = q.1 ∧
      p.2.finish.result = q.2.finish.result ∧ p.2.texts = q.2.texts) ps qs)
    {c c' : Compiled} (hc : c.module = c'.module) :
    (c.link ps).module = (c'.link qs).module := by
  induction h generalizing c c' with
  | nil => exact hc
  | cons hp _ ih =>
    obtain ⟨hplace, hresult, htexts⟩ := hp
    exact ih (by rw [module_add, module_add, hc, hplace, hresult, htexts])

end Straightline.Lowering

namespace Straightline

open Code Lowering Typing

namespace Tree

variable {t : Tree}

/-- A body and the pruned body, each lowered alone. -/
theorem alone_prune {b : Nat × List Stmt} {p q : Nat × Draft}
    (hp : IsAlone t.declared.module b p)
    (hq : IsAlone t.declared.module (b.1, t.pruneBody b.2) q) :
    p.2.weight = q.2.weight + t.bodyResidue b.2 ∧
      (t.bodyResidue b.2 = 0 →
        p.1 = q.1 ∧ p.2.finish.result = q.2.finish.result ∧ p.2.texts = q.2.texts) ∧
      q.2.errors = [] := by
  have hvoid := t.declared_proper.void
  have hoffers := (declared_matches t).offers
  obtain ⟨f, hf, hbody⟩ := hp.body hvoid
  obtain ⟨f', hf', hbody'⟩ := hq.body hvoid
  obtain rfl : f = f' := Option.some.inj (hf.symm.trans hf')
  refine ⟨weight_prune hoffers hbody hbody' .empty rfl, fun hresidue =>
    ⟨hp.place.trans hq.place.symm, ?_⟩, ?_⟩
  · obtain ⟨-, f₁, hf₁, hrun⟩ := hp
    obtain ⟨-, f₂, hf₂, hrun'⟩ := hq
    obtain rfl : f₁ = f₂ := Option.some.inj (hf₁.symm.trans hf₂)
    exact result_prune hvoid hoffers hrun hrun' .empty rfl hresidue
  · rw [hbody'.errors_eq hoffers .empty]
    exact body_prune _ _ b.2

theorem forall_alone_prune {bs : List (Nat × List Stmt)}
    {ps qs : List (Nat × Draft)}
    (hps : List.Forall₂ (IsAlone t.declared.module) bs ps)
    (hqs : List.Forall₂ (fun b =>
      IsAlone t.declared.module (b.1, t.pruneBody b.2)) bs qs) :
    (ps.map (·.2.weight)).sum =
        (qs.map (·.2.weight)).sum + (bs.map fun b => t.bodyResidue b.2).sum ∧
      ((bs.map fun b => t.bodyResidue b.2).sum = 0 →
        List.Forall₂ (fun p q => p.1 = q.1 ∧ p.2.finish.result = q.2.finish.result ∧
          p.2.texts = q.2.texts) ps qs) ∧
      qs.flatMap (·.2.errors) = [] := by
  induction hps generalizing qs with
  | nil =>
    cases hqs
    exact ⟨rfl, fun _ => .nil, rfl⟩
  | cons hp _ ih =>
    cases hqs with
    | cons hq hqs =>
      obtain ⟨hweight, hsame, herrors⟩ := alone_prune hp hq
      obtain ⟨hsum, hall, hnone⟩ := ih hqs
      simp only [List.map_cons, List.sum_cons, List.flatMap_cons]
      refine ⟨by omega, fun hzero => ?_, by rw [herrors, hnone, List.nil_append]⟩
      obtain ⟨hzero, hrest⟩ := Nat.add_eq_zero_iff.mp hzero
      exact .cons (hsame hzero) (hall hrest)

theorem module_unlinked_pruned (t : Tree) :
    t.pruned.unlinked.module = t.unlinked.module := by
  show t.pruned.declared.module = t.declared.module
  rw [t.pruned.module_declared, t.module_declared, t.declared_pruned.1]
  rfl

theorem size_link_unlinked {ps : List (Nat × Draft)}
    (hps : List.Forall₂ (IsAlone t.declared.module) t.declared.bodies ps) :
    (t.unlinked.link ps).module.size =
      t.unlinked.module.size + (ps.map (·.2.weight)).sum := by
  have hplaces := IsAlone.map_place hps
  exact size_link (fun p hp => t.bare_of_mem_bodies (hplaces ▸ List.mem_map_of_mem hp))
    (hplaces ▸ t.declared_proper.once)

/-- How far wrong statements are dropped. They bind nothing. A tree without gaps
is compiled, with its wrong statements or without; what is reported for it is
what the type checker reports, and without them only what is wrong with globals.
With them, the module has as many more instructions and string constants as they
leave behind. If that is none, the two modules are equal, and otherwise they
differ by more than numbers. -/
theorem leftovers_iff (t : Tree) (complete : t.isComplete) :
    (∀ s d err d', Lowering.statement t.declared.module s d =
      .error (.error err) d' → d'.scope = d.scope) ∧
    ∃ c c', t.compile = .ok c ∧ t.pruned.compile = .ok c' ∧ c.errors = t.diagnose ∧
      c'.errors = t.accepted.errors ∧
      c.module.size = c'.module.size + t.residue ∧
      (t.residue = 0 → c.module = c'.module) ∧
      (c'.module.Renumbered c.module ↔ t.residue = 0) := by
  refine ⟨fun s d err d' => scope_of_error t.declared_proper.void, ?_⟩
  obtain ⟨c, hc, hdefined⟩ := t.compile_of_complete complete
  obtain ⟨c', hc', -⟩ := compile_of_complete (isComplete_pruned complete)
  refine ⟨c, c', hc, hc', ?_⟩
  have hmatches := declared_matches t
  obtain ⟨hfunctions, herrors, hbodies⟩ := t.declared_pruned
  have hdiagnosed : c.errors = t.diagnose := by
    rw [hdefined.errors_eq hmatches.offers, hmatches.errors, hmatches.bodies]
    rfl
  -- Both modules are made of functions that are lowered alone, and
  -- these are compared one by one.
  obtain ⟨ps, hps, rfl, -⟩ := compile_linked hc
  obtain ⟨qs, hqs, rfl, -⟩ := compile_linked hc'
  have hqs' : List.Forall₂ (fun b =>
      IsAlone t.declared.module (b.1, t.pruneBody b.2)) t.declared.bodies qs := by
    rw [hbodies, List.forall₂_map_left_iff] at hqs
    exact hqs.imp fun _ _ hq => hq.of_functions hfunctions.symm
  obtain ⟨hsum, hsame, hnone⟩ := forall_alone_prune hps hqs'
  have hresidue : (t.declared.bodies.map fun b => t.bodyResidue b.2).sum =
      t.residue := by
    rw [residue, ← hmatches.bodies, List.map_map]
    rfl
  rw [hresidue] at hsum hsame
  have hsize : (t.unlinked.link ps).module.size =
      (t.pruned.unlinked.link qs).module.size + t.residue := by
    rw [size_link_unlinked hps, size_link_unlinked hqs, module_unlinked_pruned,
      hsum, Nat.add_assoc]
  have hequal (hzero : t.residue = 0) : (t.unlinked.link ps).module =
      (t.pruned.unlinked.link qs).module :=
    link_congr (hsame hzero) t.module_unlinked_pruned.symm
  refine ⟨hdiagnosed, ?_, hsize, hequal, fun hrenumbered => ?_, fun hzero => ?_⟩
  · rw [errors_link, hnone, List.append_nil, ← hmatches.errors, ← herrors]
    rfl
  · have := hrenumbered.size_eq
    omega
  · rw [hequal hzero]
    exact .refl _

/-- Wrong statements that leave nothing behind: nothing was made when each was
found wrong, and the last of them stands behind a statement that goes on. -/
def harmless : Tree where
  filename := "harmless"
  globals := [
    .func (spot 1 1) "main" [] [
      .decl (spot 2 1) "s" (some .str),
      .assign (spot 3 1) "s" [.int (spot 3 5) 1],
      .assign (spot 4 1) "x" [.text (spot 4 5) "one"],
      .ret (spot 5 1) [.text (spot 5 8) "two", .ident (spot 5 15) "s"],
      .call (spot 6 1) "main" [.int (spot 6 6) 3],
      .assign (spot 7 1) "s" [.text (spot 7 5) "four"],
      .decl (spot 8 1) "c" (some .char)]]

theorem leftovers_iff_harmless :
    harmless.isComplete ∧ ∃ c c', harmless.compile = .ok c ∧
      harmless.pruned.compile = .ok c' ∧
      c.errors.length = 5 ∧ c'.errors = [] ∧ c.module = c'.module := by
  have complete : harmless.isComplete := by decide
  obtain ⟨-, c, c', hc, hc', herrors, hnone, -, hequal, -⟩ :=
    leftovers_iff harmless complete
  exact ⟨complete, c, c', hc, hc', herrors ▸ (by decide), hnone, hequal (by decide)⟩

/-- The operands of a call that is wrong leave a load and a string constant behind. -/
theorem exists_leftovers :
    let t := (Parser.parse (Lexer.ofBytes
      (Rune.utf8 "func f\nx: int\nbegin\nmissing(x, \"hi\");\nend\n") "test.ok")).tree
    ∃ c c', t.compile = .ok c ∧ t.pruned.compile = .ok c' ∧
      c.module.texts = [Rune.utf8 "hi"] ∧
      c'.module.texts = [] ∧ c.module.size = c'.module.size + 2 ∧
      ¬ c'.module.Renumbered c.module := by
  intro t
  have hsizes : ∃ c ∈ t.compile.toOption, ∃ c' ∈ t.pruned.compile.toOption,
      c.module.texts = [Rune.utf8 "hi"] ∧
      c'.module.texts = [] ∧ c.module.size = c'.module.size + 2 := by decide +kernel
  have hok {x : Except Fault Compiled} {c : Compiled} (h : c ∈ x.toOption) :
      x = .ok c := by
    cases x <;> cases h
    rfl
  obtain ⟨c, hc, c', hc', htexts, htexts', hsize⟩ := hsizes
  refine ⟨c, c', hok hc, hok hc', htexts, htexts', hsize, fun hrenumbered => ?_⟩
  have := hrenumbered.size_eq
  omega

end Tree

end Straightline
