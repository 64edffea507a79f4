import Mathlib
import Straightline.Proofs.Lowering.Independence
import Straightline.Proofs.Lowering.Naming

/-!
# Trees without their wrong statements

The type checker goes over a body statement by statement; `judge` notes its
verdict on each of them. Without the wrong ones, and with a plain return for
each return of too many values, the body is right (`prune`), and a tree can be
pruned body by body (`Tree.pruned`).

A wrong statement is found out while code is made for it. `expense`
counts, on trees alone, the instructions and string constants that the
operands of a statement take up to that point, and `residue` what all
wrong statements of a body leave behind.
-/

namespace Straightline

/-- What stays of a wrong statement: a return of too many values still returns,
and any other statement goes. -/
def Stmt.amended : Stmt → List Stmt
  | .ret pos (_ :: _ :: _) => [.ret pos []]
  | _ => []

/-- A global whose body is changed. -/
def Global.mapBody (change : List Stmt → List Stmt) : Global → Global
  | .func pos name params body => .func pos name params (change body)
  | g => g

theorem Global.bare_mapBody (change : List Stmt → List Stmt) (g : Global) :
    (g.mapBody change).bare = g.bare := by
  cases g <;> rfl

theorem Global.body_mapBody {change : List Stmt → List Stmt} (h : change [] = [])
    (g : Global) : (g.mapBody change).body = change g.body := by
  cases g with
  | func => rfl
  | external => exact h.symm

namespace Typing

/-! ## Verdicts -/

/-- A statement, the types of the variables in front of it, and whether it is wrong. -/
structure Judged where
  env : Env
  stmt : Stmt
  wrong : Bool

/-- The statements of a body with the verdict on each. -/
def judge (S : Signatures) : Env → List Stmt → List Judged
  | _, [] => []
  | Γ, s :: rest =>
    match statement S Γ s with
    | .ok Γ' => ⟨Γ, s, false⟩ :: judge S Γ' rest
    | .error _ => ⟨Γ, s, true⟩ :: judge S Γ rest

/-- What stays of a statement. -/
def Judged.kept (j : Judged) : List Stmt := if j.wrong then j.stmt.amended else [j.stmt]

/-- Whether what stays of a statement is a return. -/
def Judged.returns (j : Judged) : Bool := j.kept.any Stmt.isReturn

/-- A body without its wrong statements. -/
def prune (S : Signatures) (Γ : Env) (body : List Stmt) : List Stmt :=
  (judge S Γ body).flatMap Judged.kept

section
variable {S : Signatures} {Γ Γ' : Env} {s : Stmt} {err : SemanticError}
  (rest : List Stmt)

theorem judge_of_ok (h : statement S Γ s = .ok Γ') :
    judge S Γ (s :: rest) = ⟨Γ, s, false⟩ :: judge S Γ' rest := by
  simp [judge, h]

theorem judge_of_error (h : statement S Γ s = .error err) :
    judge S Γ (s :: rest) = ⟨Γ, s, true⟩ :: judge S Γ rest := by
  simp [judge, h]

theorem prune_of_ok (h : statement S Γ s = .ok Γ') :
    prune S Γ (s :: rest) = s :: prune S Γ' rest := by
  simp [prune, judge_of_ok rest h, Judged.kept]

theorem prune_of_error (h : statement S Γ s = .error err) :
    prune S Γ (s :: rest) = s.amended ++ prune S Γ rest := by
  simp [prune, judge_of_error rest h, Judged.kept]

end

/-! ## What is made for operands -/

/-- The number of instructions and string constants that are made for an
expression, up to where it is wrong. -/
def expense (Γ : Env) : Expr → Nat
  | .int _ _ => 0
  | .text _ _ => 1
  | .ident _ x => (Γ x).isSome.toNat
  | .binary op pos left right =>
    if (typeOf Γ left).isOk then
      expense Γ left + expense Γ right +
        (typeOf Γ (.binary op pos left right)).isOk.toNat
    else expense Γ left
  | .hole => 0

/-- The number of instructions and string constants that are made for
expressions, up to where one is wrong. -/
def expenses (Γ : Env) : List Expr → Nat
  | [] => 0
  | e :: es => expense Γ e + if (typeOf Γ e).isOk then expenses Γ es else 0

/-- The number of instructions and string constants that are made for the
operands of a statement. -/
def operandExpense (Γ : Env) : Stmt → Nat
  | .assign _ x [e] => if (Γ x).isSome then expense Γ e else 0
  | .call _ _ args => expenses Γ args
  | .ret _ [e] => expense Γ e
  | _ => 0

/-- What is made for the operands of a statement. -/
def Judged.expense (j : Judged) : Nat := operandExpense j.env j.stmt

/-- The number of instructions and string constants that are made for a body
up to its last statement: what its operands take, and one instruction for
each statement that stays. -/
def cost (js : List Judged) : Nat := (js.map fun j => j.expense + j.kept.length).sum

/-- What is made for the operands of the wrong statements. -/
def waste (js : List Judged) : Nat :=
  (js.map fun j => if j.wrong then j.expense else 0).sum

/-- Whether the last of some statements is a return that stays. -/
def endsInReturn (js : List Judged) : Bool := (js.map Judged.returns).getLastD false

/-- The number of instructions and string constants that the wrong statements of
a body leave behind. Those behind the last return stand in a block of their own,
and that takes a return, too. -/
def residue (S : Signatures) (Γ : Env) (stmts : List Stmt) : Nat :=
  waste (judge S Γ stmts) +
    (endsInReturn (judge S Γ (prune S Γ stmts)) && !endsInReturn
      (judge S Γ stmts)).toNat

theorem cost_cons (j : Judged) (js : List Judged) :
    cost (j :: js) = j.expense + j.kept.length + cost js := by
  simp [cost]

theorem waste_cons (j : Judged) (js : List Judged) :
    waste (j :: js) = (if j.wrong then j.expense else 0) + waste js := by
  simp [waste]

/-- A wrong statement goes, or it is a return of too many values, and
nothing is made for those. -/
theorem amended_eq_nil_or (Γ : Env) (s : Stmt) :
    s.amended = [] ∨ ∃ pos, s.amended = [.ret pos []] ∧ operandExpense Γ s = 0 := by
  unfold Stmt.amended
  split
  · exact .inr ⟨_, rfl, rfl⟩
  · exact .inl rfl

/-- Nothing is wrong in a pruned body. -/
theorem body_prune (S : Signatures) (Γ : Env) (stmts : List Stmt) :
    body S Γ (prune S Γ stmts) = [] := by
  induction stmts generalizing Γ with
  | nil => rfl
  | cons s rest ih =>
    cases h : statement S Γ s with
    | ok Γ' =>
      rw [prune_of_ok rest h]
      simp [body, h, ih]
    | error err =>
      rw [prune_of_error rest h]
      obtain hnone | ⟨pos, hret, -⟩ := amended_eq_nil_or Γ s
      · rw [hnone]
        exact ih Γ
      · rw [hret]
        exact ih Γ

theorem all_isComplete_prune (S : Signatures) (Γ : Env) {stmts : List Stmt}
    (h : stmts.all Stmt.isComplete) : (prune S Γ stmts).all Stmt.isComplete := by
  induction stmts generalizing Γ with
  | nil => rfl
  | cons s rest ih =>
    rw [List.all_cons, Bool.and_eq_true] at h
    cases hs : statement S Γ s with
    | ok Γ' => rw [prune_of_ok rest hs, List.all_cons, h.1, ih Γ' h.2, Bool.and_self]
    | error err =>
      rw [prune_of_error rest hs, List.all_append, ih Γ h.2, Bool.and_true]
      obtain hnone | ⟨pos, hret, -⟩ := amended_eq_nil_or Γ s
      · rw [hnone]
        rfl
      · rw [hret]
        rfl

/-- A pruned body takes what the body takes, but for what is made
for wrong statements. -/
theorem cost_judge (S : Signatures) (Γ : Env) (stmts : List Stmt) :
    cost (judge S Γ stmts) = cost (judge S Γ (prune S Γ stmts)) +
      waste (judge S Γ stmts) := by
  induction stmts generalizing Γ with
  | nil => rfl
  | cons s rest ih =>
    cases h : statement S Γ s with
    | ok Γ' =>
      rw [prune_of_ok rest h, judge_of_ok rest h, judge_of_ok _ h, cost_cons,
        cost_cons, waste_cons, ih Γ']
      simp only [Bool.false_eq_true, if_false]
      omega
    | error err =>
      rw [prune_of_error rest h, judge_of_error rest h, cost_cons, waste_cons,
        ih Γ, if_pos rfl]
      obtain hnone | ⟨pos, hret, hfree⟩ := amended_eq_nil_or Γ s
      · have hkept : Judged.kept ⟨Γ, s, true⟩ = [] := hnone
        rw [hnone, hkept, List.nil_append, List.length_nil]
        omega
      · have hkept : Judged.kept ⟨Γ, s, true⟩ = [.ret pos []] := hret
        have hexpense : Judged.expense ⟨Γ, s, true⟩ = 0 := hfree
        have hright : statement S Γ (.ret pos []) = .ok Γ := rfl
        have hfree' : Judged.expense ⟨Γ, .ret pos [], false⟩ = 0 := rfl
        rw [hret, hkept, hexpense, List.singleton_append, judge_of_ok _ hright,
          cost_cons, hfree']
        simp only [Judged.kept, Bool.false_eq_true, if_false, List.length_singleton]
        omega

/-- A body that ends in a return still does when it is pruned. -/
theorem returns_prune {S : Signatures} {Γ : Env} {stmts : List Stmt}
    {ended ended' : Bool} (h : ended → ended')
    (hends : ((judge S Γ stmts).map Judged.returns).getLastD ended) :
    ((judge S Γ (prune S Γ stmts)).map Judged.returns).getLastD ended' := by
  induction stmts generalizing Γ ended ended' with
  | nil => exact h hends
  | cons s rest ih =>
    cases hs : statement S Γ s with
    | ok Γ' =>
      rw [judge_of_ok rest hs, List.map_cons, List.getLastD_cons] at hends
      rw [prune_of_ok rest hs, judge_of_ok _ hs, List.map_cons, List.getLastD_cons]
      exact ih id hends
    | error err =>
      rw [judge_of_error rest hs, List.map_cons, List.getLastD_cons] at hends
      rw [prune_of_error rest hs]
      obtain hnone | ⟨pos, hret, -⟩ := amended_eq_nil_or Γ s
      · have hwrong : Judged.returns ⟨Γ, s, true⟩ = false :=
          congrArg (List.any · Stmt.isReturn) hnone
        rw [hnone]
        exact ih (by simp [hwrong]) hends
      · have hright : statement S Γ (.ret pos []) = .ok Γ := rfl
        rw [hret, List.singleton_append, judge_of_ok _ hright, List.map_cons,
          List.getLastD_cons]
        exact ih (fun _ => rfl) hends

end Typing

/-! ## Trees -/

open Lowering Typing

namespace Tree

/-- A body of a tree without its wrong statements. -/
def pruneBody (t : Tree) (body : List Stmt) : List Stmt :=
  prune t.accepted.signatures (fun _ => none) body

/-- The number of instructions and string constants that the wrong statements
of a body leave behind. -/
def bodyResidue (t : Tree) (body : List Stmt) : Nat :=
  Typing.residue t.accepted.signatures (fun _ => none) body

/-- A global without the wrong statements of its body. What is not
lowered is left as it is. -/
def pruneGlobal (t : Tree) (place? : Option Nat) (g : Global) : Global :=
  if place?.isSome then g.mapBody t.pruneBody else g

/-- A tree without the wrong statements of its functions. -/
def pruned (t : Tree) : Tree :=
  { t with globals := List.zipWith t.pruneGlobal t.places t.globals }

/-- The number of instructions and string constants that the wrong statements
of a tree leave behind. -/
def residue (t : Tree) : Nat := (t.accepted.bodies.map t.bodyResidue).sum

variable (t : Tree)

theorem bare_pruneGlobal (place? : Option Nat) (g : Global) :
    (t.pruneGlobal place? g).bare = g.bare := by
  unfold pruneGlobal
  split
  · exact g.bare_mapBody _
  · rfl

theorem body_pruneGlobal (place : Nat) (g : Global) :
    (t.pruneGlobal (some place) g).body = t.pruneBody g.body :=
  g.body_mapBody rfl

theorem zipWith_pruneGlobal {places : List (Option Nat)} {gs : List Global}
    (h : places.length = gs.length) :
    (List.zipWith t.pruneGlobal places gs).map Global.bare = gs.map Global.bare ∧
      Declared.placed places (List.zipWith t.pruneGlobal places gs) =
        (Declared.placed places gs).map fun b => (b.1, t.pruneBody b.2) := by
  induction gs generalizing places with
  | nil => simp [Declared.placed]
  | cons g gs ih =>
    cases places with
    | nil => cases h
    | cons place? places =>
      obtain ⟨hbare, hplaced⟩ := ih (Nat.succ.inj h)
      rw [List.zipWith_cons_cons, Declared.placed_cons, Declared.placed_cons,
        List.map_append, hplaced]
      refine ⟨by rw [List.map_cons, List.map_cons, hbare, bare_pruneGlobal],
        congrArg (· ++ _) ?_⟩
      cases place? with
      | none => rfl
      | some place => simp [body_pruneGlobal]

/-- A pruned tree declares what the tree declares. -/
theorem declared_pruned :
    t.pruned.declared.module.functions = t.declared.module.functions ∧
      t.pruned.declared.errors = t.declared.errors ∧
      t.pruned.declared.bodies = t.declared.bodies.map fun b =>
        (b.1, t.pruneBody b.2) := by
  obtain ⟨hbare, hplaced⟩ := t.zipWith_pruneGlobal (Declared.length_places _ t.globals)
  replace hbare : t.pruned.globals.map Global.bare = t.globals.map Global.bare := hbare
  obtain ⟨hfunctions, herrors, hplaces⟩ := declared_of_bare hbare
  refine ⟨hfunctions, herrors, ?_⟩
  rw [bodies_declared, bodies_declared, hplaces]
  exact hplaced

theorem isComplete_pruneGlobal (place? : Option Nat) {g : Global} (h : g.isComplete) :
    (t.pruneGlobal place? g).isComplete := by
  cases place? with
  | none => exact h
  | some place =>
    rw [Global.isComplete, body_pruneGlobal]
    exact all_isComplete_prune _ _ h

theorem isComplete_pruned {t : Tree} (h : t.isComplete) : t.pruned.isComplete := by
  refine List.all_eq_true.mpr fun g hg => ?_
  rw [pruned, ← List.map_uncurry_zip_eq_zipWith] at hg
  obtain ⟨⟨place?, g⟩, hzip, rfl⟩ := List.mem_map.mp hg
  exact t.isComplete_pruneGlobal place?
    (List.all_eq_true.mp h g (List.of_mem_zip hzip).2)

end Tree

end Straightline
