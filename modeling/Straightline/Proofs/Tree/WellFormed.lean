import Mathlib
import Straightline.Proofs.Lowering.Modules
import Straightline.Proofs.Tree.Comb
import Straightline.Proofs.Tree.Invariant
import Straightline.Tree.Outline

/-!
# Trees that are read are well formed

Whatever a source text is like, and whether or not errors were found in it, the
tree read from it is well formed (`Tree.IsWellFormed`): every expression is a
right comb of leaves with the four operators, an assignment or a return has at
most one expression, and a function has no parameters and a body that starts
with its declarations, each perhaps with an assignment to the same name behind
it, and holds no declaration after those.

Statements are added one by one while a function is being read, so this has
to hold of the statements in hand at any point where reading may be given up.
Up to `begin` they are a preamble; behind `begin` they are a preamble with
other statements behind it. Nothing is left out of a well-formed tree, so it
can be printed and lowered.
-/

namespace Straightline

open Typing

/-! ## Well-formed trees -/

namespace Expr

/-- Whether an expression is a literal or a name. -/
def isLeaf : Expr → Bool
  | .int .. | .text .. | .ident .. => true
  | _ => false

/-- Whether an expression is nested to the right only, with leaves on the left
and operators that exist. -/
def isComb : Expr → Bool
  | .binary (.arith _) _ left right => left.isLeaf && right.isComb
  | e => e.isLeaf

theorem isComb_of_isLeaf {e : Expr} (h : e.isLeaf = true) : e.isComb = true := by
  cases e with
  | binary => cases h
  | hole => cases h
  | _ => rfl

theorem isComplete_of_isLeaf {e : Expr} (h : e.isLeaf = true) :
    e.isComplete = true := by
  cases e with
  | binary => cases h
  | hole => cases h
  | _ => rfl

/-- Nothing is left out of a comb. -/
theorem isComplete_of_isComb {e : Expr} (h : e.isComb = true) :
    e.isComplete = true := by
  induction e with
  | binary op pos left right _ ihr =>
    cases op with
    | arith op =>
      rw [isComb, Bool.and_eq_true] at h
      rw [isComplete, isComplete_of_isLeaf h.1, ihr h.2]
      rfl
    | unknown code => cases h
  | hole => cases h
  | _ => rfl

end Expr

/-- Whether all of some expressions are combs. -/
def AreCombs (es : List Expr) : Prop := ∀ e ∈ es, e.isComb = true

/-- The statements that a text can have. -/
inductive Stmt.IsWellFormed : Stmt → Prop
  | decl {pos x t} : IsVariableType t → IsWellFormed (.decl pos x (some t))
  | assign {pos x es} : es.length ≤ 1 → AreCombs es → IsWellFormed (.assign pos x es)
  | call {pos x es} : AreCombs es → IsWellFormed (.call pos x es)
  | ret {pos es} : es.length ≤ 1 → AreCombs es → IsWellFormed (.ret pos es)

/-- Declarations, each of them perhaps with an assignment to the
same name right behind it. -/
inductive IsPreamble : List Stmt → Prop
  | nil : IsPreamble []
  | decl {pos x type rest} : IsPreamble rest → IsPreamble (.decl pos x type :: rest)
  | initialized {pos x type pos' es rest} : IsPreamble rest →
      IsPreamble (.decl pos x type :: .assign pos' x es :: rest)

/-- A body of well-formed statements: a preamble and behind it
statements that declare nothing. -/
structure IsBody (body : List Stmt) : Prop where
  stmts : ∀ s ∈ body, s.IsWellFormed
  layout : ∃ preamble rest, body = preamble ++ rest ∧ IsPreamble preamble ∧
    ∀ s ∈ rest, ∀ pos x type, s ≠ .decl pos x type

/-- The declarations that a text can have. -/
structure Global.IsWellFormed (g : Global) : Prop where
  params : g.isFunc = true → g.params = []
  types : ∀ v ∈ g.params, v.HasVariableType
  body : IsBody g.body

/-- The trees that a text can have. -/
def Tree.IsWellFormed (t : Tree) : Prop := ∀ g ∈ t.globals, g.IsWellFormed

/-! ## Nothing is left out of a well-formed tree -/

theorem Stmt.IsWellFormed.areCombs {s : Stmt} (h : s.IsWellFormed) :
    AreCombs s.exprs := by
  cases h with
  | decl => simp [AreCombs, Stmt.exprs]
  | assign _ hes => exact hes
  | call hes => exact hes
  | ret _ hes => exact hes

theorem Stmt.IsWellFormed.isComplete {s : Stmt} (h : s.IsWellFormed) :
    s.isComplete = true :=
  List.all_eq_true.mpr fun e he => Expr.isComplete_of_isComb (h.areCombs e he)

theorem Global.IsWellFormed.isComplete {g : Global} (h : g.IsWellFormed) :
    g.isComplete = true :=
  List.all_eq_true.mpr fun s hs => (h.body.stmts s hs).isComplete

theorem Global.IsWellFormed.isPrintable {g : Global} (h : g.IsWellFormed) :
    g.isPrintable = true := by
  rw [Global.isPrintable, h.isComplete, Bool.and_true]
  refine List.all_eq_true.mpr fun v hv => ?_
  obtain ⟨t, ht, -⟩ := h.types v hv
  rw [Option.mem_def.mp ht]
  rfl

theorem Tree.IsWellFormed.isComplete {t : Tree} (h : t.IsWellFormed) :
    t.isComplete = true :=
  List.all_eq_true.mpr fun g hg => (h g hg).isComplete

theorem Tree.IsWellFormed.isPrintable {t : Tree} (h : t.IsWellFormed) :
    t.globals.all Global.isPrintable = true :=
  List.all_eq_true.mpr fun g hg => (h g hg).isPrintable

/-! ## Bodies that grow -/

theorem IsPreamble.append {body body' : List Stmt} (h : IsPreamble body)
    (h' : IsPreamble body') : IsPreamble (body ++ body') := by
  induction h with
  | nil => exact h'
  | decl _ ih => exact ih.decl
  | initialized _ ih => exact ih.initialized

/-- The statements in hand in front of `begin`. -/
structure IsStart (body : List Stmt) : Prop where
  stmts : ∀ s ∈ body, s.IsWellFormed
  preamble : IsPreamble body

theorem IsStart.nil : IsStart [] := ⟨by simp, .nil⟩

theorem IsStart.append {body body' : List Stmt} (h : IsStart body)
    (h' : IsStart body') : IsStart (body ++ body') :=
  ⟨List.forall_mem_append.mpr ⟨h.stmts, h'.stmts⟩, h.preamble.append h'.preamble⟩

/-- The statements in hand right behind the declaration of `x`. -/
def IsOpened (pos : Position) (x : String) (t : DataType) (body : List Stmt) : Prop :=
  ∃ before, IsStart before ∧ IsVariableType t ∧ body = before ++ [.decl pos x (some t)]

theorem IsOpened.isStart {pos : Position} {x : String} {t : DataType} {body : List Stmt}
    (h : IsOpened pos x t body) : IsStart body := by
  obtain ⟨before, hbefore, ht, rfl⟩ := h
  exact hbefore.append ⟨List.forall_mem_singleton.mpr (.decl ht), .decl .nil⟩

/-- An assignment to the name that was just declared belongs to the declaration. -/
theorem IsOpened.snoc {pos pos' : Position} {x : String} {t : DataType}
    {body : List Stmt} {es : List Expr} (h : IsOpened pos x t body)
    (hassign : (Stmt.assign pos' x es).IsWellFormed) :
    IsStart (body ++ [.assign pos' x es]) := by
  obtain ⟨before, hbefore, ht, rfl⟩ := h
  have hdecl : (Stmt.decl pos x (some t)).IsWellFormed := .decl ht
  rw [List.append_assoc]
  exact hbefore.append ⟨by simp [hdecl, hassign], .initialized .nil⟩

theorem IsStart.isBody {body : List Stmt} (h : IsStart body) : IsBody body :=
  ⟨h.stmts, body, [], by simp, h.preamble, by simp⟩

theorem IsBody.nil : IsBody [] := IsStart.nil.isBody

theorem IsBody.snoc {body : List Stmt} (h : IsBody body) {s : Stmt}
    (hs : s.IsWellFormed) (hdecl : ∀ pos x type, s ≠ .decl pos x type) :
    IsBody (body ++ [s]) := by
  obtain ⟨hstmts, preamble, rest, rfl, hpreamble, hrest⟩ := h
  refine ⟨List.forall_mem_append.mpr ⟨hstmts, List.forall_mem_singleton.mpr hs⟩,
    preamble, rest ++ [s], ?_, hpreamble,
    List.forall_mem_append.mpr ⟨hrest, List.forall_mem_singleton.mpr hdecl⟩⟩
  rw [List.append_assoc]

/-! ## Expressions -/

theorem isComb_of_comb {es : List Expr} {ops : List (Operator × Position)}
    {e : Expr} (hleaves : ∀ e ∈ es, e.isLeaf = true) (h : comb es ops = some e) :
    e.isComb = true := by
  fun_induction comb es ops generalizing e with
  | case1 e' =>
    cases h
    exact Expr.isComb_of_isLeaf (hleaves e' List.mem_cons_self)
  | case2 e' es o ops ih =>
    obtain ⟨hfirst, hrest⟩ := List.forall_mem_cons.mp hleaves
    obtain ⟨right, hright, rfl⟩ := Option.map_eq_some_iff.mp h
    rw [Expr.isComb, hfirst, ih hrest hright]
    rfl
  | case3 => cases h

namespace Parser

theorem isLeaf_of_pushToken? {held held' : Stacks} {t : Token}
    (h : ∀ e ∈ held.operands, e.isLeaf = true)
    (hpush : pushToken? held t = some held') :
    ∀ e ∈ held'.operands, e.isLeaf = true := by
  unfold pushToken? at hpush
  split at hpush
  · cases hpush; exact List.forall_mem_cons.mpr ⟨rfl, h⟩
  · cases hpush; exact List.forall_mem_cons.mpr ⟨rfl, h⟩
  · cases hpush; exact List.forall_mem_cons.mpr ⟨rfl, h⟩
  · cases hpush; exact h
  · cases hpush

/-- What comes off the stacks is one comb at most. -/
theorem areCombs_of_piece {required : Bool} {held : Stacks} {t : Token}
    {es : List Expr} (hheld : ∀ e ∈ held.operands, e.isLeaf = true)
    (h : piece required held t = .ok es) : AreCombs es ∧ es.length ≤ 1 := by
  constructor
  · intro e he
    refine isComb_of_comb (fun e he => ?_)
      (Stacks.foldAll_eq_some_iff.mp (fold_of_mem_piece h he))
    exact hheld e (List.mem_reverse.mp he)
  · unfold piece at h
    split at h
    · cases h
    · split at h
      · cases h
        exact Option.length_toList_le
      · cases h

theorem AreCombs.append {es es' : List Expr} (h : AreCombs es) (h' : AreCombs es') :
    AreCombs (es ++ es') :=
  List.forall_mem_append.mpr ⟨h, h'⟩

/-- A list of expressions as the parser reads it: without a
separator there is at most one. -/
structure IsReadUpTo (d : Delimiters) (es : List Expr) : Prop where
  combs : AreCombs es
  single : d.separator = none → es.length ≤ 1

theorem IsStable.yields_expressionsFrom {Inv : State → Prop} (h : IsStable Inv)
    (d : Delimiters) {exprs : List Expr} {held : Stacks} (hexprs : AreCombs exprs)
    (hnone : d.separator = none → exprs = [])
    (hheld : ∀ e ∈ held.operands, e.isLeaf = true) :
    Yields Inv (IsReadUpTo d) (expressionsFrom d exprs held) := by
  intro s hs
  -- Expressions that are cut off are combs, and operands still held are leaves;
  -- only a separator cuts one off early.
  fun_induction Parser.expressionsFrom d exprs held s with
  | case1 exprs held s t hend e hpiece =>
    obtain ⟨hcombs, hlength⟩ := areCombs_of_piece hheld hpiece
    refine ⟨⟨AreCombs.append hexprs hcombs, fun hseparator => ?_⟩, hs⟩
    rw [hnone hseparator]
    exact hlength
  | case2 => exact h.yields_fail _ _ _ hs
  | case3 exprs held s t _ hseparator e hpiece ih =>
    have hcombs := (areCombs_of_piece hheld hpiece).1
    refine ih (AreCombs.append hexprs hcombs) (fun hnone => ?_) (by simp)
      (h.advance s hs)
    rw [hnone] at hseparator
    cases hseparator
  | case4 => exact h.yields_fail _ _ _ hs
  | case5 exprs held s t _ _ held' hpush ih =>
    exact ih hexprs hnone (isLeaf_of_pushToken? hheld hpush) (h.advance s hs)
  | case6 => exact h.yields_fail _ _ _ hs

theorem IsStable.yields_expressions {Inv : State → Prop} (h : IsStable Inv)
    (d : Delimiters) : Yields Inv (IsReadUpTo d) (expressions d) :=
  h.yields_expressionsFrom d (by simp [AreCombs]) (fun _ => rfl) (by simp)

/-! ## Statements -/

/-- What holds of the statements in hand holds until one is added. -/
theorem isStable_body (P : List Stmt → Prop) : IsStable fun s => P s.body where
  advance s hs := s.body_advance.symm ▸ hs
  record _ _ _ hs := hs

/-- An assignment is added as a whole or not at all. -/
theorem turns_assignment {P P' : List Stmt → Prop} {name : Token}
    (hpost : ∀ body, P body → P' body)
    (hadd : ∀ body es, P body → (Stmt.assign name.pos name.lexeme es).IsWellFormed →
      P' (body ++ [.assign name.pos name.lexeme es])) :
    Turns (fun s => P s.body) (fun s => P' s.body) (fun _ => True)
      (assignment name) := by
  refine Turns.bind ((isStable_body P).yields_expressions _) (fun s => hpost s.body)
    fun values hvalues => ?_
  have hemit : Turns (fun s => P s.body) (fun s => P' s.body) (fun _ => True)
      (emit (.assign name.pos name.lexeme values)) :=
    fun s hs => ⟨trivial, hadd s.body values hs
      (.assign (hvalues.single rfl) hvalues.combs)⟩
  refine hemit.bind (fun _ h => h) fun _ _ => ?_
  split
  · exact Yields.current.then fun t s hs => ⟨trivial, (isStable_body P').report hs t _⟩
  · exact Yields.pure trivial

/-- A declaration line adds a declaration, perhaps with an assignment, or nothing. -/
theorem meets_declaration {s : State} (hs : IsStart s.body) :
    (declaration s).Meets (fun s => IsStart s.body) fun _ => True := by
  have hstable := isStable_body IsStart
  refine meets_current_bind (hstable.yields_advance.then fun _ =>
      (hstable.yields_consume _ _).then fun _ =>
    hstable.yields_typeName.bind fun type htype => ?_) hs
  -- Behind the type a declaration is in hand; what comes next may
  -- add an assignment to it.
  have hopen : Turns (fun s => IsStart s.body)
      (fun s' => IsOpened s.current.pos s.current.lexeme type s'.body)
      (fun _ => True) (emit (.decl s.current.pos s.current.lexeme (some type))) :=
    fun s hs => ⟨trivial, s.body, hs, htype, rfl⟩
  have hclose (s' : State)
    (h : IsOpened s.current.pos s.current.lexeme type s'.body) : IsStart s'.body :=
    h.isStart
  have hstableOpen := isStable_body (IsOpened s.current.pos s.current.lexeme type)
  refine hopen.bind hclose fun _ _ => Turns.bind Yields.current hclose fun t _ => ?_
  split
  · exact hstableOpen.yields_advance.turns hclose
  · exact (Yields.pure trivial).turns hclose
  · exact (Yields.pure trivial).turns hclose
  · exact (Yields.pure trivial).turns hclose
  · refine Turns.bind (hstableOpen.yields_accept _) hclose fun _ _ => ?_
    exact turns_assignment (fun _ h => h.isStart) fun body es hbody hassign =>
      hbody.snoc hassign

/-- A statement behind `begin` is added as a whole or not at all,
and declares nothing. -/
theorem meets_namedStatement {s : State} (hs : IsBody s.body) :
    (namedStatement s).Meets (fun s => IsBody s.body) fun _ => True := by
  have hstable := isStable_body IsBody
  refine meets_current_bind (hstable.yields_advance.then fun _ =>
    (hstable.yields_accept _).then fun b => ?_) hs
  split
  · exact turns_assignment (fun _ h => h) fun body es hbody hassign =>
      hbody.snoc hassign (by simp)
  · refine (hstable.yields_accept _).then fun b => ?_
    split
    · refine (hstable.yields_expressions _).bind fun args hargs => ?_
      refine (hstable.yields_consume _ _).then fun _ =>
        (hstable.yields_consume _ _).then fun _ s' hs' => ?_
      exact ⟨trivial, hs'.snoc (.call hargs.combs) (by simp)⟩
    · exact hstable.yields_failExpected _

theorem meets_returnStatement {s : State} (hs : IsBody s.body) :
    (returnStatement s).Meets (fun s => IsBody s.body) fun _ => True := by
  have hstable := isStable_body IsBody
  refine meets_current_bind (hstable.yields_advance.then fun _ => ?_) hs
  refine (hstable.yields_expressions _).bind fun values hvalues s' hs' => ?_
  exact ⟨trivial, hs'.snoc (.ret (hvalues.single rfl) hvalues.combs) (by simp)⟩

/-! ## Declarations -/

/-- Nothing at all is asked of a state between two declarations. -/
theorem isInvariant_true :
    IsInvariant (fun _ => True) (fun _ => True) fun _ => True where
  advance _ _ := trivial
  record _ _ _ _ := trivial
  expressions d s _ := by
    cases expressions d s with
    | done => exact ⟨trivial, trivial⟩
    | abandoned => trivial
  none := trivial
  name _ _ _ := trivial
  emit _ _ _ _ _ := trivial
  clear _ _ := trivial

theorem yields_function : Yields (fun _ => True) Global.IsWellFormed function := by
  have hstable := isInvariant_true.toIsStable
  have hclear : Turns (fun _ => True) (fun s => IsStart s.body)
      (fun _ => True) clearBody :=
    fun _ _ => ⟨trivial, IsStart.nil⟩
  have hstart := isStable_body IsStart
  have hbody := isStable_body IsBody
  have hdeclarations := hstart.yields_declarations fun s hs _ => meets_declaration hs
  have hstatements := hbody.yields_statements (fun s hs _ => meets_namedStatement hs)
    fun s hs => meets_returnStatement hs
  have hbegin : Turns (fun s => IsStart s.body) (fun s => IsBody s.body)
      (fun _ => True) Parser.advance :=
    hstart.yields_advance.turns fun _ hs => hs.isBody
  refine Yields.current.then fun t => hstable.yields_advance.then fun _ => ?_
  refine (isInvariant_true.yields_identifier _).bind fun name _ => ?_
  -- The body is a preamble from here to `begin`, and laid out from there to `end`.
  refine hclear.bind (fun _ _ => trivial) fun _ _ =>
    Turns.bind (hdeclarations _) (fun _ _ => trivial) fun _ _ => ?_
  refine hbegin.bind (fun _ _ => trivial) fun _ _ =>
    Turns.bind (hstatements _) (fun _ _ => trivial) fun _ _ => ?_
  refine Turns.bind hbody.yields_advance (fun _ _ => trivial) fun _ _ s hs => ?_
  exact ⟨⟨fun _ => rfl, by simp [Global.params], hs⟩, trivial⟩

theorem yields_externalFunction :
    Yields (fun _ => True) Global.IsWellFormed externalFunction := by
  intro s hs
  refine (isInvariant_true.yields_external s hs).imp
    (fun _ h => h) fun g ⟨hfunc, _, hparams⟩ => ?_
  cases g with
  | func => cases hfunc
  | external => exact ⟨by simp [Global.isFunc], fun v hv => (hparams v hv).1, .nil⟩

/-! ## Trees -/

/-- The tree read from any source is well formed. -/
theorem isWellFormed_parse (l : Lexer) : (parse l).tree.IsWellFormed := fun g hg =>
  isInvariant_true.toIsStable.of_mem_globals yields_function yields_externalFunction
    trivial g hg

/-- The tree read from any source can be printed. -/
theorem isPrintable_parse (l : Lexer) :
    (parse l).tree.globals.all Global.isPrintable = true :=
  (isWellFormed_parse l).isPrintable

/-- The tree read from any source has no gaps. -/
theorem isComplete_parse (l : Lexer) : (parse l).tree.isComplete = true :=
  (isWellFormed_parse l).isComplete

/-- Whatever the source, the tree read from it is well formed, and nothing is
missing where it is printed or lowered. -/
theorem parsed_tree_wellFormed (l : Lexer) :
    (parse l).tree.IsWellFormed ∧ (∃ text, (parse l).tree.outline? = .ok text) ∧
      ∃ c, (parse l).tree.compile = .ok c := by
  have hwf := isWellFormed_parse l
  obtain ⟨c, hc, -⟩ := Tree.compile_of_complete hwf.isComplete
  exact ⟨hwf, ⟨(parse l).tree.outline, if_pos hwf.isPrintable⟩, c, hc⟩

end Parser

end Straightline
