import Mathlib
import Straightline.Proofs.Lowering.Independence
import Straightline.Proofs.Target.Globals
import Straightline.Proofs.Tree.Inventory

/-!
# String literals, from the source to the target

A string literal in a function definition becomes a string constant, whatever it
says and even if another one says the same. The constants are numbered in the
order of the literals, and where a literal stands in the source, the value in
the code refers to the constant with its number (`Lowering.Defined.refs_eq`). In
the target each constant keeps its place and gets a zero byte behind its text.
`literals_arrive` follows all literals of a source this way.
-/

namespace Straightline

open Code

/-! ## Literals in a source -/

/-- The text that a word is, with its position. -/
def Word.text? : Position × Word → Option (Position × String)
  | (p, .text x) => some (p, x)
  | _ => none

/-- The string literals of an expression with their positions, in order. -/
def Expr.texts (e : Expr) : List (Position × String) := e.words.filterMap Word.text?

/-- The expressions of a declaration, in order. -/
def Global.exprs (g : Global) : List Expr := g.body.flatMap Stmt.exprs

theorem Expr.literals_eq (e : Expr) : e.literals = e.texts.map (·.2) := by
  induction e with
  | binary op p l r ihl ihr =>
    simp only [Expr.literals, ihl, ihr, Expr.texts, Expr.words,
      List.filterMap_append, List.map_append]
  | _ => rfl

/-- The string literals of a declaration with their positions, in order. -/
def Global.texts (g : Global) : List (Position × String) := g.exprs.flatMap Expr.texts

theorem literals_eq_texts (gs : List Global) :
    gs.flatMap Global.literals = (gs.flatMap Global.texts).map (·.2) := by
  have hexpr : Expr.literals = fun e => e.texts.map (·.2) := funext Expr.literals_eq
  have hglobal : Global.literals = fun g => g.texts.map (·.2) := by
    funext g
    rw [Global.texts, List.map_flatMap, ← hexpr, Global.exprs, List.flatMap_assoc]
    rfl
  rw [hglobal, List.map_flatMap]

theorem texts_wordsAfter (named : Option (Position × String)) (body : List Stmt) :
    (wordsAfter named body).filterMap Word.text? =
      (body.flatMap Stmt.exprs).flatMap Expr.texts := by
  have hexprs (es : List Expr) : (es.flatMap Expr.words).filterMap Word.text? =
      es.flatMap Expr.texts := by
    rw [List.filterMap_flatMap]
    rfl
  induction body generalizing named with
  | nil => rfl
  | cons s body ih =>
    rw [List.flatMap_cons, List.flatMap_append, ← ih none]
    cases s with
    | decl p x type =>
      rw [wordsAfter, List.filterMap_cons_none rfl, ih, ih]
      rfl
    | assign p x values =>
      rw [wordsAfter, List.filterMap_append, List.filterMap_append, hexprs]
      split <;> simp [Word.text?, Stmt.exprs]
    | call p x args =>
      rw [wordsAfter, List.cons_append, List.filterMap_cons_none rfl,
        List.filterMap_append, hexprs]
      rfl
    | ret p values =>
      rw [wordsAfter, List.cons_append, List.filterMap_cons_none rfl,
        List.filterMap_append, hexprs]
      rfl

theorem Global.texts_words (g : Global) : g.words.filterMap Word.text? = g.texts := by
  have hparams : (g.params.map fun v => (v.pos, Word.name v.name)).filterMap
      Word.text? = [] := by
    rw [List.filterMap_map]
    exact List.filterMap_eq_nil_iff.mpr fun _ _ => rfl
  rw [Global.words, List.filterMap_append, hparams, texts_wordsAfter]
  rfl

namespace Parser

/-- Whether a piece of a text is a function definition. -/
def isDefinition (piece : List Token) : Bool :=
  piece.head?.any (·.kind = .keyword .func)

/-- The string literals in the function definitions of a text, in order. -/
def literalTokens (tokens : List Token) : List Token :=
  ((declared tokens).filter isDefinition).flatMap fun piece =>
    piece.filter (·.kind = .text)

theorem text?_of_word? (t : Token) :
    (word? t).bind Word.text? = if t.kind = .text then some (t.pos, t.lexeme)
      else none := by
  rw [word?]
  cases hkind : t.kind with
  | keyword k => cases k <;> rfl
  | _ => rfl

theorem texts_words (ts : List Token) :
    (ts.filterMap word?).filterMap Word.text? =
      (ts.filter (·.kind = .text)).map fun t => (t.pos, t.lexeme) := by
  rw [List.filterMap_filterMap, ← List.filterMap_eq_map, List.filterMap_filter]
  refine List.filterMap_congr fun t _ => ?_
  simpa using text?_of_word? t

/-- A function definition has the literals of its tokens, any
other declaration has none. -/
theorem Accounts.texts_eq {ts : List Token} {g : Global} (h : Accounts ts g) :
    (if isDefinition ts then
      (ts.filter (·.kind = .text)).map fun t => (t.pos, t.lexeme) else []) = g.texts := by
  obtain ⟨t, ht, hkind, -⟩ := h.first
  cases g with
  | func pos name params body =>
    have hdefinition : isDefinition ts = true := by
      simp [isDefinition, Option.mem_def.mp ht, hkind, Global.keyword]
    obtain ⟨p, hwords⟩ := h.words
    rw [if_pos hdefinition, ← texts_words, hwords, List.filterMap_cons_none rfl,
      Global.texts_words]
  | external pos name params =>
    have hdefinition : isDefinition ts = false := by
      simp [isDefinition, Option.mem_def.mp ht, hkind, Global.keyword]
    rw [hdefinition]
    rfl

theorem texts_of_accounts {pieces : List (List Token)} {gs : List Global}
    (h : List.Forall₂ Accounts pieces gs) :
    ((pieces.filter isDefinition).flatMap fun piece =>
      piece.filter (·.kind = .text)).map
      (fun t => (t.pos, t.lexeme)) = gs.flatMap Global.texts := by
  induction h with
  | nil => rfl
  | cons haccounts _ ih =>
    rw [List.flatMap_cons, ← haccounts.texts_eq, ← ih]
    split
    next hdefinition =>
      rw [List.filter_cons_of_pos hdefinition, List.flatMap_cons, List.map_append]
    next hdefinition => rw [List.filter_cons_of_neg hdefinition, List.nil_append]

end Parser

/-- The string literals in the function definitions of a source, in order. -/
def literalsOf (source : List UInt8) (filename : String) : List Token :=
  Parser.literalTokens ((Lexer.ofBytes source filename).drain.tokens.map (·.token))

/-- The literals of a source without errors are those of its tree. -/
theorem Compiles.texts_eq {source : List UInt8} {filename : String} {t : Tree}
    {m : Module} (h : Compiles source filename t m) :
    (literalsOf source filename).map (fun token => (token.pos, token.lexeme)) =
      t.globals.flatMap Global.texts := by
  have hplaced := Parser.placed_start source filename
  have halert := Parser.alert_start hplaced fun _ => Lexical.ne_eof_of_mem_drain
  rw [← h.tree]
  exact Parser.texts_of_accounts (Parser.accounts_globals halert h.read)

/-! ## Values that stand for literals -/

namespace Code

/-- The string constant that a value refers to. -/
def Value.text? : Value → Option Nat
  | .text index => some index
  | _ => none

/-- The values that the expressions of a statement came to: what is stored,
handed over or returned. -/
def Instr.given : Instr → List Value
  | .store value _ => [value]
  | .call _ _ args => args
  | .ret value => value.toList
  | _ => []

/-- The values that the expressions of a function came to, in order. -/
def Function.given (f : Function) : List Value := f.instrs.flatMap Instr.given

/-- The string constants of a module, with their names. -/
def Module.globals (m : Module) : List (String × List UInt8) :=
  m.texts.mapIdx fun index data => (textName index, data)

end Code

/-- Whether an expression is a string literal. -/
def Expr.isText : Expr → Bool
  | .text .. => true
  | _ => false

theorem Expr.exists_of_isText {e : Expr} (h : e.isText = true) :
    ∃ p x, e = .text p x := by
  cases e with
  | text p x => exact ⟨p, x, rfl⟩
  | _ => cases h

namespace Lowering

open Draft

/-- For each expression the string constant that it becomes, if it is a literal
and `n` literals come before. -/
def marks : (n : Nat) → List Expr → List (Option Nat)
  | _, [] => []
  | n, e :: es =>
    (if e.isText then some n else none) :: marks (n + e.literals.length) es

theorem marks_append (n : Nat) (es es' : List Expr) :
    marks n (es ++ es') = marks n es ++
      marks (n + (es.flatMap Expr.literals).length) es' := by
  induction es generalizing n with
  | nil => rfl
  | cons e es ih =>
    rw [List.cons_append, marks, marks, ih, List.flatMap_cons, List.length_append,
      Nat.add_assoc, List.cons_append]

/-- For each value that instructions are given the string constant that it refers to. -/
def refs (is : List Instr) : List (Option Nat) :=
  (is.flatMap Instr.given).map Value.text?

theorem refs_append (is js : List Instr) : refs (is ++ js) = refs is ++ refs js := by
  simp [refs]

theorem refs_push (d : Draft) (i : Instr) :
    refs (d.push i).instrs = refs d.instrs ++ i.given.map Value.text? := by
  rw [push_eq_grow, instrs_grow, refs_append]
  simp [refs]

theorem refs_emit (d : Draft) (x : String) (type : Ty) {i : Temp → Instr}
    (hi : (i (d.nextTemp x type)).given = []) :
    refs (d.emit x type i).instrs = refs d.instrs := by
  rw [emit_eq_grow, instrs_grow, refs_append]
  simp [refs, hi]

/-- Only whole expressions are literals, since operations work on numbers. -/
theorem Lowered.literals_eq_nil {e : Expr} {d d' : Draft} {v : Value}
    (h : Lowered e d v d') (htype : v.type = .i32) : e.literals = [] := by
  induction h with
  | int => rfl
  | text => cases htype
  | ident => rfl
  | binary _ _ ha hb ihl ihr => rw [Expr.literals, ihl ha, ihr hb, List.append_nil]

theorem Lowered.isText_or {e : Expr} {d d' : Draft} {v : Value} (h : Lowered e d v d') :
    e.isText = true ∨ e.literals = [] := by
  cases h with
  | int => exact .inr rfl
  | text => exact .inl rfl
  | ident => exact .inr rfl
  | binary hl hr ha hb => exact .inr ((Lowered.binary hl hr ha hb).literals_eq_nil rfl)

/-- A literal becomes the next string constant, and nothing else becomes one. -/
theorem Lowered.text?_eq {e : Expr} {d d' : Draft} {v : Value} (h : Lowered e d v d') :
    v.text? = if e.isText then some d.texts.length else none := by
  cases h <;> rfl

theorem Lowered.refs_eq {e : Expr} {d d' : Draft} {v : Value} (h : Lowered e d v d') :
    refs d'.instrs = refs d.instrs := by
  induction h with
  | int => rfl
  | text => rfl
  | ident => exact refs_emit _ _ _ rfl
  | binary _ _ _ _ ihl ihr => rw [refs_emit _ _ _ rfl, ihr, ihl]

theorem LoweredAll.text?_eq {es : List Expr} {d d' : Draft} {vs : List Value}
    (h : LoweredAll es d vs d') : vs.map Value.text? = marks d.texts.length es := by
  induction h with
  | nil => rfl
  | @cons e es d v d₁ vs d₂ hv _ ih =>
    rw [List.map_cons, hv.text?_eq, ih, hv.adds.texts, List.length_append,
      List.length_map, marks]

theorem LoweredAll.refs_eq {es : List Expr} {d d' : Draft} {vs : List Value}
    (h : LoweredAll es d vs d') : refs d'.instrs = refs d.instrs := by
  induction h with
  | nil => rfl
  | cons hv _ ih => rw [ih, hv.refs_eq]

theorem LoweredAll.isText_or {es : List Expr} {d d' : Draft} {vs : List Value}
    (h : LoweredAll es d vs d') : ∀ e ∈ es, e.isText = true ∨ e.literals = [] := by
  induction h with
  | nil => simp
  | cons hv _ ih => exact List.forall_mem_cons.mpr ⟨hv.isText_or, ih⟩

/-- The expressions of a statement are lowered to the values that
its instruction is given. -/
theorem Done.loweredAll {m : Module} {s : Stmt} {d d' : Draft} (h : Done m s d d') :
    ∃ vs d₁, LoweredAll s.exprs d vs d₁ ∧
      refs d'.instrs = refs d₁.instrs ++ vs.map Value.text? := by
  cases h with
  | @decl pos x type machine d htype =>
    have hemit : refs (d.emit x (.ptr machine) (.alloca · machine)).instrs =
      refs d.instrs := refs_emit d _ _ rfl
    exact ⟨[], d, .nil, hemit.trans (List.append_nil _).symm⟩
  | assign _ hv => exact ⟨_, _, .cons hv .nil, refs_push _ _⟩
  | call hvs => exact ⟨_, _, hvs, refs_push _ _⟩
  | ret => exact ⟨[], d, .nil, refs_push _ _⟩
  | retValue hv => exact ⟨_, _, .cons hv .nil, refs_push _ _⟩

theorem Done.refs_eq {m : Module} {s : Stmt} {d d' : Draft} (h : Done m s d d') :
    refs d'.instrs = refs d.instrs ++ marks d.texts.length s.exprs := by
  obtain ⟨vs, d₁, hvs, hrefs⟩ := h.loweredAll
  rw [hrefs, hvs.refs_eq, hvs.text?_eq]

/-- Where nothing is wrong, the values of a body refer to string constants just
where there are literals. -/
theorem Body.refs_eq {m : Module} {body : List Stmt} {d d' : Draft}
    (h : Body m body d d') (herrors : d'.errors = d.errors) :
    refs d'.instrs = refs d.instrs ++ marks d.texts.length
      (body.flatMap Stmt.exprs) := by
  induction h with
  | nil => exact (List.append_nil _).symm
  | @done s rest d d₁ d₂ hs _ ih =>
    have hsame : d₁.errors = d.errors := hs.errors_eq.trans (reopen_frame d).2.2.2.1
    have htexts : d₁.texts.length =
        d.texts.length + (s.exprs.flatMap Expr.literals).length := by
      rw [hs.adds.texts, (reopen_frame d).2.1, List.length_append, List.length_map]
      rfl
    rw [ih (herrors.trans hsame.symm), hs.refs_eq, instrs_reopen,
      (reopen_frame d).2.1, htexts, List.flatMap_cons, marks_append, List.append_assoc]
  | dropped hs hrest => exact absurd herrors (hrest.errors_ne_of_dropped hs)

theorem Body.isText_or {m : Module} {body : List Stmt} {d d' : Draft}
    (h : Body m body d d') (herrors : d'.errors = d.errors) :
    ∀ e ∈ body.flatMap Stmt.exprs, e.isText = true ∨ e.literals = [] := by
  induction h with
  | nil => simp
  | @done s rest d d₁ d₂ hs _ ih =>
    have hsame : d₁.errors = d.errors := hs.errors_eq.trans (reopen_frame d).2.2.2.1
    obtain ⟨vs, d', hvs, -⟩ := hs.loweredAll
    rw [List.flatMap_cons]
    exact List.forall_mem_append.mpr ⟨hvs.isText_or, ih (herrors.trans hsame.symm)⟩
  | dropped hs hrest => exact absurd herrors (hrest.errors_ne_of_dropped hs)

theorem refs_result (d : Draft) : refs d.finish.result.instrs = refs d.instrs := by
  have hinstrs : d.finish.result.instrs = d.finish.instrs := by
    simp [Draft.result, Draft.instrs, Function.instrs, block]
  rw [hinstrs, Draft.finish]
  split
  · rfl
  · rw [refs_push]
    exact List.append_nil _

theorem refs_of_bare {f : Function} (h : f.header = f) : refs f.instrs = [] := by
  have hblocks : f.blocks = [] := by rw [← h]; rfl
  rw [Function.instrs, hblocks]
  rfl

/-- What a function that was bare before refers to, once its body is
lowered without errors. -/
theorem Body.refs_result {m : Module} {body : List Stmt} {f : Function}
    {texts : List (List UInt8)} {d : Draft} (h : Body m body (.opened f texts) d)
    (herrors : d.errors = []) (hbare : f.header = f) :
    refs d.finish.result.instrs = marks texts.length (body.flatMap Stmt.exprs) := by
  rw [Lowering.refs_result, h.refs_eq herrors]
  show refs (f.instrs ++ []) ++ marks texts.length (body.flatMap Stmt.exprs) = _
  rw [List.append_nil, refs_of_bare hbare, List.nil_append]

/-! ## Bodies in their order -/

/-- The bodies of declarations, with the places of their functions if
the first of these is `n`. -/
def bodiesFrom : (n : Nat) → List Global → List (Nat × List Stmt)
  | _, [] => []
  | n, .func _ _ _ body :: gs => (n, body) :: bodiesFrom (n + 1) gs
  | n, .external .. :: gs => bodiesFrom (n + 1) gs

theorem le_of_mem_bodiesFrom {n i : Nat} {gs : List Global}
    (h : i ∈ (bodiesFrom n gs).map (·.1)) : n ≤ i := by
  induction gs generalizing n with
  | nil => cases h
  | cons g gs ih =>
    cases g with
    | func pos name params body =>
      rcases List.mem_cons.mp h with rfl | h
      · exact le_rfl
      · exact (Nat.le_succ n).trans (ih h)
    | external pos name params => exact (Nat.le_succ n).trans (ih h)

theorem Declared.placed_eq {d : Declared} {g : Global} (h : (d.add g).errors = []) :
    (d.place? g).toList.map (·, g.body) = bodiesFrom d.module.functions.length [g] := by
  cases g with
  | external => rfl
  | func pos name params body =>
    have hnew : ¬ (d.module.find? (Global.func pos name params body).name).isSome := by
      intro htaken
      rw [Declared.add, if_pos htaken] at h
      simp at h
    have hplace : d.place? (.func pos name params body) =
      some d.module.functions.length := if_neg hnew
    rw [hplace]
    rfl

/-- Without errors the bodies are lowered in the order of the declarations. -/
theorem bodies_foldl_add {gs : List Global} {d : Declared}
    (h : (gs.foldl Declared.add d).errors = []) :
    (gs.foldl Declared.add d).bodies =
      d.bodies ++ bodiesFrom d.module.functions.length gs := by
  induction gs generalizing d with
  | nil => exact (List.append_nil _).symm
  | cons g gs ih =>
    rw [List.foldl_cons] at h ⊢
    have hadd : (d.add g).errors = [] := (foldl_add_eq h).1
    obtain ⟨f, hf, -, -⟩ := Declared.add_eq hadd
    rw [ih h, Declared.bodies_add, Declared.placed_eq hadd, hf, List.length_append,
      List.length_singleton, List.append_assoc]
    cases g <;> rfl

/-- Once bodies are lowered without errors, the values of each function refer to
string constants just where its declaration has literals, counted over all
declarations before it. -/
theorem Defined.refs_eq {gs : List Global} {n : Nat} {c c' : Compiled}
    (h : Defined c (bodiesFrom n gs) c') (herrors : c'.errors = [])
    (hbare : ∀ i f, n ≤ i → c.module.functions[i]? = some f → f.header = f)
    {i : Nat} {g : Global} {f : Function} (hg : gs[i]? = some g)
    (hf : c'.module.functions[n + i]? = some f) :
    refs f.instrs = marks (c.module.texts.length +
      ((gs.take i).flatMap Global.literals).length) g.exprs ∧
      ∀ e ∈ g.exprs, e.isText = true ∨ e.literals = [] := by
  induction gs generalizing n c i with
  | nil => cases hg
  | cons g₀ gs ih =>
    have hlater : n ∉ (bodiesFrom (n + 1) gs).map (·.1) := fun hmem =>
      absurd (le_of_mem_bodiesFrom hmem) (Nat.not_succ_le_self n)
    cases g₀ with
    | external pos name params =>
      cases i with
      | zero =>
        -- A function without a body stays bare.
        cases hg
        rw [Nat.add_zero, Defined.unchanged h hlater] at hf
        exact ⟨refs_of_bare (hbare n f le_rfl hf), by simp [Global.exprs, Global.body]⟩
      | succ i =>
        refine ih h (fun j f hj => hbare j f (by omega)) hg ?_
        rwa [show n + 1 + i = n + (i + 1) by omega]
    | func pos name params body =>
      cases h with
      | @cons _ _ _ _ f₀ d _ hf₀ hbody hrest =>
        have hnone : c.errors ++ d.errors = [] :=
          List.prefix_nil.mp (herrors ▸ hrest.errors_prefix)
        have hd : d.errors = [] := (List.append_eq_nil_iff.mp hnone).2
        cases i with
        | zero =>
          cases hg
          rw [Nat.add_zero, hrest.unchanged hlater, getElem?_install c n d hf₀,
            if_pos rfl] at hf
          cases hf
          exact ⟨hbody.refs_result hd (hbare n f₀ le_rfl hf₀), hbody.isText_or hd⟩
        | succ i =>
          have htexts : d.texts.length =
              c.module.texts.length + (body.flatMap Stmt.literals).length := by
            rw [(hbody.adds hd).texts, List.length_append, List.length_map]
          have hbare' : ∀ j f, n + 1 ≤ j →
              (c.install n d).module.functions[j]? = some f → f.header = f := by
            intro j f hj hfj
            rw [getElem?_install c n d hf₀, if_neg (by omega)] at hfj
            exact hbare j f (by omega) hfj
          have hrefs :=
            ih hrest hbare' hg (by rwa [show n + 1 + i = n + (i + 1) by omega])
          rw [show (c.install n d).module.texts.length = d.texts.length from rfl,
            htexts] at hrefs
          rw [List.take_succ_cons, List.flatMap_cons, List.length_append,
            ← Nat.add_assoc]
          exact hrefs

end Lowering

open Lowering

theorem Tree.refs_eq {t : Tree} {m : Module}
    (h : t.compile = .ok { module := m, errors := [] }) {i : Nat} {g : Global}
    {f : Function} (hg : t.globals[i]? = some g) (hf : m.functions[i]? = some f) :
    refs f.instrs = marks ((t.globals.take i).flatMap Global.literals).length g.exprs ∧
      ∀ e ∈ g.exprs, e.isText = true ∨ e.literals = [] := by
  have hdefined := t.compile_rules
  rw [h] at hdefined
  have hnone : t.declared.errors = [] := List.prefix_nil.mp hdefined.errors_prefix
  have hbodies : t.declared.bodies = bodiesFrom 0 t.globals := bodies_foldl_add hnone
  rw [hbodies] at hdefined
  have hrefs :=
    hdefined.refs_eq rfl (fun j f₀ _ hf₀ =>
      t.declared_proper.bare f₀ (List.mem_of_getElem? hf₀)) hg
    (by rwa [Nat.zero_add])
  rwa [t.texts_declared, List.length_nil, Nat.zero_add] at hrefs

/-! ## Literals and the constants that they become -/

/-- Whether a value refers to the string constant of a literal just if an
expression is that literal. -/
def Refers (literals : List Token) (e : Expr) (v : Value) : Prop :=
  ∀ k, v = .text k ↔ ∃ token, literals[k]? = some token ∧
    e = .text token.pos token.lexeme

theorem Parser.flatten_declared_sublist (tokens : List Token) :
    (declared tokens).flatten.Sublist tokens := by
  fun_induction declared tokens with
  | case1 => exact .slnil
  | case2 t ts _ ih => exact ih.cons t
  | case3 t ts close _ ih =>
    rw [List.flatten_cons, List.cons_append, List.append_assoc]
    have hrest := List.Sublist.append_left ih ((ts.dropWhile (·.kind ≠ close)).take 1)
    rw [List.take_append_drop] at hrest
    have hall := List.Sublist.append_left hrest (ts.takeWhile (·.kind ≠ close))
    rw [List.takeWhile_append_dropWhile] at hall
    exact hall.cons_cons t

theorem Parser.literalTokens_sublist (tokens : List Token) :
    (literalTokens tokens).Sublist tokens := by
  have hflat : literalTokens tokens =
      ((declared tokens).filter isDefinition).flatten.filter (·.kind = .text) := by
    rw [literalTokens, List.filter_flatten, List.flatMap_def]
  rw [hflat]
  exact List.filter_sublist.trans
    ((List.Sublist.flatten List.filter_sublist).trans
    (flatten_declared_sublist tokens))

/-- The value of one expression refers to a literal as it should, if literals
stand in different places. -/
theorem refers_of_text? {literals : List Token}
    (hplaces : (literals.map (·.pos)).Nodup) {e : Expr} {v : Value} {n : Nat}
    (he : e.isText = true → ∃ token, literals[n]? = some token ∧
      e = .text token.pos token.lexeme)
    (hv : v.text? = if e.isText then some n else none) : Refers literals e v := by
  intro k
  cases htext : e.isText with
  | false =>
    rw [htext, if_neg (by decide)] at hv
    constructor
    · rintro rfl
      cases hv
    · rintro ⟨token, -, rfl⟩
      cases htext
  | true =>
    obtain ⟨token, htoken, rfl⟩ := he htext
    obtain rfl : v = .text n := by
      rw [htext, if_pos rfl] at hv
      cases v <;> cases hv
      rfl
    constructor
    · rintro ⟨⟩
      exact ⟨token, htoken, rfl⟩
    · rintro ⟨token', htoken', heq⟩
      -- Two literals in one place are the same literal.
      have hpos : (literals.map (·.pos))[n]? = (literals.map (·.pos))[k]? := by
        rw [List.getElem?_map, List.getElem?_map, htoken, htoken', Option.map_some,
          Option.map_some, (Expr.text.inj heq).1]
      have hn : n < (literals.map (·.pos)).length := by
        rw [List.length_map]
        exact (List.getElem?_eq_some_iff.mp htoken).1
      rw [(List.getElem?_inj hn hplaces).mp hpos]

theorem forall₂_refers {literals : List Token}
    (hplaces : (literals.map (·.pos)).Nodup) {es : List Expr} {vs : List Value}
    {before after : List (Position × String)}
    (htexts : literals.map (fun token => (token.pos, token.lexeme)) =
      before ++ es.flatMap Expr.texts ++ after)
    (hvs : vs.map Value.text? = marks before.length es) :
    List.Forall₂ (Refers literals) es vs := by
  induction es generalizing vs before with
  | nil =>
    rw [marks, List.map_eq_nil_iff] at hvs
    rw [hvs]
    exact .nil
  | cons e es ih =>
    cases vs with
    | nil => cases hvs
    | cons v vs =>
      rw [List.map_cons, marks, List.cons.injEq] at hvs
      obtain ⟨hv, hvs⟩ := hvs
      rw [List.flatMap_cons] at htexts
      refine .cons (refers_of_text? hplaces (fun htext => ?_) hv)
        (@ih vs (before ++ e.texts) ?_ ?_)
      · obtain ⟨p, x, rfl⟩ := Expr.exists_of_isText htext
        have hget : (literals.map fun token =>
            (token.pos, token.lexeme))[before.length]? = some (p, x) := by
          rw [htexts, List.append_assoc, List.getElem?_append_right le_rfl,
            Nat.sub_self]
          rfl
        rw [List.getElem?_map] at hget
        obtain ⟨token, htoken, heq⟩ := Option.map_eq_some_iff.mp hget
        cases heq
        exact ⟨token, htoken, rfl⟩
      · rw [htexts]
        simp
      · rw [hvs, List.length_append, e.literals_eq, List.length_map]

/-- No two literals stand in one place. -/
theorem nodup_literalsOf (source : List UInt8) (filename : String) :
    ((literalsOf source filename).map (·.pos)).Nodup := by
  have hordered :=
    (Parser.ordered_drain source filename).sublist (Parser.literalTokens_sublist _)
  refine List.pairwise_map.mpr (hordered.imp fun {a b} hlt heq => ?_)
  rw [heq] at hlt
  exact lt_irrefl _ hlt

section
variable {source : List UInt8} {filename : String} {t : Tree} {m : Module}
  (h : Compiles source filename t m)
include h

/-- The string constants of a module are the literals of its source. -/
theorem Compiles.globals_eq :
    m.globals = (literalsOf source filename).mapIdx fun k token =>
      (textName k, Rune.utf8 token.lexeme) := by
  have hliterals : t.literals = (literalsOf source filename).map (·.lexeme) := by
    rw [Tree.literals, literals_eq_texts, ← h.texts_eq, List.map_map]
    rfl
  rw [Module.globals, (Tree.compile_names h.lowered).2, hliterals, List.map_map]
  apply List.ext_getElem?
  intro k
  simp [List.getElem?_mapIdx, Function.comp_def]

/-- Each literal of a source is an expression of its tree. -/
theorem Compiles.mem_exprs {token : Token}
    (htoken : token ∈ literalsOf source filename) :
    .text token.pos token.lexeme ∈ t.exprs := by
  have hmem : (token.pos, token.lexeme) ∈ t.globals.flatMap Global.texts := by
    rw [← h.texts_eq]
    exact List.mem_map_of_mem htoken
  obtain ⟨g, hg, hmem⟩ := List.mem_flatMap.mp hmem
  obtain ⟨e, he, hmem⟩ := List.mem_flatMap.mp hmem
  obtain ⟨k, hk⟩ := List.getElem?_of_mem hg
  obtain ⟨f, hf⟩ : ∃ f, m.functions[k]? = some f := by
    have hlength := (Tree.compile_names h.lowered).1.length_eq
    have hlt := (List.getElem?_eq_some_iff.mp hk).1
    exact ⟨_, List.getElem?_eq_getElem (hlength ▸ hlt)⟩
  -- An expression with a literal in it is this literal.
  rcases (Tree.refs_eq h.lowered hk hf).2 e he with htext | hnone
  · obtain ⟨p, x, rfl⟩ := Expr.exists_of_isText htext
    cases List.mem_singleton.mp hmem
    exact List.mem_flatMap.mpr ⟨g, hg, he⟩
  · rw [e.literals_eq, List.map_eq_nil_iff] at hnone
    rw [hnone] at hmem
    cases hmem

/-- The values in the code refer to the constants of the literals
that stand in their places. -/
theorem Compiles.refers :
    List.Forall₂ (fun g f =>
      List.Forall₂ (Refers (literalsOf source filename)) g.exprs f.given) t.globals
      m.functions := by
  have hlength := (Tree.compile_names h.lowered).1.length_eq
  refine forall₂_of_getElem? hlength.symm fun k g f hg hf => ?_
  obtain ⟨hrefs, -⟩ := Tree.refs_eq h.lowered hg hf
  have hsplit : t.globals = t.globals.take k ++ g :: t.globals.drop (k + 1) := by
    obtain ⟨hk, rfl⟩ := List.getElem?_eq_some_iff.mp hg
    rw [List.getElem_cons_drop, List.take_append_drop]
  have htexts := h.texts_eq
  rw [hsplit, List.flatMap_append, List.flatMap_cons, ← List.append_assoc] at htexts
  refine forall₂_refers (nodup_literalsOf source filename) htexts (hrefs.trans ?_)
  rw [literals_eq_texts, List.length_map]

end

/-- The lines of the target text that define constants are those of the string
constants of the module. -/
theorem Code.Module.IsSound.defines {m : Module} (h : m.IsSound) :
    ∃ text, m.targetText = .ok text ∧
      List.Forall₂ (fun line global =>
        Target.Defines line global.1 (global.2 ++ [0]))
        (Target.globalsIn text.toList) m.globals := by
  obtain ⟨out, text, -, himage, hprint, htext⟩ := h.targetText_image
  refine ⟨text, htext, ?_⟩
  rw [Target.Module.globalsIn_print hprint, himage.texts, Module.globals]
  refine forall₂_of_getElem? (by simp) fun k line global hline hglobal => ?_
  rw [List.getElem?_mapIdx, List.getElem?_map, Option.map_map] at hline
  rw [List.getElem?_mapIdx] at hglobal
  obtain ⟨data, hdata, rfl⟩ := Option.map_eq_some_iff.mp hglobal
  rw [hdata, Option.map_some] at hline
  cases hline
  exact Target.defines_textLine k (data ++ [0])

/-- The string literals in the function definitions of a source without errors
arrive intact and in order. The module has one string constant for each,
numbered in the order of the source and with the bytes of its text. Each literal
is an expression of the tree, and where an expression stands, the value in the
code refers to a constant just if the expression is the literal of this
constant. The lines that define constants in the target text, with or without
the optimizer, are those of the string constants, and what stands in their
quotes can be read back: the bytes of the text and a zero byte. -/
theorem literals_arrive (source : List UInt8) (filename : String) (t : Tree)
    (m : Module) (logging : Bool) (h : Compiles source filename t m) :
    let literals := literalsOf source filename
    m.globals = (literals.mapIdx fun k token => (textName k, Rune.utf8 token.lexeme)) ∧
      (∀ token ∈ literals, .text token.pos token.lexeme ∈ t.exprs) ∧
      List.Forall₂ (fun g f => List.Forall₂ (Refers literals) g.exprs f.given)
        t.globals m.functions ∧
      (∃ text, m.targetText = .ok text ∧
        List.Forall₂ (fun line global => Target.Defines line global.1 (global.2 ++ [0]))
          (Target.globalsIn text.toList) m.globals) ∧
      ∃ r text, ({ logging } : Optimize.Optimizer).optimize m = .ok r ∧ r.error = none ∧
        r.code.targetText = .ok text ∧
        List.Forall₂ (fun line global => Target.Defines line global.1 (global.2 ++ [0]))
          (Target.globalsIn text.toList) m.globals := by
  refine ⟨h.globals_eq, fun token => h.mem_exprs, h.refers, h.isSound.defines, ?_⟩
  obtain ⟨r, -, hr, herror, -, hsound, -, htexts, -⟩ := h.emit_optimized logging
  obtain ⟨text, htext, hdefines⟩ := hsound.defines
  have hglobals : r.code.globals = m.globals := by
    rw [Module.globals, htexts, Module.globals]
  exact ⟨r, text, hr, herror, htext, hglobals ▸ hdefines⟩

/-- Two functions and a literal outside of them, a text that comes twice, and
bytes that cannot be written as they are. -/
theorem literals_arrive_twice :
    let source :=
      Rune.utf8
        ("extern func put(s: str, n: int)\n\"lost\"\nfunc f\nt: str = \"é\\n\"\nbegin\n" ++
          "put(\"\\\"\", 1 + 2);\nput(t, 3);\nend\nfunc g\nbegin\nput(\"\\\"\", 0);\nreturn\nend\n")
    let literals := literalsOf source "f.ok"
    ∃ t m, Compiles source "f.ok" t m ∧
      m.globals = [(".str.0", [0xc3, 0xa9, 0x0a]), (".str.1", [0x5c, 0x22]),
        (".str.2", [0x5c, 0x22])] ∧
      (∀ token ∈ literals, .text token.pos token.lexeme ∈ t.exprs) ∧
      List.Forall₂ (fun g f => List.Forall₂ (Refers literals) g.exprs f.given)
        t.globals m.functions ∧
      ∃ text, m.targetText = .ok text ∧
        List.Forall₂ (fun line global => Target.Defines line global.1 (global.2 ++ [0]))
          (Target.globalsIn text.toList) m.globals := by
  intro source literals
  have hsome : (emitted? source "f.ok").isSome = true := by decide +kernel
  have hglobals : (literals.mapIdx fun k token =>
      (textName k, Rune.utf8 token.lexeme)) =
      [(".str.0", [0xc3, 0xa9, 0x0a]), (".str.1", [0x5c, 0x22]),
        (".str.2", [0x5c, 0x22])] := by decide +kernel
  obtain ⟨out, hout⟩ := Option.isSome_iff_exists.mp hsome
  obtain ⟨t, m, h, -⟩ := compiles_of_emitted? hout
  obtain ⟨heq, hexprs, hrefers, htext, -⟩ := literals_arrive source "f.ok" t m false h
  exact ⟨t, m, h, heq.trans hglobals, hexprs, hrefers, htext⟩

end Straightline
