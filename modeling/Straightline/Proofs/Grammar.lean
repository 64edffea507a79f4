import Mathlib
import Straightline.Proofs.Token.Munch
import Straightline.Tree

/-!
# The grammar

A `Program` is a derivation of the source grammar. It is written as a list of
lexemes (`Program.lexemes`), one line for each header, declaration, statement
and closing word, and as a text with any blanks between lexemes and a comment at
the end of any line (`Spells`). It says what `Program.tree` says, where every
chain of operators is nested to the right; positions are left out of that tree,
and `Tree.unplaced` leaves them out of any other.

Names, numerals and literals carry what makes them such, so every
`Program` is one of the language.
-/

namespace Straightline

/-! ## Trees without positions -/

/-- The expression without its positions. -/
def Expr.unplaced : Expr → Expr
  | .int _ n => .int {} n
  | .text _ s => .text {} s
  | .ident _ x => .ident {} x
  | .binary op _ left right => .binary op {} left.unplaced right.unplaced
  | .hole => .hole

/-- The variable without its position. -/
def Variable.unplaced (v : Variable) : Variable := { v with pos := {} }

/-- The statement without its positions. -/
def Stmt.unplaced : Stmt → Stmt
  | .decl _ x type => .decl {} x type
  | .assign _ x values => .assign {} x (values.map Expr.unplaced)
  | .call _ f args => .call {} f (args.map Expr.unplaced)
  | .ret _ values => .ret {} (values.map Expr.unplaced)

/-- The declaration without its positions. -/
def Global.unplaced : Global → Global
  | .func _ f params body =>
    .func {} f (params.map Variable.unplaced) (body.map Stmt.unplaced)
  | .external _ f params => .external {} f (params.map Variable.unplaced)

/-- The tree without its positions. -/
def Tree.unplaced (t : Tree) : Tree :=
  { t with globals := t.globals.map Global.unplaced }

namespace Grammar

open Lexical (IsBlank IsWordRune IsReserved IsNumeral Piece quote written meaning)

/-! ## Words -/

/-- A name: a word that is neither reserved nor a numeral. -/
structure Name where
  runes : List Rune
  nonempty : runes ≠ []
  word : ∀ r ∈ runes, IsWordRune r
  free : ¬ IsReserved (runes.map Rune.toChar)
  notNumeral : ∀ n, ¬ IsNumeral (runes.map Rune.toChar) n

theorem map_toChar_ofString (w : String) :
    (Rune.ofString w).map Rune.toChar = w.toList := by
  rw [Rune.ofString, List.map_map]
  exact List.map_id _

/-- A word that is a name. -/
def Name.ofWord (w : String)
    (h : w.toList ≠ [] ∧ w.toList.all Lexer.isWord = true ∧ Keyword.ofWord? w = none ∧
      w.toList.all Decimal.isDigit = false) : Name where
  runes := Rune.ofString w
  nonempty := fun hnil => h.1 (List.map_eq_nil_iff.mp hnil)
  word := by
    intro r hr
    obtain ⟨c, hc, rfl⟩ := List.mem_map.mp hr
    exact Lexical.isWord_iff.mp (List.all_eq_true.mp h.2.1 c hc)
  free := by
    rw [map_toChar_ofString, ← Lexical.ofWord?_eq_none_iff, String.ofList_toList]
    exact h.2.2.1
  notNumeral := by
    intro n hn
    rw [map_toChar_ofString, Lexical.isNumeral_iff, h.2.2.2] at hn
    cases hn.1

/-- The text of a name. -/
def Name.text (n : Name) : String := String.ofList (n.runes.map Rune.toChar)

/-- An integer literal that fits 32 bits. -/
structure Numeral where
  runes : List Rune
  value : Nat
  nonempty : runes ≠ []
  isNumeral : IsNumeral (runes.map Rune.toChar) value
  inRange : value ≤ 2147483647

/-! ## Derivations -/

/-- A literal or a name. -/
inductive Atom where
  | name (n : Name)
  | numeral (n : Numeral)
  | text (ps : List Piece)

/-- A chain of atoms with operators between them. -/
structure Formula where
  first : Atom
  rest : List (Operator × Atom)

/-- The name of a type. -/
inductive TypeName where
  | int
  | str

/-- A name with a type: a declaration line or a parameter. -/
structure Field where
  name : Name
  type : TypeName

/-- A statement. -/
inductive Sentence where
  | assign (name : Name) (value : Formula)
  | call (name : Name) (args : List Formula)
  | ret (value : Option Formula)

/-- A function or an external declaration. -/
inductive Item where
  | func (name : Name) (fields : List Field) (body : List Sentence)
  | external (name : Name) (params : List Field)

/-- A derivation of the grammar. -/
abbrev Program := List Item

/-! ## Lexemes -/

/-- What is written in a program. -/
inductive Lexeme where
  | keyword (k : Keyword)
  | name (n : Name)
  | numeral (n : Numeral)
  | text (ps : List Piece)
  | mark (m : Mark)
  | operator (op : Operator)

/-- The character of a mark. -/
def markChar : Mark → Char
  | .newline => '\n'
  | .semicolon => ';'
  | .colon => ':'
  | .assign => '='
  | .leftParen => '('
  | .rightParen => ')'
  | .comma => ','

/-- The character of an operator sign. -/
def signChar : Operator → Char
  | .add => '+'
  | .sub => '-'
  | .mul => '*'
  | .div => '/'

namespace Lexeme

/-- The runes of a lexeme. -/
def runes : Lexeme → List Rune
  | .keyword k => Rune.ofString k.spelling
  | .name n => n.runes
  | .numeral n => n.runes
  | .text ps => quote :: written ps ++ [quote]
  | .mark m => [.char (markChar m)]
  | .operator op => [.char (signChar op)]

/-- Whether the lexeme is a word, so that it would run into another one next to it. -/
def isWord : Lexeme → Bool
  | .keyword _ | .name _ | .numeral _ => true
  | _ => false

/-- The token that a lexeme at `pos` is. -/
def token (pos : Position) : Lexeme → Token
  | .keyword k => { kind := .keyword k, lexeme := k.spelling, pos }
  | .name n => { kind := .identifier, lexeme := n.text, pos }
  | .numeral n =>
    { kind := .integer, lexeme := String.ofList (n.runes.map Rune.toChar),
      value := Int32.ofNat n.value, pos }
  | .text ps => { kind := .text, lexeme := meaning ps, pos }
  | .mark m => { kind := .mark m, lexeme := String.singleton (markChar m), pos }
  | .operator op =>
    { kind := .operator op, lexeme := String.singleton (signChar op), pos }

/-- The end of a line. -/
abbrev newline : Lexeme := .mark .newline

end Lexeme

/-- Lists with commas between them. -/
def separated : List (List Lexeme) → List Lexeme
  | [] => []
  | [xs] => xs
  | xs :: ys :: rest => xs ++ .mark .comma :: separated (ys :: rest)

/-- The keyword of a type. -/
def TypeName.keyword : TypeName → Keyword
  | .int => .int
  | .str => .str

/-- How an atom is written. -/
def Atom.lexeme : Atom → Lexeme
  | .name n => .name n
  | .numeral n => .numeral n
  | .text ps => .text ps

/-- How the part of a chain behind its first atom is written. -/
def tailLexemes (rest : List (Operator × Atom)) : List Lexeme :=
  rest.flatMap fun (op, a) => [.operator op, a.lexeme]

/-- How a chain is written. -/
def Formula.lexemes (e : Formula) : List Lexeme := e.first.lexeme :: tailLexemes e.rest

/-- How a declaration line or a parameter is written. -/
def Field.lexemes (f : Field) : List Lexeme :=
  [.name f.name, .mark .colon, .keyword f.type.keyword]

/-- How a statement is written. -/
def Sentence.lexemes : Sentence → List Lexeme
  | .assign x e => .name x :: .mark .assign :: e.lexemes
  | .call f args =>
    .name f :: .mark .leftParen ::
      (separated (args.map Formula.lexemes) ++ [.mark .rightParen, .mark .semicolon])
  | .ret none => [.keyword .returns]
  | .ret (some e) => .keyword .returns :: e.lexemes

/-- Lexemes on lines of their own. -/
def lines (xss : List (List Lexeme)) : List Lexeme :=
  xss.flatMap fun xs => xs ++ [.newline]

/-- How a declaration is written. -/
def Item.lexemes : Item → List Lexeme
  | .func f fields body =>
    lines ([[.keyword .func, .name f]] ++ fields.map Field.lexemes ++
      [[.keyword .begins]] ++ body.map Sentence.lexemes ++ [[.keyword .ends]])
  | .external f params =>
    lines [.keyword .external :: .keyword .func :: .name f :: .mark .leftParen ::
      (separated (params.map Field.lexemes) ++ [.mark .rightParen])]

/-- How a program is written. -/
def Program.lexemes (p : Program) : List Lexeme := p.flatMap Item.lexemes

/-! ## Texts -/

/-- What may stand in front of a lexeme: blanks, one at least between two words,
and a comment behind them where a line ends. -/
inductive Gap (afterWord : Bool) (x : Lexeme) : List Rune → Prop
  | blanks {bs : List Rune} : (∀ r ∈ bs, IsBlank r) →
      (afterWord = true → x.isWord = true → bs ≠ []) →
      Gap afterWord x bs
  | comment {bs text : List Rune} {r : Rune} : x = .newline →
      (∀ r ∈ bs, IsBlank r) → r.toChar = '#' →
      (∀ c ∈ text, c.toChar ≠ '\n') → Gap afterWord x (bs ++ r :: text)

/-- Texts of the lexemes `xs`; `afterWord` says whether a word stands right in front. -/
inductive Spells : (afterWord : Bool) → (xs : List Lexeme) → (text : List Rune) → Prop
  | done {afterWord : Bool} {bs : List Rune} : (∀ r ∈ bs, IsBlank r) →
      Spells afterWord [] bs
  | cons {afterWord : Bool} {x : Lexeme} {xs : List Lexeme} {gap text : List Rune} :
      Gap afterWord x gap → Spells x.isWord xs text →
      Spells afterWord (x :: xs) (gap ++ x.runes ++ text)

/-! ## Trees -/

/-- What an atom says. -/
def Atom.expr : Atom → Expr
  | .name n => .ident {} n.text
  | .numeral n => .int {} (Int32.ofNat n.value)
  | .text ps => .text {} (meaning ps)

/-- What a chain says: all behind an operator is its right side. -/
def nested : Atom → List (Operator × Atom) → Expr
  | a, [] => a.expr
  | a, (op, b) :: rest => .binary (.arith op) {} a.expr (nested b rest)

/-- What a chain says. -/
def Formula.expr (e : Formula) : Expr := nested e.first e.rest

/-- The type of a name. -/
def TypeName.type : TypeName → DataType
  | .int => .int
  | .str => .str

/-- What a declaration line says. -/
def Field.decl (f : Field) : Stmt := .decl {} f.name.text (some f.type.type)

/-- What a parameter says. -/
def Field.variable (f : Field) : Variable :=
  { name := f.name.text, type := some f.type.type, pos := {} }

/-- What a statement says. -/
def Sentence.stmt : Sentence → Stmt
  | .assign x e => .assign {} x.text [e.expr]
  | .call f args => .call {} f.text (args.map Formula.expr)
  | .ret e => .ret {} (e.toList.map Formula.expr)

/-- What a declaration says. -/
def Item.global : Item → Global
  | .func f fields body =>
    .func {} f.text [] (fields.map Field.decl ++ body.map Sentence.stmt)
  | .external f params => .external {} f.text (params.map Field.variable)

/-- What a program says. -/
def Program.tree (p : Program) (filename : String) : Tree :=
  { filename, globals := p.map Item.global }

/-! ## Texts split into their lexemes -/

/-- Tokens that are those of some lexemes, at any positions. -/
def Reads (xs : List Lexeme) (ts : List Scanned) : Prop :=
  List.Forall₂ (fun x t => ∃ p, t = { token := Lexeme.token p x }) xs ts

theorem not_isWordRune_of_isBlank {r : Rune} (h : IsBlank r) : ¬ IsWordRune r := by
  rintro ⟨hnot, -⟩
  simp only [IsBlank, List.mem_cons, List.not_mem_nil, or_false] at h hnot
  tauto

theorem not_digit_of_punctuation? {c : Char} {kind : Token.Kind}
    (h : Token.punctuation? c = some kind) : ¬ ('0' ≤ c ∧ c ≤ '9') := by
  unfold Token.punctuation? at h
  split at h <;> cases h <;> decide

theorem isWordRune_of_digit {r : Rune} (h : '0' ≤ r.toChar ∧ r.toChar ≤ '9') :
    IsWordRune r := by
  refine ⟨fun hmem => ?_, ?_⟩
  · simp only [List.mem_cons, List.not_mem_nil, or_false] at hmem
    rcases hmem with hc | hc | hc | hc | hc <;> rw [hc] at h <;> revert h <;> decide
  · cases hmark : Token.punctuation? r.toChar with
    | none => rfl
    | some kind => exact absurd h (not_digit_of_punctuation? hmark)

/-- Keywords start with a letter. -/
theorem not_isNumeral_keyword (k : Keyword) (n : Nat) :
    ¬ IsNumeral k.spelling.toList n := by
  rintro ⟨hdigits, -⟩
  cases k <;> exact absurd (hdigits _ List.mem_cons_self) (by decide)

theorem isWordRune_of_keyword {k : Keyword} :
    ∀ r ∈ Rune.ofString k.spelling, IsWordRune r := by
  unfold IsWordRune
  cases k <;> decide

/-- A word is read as a whole, and as the token that its lexeme is. -/
theorem Lexeme.names {x : Lexeme} (h : x.isWord = true) (p : Position) :
    x.runes ≠ [] ∧ (∀ r ∈ x.runes, IsWordRune r) ∧
      Lexical.Names (x.runes.map Rune.toChar) p { token := x.token p } := by
  cases x with
  | keyword k =>
    refine ⟨by cases k <;> decide, isWordRune_of_keyword, ?_⟩
    have hname : Lexical.Names k.spelling.toList p
        { token := { kind := .keyword k, lexeme := String.ofList k.spelling.toList,
                     pos := p } } := .keyword rfl
    rw [String.ofList_toList] at hname
    rw [Lexeme.runes, map_toChar_ofString]
    exact hname
  | name n => exact ⟨n.nonempty, n.word, .identifier n.free n.notNumeral⟩
  | numeral n =>
    have hword : ∀ r ∈ n.runes, IsWordRune r := fun r hr =>
      isWordRune_of_digit (n.isNumeral.1 _ (List.mem_map_of_mem hr))
    have hfree : ¬ IsReserved (n.runes.map Rune.toChar) := by
      rintro ⟨k, hk⟩
      exact not_isNumeral_keyword k n.value (hk ▸ n.isNumeral)
    exact ⟨n.nonempty, hword, .integer hfree n.isNumeral n.inRange⟩
  | text ps => cases h
  | mark m => cases h
  | operator op => cases h

/-- What is no word starts with a rune that ends any word. -/
theorem Lexeme.not_isWordRune_head {x : Lexeme} (h : x.isWord = false) :
    ∀ r ∈ x.runes.head?, ¬ IsWordRune r := by
  unfold IsWordRune
  cases x with
  | text ps => simp [runes, quote, Rune.toChar]
  | mark m => cases m <;> simp [runes, markChar, Rune.toChar, Token.punctuation?]
  | operator op => cases op <;> simp [runes, signChar, Rune.toChar, Token.punctuation?]
  | _ => cases h

theorem Lexeme.runes_ne_nil (x : Lexeme) : x.runes ≠ [] := by
  cases h : x.isWord with
  | true => exact (x.names h {}).1
  | false =>
    cases x with
    | text ps => simp [runes]
    | mark m => simp [runes]
    | operator op => simp [runes]
    | _ => cases h

/-- A text behind a word does not go on with that word. -/
theorem Spells.not_isWordRune_head {xs : List Lexeme} {text : List Rune}
    (h : Spells true xs text) : ∀ r ∈ text.head?, ¬ IsWordRune r := by
  intro r hr
  cases h with
  | done hbs => exact not_isWordRune_of_isBlank (hbs r (List.mem_of_mem_head? hr))
  | @cons _ x xs gap text hgap _ =>
    have hx : (x.runes ++ text).head? = x.runes.head? := by
      rw [List.head?_append_of_ne_nil _ x.runes_ne_nil]
    cases hgap with
    | blanks hbs hapart =>
      cases gap with
      | nil =>
        -- Without a blank in between the next lexeme is no word.
        have hword : x.isWord = false := by
          by_contra hword
          exact hapart rfl (by simpa using hword) rfl
        rw [List.nil_append, hx] at hr
        exact x.not_isWordRune_head hword r hr
      | cons b bs =>
        cases hr
        exact not_isWordRune_of_isBlank (hbs r (by simp))
    | @comment bs line c _ hbs hc _ =>
      cases bs with
      | nil =>
        cases hr
        exact fun hword => hword.1 (by simp [hc])
      | cons b bs =>
        cases hr
        exact not_isWordRune_of_isBlank (hbs r (by simp))

theorem splits_blanks {p q : Position} {bs rs : List Rune} {ts : List Scanned}
    (hbs : ∀ r ∈ bs, IsBlank r) (h : Lexical.Splits (p.advanceAll bs) rs ts q) :
    Lexical.Splits p (bs ++ rs) ts q := by
  induction bs generalizing p with
  | nil => exact h
  | cons b bs ih =>
    rw [List.forall_mem_cons] at hbs
    exact .blank hbs.1 (ih hbs.2 h)

theorem punctuation?_markChar (m : Mark) :
    Token.punctuation? (markChar m) = some (.mark m) := by
  cases m <;> rfl

theorem punctuation?_signChar (op : Operator) :
    Token.punctuation? (signChar op) = some (.operator op) := by
  cases op <;> rfl

/-- A lexeme in front of a text that does not go on with it is
split off as its token. -/
theorem Lexeme.splits {x : Lexeme} {p q : Position} {rs : List Rune} {ts : List Scanned}
    (hrs : x.isWord = true → ∀ r ∈ rs.head?, ¬ IsWordRune r)
    (h : Lexical.Splits (p.advanceAll x.runes) rs ts q) :
    Lexical.Splits p (x.runes ++ rs) ({ token := x.token p } :: ts) q := by
  cases hword : x.isWord with
  | true =>
    obtain ⟨hne, hrunes, hnames⟩ := x.names hword p
    exact .word hne hrunes (hrs hword) hnames h
  | false =>
    cases x with
    | text ps => exact .text h
    | mark m => exact .mark (punctuation?_markChar m) h
    | operator op => exact .mark (punctuation?_signChar op) h
    | _ => cases hword

/-- A text of some lexemes splits into their tokens. -/
theorem Spells.splits {afterWord : Bool} {xs : List Lexeme} {text : List Rune}
    (h : Spells afterWord xs text) (p : Position) :
    ∃ ts q, Lexical.Splits p text ts q ∧ Reads xs ts := by
  induction h generalizing p with
  | @done _ bs hbs =>
    refine ⟨[], p.advanceAll bs, ?_, .nil⟩
    rw [← List.append_nil bs]
    exact splits_blanks hbs (by simpa using .done)
  | @cons _ x xs gap text hgap hrest ih =>
    obtain ⟨ts, q, hsplits, hreads⟩ := ih ((p.advanceAll gap).advanceAll x.runes)
    have hnext : x.isWord = true → ∀ r ∈ text.head?, ¬ IsWordRune r := fun hword =>
      (hword ▸ hrest).not_isWordRune_head
    refine ⟨{ token := x.token (p.advanceAll gap) } :: ts, q, ?_, .cons ⟨_, rfl⟩ hreads⟩
    have hx := x.splits hnext hsplits
    rw [List.append_assoc]
    cases hgap with
    | blanks hbs _ => exact splits_blanks hbs hx
    | @comment bs line c hline hbs hc htext =>
      rw [List.append_assoc]
      refine splits_blanks hbs (.comment hc htext ?_ ?_)
      · subst hline
        intro r hr
        cases hr
        rfl
      · rw [← Lexical.advanceAll_append]
        exact hx

/-! ## Checking a text -/

/-- The gap that a text starts with, and what is behind it. A comment belongs to
the gap in front of a line end. -/
def splitGap (x : Lexeme) (text : List Rune) : List Rune × List Rune :=
  let blanks := text.takeWhile (Lexer.isBlank ·.toChar)
  match x, text.dropWhile (Lexer.isBlank ·.toChar) with
  | .mark .newline, r :: rest =>
    if r.toChar = '#' then
      (blanks ++ r :: rest.takeWhile (·.toChar ≠ '\n'),
        rest.dropWhile (·.toChar ≠ '\n'))
    else
      (blanks, r :: rest)
  | _, rest => (blanks, rest)

/-- Whether a text is one of the lexemes `xs`; it finds the texts in which each
gap is as long as can be. -/
def isSpelling : (afterWord : Bool) → List Lexeme → List Rune → Bool
  | _, [], text => text.all (Lexer.isBlank ·.toChar)
  | afterWord, x :: xs, text =>
    let (gap, rest) := splitGap x text
    (!afterWord || !x.isWord || !gap.isEmpty) && x.runes.isPrefixOf rest &&
      isSpelling x.isWord xs (rest.drop x.runes.length)

theorem splitGap_spec (x : Lexeme) (text : List Rune) :
    text = (splitGap x text).1 ++ (splitGap x text).2 ∧
      ∀ afterWord : Bool, (afterWord = true → x.isWord = true →
        (splitGap x text).1 ≠ []) → Gap afterWord x (splitGap x text).1 := by
  have hblanks : ∀ r ∈ text.takeWhile (Lexer.isBlank ·.toChar), IsBlank r := fun r hr =>
    Lexical.isBlank_iff.mp (List.mem_takeWhile_imp
      (p := fun r : Rune => Lexer.isBlank r.toChar) hr)
  have hsplit :=
    List.takeWhile_append_dropWhile (p := (Lexer.isBlank ·.toChar)) (l := text)
  unfold splitGap
  split
  · next r rest hdrop =>
    rw [hdrop] at hsplit
    split
    · next hr =>
      refine ⟨?_, fun _ _ => .comment rfl hblanks hr fun c hc => ?_⟩
      · simpa [List.takeWhile_append_dropWhile] using hsplit.symm
      · simpa using List.mem_takeWhile_imp hc
    · exact ⟨hsplit.symm, fun _ hapart => .blanks hblanks hapart⟩
  · exact ⟨hsplit.symm, fun _ hapart => .blanks hblanks hapart⟩

theorem spells_of_isSpelling {afterWord : Bool} {xs : List Lexeme} {text : List Rune}
    (h : isSpelling afterWord xs text = true) : Spells afterWord xs text := by
  induction xs generalizing afterWord text with
  | nil => exact .done fun r hr => Lexical.isBlank_iff.mp (List.all_eq_true.mp h r hr)
  | cons x xs ih =>
    obtain ⟨htext, hgap⟩ := splitGap_spec x text
    simp only [isSpelling, Bool.and_eq_true, Bool.or_eq_true, Bool.not_eq_true'] at h
    obtain ⟨⟨hapart, hruns⟩, hrest⟩ := h
    obtain ⟨rest, hrunes⟩ := List.isPrefixOf_iff_prefix.mp hruns
    rw [← hrunes, List.drop_left] at hrest
    rw [htext, ← hrunes, ← List.append_assoc]
    refine .cons (hgap afterWord fun hafter hword hnil => ?_) (ih hrest)
    rcases hapart with (hno | hno) | hno
    · cases hno.symm.trans hafter
    · cases hno.symm.trans hword
    · simp [hnil] at hno

end Grammar

end Straightline
