import Mathlib
import Straightline.Proofs.Grammar
import Straightline.Proofs.Lowering.Naming
import Straightline.Proofs.Token.Munch
import Straightline.Proofs.Tree.Words
import Straightline.Proofs.Tree.WellFormed

/-!
# Names that are read

A name in a tree that was read from a text is an identifier of the text,
however malformed the text is. So it is made of word characters, some
character of it is no digit, and in particular it is not empty. This too
is an invariant of reading.
-/

namespace Straightline

/-- Whether a text has a character that is no digit, as identifiers have. -/
def IsName (x : String) : Prop := ∃ c ∈ x.toList, Decimal.isDigit c = false

theorem IsName.ne_empty {x : String} (h : IsName x) : x ≠ "" := by
  rintro rfl
  obtain ⟨c, hc, -⟩ := h
  cases hc

/-- Whether a text is made of the characters that words are made of. -/
def IsWord (x : String) : Prop := ∀ c ∈ x.toList, Lexer.isWord c = true

/-- Whether a text is an identifier of the source language. -/
def IsIdentifier (x : String) : Prop := ∃ n : Grammar.Name, n.text = x

theorem IsIdentifier.isWord {x : String} (h : IsIdentifier x) : IsWord x := by
  obtain ⟨n, rfl⟩ := h
  intro c hc
  rw [Grammar.Name.text, String.toList_ofList] at hc
  obtain ⟨r, hr, rfl⟩ := List.mem_map.mp hc
  exact Lexical.isWord_iff.mpr (n.word r hr)

theorem IsIdentifier.isName {x : String} (h : IsIdentifier x) : IsName x := by
  obtain ⟨n, rfl⟩ := h
  have hdigits : (n.runes.map Rune.toChar).all Decimal.isDigit = false := by
    by_contra hall
    rw [Bool.not_eq_false] at hall
    exact n.notNumeral _ (Lexical.isNumeral_iff.mpr ⟨hall, rfl⟩)
  rw [IsName, Grammar.Name.text, String.toList_ofList]
  simpa using hdigits

/-! ## Tokens -/

namespace Lexical

theorem Names.isIdentifier {w : List Rune} {pos : Position} {t : Scanned}
    (h : Names (w.map Rune.toChar) pos t) (hne : w ≠ [])
    (hw : ∀ r ∈ w, IsWordRune r) (hkind : t.token.kind = .identifier) :
    IsIdentifier t.token.lexeme := by
  cases h with
  | keyword => cases hkind
  | integer => cases hkind
  | tooLarge => cases hkind
  | identifier hfree hnumeral => exact ⟨⟨w, hne, hw, hfree, hnumeral⟩, rfl⟩

/-- Words are classified by what they are made of, and nothing but
a word is an identifier. -/
theorem Splits.isIdentifier {p q : Position} {rs : List Rune} {ts : List Scanned}
    (h : Splits p rs ts q) :
    ∀ t ∈ ts, t.token.kind = .identifier → IsIdentifier t.token.lexeme := by
  induction h with
  | done => simp
  | blank _ _ ih => exact ih
  | comment _ _ _ _ ih => exact ih
  | mark hmark _ ih =>
    refine List.forall_mem_cons.mpr ⟨fun hkind => ?_, ih⟩
    rcases kind_of_punctuation? hmark with ⟨m, hm⟩ | ⟨op, hop⟩
    · cases hm.symm.trans hkind
    · cases hop.symm.trans hkind
  | text _ ih => exact List.forall_mem_cons.mpr ⟨(fun hkind => nomatch hkind), ih⟩
  | unclosed _ => exact List.forall_mem_singleton.mpr fun hkind => nomatch hkind
  | word hne hword _ hnames _ ih =>
    exact List.forall_mem_cons.mpr ⟨hnames.isIdentifier hne hword, ih⟩

theorem isIdentifier_of_mem_drain {source : List UInt8} {filename : String} :
    ∀ t ∈ (Lexer.ofBytes source filename).drain.tokens, t.token.kind = .identifier →
      IsIdentifier t.token.lexeme := by
  obtain ⟨ts, q, hsplits⟩ := exists_splits (.start filename) (Rune.decode source)
  have hdrain : (Lexer.ofBytes source filename).drain.tokens = ts :=
    congrArg Lexer.Drained.tokens hsplits.drain_eq
  rw [hdrain]
  exact hsplits.isIdentifier

end Lexical

/-! ## Trees -/

namespace Parser

/-- Whether the identifiers in front of a parser are such, and the statements it
has read start with identifiers. -/
structure IsNamed (s : State) : Prop where
  tokens : ∀ t ∈ s.tokens, t.token.kind = .identifier → IsIdentifier t.token.lexeme
  body : ∀ stmt ∈ s.body, ∀ x ∈ stmt.name?, IsIdentifier x

theorem isStable_named : IsStable IsNamed where
  advance s hs :=
    ⟨fun t ht => hs.tokens t (s.tokens_advance_suffix.subset ht),
      s.body_advance.symm ▸ hs.body⟩
  record _ _ _ hs := { hs with }

theorem isInvariant_named : IsInvariant IsNamed AreCombs IsIdentifier where
  toIsStable := isStable_named
  expressions d s hs :=
    (isStable_named.yields_expressions d s hs).imp (fun _ h => h) fun _ h => h.combs
  none := by simp [AreCombs]
  name s hs hkind := by
    cases htokens : s.tokens with
    | nil => simp [State.current, htokens] at hkind
    | cons t ts =>
      have hcurrent : s.current = t.token := by simp [State.current, htokens]
      rw [hcurrent] at hkind ⊢
      exact hs.tokens t (htokens ▸ List.mem_cons_self) hkind
  emit s stmt _ hname hs :=
    { hs with
      body := List.forall_mem_append.mpr
        ⟨hs.body, List.forall_mem_singleton.mpr hname⟩ }
  clear s hs := { hs with body := by simp }

/-- Every declaration of a tree goes by an identifier, and so do its
parameters and its statements. -/
theorem stems_of_mem_parse {source : List UInt8} {filename : String} :
    ∀ g ∈ (parse (Lexer.ofBytes source filename)).tree.globals,
      Stems IsNamed IsIdentifier g :=
  isInvariant_named.of_mem_globals
    ⟨Lexical.isIdentifier_of_mem_drain, by simp [State.start]⟩

/-- The names in an expression of a tree are identifiers of the text. -/
theorem isIdentifier_of_mem_words {source : List UInt8} {filename : String}
    {e : Expr} (he : e ∈ (parse (Lexer.ofBytes source filename)).tree.exprs)
    {p : Position} {x : String} (hx : (p, .name x) ∈ e.words) : IsIdentifier x := by
  obtain ⟨part, hpart, -, hcomb⟩ := drawn_of_mem_parse he
  rw [words_of_comb hcomb] at hx
  obtain ⟨leaf, hleaf, hx⟩ := List.mem_flatMap.mp hx
  obtain ⟨t, ht, hleaf⟩ := List.mem_filterMap.mp hleaf
  obtain ⟨scanned, hscanned, rfl⟩ := List.mem_map.mp (hpart.subset ht)
  unfold leaf? at hleaf
  split at hleaf
  · cases hleaf
    simp [Expr.words] at hx
  · cases hleaf
    simp [Expr.words] at hx
  next hkind =>
    cases hleaf
    simp only [Expr.words, List.mem_singleton, Prod.mk.injEq, Word.name.injEq] at hx
    rw [hx.2]
    exact Lexical.isIdentifier_of_mem_drain scanned hscanned hkind
  · cases hleaf

/-- Every declaration of a tree goes by a name, and so do its
parameters and variables. -/
theorem isName_of_mem_declaredNames {source : List UInt8} {filename : String}
    {x : String}
    (hx : x ∈ (parse (Lexer.ofBytes source filename)).tree.declaredNames) :
    IsName x := by
  obtain ⟨g, hg, hx⟩ := List.mem_flatMap.mp hx
  obtain ⟨hname, hparams, s, hs, hbody⟩ := stems_of_mem_parse g hg
  rcases List.mem_cons.mp hx with rfl | hx
  · exact hname.isName
  rcases List.mem_append.mp hx with hx | hx
  · cases g with
    | func => cases hx
    | external pos name params =>
      obtain ⟨v, hv, rfl⟩ := List.mem_map.mp hx
      exact (hparams v hv).2.isName
  · obtain ⟨stmt, hstmt, hdeclared⟩ := List.mem_filterMap.mp hx
    refine (hs.body stmt (hbody ▸ hstmt) x ?_).isName
    cases stmt with
    | decl => exact hdeclared
    | _ => cases hdeclared

end Parser

end Straightline
