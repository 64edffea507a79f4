import Mathlib
import Straightline.Proofs.Sequences
import Straightline.Proofs.Text.Decoding
import Straightline.Token.Lexer

/-!
# The lexer takes the longest token at each place

`Splits` says how a text falls into tokens, with no word on pending tokens or
on where reading stops: blanks and comments stand between tokens, a mark is a
token by itself, a string literal goes on to the first quote that is not
escaped, and a word is a run of word runes that cannot be made longer. Each
rule is about the text in front of it only.

* Every text splits (`exists_splits`).
* The lexer gives the tokens that a text splits into (`Splits.drain_eq`), so
it splits in one way only.

Together they make the lexer and the rules equal, on any bytes
(`drain_eq_iff_splits`). The rules also show that each token stands behind those
before it (`Splits.increasing`).
-/

namespace Straightline.Lexical

open Lexer

/-! ## Rules -/

/-- Blanks stand between tokens. -/
def IsBlank (r : Rune) : Prop := r.toChar ∈ [' ', '\t', '\r']

/-- The runes that words are made of. -/
def IsWordRune (r : Rune) : Prop :=
  r.toChar ∉ [' ', '\t', '\r', '#', '"'] ∧ Token.punctuation? r.toChar = none

/-- The rune that opens and closes a string literal. -/
def quote : Rune := .char '"'

/-- The rune that takes the next one with it in a string literal. -/
def backslash : Rune := .char '\\'

/-- A piece of a string literal: a rune that stands for itself, or
one behind a backslash. -/
inductive Piece where
  | plain (r : Rune) (h : r.toChar ≠ '"' ∧ r.toChar ≠ '\\')
  | escaped (r : Rune)

namespace Piece

/-- How a piece is written. -/
def runes : Piece → List Rune
  | .plain r _ => [r]
  | .escaped r => [backslash, r]

/-- What a piece stands for. Only two escapes are decoded; the others are
kept as they are written. -/
def meaning : Piece → List Char
  | .plain r _ => [r.toChar]
  | .escaped r =>
    if r.toChar = 'n' then ['\n'] else if r.toChar = 't' then ['\t']
      else ['\\', r.toChar]

end Piece

/-- How pieces are written. -/
def written (ps : List Piece) : List Rune := ps.flatMap Piece.runes

/-- What pieces stand for. -/
def meaning (ps : List Piece) : String := String.ofList (ps.flatMap Piece.meaning)

/-- Whether `chars` are decimal digits that stand for `n`. -/
def IsNumeral (chars : List Char) (n : Nat) : Prop :=
  (∀ c ∈ chars, '0' ≤ c ∧ c ≤ '9') ∧
    n = Nat.ofDigits 10 (chars.reverse.map fun c => c.toNat - '0'.toNat)

/-- Whether `chars` spell a keyword. -/
def IsReserved (chars : List Char) : Prop := ∃ k : Keyword, k.spelling.toList = chars

/-- The token that a word is: a keyword before all else, then an integer, and
otherwise an identifier. -/
inductive Names (chars : List Char) (pos : Position) : Scanned → Prop
  | keyword {k : Keyword} : k.spelling.toList = chars →
      Names chars pos
        { token := { kind := .keyword k, lexeme := String.ofList chars, pos } }
  | integer {n : Nat} : ¬ IsReserved chars → IsNumeral chars n → n ≤ 2147483647 →
      Names chars pos
        { token := { kind := .integer, lexeme := String.ofList chars,
                     value := Int32.ofNat n, pos } }
  | tooLarge {n : Nat} : ¬ IsReserved chars → IsNumeral chars n → 2147483647 < n →
      Names chars pos
        { token := { kind := .invalid, lexeme := String.ofList chars, pos }
          error := some ⟨pos, .outOfRange (String.ofList chars)⟩ }
  | identifier : ¬ IsReserved chars → (∀ n, ¬ IsNumeral chars n) →
      Names chars pos
        { token := { kind := .identifier, lexeme := String.ofList chars, pos } }

/-- The text `rs` at `p` splits into the tokens `ts` and ends at `q`. -/
inductive Splits :
    (p : Position) → (rs : List Rune) → (ts : List Scanned) → (q : Position) → Prop
  | done {p : Position} : Splits p [] [] p
  | blank {p q : Position} {r : Rune} {rs : List Rune} {ts : List Scanned} :
      IsBlank r → Splits (p.advance r) rs ts q → Splits p (r :: rs) ts q
  | comment {p q : Position} {r : Rune} {text rest : List Rune} {ts : List Scanned} :
      r.toChar = '#' → (∀ c ∈ text, c.toChar ≠ '\n') →
      (∀ c ∈ rest.head?, c.toChar = '\n') →
      Splits (p.advanceAll (r :: text)) rest ts q → Splits p (r :: text ++ rest) ts q
  | mark {p q : Position} {r : Rune} {rs : List Rune} {ts : List Scanned}
      {kind : Token.Kind} :
      Token.punctuation? r.toChar = some kind → Splits (p.advance r) rs ts q →
      Splits p (r :: rs)
        ({ token := { kind, lexeme := String.singleton r.toChar, pos := p } } :: ts)
        q
  | text {p q : Position} {ps : List Piece} {rest : List Rune} {ts : List Scanned} :
      Splits (p.advanceAll (quote :: written ps ++ [quote])) rest ts q →
      Splits p (quote :: written ps ++ [quote] ++ rest)
        ({ token := { kind := .text, lexeme := meaning ps, pos := p } } :: ts) q
  | unclosed {p : Position} {ps : List Piece} {last : List Rune} :
      last = [] ∨ last = [backslash] →
      Splits p (quote :: written ps ++ last)
        [{ token := { kind := .invalid, lexeme := meaning ps, pos := p },
           error := some ⟨p, .unterminated⟩ }]
        (p.advanceAll (quote :: written ps ++ last))
  | word {p q : Position} {w rest : List Rune} {t : Scanned} {ts : List Scanned} :
      w ≠ [] → (∀ r ∈ w, IsWordRune r) → (∀ r ∈ rest.head?, ¬ IsWordRune r) →
      Names (w.map Rune.toChar) p t → Splits (p.advanceAll w) rest ts q →
        Splits p (w ++ rest) (t :: ts) q

/-! ## Words -/

theorem ofWord?_eq_some_iff {word : String} {k : Keyword} :
    Keyword.ofWord? word = some k ↔ k.spelling = word := by
  constructor
  · intro h
    simpa using List.find?_some h
  · rintro rfl
    cases k <;> decide

theorem ofWord?_eq_none_iff {chars : List Char} :
    Keyword.ofWord? (String.ofList chars) = none ↔ ¬ IsReserved chars := by
  constructor
  · rintro h ⟨k, rfl⟩
    rw [String.ofList_toList, ofWord?_eq_some_iff.mpr rfl] at h
    cases h
  · intro h
    cases hword : Keyword.ofWord? (String.ofList chars) with
    | none => rfl
    | some k =>
      refine absurd ⟨k, ?_⟩ h
      rw [ofWord?_eq_some_iff.mp hword, String.toList_ofList]

theorem isDigit_iff {c : Char} : Decimal.isDigit c = true ↔ '0' ≤ c ∧ c ≤ '9' := by
  simp only [Decimal.isDigit, Bool.and_eq_true, decide_eq_true_eq]
  rfl

theorem value_eq_ofDigits (chars : List Char) :
    Decimal.value chars =
      Nat.ofDigits 10 (chars.reverse.map fun c => c.toNat - '0'.toNat) := by
  induction chars using List.reverseRecOn with
  | nil => rfl
  | append_singleton chars c ih =>
    rw [Decimal.value_append_singleton, ih, List.reverse_append, List.reverse_singleton,
      List.singleton_append, List.map_cons, Nat.ofDigits_cons]
    show _ * 10 + (c.toNat - 0x30) = (c.toNat - 0x30) + 10 * _
    omega

theorem isNumeral_iff {chars : List Char} {n : Nat} :
    IsNumeral chars n ↔ chars.all Decimal.isDigit = true ∧ Decimal.value chars = n := by
  rw [IsNumeral, ← value_eq_ofDigits, List.all_eq_true]
  simp only [isDigit_iff]
  exact and_congr_right fun _ => eq_comm

/-- A word is classified as the rules say, and as nothing else. -/
theorem names_iff {chars : List Char} {pos : Position} {t : Scanned} :
    Names chars pos t ↔ classify chars pos = t := by
  constructor
  · intro h
    cases h with
    | keyword hk =>
      subst hk
      rw [String.ofList_toList, classify, String.ofList_toList,
        ofWord?_eq_some_iff.mpr rfl]
    | integer hkey hnum hle =>
      obtain ⟨hdigits, rfl⟩ := isNumeral_iff.mp hnum
      simp only [classify, ofWord?_eq_none_iff.mpr hkey, if_pos hdigits, if_pos hle]
    | tooLarge hkey hnum hlt =>
      obtain ⟨hdigits, rfl⟩ := isNumeral_iff.mp hnum
      simp only [classify, ofWord?_eq_none_iff.mpr hkey, if_pos hdigits,
        if_neg (Nat.not_le.mpr hlt)]
    | identifier hkey hnum =>
      have hdigits : ¬ chars.all Decimal.isDigit = true :=
        fun h => hnum _ (isNumeral_iff.mpr ⟨h, rfl⟩)
      simp only [classify, ofWord?_eq_none_iff.mpr hkey, if_neg hdigits]
  · rintro rfl
    simp only [classify]
    split
    · next k hk =>
      refine .keyword ?_
      rw [ofWord?_eq_some_iff.mp hk, String.toList_ofList]
    · next hkey =>
      rw [ofWord?_eq_none_iff] at hkey
      split
      · next hdigits =>
        have hnum := isNumeral_iff.mpr ⟨hdigits, rfl⟩
        split
        · next hle => exact .integer hkey hnum hle
        · next hle => exact .tooLarge hkey hnum (Nat.not_le.mp hle)
      · next hdigits =>
          exact .identifier hkey fun n hn => hdigits (isNumeral_iff.mp hn).1

/-! ## Classes of runes -/

theorem isBlank_iff {r : Rune} : Lexer.isBlank r.toChar = true ↔ IsBlank r := by
  simp [Lexer.isBlank, IsBlank, or_assoc]

theorem isWord_iff {r : Rune} : Lexer.isWord r.toChar = true ↔ IsWordRune r := by
  simp only [Lexer.isWord, Lexer.isBlank, IsWordRune, Bool.and_eq_true,
    Bool.not_eq_true', Bool.or_eq_false_iff, beq_eq_false_iff_ne, bne_iff_ne,
    List.mem_cons, List.not_mem_nil, not_or, Option.isNone_iff_eq_none]
  tauto

theorem isBlank_toChar_eq_false {r : Rune} (h : ¬ IsBlank r) :
    Lexer.isBlank r.toChar = false := by
  rwa [← isBlank_iff, Bool.not_eq_true] at h

theorem isWord_toChar_eq_false {r : Rune} (h : ¬ IsWordRune r) :
    Lexer.isWord r.toChar = false := by
  rwa [← isWord_iff, Bool.not_eq_true] at h

/-- A mark is neither a blank nor a comment sign nor a quote. -/
theorem notMem_of_punctuation? {r : Rune} {kind : Token.Kind}
    (h : Token.punctuation? r.toChar = some kind) :
    r.toChar ∉ [' ', '\t', '\r', '#', '"'] := by
  intro hmem
  simp only [List.mem_cons, List.not_mem_nil, or_false] at hmem
  rcases hmem with hc | hc | hc | hc | hc <;> rw [hc] at h <;> cases h

/-! ## Skipping -/

@[simp] theorem advanceAll_cons (p : Position) (r : Rune) (rs : List Rune) :
    p.advanceAll (r :: rs) = (p.advance r).advanceAll rs := rfl

@[simp] theorem advanceAll_nil (p : Position) : p.advanceAll [] = p := rfl

theorem advanceAll_append (p : Position) (rs rs' : List Rune) :
    p.advanceAll (rs ++ rs') = (p.advanceAll rs).advanceAll rs' := List.foldl_append

/-- A run of runes of a class is passed. -/
theorem passes_run {isIn : Char → Bool} {run rest : List Rune}
    (hrun : ∀ r ∈ run, isIn r.toChar = true)
    (hrest : ∀ r ∈ rest.head?, isIn r.toChar = false) (p : Position) :
    Input.dropWhile isIn (run ++ rest, p) = (rest, p.advanceAll run) := by
  rw [Input.dropWhile, takeWhile_run hrun hrest, dropWhile_run hrun hrest]

theorem skip_blank {p : Position} {r : Rune} {rs : List Rune} (h : IsBlank r) :
    skip (r :: rs, p) = skip (rs, p.advance r) := by
  have hr : Lexer.isBlank r.toChar = true := isBlank_iff.mpr h
  simp only [skip, Input.dropWhile, List.dropWhile_cons, List.takeWhile_cons, hr,
    if_true, advanceAll_cons]

/-- Text that starts with a token is left as it is. -/
theorem skip_of_notMem {p : Position} {r : Rune} {rs : List Rune}
    (h : r.toChar ∉ [' ', '\t', '\r', '#']) : skip (r :: rs, p) = (r :: rs, p) := by
  simp only [List.mem_cons, List.not_mem_nil, or_false, not_or] at h
  have hr : Lexer.isBlank r.toChar = false :=
    isBlank_toChar_eq_false (by simp [IsBlank, h])
  have hdrop := @passes_run _ [] (r :: rs) (by simp) (by simpa using hr) p
  rw [List.nil_append] at hdrop
  simp only [skip, hdrop]
  rw [if_neg h.2.2.2]
  rfl

theorem skip_comment {p : Position} {r : Rune} {text rest : List Rune}
    (hr : r.toChar = '#') (htext : ∀ c ∈ text, c.toChar ≠ '\n')
    (hrest : ∀ c ∈ rest.head?, c.toChar = '\n') :
    skip (r :: text ++ rest, p) = (rest, p.advanceAll (r :: text)) := by
  have hblank : Lexer.isBlank r.toChar = false := by rw [hr]; decide
  have hdrop := @passes_run _ [] (r :: text ++ rest) (by simp) (by simpa using hblank) p
  rw [List.nil_append] at hdrop
  have hline : ∀ c ∈ r :: text, (c.toChar != '\n') = true := by
    refine List.forall_mem_cons.mpr ⟨?_, fun c hc => by simpa using htext c hc⟩
    rw [hr]; decide
  have hend : ∀ c ∈ rest.head?, (c.toChar != '\n') = false :=
    fun c hc => by simp [hrest c hc]
  simp only [skip, hdrop]
  rw [List.cons_append]
  simp only [if_pos hr]
  exact @passes_run (· != '\n') _ _ hline hend p

/-- A line end and the end of the text are left as they are. -/
theorem skip_of_line_end {p : Position} {rest : List Rune}
    (h : ∀ c ∈ rest.head?, c.toChar = '\n') : skip (rest, p) = (rest, p) := by
  cases rest with
  | nil => rfl
  | cons c rest => exact skip_of_notMem (by rw [h c rfl]; decide)

/-! ## Reading on -/

/-- A lexer in front of a text, with no token pending. -/
abbrev inFront (p : Position) (rs : List Rune) : Lexer := { rest := rs, pos := p }

theorem next_inFront (p : Position) (rs : List Rune) :
    (inFront p rs).next = scanAt (skip (rs, p)) :=
  rfl

theorem drain_of_eof {l l' : Lexer} {s : Scanned} (h : l.next = (s, l'))
    (heof : s.token.kind = .eof) :
    l.drain = { tokens := [], eof := s.token, left := l' } := by
  rw [drain]
  split
  next s' l'' heq =>
  rw [h] at heq
  cases heq
  rw [if_pos heof]

theorem drain_of_next {l l' : Lexer} {s : Scanned} (h : l.next = (s, l'))
    (heof : s.token.kind ≠ .eof) :
    l.drain = { l'.drain with tokens := s :: l'.drain.tokens } := by
  rw [drain]
  split
  next s' l'' heq =>
  rw [h] at heq
  cases heq
  rw [if_neg heof]

/-- What comes next decides on all that follows. -/
theorem drain_congr {l l' : Lexer} (h : l.next = l'.next) : l.drain = l'.drain := by
  rcases hnext : l'.next with ⟨s, left⟩
  by_cases heof : s.token.kind = .eof
  · rw [drain_of_eof (h.trans hnext) heof, drain_of_eof hnext heof]
  · rw [drain_of_next (h.trans hnext) heof, drain_of_next hnext heof]

/-- The end of the text is not among the tokens. -/
theorem ne_eof_of_mem_drain {l : Lexer} {t : Scanned} (h : t ∈ l.drain.tokens) :
    t.token.kind ≠ .eof := by
  fun_induction drain l with
  | case1 => simp at h
  | case2 l s l' _ heof d ih =>
    rcases List.mem_cons.mp h with rfl | h
    · exact heof
    · exact ih h

/-! ## Tokens -/

theorem next_mark {p : Position} {r : Rune} {rs : List Rune} {kind : Token.Kind}
    (h : Token.punctuation? r.toChar = some kind) :
    (inFront p (r :: rs)).next =
      ({ token := markToken kind r p }, inFront (p.advance r) rs) := by
  have hr := notMem_of_punctuation? h
  simp only [List.mem_cons, List.not_mem_nil, or_false, not_or] at hr
  rw [next_inFront, skip_of_notMem (by simp [hr])]
  simp only [scanAt, if_neg hr.2.2.2.2, h]

/-- A mark that was read ahead comes out as if it had not been. -/
theorem drain_pending_mark {p : Position} {r : Rune} {rs : List Rune}
    {kind : Token.Kind} (h : Token.punctuation? r.toChar = some kind) :
    Lexer.drain { rest := rs, pos := p.advance r, pending := [markToken kind r p] } =
      (inFront p (r :: rs)).drain :=
  drain_congr (next_mark h).symm

theorem textLiteral_quote (rest : List Rune) (p : Position) :
    textLiteral (quote :: rest) p = ⟨true, [], rest, p.advance quote⟩ := by
  rw [textLiteral.eq_def]
  rfl

theorem textLiteral_plain {r : Rune} (hr : r.toChar ≠ '"' ∧ r.toChar ≠ '\\')
    (rest : List Rune) (p : Position) :
    textLiteral (r :: rest) p = (textLiteral rest (p.advance r)).prepend
      [r.toChar] := by
  rw [textLiteral.eq_def]
  simp only [if_neg hr.1, if_neg hr.2]

theorem textLiteral_escaped (r : Rune) (rest : List Rune) (p : Position) :
    textLiteral (backslash :: r :: rest) p =
      (textLiteral rest ((p.advance backslash).advance r)).prepend
        (Piece.escaped r).meaning := by
  have hescape : unescape r.toChar = (Piece.escaped r).meaning := by
    unfold unescape Piece.meaning
    split <;> simp_all
  rw [textLiteral.eq_def, ← hescape]
  rfl

theorem prepend_prepend (cs cs' : List Char) (l : TextLiteral) :
    (l.prepend cs').prepend cs = l.prepend (cs ++ cs') := by
  simp only [TextLiteral.prepend, List.append_assoc]

theorem textLiteral_written (ps : List Piece) (rest : List Rune) (p : Position) :
    textLiteral (written ps ++ rest) p =
      (textLiteral rest (p.advanceAll (written ps))).prepend
        (ps.flatMap Piece.meaning) := by
  induction ps generalizing p with
  | nil => rfl
  | cons piece ps ih =>
    rw [written, List.flatMap_cons, List.append_assoc, advanceAll_append,
      List.flatMap_cons, ← written]
    cases piece with
    | plain r hr =>
      rw [Piece.runes, List.singleton_append, textLiteral_plain hr, ih, prepend_prepend]
      rfl
    | escaped r =>
      rw [Piece.runes, List.cons_append, List.singleton_append, textLiteral_escaped,
        ih, prepend_prepend]
      rfl

theorem next_text (p : Position) (ps : List Piece) (rest : List Rune) :
    (inFront p (quote :: written ps ++ [quote] ++ rest)).next =
      ({ token := { kind := .text, lexeme := meaning ps, pos := p } },
        inFront (p.advanceAll (quote :: written ps ++ [quote])) rest) := by
  have hquote : quote.toChar = '"' := rfl
  rw [next_inFront, List.append_assoc, List.cons_append, skip_of_notMem (by decide)]
  simp only [scanAt, if_pos hquote, textLiteral_written, List.singleton_append,
    textLiteral_quote, TextLiteral.prepend, if_true, List.append_nil,
    advanceAll_append, advanceAll_cons, advanceAll_nil]
  rfl

theorem next_unclosed (p : Position) (ps : List Piece) {last : List Rune}
    (h : last = [] ∨ last = [backslash]) :
    (inFront p (quote :: written ps ++ last)).next =
      ({ token := { kind := .invalid, lexeme := meaning ps, pos := p },
         error := some ⟨p, .unterminated⟩ },
        inFront (p.advanceAll (quote :: written ps ++ last)) []) := by
  have hquote : quote.toChar = '"' := rfl
  have hend (q : Position) : textLiteral last q =
      ⟨false, [], [], q.advanceAll last⟩ := by
    rcases h with rfl | rfl <;> rfl
  rw [next_inFront, List.cons_append, skip_of_notMem (by decide)]
  simp only [scanAt, if_pos hquote, textLiteral_written, hend, TextLiteral.prepend,
    Bool.false_eq_true, if_false, List.append_nil, advanceAll_append, advanceAll_cons]
  rfl

theorem Names.kind_ne_eof {chars : List Char} {p : Position} {t : Scanned}
    (h : Names chars p t) : t.token.kind ≠ .eof := by
  cases h <;> exact Token.Kind.noConfusion

theorem IsWordRune.not_blank {r : Rune} (h : IsWordRune r) :
    r.toChar ∉ [' ', '\t', '\r', '#'] := by
  intro hmem
  refine h.1 ?_
  simp only [List.mem_cons, List.not_mem_nil, or_false] at hmem ⊢
  tauto

/-- What is left behind a word: a mark that ends it is pending already. -/
def afterWord (p : Position) : List Rune → Lexer
  | [] => inFront p []
  | m :: ms =>
    match Token.punctuation? m.toChar with
    | some kind => { rest := ms, pos := p.advance m, pending := [markToken kind m p] }
    | none => inFront p (m :: ms)

theorem drain_afterWord (p : Position) (rest : List Rune) :
    (afterWord p rest).drain = (inFront p rest).drain := by
  cases rest with
  | nil => rfl
  | cons m ms =>
    rw [afterWord]
    split
    · next kind hm => exact drain_pending_mark hm
    · rfl

theorem next_word {p : Position} {w rest : List Rune} {t : Scanned} (hne : w ≠ [])
    (hw : ∀ r ∈ w, IsWordRune r) (hrest : ∀ r ∈ rest.head?, ¬ IsWordRune r)
    (ht : Names (w.map Rune.toChar) p t) :
    (inFront p (w ++ rest)).next = (t, afterWord (p.advanceAll w) rest) := by
  obtain ⟨r, w, rfl⟩ := List.exists_cons_of_ne_nil hne
  rw [List.forall_mem_cons] at hw
  have hrun : ∀ r ∈ w, Lexer.isWord r.toChar = true :=
    fun r hr => isWord_iff.mpr (hw.2 r hr)
  have hstop : ∀ r ∈ rest.head?, Lexer.isWord r.toChar = false := fun r hr =>
    isWord_toChar_eq_false (hrest r hr)
  have hquote : ¬ r.toChar = '"' := fun h => hw.1.1 (by simp [h])
  have hscan : classify ((r :: w).map Rune.toChar) p = t := names_iff.mp ht
  rw [next_inFront, List.cons_append, skip_of_notMem hw.1.not_blank]
  simp only [scanAt, if_neg hquote, hw.1.2, takeWhile_run hrun hstop,
    passes_run hrun hstop, hscan]
  cases rest with
  | nil => rfl
  | cons m ms => cases hm : Token.punctuation? m.toChar <;> simp [afterWord, hm]

/-! ## The lexer follows the rules -/

theorem kind_of_punctuation? {c : Char} {kind : Token.Kind}
    (h : Token.punctuation? c = some kind) :
    (∃ m, kind = .mark m) ∨ ∃ op, kind = .operator op := by
  unfold Token.punctuation? at h
  split at h <;> cases h <;> simp

theorem kind_ne_eof_of_punctuation? {c : Char} {kind : Token.Kind}
    (h : Token.punctuation? c = some kind) : kind ≠ .eof := by
  rcases kind_of_punctuation? h with ⟨m, rfl⟩ | ⟨op, rfl⟩ <;>
    exact Token.Kind.noConfusion

/-- The lexer gives the tokens that a text splits into, and the place where it ends. -/
theorem Splits.drain_eq {p q : Position} {rs : List Rune} {ts : List Scanned}
    (h : Splits p rs ts q) :
    (inFront p rs).drain =
      { tokens := ts, eof := { kind := .eof, pos := q }, left := inFront q [] } := by
  induction h with
  | done => exact drain_of_eof rfl rfl
  | blank hr _ ih =>
    rw [← ih]
    refine drain_congr ?_
    rw [next_inFront, next_inFront, skip_blank hr]
  | comment hr htext hrest _ ih =>
    rw [← ih]
    refine drain_congr ?_
    rw [next_inFront, next_inFront, skip_comment hr htext hrest, skip_of_line_end hrest]
  | mark hkind _ ih =>
    rw [drain_of_next (next_mark hkind) (kind_ne_eof_of_punctuation? hkind), ih]; rfl
  | text _ ih => rw [drain_of_next (next_text _ _ _) Token.Kind.noConfusion, ih]
  | unclosed hlast =>
    rw [drain_of_next (next_unclosed _ _ hlast) Token.Kind.noConfusion,
      drain_of_eof rfl rfl]
    rfl
  | word hne hw hrest ht _ ih =>
    rw [drain_of_next (next_word hne hw hrest ht) ht.kind_ne_eof, drain_afterWord, ih]

/-! ## Every text splits -/

theorem eq_char_of_toChar {r : Rune} {c : Char} (h : r.toChar = c)
    (hc : c ≠ '\uFFFD') : r = .char c := by
  cases r with
  | char d => exact congrArg _ h
  | stray b => exact absurd h.symm hc

/-- Behind a quote the text is made up of pieces, up to another quote or to its end. -/
theorem exists_pieces (rs : List Rune) :
    (∃ ps rest, rs = written ps ++ [quote] ++ rest) ∨
      ∃ ps last, rs = written ps ++ last ∧ (last = [] ∨ last = [backslash]) := by
  -- One piece more in front of a text of this form makes a text of this form.
  have step (piece : Piece) {rs : List Rune}
      (h : (∃ ps rest, rs = written ps ++ [quote] ++ rest) ∨
        ∃ ps last, rs = written ps ++ last ∧ (last = [] ∨ last = [backslash])) :
      (∃ ps rest, piece.runes ++ rs = written ps ++ [quote] ++ rest) ∨
        ∃ ps last, piece.runes ++ rs = written ps ++ last ∧
        (last = [] ∨ last = [backslash]) := by
    rcases h with ⟨ps, rest, rfl⟩ | ⟨ps, last, rfl, hlast⟩
    · exact .inl ⟨piece :: ps, rest, by simp [written]⟩
    · exact .inr ⟨piece :: ps, last, by simp [written], hlast⟩
  -- A literal is read one or two runes at a time, and so goes this induction.
  induction rs, (default : Position) using textLiteral.induct with
  | case1 => exact .inr ⟨[], [], rfl, .inl rfl⟩
  | case2 r rs p hr =>
    obtain rfl : r = quote := eq_char_of_toChar hr (by decide)
    exact .inl ⟨[], rs, rfl⟩
  | case3 r p _ hr =>
    obtain rfl : r = backslash := eq_char_of_toChar hr (by decide)
    exact .inr ⟨[], [backslash], rfl, .inr rfl⟩
  | case4 r p _ hr e rs ih =>
    obtain rfl : r = backslash := eq_char_of_toChar hr (by decide)
    exact step (.escaped e) ih
  | case5 r rs p hquote hback ih => exact step (.plain r ⟨hquote, hback⟩) ih

/-- A text starts with a run of a class, up to where the class ends. -/
theorem exists_run (isIn : Char → Bool) (rs : List Rune) :
    ∃ run rest, rs = run ++ rest ∧
    (∀ r ∈ run, isIn r.toChar = true) ∧ ∀ r ∈ rest.head?, isIn r.toChar = false := by
  induction rs with
  | nil => exact ⟨[], [], rfl, by simp, by simp⟩
  | cons r rs ih =>
    by_cases hr : isIn r.toChar = true
    · obtain ⟨run, rest, rfl, hrun, hrest⟩ := ih
      exact ⟨r :: run, rest, rfl, List.forall_mem_cons.mpr ⟨hr, hrun⟩, hrest⟩
    · exact ⟨[], r :: rs, rfl, by simp, by simpa using hr⟩

/-- Every text splits into tokens. -/
theorem exists_splits (p : Position) (rs : List Rune) : ∃ ts q, Splits p rs ts q := by
  induction hn : rs.length using Nat.strong_induction_on generalizing p rs with
  | h n ih =>
  cases rs with
  | nil => exact ⟨[], p, .done⟩
  | cons r rs =>
  rw [List.length_cons] at hn
  by_cases hblank : IsBlank r
  · obtain ⟨ts, q, h⟩ := ih rs.length (by omega) (p.advance r) rs rfl
    exact ⟨ts, q, .blank hblank h⟩
  by_cases hcomment : r.toChar = '#'
  · obtain ⟨line, rest, rfl, hline, hrest⟩ := exists_run (· != '\n') rs
    rw [List.length_append] at hn
    obtain ⟨ts, q, h⟩ := ih rest.length (by omega) (p.advanceAll (r :: line)) rest rfl
    exact ⟨ts, q, .comment hcomment (by simpa using hline) (by simpa using hrest) h⟩
  by_cases hquote : r.toChar = '"'
  · obtain rfl : r = quote := eq_char_of_toChar hquote (by decide)
    rcases exists_pieces rs with ⟨ps, rest, rfl⟩ | ⟨ps, last, rfl, hlast⟩
    · rw [List.length_append] at hn
      obtain ⟨ts, q, h⟩ :=
        ih rest.length (by omega)
          (p.advanceAll (quote :: written ps ++ [quote])) rest rfl
      exact ⟨_, q, .text h⟩
    · exact ⟨_, _, .unclosed hlast⟩
  cases hmark : Token.punctuation? r.toChar with
  | some kind =>
    obtain ⟨ts, q, h⟩ := ih rs.length (by omega) (p.advance r) rs rfl
    exact ⟨_, q, .mark hmark h⟩
  | none =>
    have hr : IsWordRune r := by
      simp only [IsBlank, List.mem_cons, List.not_mem_nil, or_false, not_or] at hblank
      exact ⟨by simp [hblank, hcomment, hquote], hmark⟩
    obtain ⟨w, rest, rfl, hw, hrest⟩ := exists_run Lexer.isWord rs
    rw [List.length_append] at hn
    obtain ⟨ts, q, h⟩ := ih rest.length (by omega) (p.advanceAll (r :: w)) rest rfl
    have hword : ∀ c ∈ r :: w, IsWordRune c :=
      List.forall_mem_cons.mpr ⟨hr, fun c hc => isWord_iff.mp (hw c hc)⟩
    have hstop : ∀ c ∈ rest.head?, ¬ IsWordRune c := fun c hc h => by
      rw [← isWord_iff, hrest c hc] at h
      cases h
    exact ⟨_, q, .word (List.cons_ne_nil r w) hword hstop (names_iff.mpr rfl) h⟩

/-! ## Errors -/

/-- An error comes with an invalid token and stands where the token does. -/
theorem Splits.error_pos {p q : Position} {rs : List Rune} {ts : List Scanned}
    (h : Splits p rs ts q) :
    ∀ t ∈ ts, t.error.map (·.pos) = if t.token.kind = .invalid then some t.token.pos
      else none := by
  induction h with
  | done => simp
  | blank _ _ ih => exact ih
  | comment _ _ _ _ ih => exact ih
  | mark hkind _ ih =>
    refine List.forall_mem_cons.mpr ⟨?_, ih⟩
    rcases kind_of_punctuation? hkind with ⟨m, rfl⟩ | ⟨op, rfl⟩ <;> rfl
  | text _ ih => exact List.forall_mem_cons.mpr ⟨rfl, ih⟩
  | unclosed _ => simp
  | word _ _ _ ht _ ih =>
    refine List.forall_mem_cons.mpr ⟨?_, ih⟩
    cases ht <;> rfl

/-- There is one error for each invalid token, in order. -/
theorem Splits.errors_eq {p q : Position} {rs : List Rune} {ts : List Scanned}
    (h : Splits p rs ts q) :
    (ts.filterMap (·.error)).map (·.pos) =
      ((ts.map (·.token)).filter (·.kind = .invalid)).map (·.pos) := by
  have herror := h.error_pos
  clear h
  induction ts with
  | nil => rfl
  | cons t ts ih =>
    rw [List.forall_mem_cons] at herror
    by_cases hkind : t.token.kind = .invalid
    · rw [if_pos hkind] at herror
      obtain ⟨e, he, hpos⟩ := Option.map_eq_some_iff.mp herror.1
      simp [he, hkind, hpos, ih herror.2]
    · rw [if_neg hkind] at herror
      have hnone := Option.map_eq_none_iff.mp herror.1
      simp [hnone, hkind, ih herror.2]

/-! ## Places -/

theorem offset_lt_advance (p : Position) (r : Rune) :
    p.offset < (p.advance r).offset := by
  have hwidth : 0 < r.width := by
    cases r with
    | char c => exact c.utf8Size_pos
    | stray b => exact Nat.one_pos
  unfold Position.advance
  split
  · show p.offset < p.offset + r.width
    omega
  · show p.offset < p.offset + r.width
    omega

theorem offset_le_advanceAll (p : Position) (rs : List Rune) :
    p.offset ≤ (p.advanceAll rs).offset := by
  induction rs generalizing p with
  | nil => exact Int.le_refl _
  | cons r rs ih =>
    exact Int.le_trans (Int.le_of_lt (offset_lt_advance p r)) (ih (p.advance r))

theorem offset_lt_advanceAll (p : Position) {rs : List Rune} (h : rs ≠ []) :
    p.offset < (p.advanceAll rs).offset := by
  obtain ⟨r, rs, rfl⟩ := List.exists_cons_of_ne_nil h
  exact Int.lt_of_lt_of_le (offset_lt_advance p r)
    (offset_le_advanceAll (p.advance r) rs)

theorem Names.pos_eq {chars : List Char} {p : Position} {t : Scanned}
    (h : Names chars p t) : t.token.pos = p := by
  cases h <;> rfl

/-- No token stands in front of the text, and each one stands behind those before it. -/
theorem Splits.increasing {p q : Position} {rs : List Rune} {ts : List Scanned}
    (h : Splits p rs ts q) :
    (∀ t ∈ ts, p.offset ≤ t.token.pos.offset) ∧
      ts.Pairwise fun t u => t.token.pos.offset < u.token.pos.offset := by
  -- A token at `p` that ends at `p'` goes in front of tokens that
  -- start at `p'` or later.
  have cons {p p' : Position} {t : Scanned} {ts : List Scanned} (ht : t.token.pos = p)
      (hp : p.offset < p'.offset)
      (hts : (∀ u ∈ ts, p'.offset ≤ u.token.pos.offset) ∧
        ts.Pairwise fun t u => t.token.pos.offset < u.token.pos.offset) :
      (∀ u ∈ t :: ts, p.offset ≤ u.token.pos.offset) ∧
        (t :: ts).Pairwise fun t u => t.token.pos.offset < u.token.pos.offset := by
    have hbehind : ∀ u ∈ ts, p.offset < u.token.pos.offset :=
      fun u hu => Int.lt_of_lt_of_le hp (hts.1 u hu)
    refine ⟨List.forall_mem_cons.mpr ⟨Int.le_of_eq (ht ▸ rfl), fun u hu =>
      Int.le_of_lt (hbehind u hu)⟩, ?_⟩
    exact List.pairwise_cons.mpr ⟨fun u hu => ht ▸ hbehind u hu, hts.2⟩
  induction h with
  | done => exact ⟨by simp, .nil⟩
  | @blank p _ r _ _ _ _ ih =>
    exact ⟨fun t ht => Int.le_trans (Int.le_of_lt (offset_lt_advance p r))
      (ih.1 t ht), ih.2⟩
  | @comment p _ r text _ _ _ _ _ _ ih =>
    exact ⟨fun t ht => Int.le_trans (offset_le_advanceAll p (r :: text))
      (ih.1 t ht), ih.2⟩
  | @mark p _ r _ _ _ _ _ ih => exact cons rfl (offset_lt_advance p r) ih
  | @text p _ ps _ _ _ ih => exact cons rfl (offset_lt_advanceAll p (by simp)) ih
  | unclosed _ => exact ⟨by simp, List.pairwise_singleton _ _⟩
  | @word p _ w _ _ _ hne _ _ ht _ ih =>
    exact cons ht.pos_eq (offset_lt_advanceAll p hne) ih

/-- A text ends behind all of its tokens. -/
theorem Splits.le_end {p q : Position} {rs : List Rune} {ts : List Scanned}
    (h : Splits p rs ts q) :
    p.offset ≤ q.offset ∧ ∀ t ∈ ts, t.token.pos.offset ≤ q.offset := by
  -- A token at `p` is in front of where the text behind it ends.
  have cons {p p' q : Position} {t : Scanned} {ts : List Scanned} (ht : t.token.pos = p)
      (hp : p.offset ≤ p'.offset)
        (hts : p'.offset ≤ q.offset ∧ ∀ u ∈ ts, u.token.pos.offset ≤ q.offset) :
      p.offset ≤ q.offset ∧ ∀ u ∈ t :: ts, u.token.pos.offset ≤ q.offset := by
    have hq := Int.le_trans hp hts.1
    exact ⟨hq, List.forall_mem_cons.mpr ⟨ht ▸ hq, hts.2⟩⟩
  induction h with
  | done => exact ⟨Int.le_refl _, by simp⟩
  | @blank p _ r _ _ _ _ ih =>
    exact ⟨Int.le_trans (Int.le_of_lt (offset_lt_advance p r)) ih.1, ih.2⟩
  | @comment p _ r text _ _ _ _ _ _ ih =>
    exact ⟨Int.le_trans (offset_le_advanceAll p (r :: text)) ih.1, ih.2⟩
  | @mark p _ r _ _ _ _ _ ih => exact cons rfl (Int.le_of_lt (offset_lt_advance p r)) ih
  | @text p _ ps _ _ _ ih => exact cons rfl (offset_le_advanceAll p _) ih
  | @unclosed p ps last _ =>
    exact cons rfl (offset_le_advanceAll p _) ⟨Int.le_refl _, by simp⟩
  | @word p _ w _ _ _ _ _ _ ht _ ih =>
    exact cons ht.pos_eq (offset_le_advanceAll p w) ih

/-! ## The lexer and the rules -/

/-- On any bytes, the tokens and errors of the lexer are those that the rules
give: the bytes are read as runes, the runes split into tokens in one way, one
end-of-file token follows them, and each invalid token comes with one error. -/
theorem drain_eq_iff_splits (source : List UInt8) (filename : String)
    (tokens : List Token) (errors : List LexicalError) :
    let d := (Lexer.ofBytes source filename).drain
    (d.all = tokens ∧ d.errors = errors ↔
      ∃ runes ts q, Rune.Decodes source runes ∧ Splits (.start filename) runes ts q ∧
        tokens = ts.map (·.token) ++ [{ kind := .eof, pos := q }] ∧
        errors = ts.filterMap (·.error)) ∧
    d.errors.map (·.pos) = (d.all.filter (·.kind = .invalid)).map (·.pos) := by
  intro d
  obtain ⟨ts, q, hsplits⟩ := exists_splits (.start filename) (Rune.decode source)
  have hd : d =
      { tokens := ts, eof := { kind := .eof, pos := q }, left := inFront q [] } :=
    hsplits.drain_eq
  have hall : d.all = ts.map (·.token) ++ [{ kind := .eof, pos := q }] := by
    rw [hd]; rfl
  have herrors : d.errors = ts.filterMap (·.error) := by rw [hd]; rfl
  refine ⟨⟨?_, ?_⟩, ?_⟩
  · rintro ⟨rfl, rfl⟩
    exact ⟨_, ts, q, Rune.decodes_decode source, hsplits, hall, herrors⟩
  · rintro ⟨runes, ts', q', hdecodes, hsplits', rfl, rfl⟩
    obtain rfl := Rune.decode_eq_iff.mpr hdecodes
    have hd' :
        d = { tokens := ts', eof := { kind := .eof, pos := q' },
              left := inFront q' [] } :=
      hsplits'.drain_eq
    rw [hd']
    exact ⟨rfl, rfl⟩
  · rw [hall, herrors, hsplits.errors_eq]
    simp

end Straightline.Lexical
