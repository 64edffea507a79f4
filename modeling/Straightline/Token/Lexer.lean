import Straightline.Token

/-!
# The lexer

A lexer holds the runes not yet read and a stack of pending tokens.
`Lexer.next` gives a pending token if there is one and else scans the next
token from the text. A mark that ends a word is read together with the word
and kept pending, so tokens come out in source order; `Lexer.pushBack` puts a
token back on the same stack.

Scanning never stops at bad input: an unterminated string or an integer
that does not fit 32 bits becomes an invalid token with an error beside it.
After the last rune every call gives the end-of-file token. `Lexer.drain`
reads up to there; it ends because `next` leaves fewer runes and tokens
behind (`Lexer.remaining_next`).
-/

namespace Straightline

/-- What can be wrong with a token. -/
inductive LexicalCause where
  | unterminated
  | outOfRange (digits : String)
deriving DecidableEq, Repr

/-- The wording of a lexical error. -/
def LexicalCause.message : LexicalCause → String
  | .unterminated => "unterminated string literal"
  | .outOfRange digits =>
    "integer literal " ++ digits ++ " is out of range for a 32-bit int"

/-- A lexical error with its place. -/
abbrev LexicalError := Located LexicalCause

/-- The printed form of a lexical error. -/
def LexicalError.text (e : LexicalError) : String := Located.text LexicalCause.message e

/-- A token as the lexer hands it out, with the error that made it invalid. -/
structure Scanned where
  token : Token
  error : Option LexicalError := none
deriving DecidableEq, Repr

/-- A source text being split into tokens. -/
structure Lexer where
  rest : List Rune
  pos : Position
  pending : List Token := []
deriving DecidableEq, Repr

namespace Lexer

/-! ## Character classes -/

/-- Blanks separate words and are skipped. -/
def isBlank (c : Char) : Bool := c == ' ' || c == '\t' || c == '\r'

/-- The characters a word is made of: all but blanks, punctuation, `"` and `#`. -/
def isWord (c : Char) : Bool :=
  !isBlank c && c != '#' && c != '"' && (Token.punctuation? c).isNone

/-! ## Pieces of text -/

/-- Text together with the position of its first rune. -/
abbrev Input := List Rune × Position

/-- Drops the leading runes whose characters satisfy `p`. -/
def Input.dropWhile (p : Char → Bool) : Input → Input
  | (rs, pos) => (rs.dropWhile (p ·.toChar), pos.advanceAll (rs.takeWhile (p ·.toChar)))

/-- Skips blanks, and a comment up to the end of its line. -/
def skip (i : Input) : Input :=
  let i := i.dropWhile isBlank
  match i.1 with
  | r :: _ => if r.toChar = '#' then i.dropWhile (· != '\n') else i
  | [] => i

/-- The outcome of reading a string literal: whether it was closed, its decoded
text, and the text after it. -/
structure TextLiteral where
  closed : Bool
  chars : List Char
  after : Input

/-- Puts characters in front of a literal's text. -/
def TextLiteral.prepend (cs : List Char) (l : TextLiteral) : TextLiteral :=
  { l with chars := cs ++ l.chars }

/-- What a backslash and the character after it stand for. -/
def unescape : Char → List Char
  | 'n' => ['\n']
  | 't' => ['\t']
  | c => ['\\', c]

/-- Reads a string literal from behind its opening quote. A backslash at
the very end is dropped. -/
def textLiteral : List Rune → Position → TextLiteral
  | [], p => ⟨false, [], [], p⟩
  | r :: rs, p =>
    if r.toChar = '"' then
      ⟨true, [], rs, p.advance r⟩
    else if r.toChar = '\\' then
      match rs with
      | [] => ⟨false, [], [], p.advance r⟩
      | e :: rs =>
        (textLiteral rs ((p.advance r).advance e)).prepend (unescape e.toChar)
    else
      (textLiteral rs (p.advance r)).prepend [r.toChar]

/-- The token that a word at `pos` is: a keyword, an integer
literal or an identifier. -/
def classify (chars : List Char) (pos : Position) : Scanned :=
  let word := String.ofList chars
  match Keyword.ofWord? word with
  | some k => { token := { kind := .keyword k, lexeme := word, pos } }
  | none =>
    if chars.all Decimal.isDigit then
      if Decimal.value chars ≤ 2147483647 then
        { token := { kind := .integer, lexeme := word,
                     value := Int32.ofNat (Decimal.value chars), pos } }
      else
        { token := { kind := .invalid, lexeme := word, pos },
          error := some ⟨pos, .outOfRange word⟩ }
    else
      { token := { kind := .identifier, lexeme := word, pos } }

/-! ## Reading tokens -/

/-- A lexer at the start of `source`. -/
def ofRunes (source : List Rune) (filename : String) : Lexer :=
  { rest := source, pos := .start filename }

/-- A lexer at the start of a source given as bytes. -/
def ofBytes (source : List UInt8) (filename : String) : Lexer :=
  ofRunes (Rune.decode source) filename

/-- The file name that positions carry. -/
def filename (l : Lexer) : String := l.pos.filename

/-- Puts a token back; it comes out next. -/
def pushBack (l : Lexer) (t : Token) : Lexer :=
  { l with pending := t :: l.pending }

/-- The token for the mark `r` at `pos`. -/
def markToken (kind : Token.Kind) (r : Rune) (pos : Position) : Token :=
  { kind, lexeme := String.singleton r.toChar, pos }

/-- Scans one token from the text, which `skip` has brought to the start of a token. -/
def scanAt (i : Input) : Scanned × Lexer :=
  match i with
  | ([], pos) => ({ token := { kind := .eof, pos } }, { rest := [], pos })
  | (r :: rs, pos) =>
    if r.toChar = '"' then
      let l := textLiteral rs (pos.advance r)
      let lexeme := String.ofList l.chars
      if l.closed then
        ({ token := { kind := .text, lexeme, pos } },
          { rest := l.after.1, pos := l.after.2 })
      else
        ({ token := { kind := .invalid, lexeme, pos },
           error := some ⟨pos, .unterminated⟩ },
          { rest := l.after.1, pos := l.after.2 })
    else
      match Token.punctuation? r.toChar with
      | some kind =>
        ({ token := markToken kind r pos }, { rest := rs, pos := pos.advance r })
      | none =>
        let word := r :: rs.takeWhile (isWord ·.toChar)
        let scanned := classify (word.map Rune.toChar) pos
        match Input.dropWhile isWord (rs, pos.advance r) with
        | (m :: ms, markPos) =>
          match Token.punctuation? m.toChar with
          | some kind =>
            (scanned,
              { rest := ms, pos := markPos.advance m,
                pending := [markToken kind m markPos] })
          | none => (scanned, { rest := m :: ms, pos := markPos })
        | ([], endPos) => (scanned, { rest := [], pos := endPos })

/-- The next token. -/
def next (l : Lexer) : Scanned × Lexer :=
  match l.pending with
  | t :: ts => ({ token := t }, { l with pending := ts })
  | [] => scanAt (skip (l.rest, l.pos))

/-! ## Progress -/

/-- How much is left to hand out: unread runes and pending tokens. -/
def remaining (l : Lexer) : Nat := l.rest.length + l.pending.length

theorem length_dropWhile_le (p : Char → Bool) (i : Input) :
    (i.dropWhile p).1.length ≤ i.1.length := by
  obtain ⟨rs, pos⟩ := i
  exact (List.dropWhile_sublist _).length_le

theorem length_skip_le (i : Input) : (skip i).1.length ≤ i.1.length := by
  have h := length_dropWhile_le isBlank i
  unfold skip
  simp only
  split
  · split
    · exact Nat.le_trans (length_dropWhile_le _ _) h
    · exact h
  · exact h

theorem length_textLiteral_le (rs : List Rune) (p : Position) :
    (textLiteral rs p).after.1.length ≤ rs.length := by
  fun_induction textLiteral rs p with
  | case1 => simp
  | case2 => simp
  | case3 => simp
  | case4 r p _ _ e rs ih => simp only [TextLiteral.prepend, List.length_cons]; omega
  | case5 r rs p _ _ ih => simp only [TextLiteral.prepend, List.length_cons]; omega

/-- Scanning any token but the end of file leaves less behind than there was text. -/
theorem remaining_scanAt (i : Input) :
    (scanAt i).1.token.kind = .eof ∨ (scanAt i).2.remaining < i.1.length := by
  obtain ⟨rs, pos⟩ := i
  cases rs with
  | nil => left; rfl
  | cons r rs =>
    right
    have ht := length_textLiteral_le rs (pos.advance r)
    have hw := length_dropWhile_le isWord (rs, pos.advance r)
    simp only [scanAt, remaining, List.length_cons]
    split
    · split <;> simp only [List.length_nil] <;> omega
    · split
      · simp
      · split
        · next m ms markPos heq =>
          rw [heq] at hw
          simp only [List.length_cons] at hw
          split <;> simp only [List.length_cons, List.length_nil] <;> omega
        · simp

/-- Every token but the end of file leaves less to hand out. -/
theorem remaining_next (l : Lexer) :
    l.next.1.token.kind = .eof ∨ l.next.2.remaining < l.remaining := by
  unfold next
  split
  · next t ts h => right; simp [remaining, h]
  · next h =>
    rcases remaining_scanAt (skip (l.rest, l.pos)) with h' | h'
    · exact .inl h'
    · right
      have := length_skip_le (l.rest, l.pos)
      simp only [remaining, h, List.length_nil] at *
      omega

/-! ## Reading to the end -/

/-- What a lexer gives up to the end of file: the tokens before it, the
end-of-file token itself, and the lexer that is left. -/
structure Drained where
  tokens : List Scanned
  eof : Token
  left : Lexer

/-- Reads all tokens up to the first end of file. -/
def drain (l : Lexer) : Drained :=
  match _h : l.next with
  | (s, l') =>
    if s.token.kind = .eof then
      { tokens := [], eof := s.token, left := l' }
    else
      let d := drain l'
      { d with tokens := s :: d.tokens }
termination_by l.remaining
decreasing_by
  have := remaining_next l
  simp_all

/-- All tokens up to and including the end of file. -/
def Drained.all (d : Drained) : List Token :=
  d.tokens.map (·.token) ++ [d.eof]

/-- The lexical errors, in the order in which they were met. -/
def Drained.errors (d : Drained) : List LexicalError :=
  d.tokens.filterMap (·.error)

end Lexer

end Straightline
