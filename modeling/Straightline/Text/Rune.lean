/-!
# Runes: bytes read as characters

Source text arrives as bytes. `Rune.decode` reads them as UTF-8 and never
refuses: a byte that starts no well-formed character is kept as a rune of its
own, which reads as U+FFFD and is one byte wide. `Rune.encode` writes runes as
bytes, a stray byte as itself.
-/

namespace Straightline

/-- One unit of text: a character, or a byte that starts no character. -/
inductive Rune where
  | char (c : Char)
  | stray (b : UInt8)
deriving DecidableEq, Repr

namespace Rune

/-- The character a rune is read as. -/
def toChar : Rune → Char
  | .char c => c
  | .stray _ => '\uFFFD'

/-- The number of bytes a rune takes up. -/
def width : Rune → Nat
  | .char c => c.utf8Size
  | .stray _ => 1

/-- The bytes of a rune. -/
def bytes : Rune → List UInt8
  | .char c => String.utf8EncodeChar c
  | .stray b => [b]

/-- What the first byte of a character says: how many bytes follow it, the bits
it carries itself, and the least code that needs this length. -/
structure Lead where
  more : Nat
  bits : Nat
  least : Nat

/-- Reads a first byte. -/
def lead? (b : UInt8) : Option Lead :=
  let n := b.toNat
  if n < 0x80 then some ⟨0, n, 0⟩
  else if n < 0xC0 then none
  else if n < 0xE0 then some ⟨1, n - 0xC0, 0x80⟩
  else if n < 0xF0 then some ⟨2, n - 0xE0, 0x800⟩
  else if n < 0xF8 then some ⟨3, n - 0xF0, 0x10000⟩
  else none

/-- Reads `more` continuation bytes of six bits each, after the bits `n` read so far. -/
def tails? : (more n : Nat) → List UInt8 → Option (Nat × List UInt8)
  | 0, n, bs => some (n, bs)
  | _ + 1, _, [] => none
  | more + 1, n, b :: bs =>
    if 0x80 ≤ b.toNat ∧ b.toNat < 0xC0 then
      tails? more (n * 0x40 + (b.toNat - 0x80)) bs else none

/-- The character with code `n`, unless a shorter form had room for `n` or
`n` is no scalar value. -/
def scalar? (least n : Nat) : Option Char :=
  if least ≤ n ∧ n.isValidChar then some (Char.ofNat n) else none

/-- Reads one character whose first byte is `b`, and gives the bytes after it. -/
def readChar? (b : UInt8) (bs : List UInt8) : Option (Char × List UInt8) :=
  (lead? b).bind fun lead =>
    (tails? lead.more lead.bits bs).bind fun (n, bs') =>
      (scalar? lead.least n).map fun c => (c, bs')

theorem length_of_tails? {more n m : Nat} {bs bs' : List UInt8}
    (h : tails? more n bs = some (m, bs')) : bs'.length + more = bs.length := by
  induction more generalizing n bs with
  | zero =>
    simp only [tails?, Option.some.injEq, Prod.mk.injEq] at h
    rw [h.2]; rfl
  | succ more ih =>
    cases bs with
    | nil => simp [tails?] at h
    | cons b bs =>
      simp only [tails?] at h
      split at h
      · have := ih h
        simp only [List.length_cons]; omega
      · simp at h

theorem length_le_of_readChar? {b : UInt8} {bs bs' : List UInt8} {c : Char}
    (h : readChar? b bs = some (c, bs')) : bs'.length ≤ bs.length := by
  simp only [readChar?, Option.bind_eq_some_iff, Option.map_eq_some_iff,
    Prod.mk.injEq] at h
  obtain ⟨lead, -, ⟨n, rest⟩, ht, -, -, -, rfl⟩ := h
  have := length_of_tails? ht
  simp only at this ⊢; omega

/-- Reads bytes as runes. -/
def decode : List UInt8 → List Rune
  | [] => []
  | b :: bs =>
    match _h : readChar? b bs with
    | some (c, bs') => .char c :: decode bs'
    | none => .stray b :: decode bs
termination_by bs => bs.length
decreasing_by
  · have := length_le_of_readChar? _h
    simp only [List.length_cons]; omega
  · simp

/-- The bytes of a list of runes. -/
def encode (rs : List Rune) : List UInt8 :=
  rs.flatMap bytes

/-- The runes of a string, all of them characters. -/
def ofString (s : String) : List Rune :=
  s.toList.map .char

/-- The bytes of a string. -/
def utf8 (s : String) : List UInt8 := encode (ofString s)

end Rune

end Straightline
