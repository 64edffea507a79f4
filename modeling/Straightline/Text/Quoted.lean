import Straightline.Text.Hex
import Straightline.Text.Printable
import Straightline.Text.Rune

/-!
# Quoted text

Text between double quotes on one line, with every rune that could not be told
apart when printed written as an escape: the usual control characters by letter,
a stray byte and the other codes below the space by two hexadecimal digits, all
other characters that are not printable by four or eight.
-/

namespace Straightline.Quoted

/-- How one character is written inside quotes. -/
def escape (c : Char) : List Char :=
  if c = '"' ∨ c = '\\' then ['\\', c]
  else if Printable.isPrintable c then [c]
  else if c = '\x07' then ['\\', 'a']
  else if c = '\x08' then ['\\', 'b']
  else if c = '\x0c' then ['\\', 'f']
  else if c = '\n' then ['\\', 'n']
  else if c = '\r' then ['\\', 'r']
  else if c = '\t' then ['\\', 't']
  else if c = '\x0b' then ['\\', 'v']
  else if c.toNat < 0x20 ∨ c.toNat = 0x7f then '\\' :: 'x' :: Hex.lower 2 c.toNat
  else if c.toNat < 0x10000 then '\\' :: 'u' :: Hex.lower 4 c.toNat
  else '\\' :: 'U' :: Hex.lower 8 c.toNat

/-- How one rune is written inside quotes. -/
def escapeRune : Rune → List Char
  | .char c => escape c
  | .stray b => '\\' :: 'x' :: Hex.lower 2 b.toNat

/-- The quoted form of a list of runes. -/
def ofRunes (rs : List Rune) : String :=
  String.ofList ('"' :: rs.flatMap escapeRune ++ ['"'])

/-- The quoted form of a string. -/
def ofString (s : String) : String :=
  ofRunes (Rune.ofString s)

/-- The quoted form of bytes, read as UTF-8 as far as they are. -/
def ofBytes (bs : List UInt8) : String :=
  ofRunes (Rune.decode bs)

end Straightline.Quoted
