import Straightline.Operator
import Straightline.Text.Hex
import Straightline.Text.Rune

/-!
# Names and literals of the target

How names, byte strings and integers are written in the text of the target.

A byte inside quotes is written as it is if it is printable ASCII, and as
a backslash with two hexadecimal digits otherwise. A name needs quotes if
it has a character that bare names cannot have, or if it would be taken
for a number. A number that looks plainer in hexadecimal than in decimal
is written in hexadecimal.
-/

namespace Straightline.Target

/-! ## Bytes in quotes -/

/-- Whether a byte is written as it is inside quotes. -/
def isPlainByte (b : UInt8) : Bool := 0x20 ≤ b && b ≤ 0x7e && b != 0x22 && b != 0x5c

/-- A byte as it is written inside quotes. -/
def escapeByte (b : UInt8) : List Char :=
  if isPlainByte b then [Char.ofNat b.toNat] else '\\' :: Hex.upper 2 b.toNat

/-- Bytes in quotes. -/
def quoteBytes (bs : List UInt8) : String :=
  String.ofList ('"' :: bs.flatMap escapeByte ++ ['"'])

/-- A string in quotes. -/
def quote (s : String) : String := quoteBytes (Rune.utf8 s)

/-! ## Names -/

/-- Whether a character may stand in a bare name. -/
def isNameChar (c : Char) : Bool :=
  c.isAlpha || Decimal.isDigit c || c == '$' || c == '.' || c == '_' || c == '-'

/-- Whether a name reads as a number of at most 64 bits. -/
def isNumeral (s : String) : Bool :=
  !s.toList.isEmpty && s.toList.all Decimal.isDigit && Decimal.value s.toList <
    0x10000000000000000

/-- A name as it is written behind its sigil. -/
def writeName (s : String) : String :=
  if isNumeral s || !s.toList.all isNameChar then quote s else s

/-- The number that a name reads as, if it is a numeral of a signed 64-bit
integer. A sign in front is read, and leading zeros count for nothing. -/
def signedValue? (s : String) : Option Int :=
  let (isNegative, digits) :=
    match s.toList with
    | '-' :: cs => (true, cs)
    | '+' :: cs => (false, cs)
    | cs => (false, cs)
  let n := Decimal.value digits
  if digits.isEmpty || !digits.all Decimal.isDigit then none
  else if isNegative then
    if n ≤ 0x8000000000000000 then some (-(n : Int)) else none
  else
    if n < 0x8000000000000000 then some n else none

/-- A name as messages give it: a name that reads as a number is given
as that number in quotes. -/
def messageName (s : String) : String :=
  match signedValue? s with
  | some n => "\"" ++ Decimal.ofInt n ++ "\""
  | none => s

/-! ## Integers -/

/-- The hexadecimal digits of a number, without leading zeros. -/
def hexDigits (n : Nat) : List Char :=
  if n < 16 then [Hex.upperDigit n] else hexDigits (n / 16) ++ [Hex.upperDigit (n % 16)]

/-- The number of different digits of a numeral. -/
def variety (digits : List Char) : Nat := digits.eraseDups.length

/-- Whether a number is written in hexadecimal: it has at least four
such digits, only two of them different, or three if there are more
than six; and the share of different digits among the decimal ones is
larger by more than a fifth. -/
def prefersHex (n : Nat) : Bool :=
  let hex := hexDigits n
  let dec := Decimal.digits n
  let few := if hex.length ≤ 6 then 2 else 3
  4096 ≤ n && variety hex ≤ few &&
    5 * variety hex * dec.length + hex.length * dec.length <
      5 * hex.length * variety dec

/-- The literal of an integer. -/
def writeInt (n : Int32) : String :=
  if 0 ≤ n.toInt && prefersHex n.toInt.toNat then
    "u0x" ++ String.ofList (hexDigits n.toInt.toNat)
  else Decimal.ofInt32 n

end Straightline.Target
