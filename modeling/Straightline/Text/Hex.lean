/-!
# Hexadecimal digits

Fixed-width hexadecimal numerals, in the two letter cases the
output formats use.
-/

namespace Straightline.Hex

/-- The lower-case digit for `n < 16`. -/
def lowerDigit (n : Nat) : Char :=
  if n < 10 then Char.ofNat (0x30 + n) else Char.ofNat (0x57 + n)

/-- The upper-case digit for `n < 16`. -/
def upperDigit (n : Nat) : Char :=
  if n < 10 then Char.ofNat (0x30 + n) else Char.ofNat (0x37 + n)

/-- The last `width` hexadecimal digits of `n`, each written by `digit`. -/
def fixed (digit : Nat → Char) : (width n : Nat) → List Char
  | 0, _ => []
  | width + 1, n => fixed digit width (n / 16) ++ [digit (n % 16)]

/-- The last `width` digits of `n` in lower case. -/
def lower (width n : Nat) : List Char := fixed lowerDigit width n

/-- The last `width` digits of `n` in upper case. -/
def upper (width n : Nat) : List Char := fixed upperDigit width n

@[simp] theorem length_fixed (digit : Nat → Char) (width n : Nat) :
    (fixed digit width n).length = width := by
  induction width generalizing n with
  | zero => rfl
  | succ width ih => simp [fixed, ih]

end Straightline.Hex
