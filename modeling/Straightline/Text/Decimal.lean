/-!
# Decimal numerals

`Decimal.digits` writes a natural number and `Decimal.value` reads one.
Reading what was written gives the number back (`value_digits`), so no
two numbers share a numeral.
-/

namespace Straightline.Decimal

/-- The digit for `n < 10`. -/
def digit (n : Nat) : Char := Char.ofNat (0x30 + n)

/-- Whether `c` is one of the ten ASCII digits. -/
def isDigit (c : Char) : Bool := 0x30 ≤ c.toNat && c.toNat ≤ 0x39

/-- The decimal digits of `n`, without leading zeros. -/
def digits (n : Nat) : List Char :=
  if n < 10 then [digit n] else digits (n / 10) ++ [digit (n % 10)]

/-- The number that a list of digits stands for; leading zeros count for nothing. -/
def value (cs : List Char) : Nat :=
  cs.foldl (fun n c => n * 10 + (c.toNat - 0x30)) 0

/-- The numeral of a natural number. -/
def ofNat (n : Nat) : String := String.ofList (digits n)

/-- The numeral of an integer, with `-` before a negative one. -/
def ofInt : Int → String
  | .ofNat n => ofNat n
  | .negSucc n => "-" ++ ofNat (n + 1)

theorem toNat_digit {n : Nat} (h : n < 10) : (digit n).toNat = 0x30 + n := by
  revert n
  decide

theorem value_append_singleton (cs : List Char) (c : Char) :
    value (cs ++ [c]) = value cs * 10 + (c.toNat - 0x30) := by
  simp [value]

theorem value_digits (n : Nat) : value (digits n) = n := by
  induction n using digits.induct with
  | case1 n h =>
    rw [digits, if_pos h]
    simp [value, toNat_digit h]
  | case2 n h ih =>
    rw [digits, if_neg h, value_append_singleton, ih,
      toNat_digit (Nat.mod_lt _ (by decide))]
    omega

theorem isDigit_digit {n : Nat} (h : n < 10) : isDigit (digit n) := by
  simp only [isDigit, toNat_digit h, Bool.and_eq_true, decide_eq_true_eq]
  omega

theorem isDigit_of_mem_digits {n : Nat} {c : Char} (h : c ∈ digits n) : isDigit c := by
  induction n using digits.induct with
  | case1 n hn =>
    rw [digits, if_pos hn, List.mem_singleton] at h
    exact h ▸ isDigit_digit hn
  | case2 n hn ih =>
    rw [digits, if_neg hn, List.mem_append, List.mem_singleton] at h
    rcases h with h | h
    · exact ih h
    · exact h ▸ isDigit_digit (Nat.mod_lt _ (by decide))

theorem ofNat_injective {m n : Nat} (h : ofNat m = ofNat n) : m = n := by
  have h' : digits m = digits n := by
    have := congrArg String.toList h
    simpa only [ofNat, String.toList_ofList] using this
  rw [← value_digits m, h', value_digits]

end Straightline.Decimal
