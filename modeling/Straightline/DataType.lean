/-!
# Data types

The types that source code can name or have: `void`, the character, the 32-bit
integer, and pointers to any of these. A string is a pointer to characters.
Types are equal if they have the same structure (`DataType.equal_iff`).
-/

namespace Straightline

/-- A data type of the source language. -/
inductive DataType where
  | void
  | char
  | int
  | pointer (elem : DataType)
deriving DecidableEq, Repr

namespace DataType

/-- What a type is, whatever it points to. -/
inductive Kind where
  | void
  | char
  | int
  | pointer
deriving DecidableEq, Repr

/-- The number that a kind goes by. -/
def Kind.number : Kind → Nat
  | .void => 0
  | .char => 1
  | .int => 2
  | .pointer => 3

/-- The kind of a type. -/
def kind : DataType → Kind
  | .void => .void
  | .char => .char
  | .int => .int
  | .pointer _ => .pointer

/-- The type of string literals, which source code calls `str`. -/
def str : DataType := .pointer .char

/-- The type in prefix notation. -/
def text : DataType → String
  | .void => "void"
  | .char => "char"
  | .int => "int"
  | .pointer elem => "*" ++ elem.text

/-- Whether two types have the same structure. Pointers are compared by what
they point to, other types by their kinds. -/
def equal : DataType → DataType → Bool
  | .pointer a, .pointer b => equal a b
  | a, b => a.kind = b.kind

/-- Whether a type is the integer. -/
def isInteger (t : DataType) : Bool := t.kind = .int

/-- Whether a type is that of strings. -/
def isString (t : DataType) : Bool := t.equal str

theorem equal_iff {a b : DataType} : a.equal b = true ↔ a = b := by
  fun_induction equal a b with
  | case1 a b ih => rw [ih, pointer.injEq]
  | case2 a b hpointers => cases a <;> cases b <;> simp_all [kind]

theorem isInteger_iff {t : DataType} : t.isInteger = true ↔ t = .int := by
  cases t <;> simp [isInteger, kind]

theorem isString_iff {t : DataType} : t.isString = true ↔ t = str := equal_iff

end DataType

end Straightline
