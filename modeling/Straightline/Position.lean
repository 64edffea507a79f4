import Straightline.Text.Decimal
import Straightline.Text.Rune

/-!
# Positions

Where something stands in a source file. Lines and columns count from one,
columns in runes; the offset counts bytes from zero. The position without a
file, line or column marks what has no place in a source.
-/

namespace Straightline

/-- A place in a source file. -/
structure Position where
  filename : String := ""
  line : Int := 0
  column : Int := 0
  offset : Int := 0
deriving DecidableEq, Repr, Inhabited

namespace Position

/-- The first position of a file. -/
def start (filename : String) : Position :=
  { filename, line := 1, column := 1, offset := 0 }

/-- The position after the rune `r` that stands at `p`. -/
def advance (p : Position) (r : Rune) : Position :=
  if r.toChar = '\n' then
    { p with line := p.line + 1, column := 1, offset := p.offset + r.width }
  else
    { p with column := p.column + 1, offset := p.offset + r.width }

/-- The position after all of `rs`, the first of which stands at `p`. -/
def advanceAll (p : Position) (rs : List Rune) : Position :=
  rs.foldl advance p

/-- Whether the position names a line. -/
def isValid (p : Position) : Bool := 0 < p.line

/-- The position as it is printed in a diagnostic. -/
def text (p : Position) : String :=
  p.filename ++ ":" ++ Decimal.ofInt p.line ++ ":" ++ Decimal.ofInt p.column

end Position

/-- Something that was found at a position. -/
structure Located (α : Type) where
  pos : Position
  cause : α
deriving DecidableEq, Repr

/-- The printed form of something found at a position, given the
wording of its cause. -/
def Located.text {α : Type} (message : α → String) (d : Located α) : String :=
  d.pos.text ++ ": " ++ message d.cause

end Straightline
