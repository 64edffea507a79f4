import Straightline.Code.Value
import Straightline.DataType
import Straightline.Position

/-!
# Scopes

The variables that a function has declared, each with its type and
the slot that holds it. There is one flat scope per function;
declaring a name again replaces it.
-/

namespace Straightline

/-- A declared variable. -/
structure Symbol where
  name : String
  type : Option DataType
  storage : Option Code.Temp
  pos : Position
deriving DecidableEq, Repr

/-- The printed form of a symbol that has a type. -/
def Symbol.text? (s : Symbol) : Option String :=
  s.type.map fun t => s.name ++ ": " ++ t.text ++ " at " ++ s.pos.text

/-- The variables declared so far, no name twice. -/
structure Scope where
  symbols : List Symbol := []
deriving DecidableEq, Repr

namespace Scope

/-- The symbol of the given name. -/
def find? (s : Scope) (name : String) : Option Symbol :=
  s.symbols.find? (·.name == name)

/-- Declares a symbol in place of any earlier one of its name. -/
def declare (s : Scope) (symbol : Symbol) : Scope :=
  { symbols := symbol :: s.symbols.filter (·.name != symbol.name) }

/-- The number of names declared. -/
def size (s : Scope) : Nat := s.symbols.length

/-- The slot of a variable. -/
def storage? (s : Scope) (name : String) : Option Code.Temp :=
  (s.find? name).bind (·.storage)

/-- The type of a variable. -/
def type? (s : Scope) (name : String) : Option DataType := (s.find? name).bind (·.type)

theorem find?_declare_self (s : Scope) (symbol : Symbol) :
    (s.declare symbol).find? symbol.name = some symbol := by
  simp [find?, declare]

theorem find?_declare_of_ne (s : Scope) (symbol : Symbol) {name : String}
    (h : name ≠ symbol.name) : (s.declare symbol).find? name = s.find? name := by
  have h' : (symbol.name == name) = false := by simpa using Ne.symm h
  simp only [find?, declare, List.find?_cons, h', List.find?_filter]
  congr 1
  funext x
  by_cases hx : x.name = name
  · subst hx; simp [h]
  · simp [hx]

end Scope

end Straightline
