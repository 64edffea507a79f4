/-!
# File paths

A path is a row of names divided by slashes. The extension of a path is what
stands from the last dot of its last name on.
-/

namespace Straightline.Path

/-- The parts between slashes; there is at least one. -/
def split : List Char → List (List Char)
  | [] => [[]]
  | c :: cs =>
    if c = '/' then [] :: split cs
    else
      match split cs with
      | [] => [[c]]
      | part :: parts => (c :: part) :: parts

/-- The parts of a path. -/
def parts (path : String) : List String := (split path.toList).map String.ofList

/-- A path without its extension. -/
def stem (path : List Char) : List Char :=
  let backward := path.reverse
  match backward.dropWhile fun c => c ≠ '.' && c ≠ '/' with
  | '.' :: rest => rest.reverse
  | _ => path

/-- The path with its extension replaced by `.ll`, or with `.ll`
added if it has none. -/
def targetPath (path : String) : String := String.ofList (stem path.toList) ++ ".ll"

end Straightline.Path
