import Straightline.Command.Path

/-!
# Files

The command reads one file and writes at most one. `Files` is what it needs for
that, in any monad; `FileTree` is a directory tree that is plain data, and
`FileTree.access` gives access to it.
-/

namespace Straightline.Command

/-- Why a file cannot be read or written. -/
inductive Reason where
  | noEntry
  | notDirectory
  | isDirectory
  | other (message : String)
deriving DecidableEq, Repr

/-- The wording of a reason. -/
def Reason.message : Reason → String
  | .noEntry => "no such file or directory"
  | .notDirectory => "not a directory"
  | .isDirectory => "is a directory"
  | .other message => message

/-- Access to files. -/
structure Files (m : Type → Type) where
  read : String → m (Except Reason (List UInt8))
  write : String → List UInt8 → m (Except Reason Unit)

/-- A place in a directory tree: the names that lead to it from the working
directory. Places outside start with `..`, those under the root with `/`. -/
abbrev Place := List String

/-- The directory around a place. -/
def Place.parent (p : Place) : Place :=
  if p = ["/"] then p
  else
    match p.getLast? with
    | none => [".."]
    | some name => if name = ".." then p ++ [".."] else p.dropLast

/-- A directory tree. The directories on the way to a file or a
directory are there as well. -/
structure FileTree where
  files : List (Place × List UInt8) := []
  dirs : List Place := []
deriving DecidableEq, Repr

namespace FileTree

/-- The content of a file. -/
def content? (t : FileTree) (p : Place) : Option (List UInt8) := t.files.lookup p

/-- Whether there is a directory at a place. The working directory and
those around it always are. -/
def isDir (t : FileTree) (p : Place) : Bool :=
  p.all (· == "..") || p == ["/"] || t.dirs.any (p.isPrefixOf ·) ||
    t.files.any fun (q, _) => p ≠ q && p.isPrefixOf q

/-- Makes sure of a directory to go on from. -/
def enter (t : FileTree) (p : Place) : Except Reason Unit :=
  if t.isDir p then .ok ()
  else if (t.content? p).isSome then .error .notDirectory
  else .error .noEntry

/-- The place that parts of a path lead to from the place `p`. Every place that
is left has to be a directory. -/
def walk (t : FileTree) : Place → List String → Except Reason Place
  | p, [] => .ok p
  | p, part :: parts => do
    t.enter p
    if part = "" ∨ part = "." then t.walk p parts
    else if part = ".." then t.walk p.parent parts
    else t.walk (p ++ [part]) parts

/-- The place where a path starts. -/
def origin (path : String) : Place := if path.toList.head? = some '/' then ["/"] else []

/-- Reads a file. -/
def read (t : FileTree) (path : String) : Except Reason (List UInt8) := do
  if path = "" then throw .noEntry
  let p ← t.walk (origin path) (Path.parts path)
  match t.content? p with
  | some data => return data
  | none => if t.isDir p then throw .isDirectory else throw .noEntry

/-- Puts a file in place of what was there. -/
def put (t : FileTree) (p : Place) (data : List UInt8) : FileTree :=
  { t with files := (p, data) :: t.files.filter (·.1 ≠ p) }

/-- Writes a file, which may be new. Its directory has to be there, and a path
that ends like the path of a directory is none of a file. -/
def write (t : FileTree) (path : String) (data : List UInt8) :
    Except Reason FileTree :=
  do
  if path = "" then throw .noEntry
  let parts := Path.parts path
  let named := parts.reverse.dropWhile (· == "")
  let last := named.head?.getD "."
  let p ← t.walk (origin path) named.tail.reverse
  t.enter p
  if parts.getLast? = some "" ∨ last = "." ∨ last = ".." then throw .isDirectory
  let p := p ++ [last]
  if t.isDir p then throw .isDirectory
  return t.put p data

/-- The place of a name under the working directory. -/
def place (name : String) : Place :=
  (Path.parts name).filter fun part => part ≠ "" && part ≠ "."

/-- The path of a place. -/
def path (p : Place) : String := "/".intercalate p

/-- A tree with the given files and empty directories. -/
def ofList (files : List (String × List UInt8)) (dirs : List String) : FileTree :=
  { files := files.map fun (name, data) => (place name, data), dirs := dirs.map place }

/-- The files under the working directory that are new or changed since `before`. -/
def changes (before after : FileTree) : List (String × List UInt8) :=
  (after.files.filter fun (p, data) =>
    p.head? ≠ some ".." && p.head? ≠ some "/" && before.content? p ≠ some data).map
    fun (p, data) => (path p, data)

/-- Access to a directory tree that is plain data. -/
def access : Files (StateM FileTree) where
  read path := return (← get).read path
  write path data := do
    match (← get).write path data with
    | .ok t => set t; return .ok ()
    | .error reason => return .error reason

end FileTree

end Straightline.Command
