/-!
Paths of files: names separated by slashes. Empty names and single dots are skipped, except a dot
at the start of a relative path, which counts as a name. The files are those of the machine or of a
tree in memory, where files and directories are seen from their common directory.
-/

namespace FinitePlanning

structure Path where
  isAbsolute : Bool
  /-- What stands between the slashes. -/
  segments : List String
deriving DecidableEq, Repr, Inhabited

namespace Path

def ofText (text : String) : Path :=
  match text.splitOn "/" with
  | "" :: second :: rest => ⟨true, second :: rest⟩
  | segments => ⟨false, segments⟩

def text (p : Path) : String :=
  (if p.isAbsolute then "/" else "") ++ "/".intercalate p.segments

/-- Whether a segment, with the ones before it, names a file or directory. -/
def isName (p : Path) (before : List String) (segment : String) : Bool :=
  segment ≠ "" ∧ (segment ≠ "." ∨ (before = [] ∧ !p.isAbsolute))

/-- Splits reversed segments at the last name: the segments before it, still reversed, and the
name. -/
def splitLast (p : Path) : List String → Option (List String × String)
  | [] => none
  | s :: before => if p.isName before s then some (before, s) else p.splitLast before

/-- Drops what stands after the last name of reversed segments. -/
def dropEnd (p : Path) : List String → List String
  | [] => []
  | s :: before => if p.isName before s then s :: before else p.dropEnd before

/-- The last name, unless it is one of the dots that stand for a directory. -/
def fileName? (p : Path) : Option String :=
  match p.splitLast p.segments.reverse with
  | some (_, name) => if name = "." ∨ name = ".." then none else some name
  | none => none

/-- The path without its last name. -/
def parent? (p : Path) : Option Path :=
  (p.splitLast p.segments.reverse).map fun (before, _) =>
    { p with segments := (p.dropEnd before).reverse }

/-- What follows the last dot of the file name, unless it only starts with that dot. -/
def extension? (p : Path) : Option String :=
  p.fileName?.bind fun name =>
    match name.splitOn "." with
    | [_] | ["", _] => none
    | parts => parts.getLast?

/-- The path of a name in a directory. -/
def inside (directory : Path) (name : String) : Path :=
  let text := directory.text
  .ofText (if text = "" ∨ text.endsWith "/" then text ++ name else text ++ "/" ++ name)

end Path

structure FileSystem (m : Type → Type) where
  /-- Whether there is a file or a directory at a path. -/
  contains : String → m Bool
  /-- The text of a file. Nothing if it cannot be read or is not valid text. -/
  readText? : String → m (Option String)
  /-- Creates or replaces a file. Yields whether this succeeded. -/
  write : String → String → m Bool

/-- Files by the names that lead to them, with their bytes. Every directory holds a file. -/
structure FileTree where
  files : List (List String × ByteArray)

namespace FileTree

/-- The length of the longest name of a file in bytes. -/
def maxNameBytes : Nat := 255

def file? (t : FileTree) (names : List String) : Option ByteArray :=
  t.files.lookup names

def isDirectory (t : FileTree) (names : List String) : Bool :=
  names.isEmpty || t.files.any fun (file, _) => names.isPrefixOf file && file ≠ names

/-- Follows one segment of a path from a directory. -/
def step (t : FileTree) (names : List String) (segment : String) : Option (List String) :=
  if !t.isDirectory names then none
  else if segment = "" ∨ segment = "." then some names
  else if segment = ".." then if names.isEmpty then none else some names.dropLast
  else if maxNameBytes < segment.utf8ByteSize ∨ '\x00' ∈ segment.toList then none
  else some (names ++ [segment])

/-- The names that a path stands for. All but the last one are those of directories. -/
def resolve (t : FileTree) (path : String) : Option (List String) :=
  let p := Path.ofText path
  if path = "" ∨ p.isAbsolute then none else p.segments.foldlM t.step []

def contains (t : FileTree) (path : String) : Bool :=
  (t.resolve path).any fun names => t.isDirectory names || (t.file? names).isSome

def readText? (t : FileTree) (path : String) : Option String :=
  (t.resolve path).bind fun names => (t.file? names).bind String.fromUTF8?

/-- Creates or replaces a file, unless the path leads to a directory or nowhere. -/
def write? (t : FileTree) (path text : String) : Option FileTree :=
  (t.resolve path).bind fun names =>
    if t.isDirectory names then none
    else some ⟨t.files.filter (·.1 ≠ names) ++ [(names, text.toUTF8)]⟩

/-- The files of a tree that is kept as a state. -/
def system : FileSystem (StateM FileTree) where
  contains path := return (← get).contains path
  readText? path := return (← get).readText? path
  write path text := do
    match (← get).write? path text with
    | some t =>
      set t
      return true
    | none => return false

end FileTree
end FinitePlanning
