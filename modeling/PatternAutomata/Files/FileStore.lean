import PatternAutomata.Files.IoError
import PatternAutomata.Files.Path

/-!
# A store of files by path

A store holds the contents of files by the names of the directories above them and
their own. A directory is there as soon as a file is in it, and so are the current
directory, those above it and the root. A path is followed name by name; to read needs
a file at its end, and to write needs a directory above it.
-/

namespace PatternAutomata

/-- The contents of files by their names from the current directory or from the root. -/
structure FileStore where
  files : List (List String × ByteArray)

namespace FileStore

/-- The name that stands for the root where it comes first. -/
def rootName : String := "/"

/-- The name of the directory above. -/
def parentName : String := ".."

/-- What names lead to. -/
inductive Place
  | directory (names : List String)
  | file (names : List String) (content : ByteArray)
  | absent (names : List String)

/-- The content of the file of the given names. -/
def get? (s : FileStore) (names : List String) : Option ByteArray := s.files.lookup names

/-- The names are those of a directory. -/
def isDirectory (s : FileStore) (names : List String) : Bool :=
  names.all (· = parentName) || names = [rootName] ||
    s.files.any fun (file, _) => names.isPrefixOf file && names.length < file.length

/-- What the given names lead to. -/
def locate (s : FileStore) (names : List String) : Place :=
  if s.isDirectory names then .directory names
  else
    match s.get? names with
    | some content => .file names content
    | none => .absent names

/-- The names of the directory above; the root is above itself. -/
def above (names : List String) : List String :=
  if names = [rootName] then names
  else if names.all (· = parentName) then names ++ [parentName]
  else names.dropLast

/-- Follows one segment of a path. -/
def follow (s : FileStore) : Place → String → Except IoError Place
  | .directory names, segment =>
    if segment = "" ∨ segment = "." then .ok (.directory names)
    else if segment = parentName then .ok (s.locate (above names))
    else .ok (s.locate (names ++ [segment]))
  | .file _ _, _ => .error .notDirectory
  | .absent _, _ => .error .notFound

/-- What a path leads to. -/
def resolve (s : FileStore) (path : List Char) : Except IoError Place :=
  if path.isEmpty then .error .notFound
  else if path.contains '\x00' then .error .invalidInput
  else
    let start := if Path.isAbsolute path then [rootName] else []
    ((Path.segments path).map String.ofList).foldlM s.follow (.directory start)

/-- The content of the file at a path. -/
def read (s : FileStore) (path : String) : Except IoError ByteArray := do
  match ← s.resolve path.toList with
  | .file _ content => pure content
  | .directory _ => throw .isDirectory
  | .absent _ => throw .notFound

/-- The store with a file put in place of what stood under its names. -/
def put (s : FileStore) (names : List String) (content : ByteArray) : FileStore :=
  ⟨(names, content) :: s.files.filter (·.1 ≠ names)⟩

/-- A path without the slashes at its end, of which the root keeps one. -/
def trimSlashes (path : List Char) : List Char :=
  match (path.reverse.dropWhile (· = '/')).reverse with
  | [] => path.take 1
  | trimmed => trimmed

/-- Writes a file at a path. A path that ends in a slash is that of a directory. -/
def write (s : FileStore) (path : String) (content : ByteArray) : Except IoError FileStore := do
  let place ← s.resolve (trimSlashes path.toList)
  if path.toList.getLast? = some '/' then throw .isDirectory
  match place with
  | .file names _ | .absent names => pure (s.put names content)
  | .directory _ => throw .isDirectory

/-- The names of the file at a path that is taken as it stands. -/
def namesOf (path : String) : List String :=
  ((Path.segments path.toList).map String.ofList).filter fun n => n ≠ "" ∧ n ≠ "."

/-- The store of the listed files. -/
def ofList (files : List (String × ByteArray)) : FileStore :=
  files.foldl (fun s (path, content) => s.put (namesOf path) content) ⟨[]⟩

end FileStore

end PatternAutomata
