/-!
# Paths of files

A path is a text whose slashes separate segments. Empty segments name nothing, and
neither does a lone dot unless the path begins with it. The parent of a path is what
stands before its last name, as it was written.
-/

namespace PatternAutomata.Path

/-- The parts of a path between slashes. -/
def segments : List Char → List (List Char)
  | [] => [[]]
  | c :: rest =>
    if c = '/' then [] :: segments rest
    else
      match segments rest with
      | [] => [[c]]
      | s :: others => (c :: s) :: others

/-- Segments with slashes between them. -/
def joinSegments (segments : List (List Char)) : List Char := ['/'].intercalate segments

/-- The path begins at the root. -/
def isAbsolute (path : List Char) : Bool := path.head? = some '/'

/-- Drops from segments in reverse order those in front that name nothing. -/
def trimUnnamed : List (List Char) → List (List Char)
  | [] => []
  | s :: above =>
    if s = [] ∨ (s = ['.'] ∧ above ≠ []) then trimUnnamed above else s :: above

/-- The path up to its last name; nothing when it has no name. -/
def parent? (path : List Char) : Option (List Char) :=
  match trimUnnamed (segments path).reverse with
  | [] => none
  | _ :: above =>
    match trimUnnamed above with
    | [] => some (if isAbsolute path then ['/'] else [])
    | above => some (joinSegments above.reverse)

/-- The directory `base` followed by `path`, which stays as it is when it is absolute. -/
def join (base path : List Char) : List Char :=
  if isAbsolute path || base.isEmpty then path
  else if base.getLast? = some '/' then base ++ path
  else base ++ '/' :: path

end PatternAutomata.Path
