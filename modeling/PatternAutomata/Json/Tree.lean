import PatternAutomata.Json.Lexeme

/-!
# The tree of a JSON text, sound or damaged

Lexical units are put together one by one. A text that is not JSON still has a tree up
to the place where it breaks off: every container that is open there tells why it has
no end. So one pass builds the tree, and whoever walks it from left to right meets the
first damage or the first value of a wrong shape, whichever comes first.
-/

namespace PatternAutomata.Json

/-- A value as it was found in a text. A container that was not closed tells why. -/
inductive Tree
  | null
  | bool (b : Bool)
  | number (n : Numeral)
  | text (s : String)
  | damaged (d : Damage)
  | array (items : List Tree) (stop : Option ReadError)
  | object (members : List (String × Tree)) (stop : Option ReadError)

namespace Tree

/-- The members of an object. -/
abbrev Members := List (String × Tree)

/-- A container around the place where a text is being read: an array with its finished
items, or an object with its finished members and the key of the next. What is finished
stands in reverse. -/
inductive Enclosure
  | array (items : List Tree)
  | object (members : Members) (key : String)

/-- What has been built of a text, by what may come next. Enclosures are listed from the
innermost out. -/
inductive Progress
  /-- A value must come. -/
  | value (outer : List Enclosure)
  /-- An array was opened: an item or its end must come. -/
  | firstItem (outer : List Enclosure)
  /-- An item ended: a comma or the end of the array must come. -/
  | afterItem (items : List Tree) (outer : List Enclosure)
  /-- An object was opened: a key or its end must come. -/
  | firstKey (outer : List Enclosure)
  /-- A comma came in an object: a key must come. -/
  | nextKey (members : Members) (outer : List Enclosure)
  /-- A key came: a colon must come. -/
  | colon (members : Members) (key : String) (outer : List Enclosure)
  /-- A member ended: a comma or the end of the object must come. -/
  | afterMember (members : Members) (outer : List Enclosure)
  /-- The value of the whole text ended; nothing must come, and `more` tells if it did. -/
  | finished (tree : Tree) (more : Bool)

/-- Puts a finished value where it belongs. -/
def place (t : Tree) : List Enclosure → Progress
  | [] => .finished t false
  | .array items :: outer => .afterItem (t :: items) outer
  | .object members key :: outer => .afterMember ((key, t) :: members) outer

/-- The array of reversed items. -/
def closeArray (items : List Tree) (stop : Option ReadError) : Tree := .array items.reverse stop

/-- The object of reversed members. -/
def closeObject (members : Members) (stop : Option ReadError) : Tree := .object members.reverse stop

/-- The tree of a text that breaks off after the value `t`. -/
def enclose (t : Tree) : List Enclosure → Tree
  | [] => t
  | .array items :: outer => enclose (closeArray (t :: items) none) outer
  | .object members key :: outer => enclose (closeObject ((key, t) :: members) none) outer

/-- Breaks off at a value. -/
def breakOff (t : Tree) (outer : List Enclosure) : Progress := .finished (enclose t outer) false

/-- Takes up a unit where a value must come. -/
def takeValue (outer : List Enclosure) : Lexeme → Progress
  | .null => place .null outer
  | .bool b => place (.bool b) outer
  | .number n => place (.number n) outer
  | .text s => place (.text s) outer
  | .brokenText e => place (.damaged (.fatal e)) outer
  | .damaged d => place (.damaged d) outer
  | .openArray => .firstItem outer
  | .openObject => .firstKey outer
  | .closeArray | .closeObject | .comma | .colon => breakOff (.damaged (.fatal .malformed)) outer

/-- Takes up a unit where a key must come. -/
def takeKey (members : Members) (outer : List Enclosure) : Lexeme → Progress
  | .text s => .colon members s outer
  | .brokenText e => breakOff (closeObject members (some e)) outer
  | _ => breakOff (closeObject members (some .malformed)) outer

/-- Takes up one unit. -/
def Progress.step : Progress → Lexeme → Progress
  | .value outer, l => takeValue outer l
  | .firstItem outer, .closeArray => place (.array [] none) outer
  | .firstItem outer, l => takeValue (.array [] :: outer) l
  | .afterItem items outer, .comma => .value (.array items :: outer)
  | .afterItem items outer, .closeArray => place (closeArray items none) outer
  | .afterItem items outer, _ => breakOff (closeArray items (some .malformed)) outer
  | .firstKey outer, .closeObject => place (.object [] none) outer
  | .firstKey outer, l => takeKey [] outer l
  | .nextKey members outer, l => takeKey members outer l
  | .colon members key outer, .colon => .value (.object members key :: outer)
  | .colon members key outer, _ =>
    breakOff (.damaged (.fatal .malformed)) (.object members key :: outer)
  | .afterMember members outer, .comma => .nextKey members outer
  | .afterMember members outer, .closeObject => place (closeObject members none) outer
  | .afterMember members outer, _ => breakOff (closeObject members (some .malformed)) outer
  | .finished tree _, _ => .finished tree true

/-- The tree of a text that ends here. -/
def Progress.tree : Progress → Tree
  | .value outer => enclose (.damaged (.fatal .truncated)) outer
  | .firstItem outer => enclose (closeArray [] (some .truncated)) outer
  | .afterItem items outer => enclose (closeArray items (some .truncated)) outer
  | .firstKey outer => enclose (closeObject [] (some .truncated)) outer
  | .nextKey members outer => enclose (closeObject members (some .truncated)) outer
  | .colon members key outer =>
    enclose (.damaged (.fatal .truncated)) (.object members key :: outer)
  | .afterMember members outer => enclose (closeObject members (some .truncated)) outer
  | .finished tree _ => tree

/-- Something follows the value of the whole text. -/
def Progress.hasMore : Progress → Bool
  | .finished _ more => more
  | _ => false

/-- What is built of the units of a text. -/
def Progress.ofLexemes (ls : List Lexeme) : Progress := ls.foldl Progress.step (.value [])

end Tree

end PatternAutomata.Json
