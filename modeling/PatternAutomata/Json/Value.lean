import PatternAutomata.Json.Numeral
import PatternAutomata.Json.StringBody

/-!
# JSON values and their compact text

A value is written without blanks, members in the order in which they are listed.
-/

namespace PatternAutomata.Json

/-- A JSON value. -/
inductive Value
  | null
  | bool (b : Bool)
  | number (n : Numeral)
  | text (s : String)
  | array (items : List Value)
  | object (members : List (String × Value))

namespace Value

/-- A natural number. -/
def ofNat (n : Nat) : Value := .number (.integer false n)

/-- A decimal. -/
def ofDecimal (d : Decimal) : Value := .number (.decimal d)

/-- A value, or null for a missing one. -/
def ofOption {α : Type} (f : α → Value) : Option α → Value
  | some x => f x
  | none => .null

/-- The array of transformed items. -/
def ofList {α : Type} (f : α → Value) (xs : List α) : Value := .array (xs.map f)

/-- A string as it is written. -/
def writeString (s : String) : List Char := '"' :: (StringBody.write s.toList ++ ['"'])

mutual

/-- A value as it is written. -/
def write : Value → List Char
  | .null => ['n', 'u', 'l', 'l']
  | .bool true => ['t', 'r', 'u', 'e']
  | .bool false => ['f', 'a', 'l', 's', 'e']
  | .number n => n.write
  | .text s => writeString s
  | .array items => '[' :: (writeItems items ++ [']'])
  | .object members => '\x7b' :: (writeMembers members ++ ['\x7d'])

/-- Items with commas between them. -/
def writeItems : List Value → List Char
  | [] => []
  | [v] => write v
  | v :: w :: rest => write v ++ ',' :: writeItems (w :: rest)

/-- Members with commas between them. -/
def writeMembers : List (String × Value) → List Char
  | [] => []
  | [(key, v)] => writeString key ++ ':' :: write v
  | (key, v) :: m :: rest => writeString key ++ ':' :: (write v ++ ',' :: writeMembers (m :: rest))

end

/-- The compact text of a value. -/
def compact (v : Value) : String := String.ofList v.write

end Value

end PatternAutomata.Json
