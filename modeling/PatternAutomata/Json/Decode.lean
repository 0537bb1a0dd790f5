import PatternAutomata.Json.Tree

/-!
# Reading typed data from the tree of a text

Readers walk a tree from left to right and report the first thing that is wrong. A
record is read from an object with its keys in any order, where unknown keys are passed
over and a known key may come once, or from an array with one item for each key.
-/

namespace PatternAutomata.Json

namespace Tree

/-- What a reader reports that wants another kind of value. -/
def refusal : Tree → ReadError
  | .damaged d => d.wanted
  | _ => .mismatched

/-- Reads a string. -/
def asText : Tree → Except ReadError String
  | .text s => .ok s
  | t => .error t.refusal

/-- Reads an integer that fits an unsigned word. -/
def asWord : Tree → Except ReadError UInt64
  | .number (.integer negative magnitude) =>
    if magnitude < UInt64.size ∧ (negative → magnitude = 0) then .ok (.ofNat magnitude)
    else .error .mismatched
  | t => .error t.refusal

/-- Reads any number. -/
def asDecimal : Tree → Except ReadError Decimal
  | .number n => .ok n.toDecimal
  | t => .error t.refusal

/-- Reads a value that may be null. -/
def asOptional {α : Type} (read : Tree → Except ReadError α) : Tree → Except ReadError (Option α)
  | .null => .ok none
  | t => some <$> read t

/-- Comes to the end of a container, which may not have been closed. -/
def checkEnd : Option ReadError → Except ReadError Unit
  | none => .ok ()
  | some e => .error e

/-- Reads an array of items of one kind. -/
def asList {α : Type} (read : Tree → Except ReadError α) : Tree → Except ReadError (List α)
  | .array items stop => do
    let xs ← items.mapM read
    checkEnd stop
    pure xs
  | t => .error t.refusal

mutual

/-- Passes over a value. -/
def pass : Tree → Except ReadError Unit
  | .null | .bool _ | .number _ | .text _ => .ok ()
  | .damaged d => checkEnd d.skipped
  | .array items stop => do
    passItems items
    checkEnd stop
  | .object members stop => do
    passMembers members
    checkEnd stop

/-- Passes over items. -/
def passItems : List Tree → Except ReadError Unit
  | [] => .ok ()
  | t :: rest => do
    pass t
    passItems rest

/-- Passes over members. -/
def passMembers : List (String × Tree) → Except ReadError Unit
  | [] => .ok ()
  | (_, t) :: rest => do
    pass t
    passMembers rest

end

end Tree

/-- How a record is read: the draft to start from, the keys in order, what the value at a
key adds to a draft (nothing for an unknown key), and how a draft is completed. -/
structure RecordReader (δ α : Type) where
  start : δ
  keys : List String
  put : δ → String → Tree → Option (Except ReadError δ)
  finish : δ → Except ReadError α

namespace RecordReader

variable {δ α : Type}

/-- Reads members into a draft. -/
def readMembers (r : RecordReader δ α) (draft : δ) : Tree.Members → Except ReadError δ
  | [] => .ok draft
  | (key, t) :: rest =>
    match r.put draft key t with
    | some (.ok draft) => r.readMembers draft rest
    | some (.error e) => .error e
    | none =>
      match t.pass with
      | .ok () => r.readMembers draft rest
      | .error e => .error e

/-- Reads one item for each key into a draft; an item too many is not expected. -/
def readItems (r : RecordReader δ α) (stop : Option ReadError) (draft : δ) :
    List String → List Tree → Except ReadError δ
  | [], [] => .ok draft
  | [], _ :: _ => .error .malformed
  | _ :: _, [] => .error (stop.getD .mismatched)
  | key :: keys, t :: rest =>
    match r.put draft key t with
    | some (.ok draft) => r.readItems stop draft keys rest
    | some (.error e) => .error e
    | none => .error .mismatched

/-- Reads a record. -/
def read (r : RecordReader δ α) : Tree → Except ReadError α
  | .object members stop => do
    let draft ← r.readMembers r.start members
    Tree.checkEnd stop
    r.finish draft
  | .array items stop => do
    let draft ← r.readItems stop r.start r.keys items
    Tree.checkEnd stop
    r.finish draft
  | t => .error t.refusal

/-- Fills a place of a draft that must not have been filled before. -/
def fill {β : Type} (slot : Option β) (read : Tree → Except ReadError β) (t : Tree)
    (set : Option β → δ) : Option (Except ReadError δ) :=
  some <|
    if slot.isSome then .error .mismatched
    else (set <| some ·) <$> read t

/-- The content of a place that must have been filled. -/
def require {β : Type} (slot : Option β) : Except ReadError β :=
  match slot with
  | some x => .ok x
  | none => .error .mismatched

end RecordReader

/-- Reads a whole text, after which nothing but blanks may follow. -/
def readText {α : Type} (read : Tree → Except ReadError α) (text : String) :
    Except ReadError α := do
  let progress := Tree.Progress.ofLexemes (Lexeme.ofText text.toList)
  let x ← read progress.tree
  if progress.hasMore then .error .malformed else pure x

end PatternAutomata.Json
