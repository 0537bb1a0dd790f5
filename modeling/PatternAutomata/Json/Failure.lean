/-!
# How reading JSON fails

A JSON text is read from left to right, and the first thing that goes wrong decides the
error: the text is not JSON, it ends too early, or it is JSON of another shape than the
one that is wanted. A number that cannot be read may still be passed over by a reader
that has no use for it, so a damaged value says what either reader makes of it.
-/

namespace PatternAutomata.Json

/-- Why a JSON text could not be read. -/
inductive ReadError
  /-- The text is not JSON. -/
  | malformed
  /-- The text ends inside a value. -/
  | truncated
  /-- The text is JSON but not of the wanted shape. -/
  | mismatched
  deriving DecidableEq

/-- What stands where a value should and is none. -/
structure Damage where
  /-- What a reader reports that wants the value. -/
  wanted : ReadError
  /-- What a reader reports that passes over the value, if it cannot. -/
  skipped : Option ReadError
  deriving DecidableEq

namespace Damage

/-- Damage that stops every reader alike. -/
def fatal (e : ReadError) : Damage := ⟨e, some e⟩

/-- Damage that does not end the value: whoever has no use for the value reads on. -/
def passable (e : ReadError) : Damage := ⟨e, none⟩

end Damage

end PatternAutomata.Json
