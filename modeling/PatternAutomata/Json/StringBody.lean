import PatternAutomata.Json.Failure

/-!
# String bodies in JSON

Between its quotes a string shows a character as itself or by an escape. It is written
with short escapes where there are any and with four hexadecimal digits for the other
controls. It is read in two steps: the body is cut into characters and numbered code
units up to the closing quote, and code units are joined to characters, two where they
form a surrogate pair. A lone surrogate is as wrong as an escape that is none.
-/

namespace PatternAutomata.Json.StringBody

/-- The letters of short escapes beside the characters that they stand for. -/
def shortEscapes : List (Char × Char) :=
  [('"', '"'), ('\\', '\\'), ('b', '\x08'), ('f', '\x0c'), ('n', '\n'), ('r', '\r'), ('t', '\t')]

/-- The letters of short escapes that are read: those that are written and the slash. -/
def readableEscapes : List (Char × Char) := ('/', '/') :: shortEscapes

/-- The digit of a value below sixteen, in lower case. -/
def hexDigit (n : Nat) : Char := Nat.digitChar n

/-- The value of a digit to base sixteen. -/
def hexValue? (c : Char) : Option Nat :=
  if '0' ≤ c ∧ c ≤ '9' then some (c.toNat - '0'.toNat)
  else if 'a' ≤ c ∧ c ≤ 'f' then some (c.toNat - 'a'.toNat + 10)
  else if 'A' ≤ c ∧ c ≤ 'F' then some (c.toNat - 'A'.toNat + 10)
  else none

/-- The value of four digits to base sixteen. -/
def hexQuad? (a b c d : Char) : Option Nat := do
  pure ((((← hexValue? a) * 16 + (← hexValue? b)) * 16 + (← hexValue? c)) * 16 + (← hexValue? d))

/-- The character is a control and may not stand for itself. -/
def isControl (c : Char) : Bool := c.toNat < 0x20

/-- A character as it is written. -/
def writeChar (c : Char) : List Char :=
  match shortEscapes.find? (·.2 = c) with
  | some (letter, _) => ['\\', letter]
  | none =>
    if isControl c then ['\\', 'u', '0', '0', hexDigit (c.toNat / 16), hexDigit (c.toNat % 16)]
    else [c]

/-- The body of a string as it is written. -/
def write (cs : List Char) : List Char := cs.flatMap writeChar

/-- A piece of a body: a character, or a code unit given by its number. -/
inductive Piece
  | char (c : Char)
  | unit (code : Nat)
  deriving DecidableEq

/-- The pieces of a body up to its end, with the rest of the text after the closing
quote or the reason why there is none. -/
structure Cut where
  pieces : List Piece
  rest : Except ReadError (List Char)

/-- A cut with one piece more in front. -/
def Cut.cons (p : Piece) (cut : Cut) : Cut := { cut with pieces := p :: cut.pieces }

/-- A cut that stops at once. -/
def Cut.stop (e : ReadError) : Cut := ⟨[], .error e⟩

/-- Why the text after the start of a numbered escape is too short for its digits: what
counts is whether four bytes are left, whatever they are. -/
def shortQuad (rest : List Char) : ReadError :=
  if (String.ofList rest).utf8ByteSize < 4 then .truncated else .malformed

/-- Cuts the text after an opening quote. -/
def cut : List Char → Cut
  | [] => .stop .truncated
  | '"' :: rest => ⟨[], .ok rest⟩
  | ['\\'] => .stop .truncated
  | '\\' :: 'u' :: a :: b :: c :: d :: rest =>
    match hexQuad? a b c d with
    | some code => (cut rest).cons (.unit code)
    | none => .stop .malformed
  | '\\' :: 'u' :: rest => .stop (shortQuad rest)
  | '\\' :: letter :: rest =>
    match readableEscapes.lookup letter with
    | some c => (cut rest).cons (.char c)
    | none => .stop .malformed
  | c :: rest => if isControl c then .stop .malformed else (cut rest).cons (.char c)

/-- The code unit is the first half of a surrogate pair. -/
def isHighSurrogate (code : Nat) : Bool := 0xd800 ≤ code && code < 0xdc00

/-- The code unit is the second half of a surrogate pair. -/
def isLowSurrogate (code : Nat) : Bool := 0xdc00 ≤ code && code < 0xe000

/-- The character of a surrogate pair. -/
def joinSurrogates (high low : Nat) : Char :=
  Char.ofNat (0x10000 + (high - 0xd800) * 0x400 + (low - 0xdc00))

/-- Joins pieces to characters and goes on with the rest of the text. A lone surrogate
comes before whatever is wrong with the rest; the first half of a pair at the end of the
pieces waits for the other half, which a closing quote is not. -/
def join (rest : Except ReadError (List Char)) :
    List Piece → Except ReadError (List Char × List Char)
  | [] => ([], ·) <$> rest
  | .char c :: pieces => Prod.map (c :: ·) id <$> join rest pieces
  | .unit code :: pieces =>
    if isLowSurrogate code then .error .malformed
    else if isHighSurrogate code then
      match pieces with
      | .unit low :: pieces =>
        if isLowSurrogate low then
          Prod.map (joinSurrogates code low :: ·) id <$> join rest pieces
        else .error .malformed
      | .char _ :: _ => .error .malformed
      | [] =>
        match rest with
        | .ok _ => .error .malformed
        | .error e => .error e
    else Prod.map (Char.ofNat code :: ·) id <$> join rest pieces

/-- Reads the text after an opening quote: the string, and what follows its closing quote. -/
def read (cs : List Char) : Except ReadError (List Char × List Char) :=
  join (cut cs).rest (cut cs).pieces

/-- What follows a cut is no longer than what was cut. -/
theorem length_le_of_cut {cs after : List Char} (h : (cut cs).rest = .ok after) :
    after.length ≤ cs.length := by
  fun_induction cut cs with
  | case2 rest =>
    -- The closing quote.
    cases h
    exact Nat.le_succ _
  | case4 a b c d rest code _ ih =>
    -- A numbered escape of six characters.
    have hrest : after.length ≤ rest.length := ih h
    exact Nat.le_trans hrest (Nat.le_add_right _ 6)
  | case7 letter rest _ _ c _ ih =>
    -- A short escape of two characters.
    have hrest : after.length ≤ rest.length := ih h
    exact Nat.le_trans hrest (Nat.le_add_right _ 2)
  | case10 c rest _ _ _ _ _ _ ih =>
    have hrest : after.length ≤ rest.length := ih h
    exact Nat.le_trans hrest (Nat.le_succ _)
  | _ => cases h

/-- A change to the string alone keeps what follows it. -/
theorem exists_of_map_prod {x : Except ReadError (List Char × List Char)}
    {f : List Char → List Char} {r : List Char × List Char} (h : Prod.map f id <$> x = .ok r) :
    ∃ y, x = .ok y ∧ y.2 = r.2 := by
  cases x with
  | error e => cases h
  | ok y =>
    cases h
    exact ⟨y, rfl, rfl⟩

/-- A joined string is followed by the rest that was handed on. -/
theorem rest_eq_of_join {rest : Except ReadError (List Char)} {pieces : List Piece}
    {r : List Char × List Char} (h : join rest pieces = .ok r) : rest = .ok r.2 := by
  fun_induction join rest pieces generalizing r with
  | case1 =>
    cases rest with
    | error e => cases h
    | ok after =>
      cases h
      rfl
  | case2 c pieces ih | case4 code _ _ low pieces _ ih | case9 code pieces _ _ ih =>
    obtain ⟨y, hy, hr⟩ := exists_of_map_prod h
    exact hr ▸ ih hy
  | _ => cases h

/-- Reading leaves no more than it was given. -/
theorem length_le_of_read {cs : List Char} {r : List Char × List Char} (h : read cs = .ok r) :
    r.2.length ≤ cs.length :=
  length_le_of_cut (rest_eq_of_join h)

end PatternAutomata.Json.StringBody
