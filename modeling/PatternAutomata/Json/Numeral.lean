import PatternAutomata.Json.Decimal
import PatternAutomata.Json.Failure

/-!
# Numbers in JSON

A number is an optional sign, a whole part without leading zeros, an optional fraction
and an optional exponent. Without fraction and exponent it is an integer of any size.
Where the text ends before a digit that must come, a reader that wants the number still
waits for it, while one that passes over it already knows that there is no number.
-/

namespace PatternAutomata.Json

/-- A number as it is written: an integer, or a decimal with fraction or exponent. -/
inductive Numeral
  | integer (negative : Bool) (magnitude : Nat)
  | decimal (value : Decimal)
  deriving DecidableEq

namespace Numeral

/-- The integer `n`. -/
def ofInt (n : Int) : Numeral := .integer (n < 0) n.natAbs

/-- The value of a number. An integral zero has no sign. -/
def toDecimal : Numeral → Decimal
  | .integer negative magnitude => ⟨negative && magnitude != 0, magnitude, 0⟩
  | .decimal value => value

/-- A number as it is written. -/
def write : Numeral → List Char
  | .integer negative magnitude =>
    if negative then '-' :: Decimal.digits magnitude else Decimal.digits magnitude
  | .decimal value => value.write

/-- The number that digits to base ten stand for. -/
def ofDigits (ds : List Char) : Nat := Nat.ofDigitChars 10 ds 0

/-- What a reader finds that needs a digit in front of `rest`. -/
def missingDigit (rest : List Char) : Damage :=
  if rest.isEmpty then ⟨.truncated, some .malformed⟩ else .fatal .malformed

/-- The digits at the front of a text, at least one, and the rest. -/
def takeDigits (cs : List Char) : Except Damage (List Char × List Char) :=
  match cs.takeWhile Char.isDigit with
  | [] => .error (missingDigit cs)
  | ds => .ok (ds, cs.dropWhile Char.isDigit)

/-- The digits of the whole part, which has no leading zeros, and the rest. -/
def takeWhole (cs : List Char) : Except Damage (List Char × List Char) := do
  let (ds, rest) ← takeDigits cs
  match ds with
  | '0' :: _ :: _ => .error (.fatal .malformed)
  | _ => pure (ds, rest)

/-- The digits of the fraction, none where there is no point, and the rest. -/
def takeFraction : List Char → Except Damage (List Char × List Char)
  | '.' :: rest => takeDigits rest
  | rest => .ok ([], rest)

/-- A sign at the front of a text: whether it is negative, and the rest. -/
def takeSign : List Char → Bool × List Char
  | '-' :: rest => (true, rest)
  | '+' :: rest => (false, rest)
  | rest => (false, rest)

/-- The exponent, if there is one, and the rest. -/
def takeExponent : List Char → Except Damage (Option Int × List Char)
  | c :: rest =>
    if c = 'e' ∨ c = 'E' then do
      let (negative, rest) := takeSign rest
      let (ds, rest) ← takeDigits rest
      let magnitude : Int := ofDigits ds
      pure (some (if negative then -magnitude else magnitude), rest)
    else .ok (none, c :: rest)
  | [] => .ok (none, [])

/-- The number of the given parts. -/
def ofParts (negative : Bool) (whole fraction : List Char) (exponent : Option Int) : Numeral :=
  if fraction.isEmpty && exponent.isNone then .integer negative (ofDigits whole)
  else .decimal ⟨negative, ofDigits (whole ++ fraction), exponent.getD 0 - fraction.length⟩

/-- The number at the front of a text that follows its sign, and the rest. -/
def takeUnsigned (negative : Bool) (cs : List Char) : Except Damage (Numeral × List Char) := do
  let (whole, rest) ← takeWhole cs
  let (fraction, rest) ← takeFraction rest
  let (exponent, rest) ← takeExponent rest
  pure (ofParts negative whole fraction exponent, rest)

/-- The number at the front of a text, and the rest. -/
def take : List Char → Except Damage (Numeral × List Char)
  | '-' :: rest => takeUnsigned true rest
  | rest => takeUnsigned false rest

/-- Taking digits leaves less. -/
theorem length_lt_of_takeDigits {cs ds rest : List Char} (h : takeDigits cs = .ok (ds, rest)) :
    rest.length < cs.length := by
  unfold takeDigits at h
  split at h
  · cases h
  · rename_i hne
    cases h
    have hsplit := congrArg List.length
      (List.takeWhile_append_dropWhile (p := Char.isDigit) (l := cs))
    rw [List.length_append] at hsplit
    have hpos : 0 < (cs.takeWhile Char.isDigit).length := List.length_pos_iff.mpr hne
    omega

/-- Taking the whole part leaves less. -/
theorem length_lt_of_takeWhole {cs ds rest : List Char} (h : takeWhole cs = .ok (ds, rest)) :
    rest.length < cs.length := by
  unfold takeWhole at h
  cases hd : takeDigits cs with
  | error e => simp only [hd, bind, Except.bind, reduceCtorEq] at h
  | ok r =>
    simp only [hd, bind, Except.bind] at h
    split at h
    · cases h
    · cases h
      exact length_lt_of_takeDigits hd

/-- Taking the fraction leaves no more. -/
theorem length_le_of_takeFraction {cs ds rest : List Char}
    (h : takeFraction cs = .ok (ds, rest)) : rest.length ≤ cs.length := by
  unfold takeFraction at h
  split at h
  · have := length_lt_of_takeDigits h
    rw [List.length_cons]
    omega
  · cases h
    exact Nat.le_refl _

/-- Taking a sign leaves no more. -/
theorem length_takeSign_le (cs : List Char) : (takeSign cs).2.length ≤ cs.length := by
  unfold takeSign
  split
  · exact Nat.le_succ _
  · exact Nat.le_succ _
  · exact Nat.le_refl _

/-- Taking the exponent leaves no more. -/
theorem length_le_of_takeExponent {cs rest : List Char} {e : Option Int}
    (h : takeExponent cs = .ok (e, rest)) : rest.length ≤ cs.length := by
  cases cs with
  | nil =>
    cases h
    exact Nat.le_refl _
  | cons c cs =>
    simp only [takeExponent] at h
    split at h
    · cases hd : takeDigits (takeSign cs).2 with
      | error e => simp only [hd, bind, Except.bind, reduceCtorEq] at h
      | ok r =>
        simp only [hd, bind, Except.bind, pure, Except.pure, Except.ok.injEq, Prod.mk.injEq] at h
        have := length_lt_of_takeDigits hd
        have := length_takeSign_le cs
        rw [← h.2, List.length_cons]
        omega
    · cases h
      exact Nat.le_refl _

/-- Taking a number leaves less. -/
theorem length_lt_of_takeUnsigned {negative : Bool} {cs rest : List Char} {n : Numeral}
    (h : takeUnsigned negative cs = .ok (n, rest)) : rest.length < cs.length := by
  unfold takeUnsigned at h
  cases hw : takeWhole cs with
  | error e => simp only [hw, bind, Except.bind, reduceCtorEq] at h
  | ok w =>
    cases hf : takeFraction w.2 with
    | error e => simp only [hw, hf, bind, Except.bind, reduceCtorEq] at h
    | ok f =>
      cases he : takeExponent f.2 with
      | error e => simp only [hw, hf, he, bind, Except.bind, reduceCtorEq] at h
      | ok e =>
        simp only [hw, hf, he, bind, Except.bind, pure, Except.pure, Except.ok.injEq,
          Prod.mk.injEq] at h
        have := length_lt_of_takeWhole hw
        have := length_le_of_takeFraction hf
        have := length_le_of_takeExponent he
        rw [← h.2]
        omega

/-- Taking a number with its sign leaves less. -/
theorem length_lt_of_take {cs rest : List Char} {n : Numeral} (h : take cs = .ok (n, rest)) :
    rest.length < cs.length := by
  unfold take at h
  split at h
  · have := length_lt_of_takeUnsigned h
    rw [List.length_cons]
    omega
  · exact length_lt_of_takeUnsigned h

end Numeral

end PatternAutomata.Json
