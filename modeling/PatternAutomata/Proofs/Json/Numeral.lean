import PatternAutomata.Json.Numeral
import PatternAutomata.Proofs.Text.Digits

/-!
# Integers are read as they were written

An integer is written without leading zeros, so its digits are a whole part. Where neither a digit
nor a point nor an exponent follows, the reader stops behind them.
-/

namespace PatternAutomata.Json.Numeral

/-- A text with which an integer in front of it does not go on. -/
def Ends (rest : List Char) : Prop :=
  ∀ c ∈ rest.head?, c.isDigit = false ∧ c ∉ ['.', 'e', 'E']

theorem ends_nil : Ends [] := by
  rintro c ⟨⟩

theorem ends_cons {c : Char} (h : c.isDigit = false ∧ c ∉ ['.', 'e', 'E']) (rest : List Char) :
    Ends (c :: rest) := by
  rintro d ⟨⟩
  exact h

/-- An integer does not go on with more digits. -/
theorem Ends.stops {rest : List Char} (h : Ends rest) : Digits.Stops rest :=
  fun c hc => (h c hc).1

/-- The digits of a number are taken off the text that follows them. -/
theorem takeDigits_digits_append {rest : List Char} (h : Digits.Stops rest) (n : Nat) :
    takeDigits (Decimal.digits n ++ rest) = .ok (Decimal.digits n, rest) := by
  rw [takeDigits, Decimal.digits, Digits.takeWhile_toDigits_append h,
    Digits.dropWhile_toDigits_append h]
  obtain ⟨d, ds, hdigits, -⟩ := Digits.exists_toDigits_eq_cons n
  rw [hdigits]

/-- The digits of a number are a whole part, since a zero in front of them is all of them. -/
theorem takeWhole_digits_append {rest : List Char} (h : Digits.Stops rest) (n : Nat) :
    takeWhole (Decimal.digits n ++ rest) = .ok (Decimal.digits n, rest) := by
  rw [takeWhole, takeDigits_digits_append h]
  simp only [bind, Except.bind]
  split
  · rename_i d ds hdigits
    have hhead := Digits.head?_toDigits_eq_zero_iff.mp (congrArg List.head? hdigits)
    subst hhead
    cases hdigits
  · rfl

/-- Where no point follows, there is no fraction. -/
theorem takeFraction_of_ends {rest : List Char} (h : Ends rest) :
    takeFraction rest = .ok ([], rest) := by
  cases rest with
  | nil => rfl
  | cons c rest =>
    have hpoint : c ≠ '.' := by
      rintro rfl
      exact (h '.' rfl).2 (by decide)
    rw [takeFraction.eq_2 _ fun next he => hpoint (List.cons.inj he).1]

/-- Where no letter of an exponent follows, there is none. -/
theorem takeExponent_of_ends {rest : List Char} (h : Ends rest) :
    takeExponent rest = .ok (none, rest) := by
  cases rest with
  | nil => rfl
  | cons c rest =>
    have hletter : ¬ (c = 'e' ∨ c = 'E') := by
      rintro (rfl | rfl)
      · exact (h 'e' rfl).2 (by decide)
      · exact (h 'E' rfl).2 (by decide)
    rw [takeExponent, if_neg hletter]

/-- The digits of a number are read as an integer. -/
theorem takeUnsigned_digits_append {rest : List Char} (h : Ends rest) (negative : Bool) (n : Nat) :
    takeUnsigned negative (Decimal.digits n ++ rest) = .ok (.integer negative n, rest) := by
  rw [takeUnsigned, takeWhole_digits_append h.stops]
  simp only [bind, Except.bind, takeFraction_of_ends h, takeExponent_of_ends h]
  have hvalue : ofDigits (Decimal.digits n) = n := Nat.ofDigitChars_ten_toDigits
  rw [ofParts, hvalue]
  rfl

/-- An integer is read back, whatever its sign. -/
theorem take_write_append {rest : List Char} (h : Ends rest) (negative : Bool) (n : Nat) :
    take ((integer negative n).write ++ rest) = .ok (.integer negative n, rest) := by
  cases negative with
  | true => exact takeUnsigned_digits_append h true n
  | false =>
    have hsign : ∀ next, Decimal.digits n ++ rest = '-' :: next → False := by
      intro next he
      obtain ⟨d, ds, hdigits, hdigit⟩ := Digits.exists_toDigits_eq_cons n
      rw [Decimal.digits, hdigits] at he
      obtain rfl : d = '-' := (List.cons.inj he).1
      exact absurd hdigit (by decide)
    rw [write, if_neg Bool.false_ne_true, take.eq_2 _ hsign]
    exact takeUnsigned_digits_append h false n

/-- A written integer begins with a sign or a digit. -/
theorem exists_write_eq_cons (negative : Bool) (n : Nat) :
    ∃ c cs, (integer negative n).write = c :: cs ∧ (c = '-' ∨ c.isDigit = true) := by
  cases negative with
  | true => exact ⟨'-', Decimal.digits n, rfl, Or.inl rfl⟩
  | false =>
    obtain ⟨d, ds, hdigits, hdigit⟩ := Digits.exists_toDigits_eq_cons n
    exact ⟨d, ds, hdigits, Or.inr hdigit⟩

end PatternAutomata.Json.Numeral
