/-!
# Numbers in front of other text

A number is written in decimal digits without leading zeros. Where no digit follows it, its digits
are all those in front, so the number and what follows it can be told apart.
-/

namespace PatternAutomata.Digits

/-- A text that does not begin with a digit. -/
def Stops (rest : List Char) : Prop := ∀ c ∈ rest.head?, c.isDigit = false

theorem stops_cons {c : Char} {rest : List Char} (h : c.isDigit = false) : Stops (c :: rest) := by
  rintro d ⟨⟩
  exact h

/-- What follows a number is what its digits do not take. -/
theorem takeWhile_of_stops {rest : List Char} (h : Stops rest) :
    rest.takeWhile Char.isDigit = [] := by
  cases rest with
  | nil => rfl
  | cons c rest =>
    have hc : c.isDigit = false := h c rfl
    rw [List.takeWhile_cons_of_neg (by rw [hc]; exact Bool.false_ne_true)]

/-- A number has digits. -/
theorem exists_toDigits_eq_cons (n : Nat) :
    ∃ d ds, Nat.toDigits 10 n = d :: ds ∧ d.isDigit = true := by
  obtain ⟨d, ds, hdigits⟩ := List.exists_cons_of_ne_nil (Nat.toDigits_ne_nil (n := n) (b := 10))
  have hmem : d ∈ Nat.toDigits 10 n := hdigits ▸ List.mem_cons_self
  exact ⟨d, ds, hdigits, Nat.isDigit_of_mem_toDigits (by decide) (by decide) hmem⟩

/-- The digits of a number are the digits in front of a text that goes on with another character. -/
theorem takeWhile_toDigits_append {n : Nat} {rest : List Char} (h : Stops rest) :
    (Nat.toDigits 10 n ++ rest).takeWhile Char.isDigit = Nat.toDigits 10 n := by
  have hdigits : ∀ c ∈ Nat.toDigits 10 n, c.isDigit = true := fun c hc =>
    Nat.isDigit_of_mem_toDigits (by decide) (by decide) hc
  rw [List.takeWhile_append_of_pos hdigits, takeWhile_of_stops h, List.append_nil]

/-- What is left after the digits of a number is the text that follows it. -/
theorem dropWhile_toDigits_append {n : Nat} {rest : List Char} (h : Stops rest) :
    (Nat.toDigits 10 n ++ rest).dropWhile Char.isDigit = rest := by
  have hsplit :=
    List.takeWhile_append_dropWhile (p := Char.isDigit) (l := Nat.toDigits 10 n ++ rest)
  rw [takeWhile_toDigits_append h] at hsplit
  exact List.append_cancel_left hsplit

/-- Numbers and what follows them can be told apart. -/
theorem toDigits_append_inj {m n : Nat} {u v : List Char} (hu : Stops u) (hv : Stops v)
    (h : Nat.toDigits 10 m ++ u = Nat.toDigits 10 n ++ v) : m = n ∧ u = v := by
  have hdigits := congrArg (List.takeWhile Char.isDigit) h
  rw [takeWhile_toDigits_append hu, takeWhile_toDigits_append hv] at hdigits
  have hvalues := congrArg (fun ds => Nat.ofDigitChars 10 ds 0) hdigits
  simp only [Nat.ofDigitChars_ten_toDigits] at hvalues
  subst hvalues
  exact ⟨rfl, List.append_cancel_left h⟩

/-- Only the digits of zero begin with a zero. -/
theorem head?_toDigits_eq_zero_iff {n : Nat} : (Nat.toDigits 10 n).head? = some '0' ↔ n = 0 := by
  induction n using Nat.strongRecOn with
  | ind n ih =>
    rcases Nat.lt_or_ge n 10 with hlt | hge
    · rw [Nat.toDigits_of_lt_base hlt, List.head?_cons, Option.some.injEq, Nat.digitChar_eq_zero]
    · have hless : n / 10 < n := by omega
      obtain ⟨d, ds, hdigits, -⟩ := exists_toDigits_eq_cons (n / 10)
      have hfront := ih (n / 10) hless
      rw [hdigits, List.head?_cons] at hfront
      rw [Nat.toDigits_of_base_le (by decide) hge, hdigits, List.cons_append, List.head?_cons,
        hfront]
      omega

end PatternAutomata.Digits
