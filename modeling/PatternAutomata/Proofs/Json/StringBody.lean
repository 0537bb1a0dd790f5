import PatternAutomata.Json.StringBody

/-!
# Strings are read as they were written

A written character is one piece of a body, whatever follows it: a control without a short escape
is a code unit, and any other character is itself. No such unit is half of a surrogate pair, so the
pieces are joined to the characters that were written.
-/

namespace PatternAutomata.Json.StringBody

/-- The piece that a written character is cut to. -/
def pieceOf (c : Char) : Piece :=
  match shortEscapes.find? (·.2 = c) with
  | some _ => .char c
  | none => if isControl c then .unit c.toNat else .char c

/-- A short escape is the character that it stands for. -/
theorem cut_shortEscape {letter c : Char} (h : (letter, c) ∈ shortEscapes) (rest : List Char) :
    cut ('\\' :: letter :: rest) = (cut rest).cons (.char c) := by
  simp only [shortEscapes, List.mem_cons, List.not_mem_nil, or_false, Prod.mk.injEq] at h
  rcases h with h | h | h | h | h | h | h
  all_goals
    obtain ⟨rfl, rfl⟩ := h
    rfl

/-- Two zeros and the digits of a control spell its number. -/
theorem hexQuad?_control {n : Nat} (h : n < 0x20) :
    hexQuad? '0' '0' (hexDigit (n / 16)) (hexDigit (n % 16)) = some n := by
  decide +revert

/-- The long escape of a control is its number. -/
theorem cut_longEscape {n : Nat} (h : n < 0x20) (rest : List Char) :
    cut ('\\' :: 'u' :: '0' :: '0' :: hexDigit (n / 16) :: hexDigit (n % 16) :: rest) =
      (cut rest).cons (.unit n) := by
  rw [cut, hexQuad?_control h]

/-- A character without an escape is itself. -/
theorem cut_plain {c : Char} (hescape : shortEscapes.find? (·.2 = c) = none)
    (hcontrol : isControl c = false) (rest : List Char) :
    cut (c :: rest) = (cut rest).cons (.char c) := by
  have hnot := List.find?_eq_none.mp hescape
  have hquote : c ≠ '"' := by
    rintro rfl
    exact hnot ('"', '"') (by decide) rfl
  have hslash : c ≠ '\\' := by
    rintro rfl
    exact hnot ('\\', '\\') (by decide) rfl
  rw [cut.eq_def]
  split <;> simp_all

/-- A written character is one piece in front of what follows. -/
theorem cut_writeChar_append (c : Char) (rest : List Char) :
    cut (writeChar c ++ rest) = (cut rest).cons (pieceOf c) := by
  rw [writeChar, pieceOf]
  cases hescape : shortEscapes.find? (·.2 = c) with
  | some escape =>
    obtain ⟨letter, d⟩ := escape
    obtain rfl : d = c := by simpa using List.find?_some hescape
    exact cut_shortEscape (List.mem_of_find?_eq_some hescape) rest
  | none =>
    by_cases hcontrol : isControl c
    · simp only [if_pos hcontrol]
      exact cut_longEscape (of_decide_eq_true hcontrol) rest
    · simp only [if_neg hcontrol]
      exact cut_plain hescape (Bool.eq_false_iff.mpr hcontrol) rest

/-- A written body is cut at its closing quote. -/
theorem cut_write_append (cs rest : List Char) :
    cut (write cs ++ '"' :: rest) = ⟨cs.map pieceOf, .ok rest⟩ := by
  induction cs with
  | nil => rfl
  | cons c cs ih =>
    rw [write, List.flatMap_cons, List.append_assoc, cut_writeChar_append, ← write, ih]
    rfl

/-- The piece of a written character is joined to that character. -/
theorem join_pieceOf_cons (c : Char) (rest : Except ReadError (List Char)) (pieces : List Piece) :
    join rest (pieceOf c :: pieces) = Prod.map (c :: ·) id <$> join rest pieces := by
  rw [pieceOf]
  cases shortEscapes.find? (·.2 = c) with
  | some escape => rfl
  | none =>
    by_cases hcontrol : isControl c
    · have hlt : c.toNat < 0x20 := of_decide_eq_true hcontrol
      have hlow : isLowSurrogate c.toNat = false := by
        rw [isLowSurrogate, Bool.and_eq_false_iff]
        exact Or.inl (decide_eq_false (by omega))
      have hhigh : isHighSurrogate c.toNat = false := by
        rw [isHighSurrogate, Bool.and_eq_false_iff]
        exact Or.inl (decide_eq_false (by omega))
      simp only [if_pos hcontrol]
      rw [join.eq_def]
      simp only [hlow, hhigh, Bool.false_eq_true, if_false, Char.ofNat_toNat]
    · simp only [if_neg hcontrol]
      rfl

/-- The pieces of written characters are joined to these characters. -/
theorem join_map_pieceOf (cs rest : List Char) :
    join (.ok rest) (cs.map pieceOf) = .ok (cs, rest) := by
  induction cs with
  | nil => rfl
  | cons c cs ih =>
    rw [List.map_cons, join_pieceOf_cons, ih]
    rfl

/-- A written body is read back, up to its closing quote. -/
theorem read_write_append (cs rest : List Char) :
    read (write cs ++ '"' :: rest) = .ok (cs, rest) := by
  rw [read, cut_write_append]
  exact join_map_pieceOf cs rest

end PatternAutomata.Json.StringBody
