import Mathlib.Data.List.Chain
import PatternAutomata.Proofs.Pattern.Concatenation
import PatternAutomata.Proofs.Pattern.Gaps

/-!
# The neighbours of a concatenation

A pattern spells no concatenation, so all concatenations of its explicit form have been inserted:
without them the tokens of the pattern are left. Each stands between a token that completes an
operand and one that begins an operand, and no two such tokens are neighbours any more.
-/

namespace PatternAutomata

/-- The tokens of a pattern after which an operand is complete. -/
inductive Token.Completes : Token → Prop
  | literal (c : Char) : Completes (.literal c)
  | star : Completes (.operator .star)
  | rparen : Completes .rparen

/-- The tokens of a pattern with which an operand begins. -/
inductive Token.Begins : Token → Prop
  | literal (c : Char) : Begins (.literal c)
  | lparen : Begins .lparen

/-- The rule calls a token that is no concatenation the end of an operand where one is complete. -/
theorem Token.endsOperand_iff {t : Token} (h : t ≠ .operator .concat) :
    t.endsOperand = true ↔ t.Completes := by
  cases t with
  | literal c => exact iff_of_true rfl (.literal c)
  | lparen => exact iff_of_false Bool.false_ne_true nofun
  | rparen => exact iff_of_true rfl .rparen
  | operator o =>
    cases o with
    | union => exact iff_of_false Bool.false_ne_true nofun
    | concat => exact absurd rfl h
    | star => exact iff_of_true rfl .star

/-- The rule lets an operand begin with a token that is no concatenation where one begins. -/
theorem Token.beginsOperand_iff {t : Token} (h : t ≠ .operator .concat) :
    t.beginsOperand = true ↔ t.Begins := by
  cases t with
  | literal c => exact iff_of_true rfl (.literal c)
  | lparen => exact iff_of_true rfl .lparen
  | rparen => exact iff_of_false Bool.false_ne_true nofun
  | operator o =>
    cases o with
    | union | star => exact iff_of_false Bool.false_ne_true nofun
    | concat => exact absurd rfl h

/-- Two tokens that may be neighbours once concatenations are explicit. -/
structure Token.Neighbours (t u : Token) : Prop where
  begins : t = .operator .concat → u.Begins
  completes : u = .operator .concat → t.Completes
  apart : t.Completes → ¬ u.Begins

/-- Tokens between which the rule puts nothing are neighbours. -/
theorem Token.neighbours_of_not_joined {t u : Token} (ht : t ≠ .operator .concat)
    (hu : u ≠ .operator .concat) (h : ¬ (t.endsOperand && u.beginsOperand) = true) :
    t.Neighbours u where
  begins he := absurd he ht
  completes he := absurd he hu
  apart hc hb :=
    h (Bool.and_eq_true_iff.mpr ⟨(endsOperand_iff ht).mpr hc, (beginsOperand_iff hu).mpr hb⟩)

/-- A token that completes an operand is a neighbour of a concatenation. -/
theorem Token.Completes.neighbours {t : Token} (h : t.Completes) :
    t.Neighbours (.operator .concat) where
  begins he := by subst he; cases h
  completes _ := h
  apart _ := nofun

/-- A concatenation is a neighbour of a token that begins an operand. -/
theorem Token.Begins.neighbours {u : Token} (h : u.Begins) :
    (Token.operator .concat).Neighbours u where
  begins _ := h
  completes he := by subst he; cases h
  apart := nofun

/-- Explicit concatenations leave the first token in its place. -/
theorem head?_insertConcat (ts : List Token) : (insertConcat ts).head? = ts.head? := by
  fun_cases insertConcat ts <;> rfl

/-- Explicit concatenations leave the last token in its place. -/
theorem getLast?_insertConcat (ts : List Token) :
    (insertConcat ts).getLast? = ts.getLast? := by
  fun_induction insertConcat ts with
  | case1 | case2 => rfl
  | case3 t u rest _ ih => simp [List.getLast?_cons, ih]
  | case4 t u rest _ ih => simp [List.getLast?_cons, ih]

/-- Explicit concatenations stand between neighbours. -/
theorem isChain_insertConcat {ts : List Token} (h : .operator .concat ∉ ts) :
    (insertConcat ts).IsChain Token.Neighbours := by
  fun_induction insertConcat ts with
  | case1 => exact .nil
  | case2 t => exact .singleton t
  | case3 t u rest hjoined ih =>
    obtain ⟨ht, hrest⟩ := List.ne_and_not_mem_of_not_mem_cons h
    obtain ⟨hu, -⟩ := List.ne_and_not_mem_of_not_mem_cons hrest
    obtain ⟨hends, hbegins⟩ := Bool.and_eq_true_iff.mp hjoined
    refine List.isChain_cons_cons.mpr ⟨?_, List.isChain_cons.mpr ⟨?_, ih hrest⟩⟩
    · exact ((Token.endsOperand_iff (Ne.symm ht)).mp hends).neighbours
    · rw [head?_insertConcat]
      rintro _ ⟨⟩
      exact ((Token.beginsOperand_iff (Ne.symm hu)).mp hbegins).neighbours
  | case4 t u rest hapart ih =>
    obtain ⟨ht, hrest⟩ := List.ne_and_not_mem_of_not_mem_cons h
    obtain ⟨hu, -⟩ := List.ne_and_not_mem_of_not_mem_cons hrest
    refine List.isChain_cons.mpr ⟨?_, ih hrest⟩
    rw [head?_insertConcat]
    rintro _ ⟨⟩
    exact Token.neighbours_of_not_joined (Ne.symm ht) (Ne.symm hu) hapart

/-- Without the inserted concatenations the tokens are left as they were. -/
theorem filter_insertConcat {ts : List Token} (h : .operator .concat ∉ ts) :
    (insertConcat ts).filter (· ≠ .operator .concat) = ts := by
  fun_induction insertConcat ts with
  | case1 => rfl
  | case2 t =>
    obtain ⟨ht, -⟩ := List.ne_and_not_mem_of_not_mem_cons h
    simp [Ne.symm ht]
  | case3 t u rest _ ih =>
    obtain ⟨ht, hrest⟩ := List.ne_and_not_mem_of_not_mem_cons h
    simpa [Ne.symm ht] using ih hrest
  | case4 t u rest _ ih =>
    obtain ⟨ht, hrest⟩ := List.ne_and_not_mem_of_not_mem_cons h
    simpa [Ne.symm ht] using ih hrest

/-- No token of a pattern is a concatenation. -/
theorem concat_notMem_tokenize (pattern : String) : .operator .concat ∉ tokenize pattern :=
  fun h => Token.not_spelled_concat (spelled_of_mem_tokenize h)

/-- A concatenation among tokens that begin and end with other ones stands between a token that
completes an operand and one that begins an operand. -/
theorem exists_neighbours_of_concat {before after : List Token}
    (hchain : (before ++ .operator .concat :: after).IsChain Token.Neighbours)
    (hhead : (before ++ .operator .concat :: after).head? ≠ some (.operator .concat))
    (hlast : (before ++ .operator .concat :: after).getLast? ≠ some (.operator .concat)) :
    (∃ t, before.getLast? = some t ∧ t.Completes) ∧ ∃ u, after.head? = some u ∧ u.Begins := by
  obtain ⟨-, hafter, hmeet⟩ := List.isChain_append.mp hchain
  constructor
  · cases ht : before.getLast? with
    | none =>
      rw [List.getLast?_eq_none_iff.mp ht] at hhead
      exact absurd rfl hhead
    | some t => exact ⟨t, rfl, (hmeet t ht _ rfl).completes rfl⟩
  · cases after with
    | nil => exact absurd (List.getLast?_concat ..) hlast
    | cons u rest => exact ⟨u, rfl, (List.isChain_cons_cons.mp hafter).1.begins rfl⟩

/-- Without concatenations the explicit form of a pattern is its tokens. -/
theorem filter_infixForm (pattern : String) :
    (infixForm pattern).filter (· ≠ .operator .concat) = tokenize pattern :=
  filter_insertConcat (concat_notMem_tokenize pattern)

/-- The explicit form of a pattern tells the pattern. -/
theorem infixForm_injective {p p' : String} (h : infixForm p = infixForm p') : p = p' :=
  calc p = display (tokenize p) := (display_tokenize p).symm
    _ = display (tokenize p') := by rw [← filter_infixForm, ← filter_infixForm, h]
    _ = p' := display_tokenize p'

/-- The explicit form of a pattern consists of neighbours. -/
theorem isChain_infixForm (pattern : String) : (infixForm pattern).IsChain Token.Neighbours :=
  isChain_insertConcat (concat_notMem_tokenize pattern)

/-- The explicit form of a pattern does not begin with a concatenation. -/
theorem head?_infixForm_ne (pattern : String) :
    (infixForm pattern).head? ≠ some (.operator .concat) := by
  rw [infixForm, head?_insertConcat]
  exact fun h => concat_notMem_tokenize pattern (List.mem_of_head? h)

/-- The explicit form of a pattern does not end with a concatenation. -/
theorem getLast?_infixForm_ne (pattern : String) :
    (infixForm pattern).getLast? ≠ some (.operator .concat) := by
  rw [infixForm, getLast?_insertConcat]
  exact fun h => concat_notMem_tokenize pattern (List.mem_of_getLast? h)

/-- Making concatenations explicit is exact and can be undone: without concatenations the explicit
form is the tokens of the pattern, which show the pattern, so no other pattern has the same form.
Each concatenation stands between a token that completes an operand and one that begins an operand,
and no such tokens are neighbours. -/
theorem infixForm_exact (pattern : String) :
    (infixForm pattern).filter (· ≠ .operator .concat) = tokenize pattern ∧
    display (tokenize pattern) = pattern ∧
    (∀ other, infixForm other = infixForm pattern → other = pattern) ∧
    (∀ before after, infixForm pattern = before ++ .operator .concat :: after →
      (∃ t, before.getLast? = some t ∧ t.Completes) ∧ ∃ u, after.head? = some u ∧ u.Begins) ∧
    ∀ before t u after, infixForm pattern = before ++ t :: u :: after →
      t.Completes → ¬ u.Begins := by
  refine ⟨filter_infixForm pattern, display_tokenize pattern, fun _ => infixForm_injective,
    fun before after he => ?_, fun before t u after he => ?_⟩
  · apply exists_neighbours_of_concat
    · exact he ▸ isChain_infixForm pattern
    · exact he ▸ head?_infixForm_ne pattern
    · exact he ▸ getLast?_infixForm_ne pattern
  · have hchain : (before ++ t :: u :: after).IsChain Token.Neighbours :=
      he ▸ isChain_infixForm pattern
    obtain ⟨-, hpair, -⟩ := List.isChain_append.mp hchain
    exact (List.isChain_cons_cons.mp hpair).1.apart

-- a written full stop is a literal like any other
example : infixForm "a.(b)" =
    [.literal 'a', .operator .concat, .literal '.', .operator .concat, .lparen, .literal 'b',
      .rparen] := by cbv

end PatternAutomata
