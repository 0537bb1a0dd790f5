import PatternAutomata.Proofs.Expression.Operands
import PatternAutomata.Proofs.Pattern.Balance
import PatternAutomata.Proofs.Pattern.Grammar

/-!
# Gaps where an operand should be

An operand is due at the start, in an opened group and after a choice. Where none begins
there is a gap. Making concatenations explicit leaves one operand too few for each gap,
and tokens without a gap whose groups are closed are those of a derivation.
-/

namespace PatternAutomata

/-- The number of places at which an operand is due and none begins, after a token that
may have completed an operand. -/
def gaps (complete : Bool) : List Token → Nat
  | [] => if complete then 0 else 1
  | t :: ts => (if complete || t.beginsOperand then 0 else 1) + gaps t.endsOperand ts

/-- A token that some character spells. -/
def Token.Spelled (t : Token) : Prop := ofChar t.toChar = t

/-- The tokens of a pattern are spelled by its characters. -/
theorem spelled_of_mem_tokenize {pattern : String} {t : Token} (h : t ∈ tokenize pattern) :
    t.Spelled := by
  obtain ⟨c, _, rfl⟩ := List.mem_map.mp h
  rw [Token.Spelled, Token.toChar_ofChar]

/-- No character spells a concatenation. -/
theorem Token.not_spelled_concat : ¬ (Token.operator .concat).Spelled := by
  rintro ⟨⟩

/-- A character that spells a literal is not reserved. -/
theorem Token.notMem_of_spelled {c : Char} (h : (Token.literal c).Spelled) : c ∉ reserved := by
  intro hc
  simp only [reserved, List.mem_cons, List.not_mem_nil, or_false] at hc
  rcases hc with rfl | rfl | rfl | rfl <;> cases h

/-- A token adds the operand that it begins to what it leaves due. -/
theorem Token.weight_add_due {t : Token} (h : t.Spelled) :
    t.weight + (if t.endsOperand then 0 else 1) = if t.beginsOperand then 1 else 0 := by
  cases t with
  | literal | lparen | rparen => rfl
  | operator o =>
    cases o with
    | concat => exact absurd h not_spelled_concat
    | union | star => rfl

/-- A token and what follows it weigh as much as the token and the operand that is due after
it, and one less for each gap. -/
theorem totalWeight_insertConcat_cons (t : Token) {ts : List Token} (h : ∀ u ∈ ts, u.Spelled) :
    totalWeight (insertConcat (t :: ts)) =
      t.weight + (if t.endsOperand then 0 else 1) - gaps t.endsOperand ts := by
  induction ts generalizing t with
  | nil => cases ht : t.endsOperand <;> simp [insertConcat, gaps, totalWeight]
  | cons u ts ih =>
    rw [List.forall_mem_cons] at h
    have hrest := ih u h.2
    rw [u.weight_add_due h.1] at hrest
    rw [insertConcat, gaps]
    cases t.endsOperand <;> cases hu : u.beginsOperand <;>
      simp [hrest, hu, totalWeight, Token.weight] <;> omega

/-- The tokens of a pattern weigh as much as an operand, and one less for each gap. -/
theorem totalWeight_insertConcat {ts : List Token} (h : ∀ u ∈ ts, u.Spelled) :
    totalWeight (insertConcat ts) = 1 - gaps false ts := by
  cases ts with
  | nil => rfl
  | cons t ts =>
    rw [List.forall_mem_cons] at h
    rw [totalWeight_insertConcat_cons t h.2, t.weight_add_due h.1, gaps]
    cases t.beginsOperand <;>
      simp only [Bool.or_false, Bool.or_true, Bool.false_eq_true, if_true, if_false] <;> omega

/-- Concatenations open and close no groups. -/
theorem remaining_insertConcat (depth : Nat) (ts : List Token) :
    remaining depth (insertConcat ts) = remaining depth ts := by
  fun_induction insertConcat ts generalizing depth with
  | case1 | case2 => rfl
  | case3 t u rest _ ih =>
    rw [remaining, remaining]
    congr 1
    funext depth'
    rw [remaining, show Token.deepen depth' (.operator .concat) = some depth' from rfl,
      Option.bind_some, ih]
  | case4 t u rest _ ih =>
    rw [remaining, remaining]
    congr 1
    funext depth'
    exact ih depth'

/-- What is complete of an expression before a factor: all up to the last choice, and the
factors after it. -/
structure Frame where
  before : Option (Derivation .expression)
  term : Option (Derivation .term)

namespace Frame

/-- The frame in which nothing is complete. -/
def start : Frame := ⟨none, none⟩

/-- The tokens of a frame. -/
def tokens (f : Frame) : List Token :=
  (match f.before with
    | none => []
    | some d => d.tokens ++ [.operator .union]) ++
  match f.term with
  | none => []
  | some d => d.tokens

/-- The term that ends with a factor. -/
def extend (f : Frame) (d : Derivation .factor) : Derivation .term :=
  match f.term with
  | none => .ofFactor d
  | some term => .concat term d

/-- The expression that ends with a factor. -/
def close (f : Frame) (d : Derivation .factor) : Derivation .expression :=
  match f.before with
  | none => .ofTerm (f.extend d)
  | some before => .union before (f.extend d)

/-- The frame before a factor that follows a factor. -/
def next (f : Frame) (d : Derivation .factor) : Frame := ⟨f.before, some (f.extend d)⟩

/-- The frame before a factor that follows a choice after a factor. -/
def choose (f : Frame) (d : Derivation .factor) : Frame := ⟨some (f.close d), none⟩

@[simp] theorem tokens_start : start.tokens = [] := rfl

@[simp] theorem tokens_close (f : Frame) (d : Derivation .factor) :
    (f.close d).tokens = f.tokens ++ d.tokens := by
  rcases f with ⟨_ | before, _ | term⟩ <;> simp [close, extend, tokens, Derivation.tokens]

@[simp] theorem tokens_next (f : Frame) (d : Derivation .factor) :
    (f.next d).tokens = f.tokens ++ d.tokens := by
  rcases f with ⟨_ | before, _ | term⟩ <;> simp [next, extend, tokens, Derivation.tokens]

@[simp] theorem tokens_choose (f : Frame) (d : Derivation .factor) :
    (f.choose d).tokens = f.tokens ++ d.tokens ++ [.operator .union] := by
  simp [choose, tokens_close, tokens]

end Frame

/-- The tokens of frames in which groups are open, the innermost first. -/
def openTokens : List Frame → List Token
  | [] => []
  | f :: frames => openTokens frames ++ (f.tokens ++ [.lparen])

/-- The tokens of a factor, if there is one. -/
def factorTokens (factor : Option (Derivation .factor)) : List Token :=
  factor.elim [] Derivation.tokens

/-- Tokens without a gap that close all open groups complete what is open. -/
theorem exists_derivation {ts : List Token} (h : ∀ t ∈ ts, t.Spelled) (frames : List Frame)
    (hrem : remaining frames.length ts = some 0) (f : Frame) (factor : Option (Derivation .factor))
    (hgap : gaps factor.isSome ts = 0) :
    ∃ d : Derivation .expression,
      d.tokens = openTokens frames ++ (f.tokens ++ (factorTokens factor ++ ts)) := by
  induction ts generalizing frames f factor with
  | nil =>
    have hnil : frames = [] := List.length_eq_zero_iff.mp (Option.some.inj hrem)
    subst hnil
    cases factor with
    | none => cases hgap
    | some factor => exact ⟨f.close factor, by simp [openTokens, factorTokens]⟩
  | cons t ts ih =>
    rw [List.forall_mem_cons] at h
    rw [gaps, Nat.add_eq_zero_iff] at hgap
    obtain ⟨hdue, hgap⟩ := hgap
    cases t with
    | literal c =>
      let literal : Derivation .factor := .literal c (Token.notMem_of_spelled h.1)
      cases factor with
      | none => exact ih h.2 frames hrem f (some literal) hgap
      | some factor =>
        obtain ⟨d, hd⟩ := ih h.2 frames hrem (f.next factor) (some literal) hgap
        exact ⟨d, by simpa [factorTokens, literal, Derivation.tokens] using hd⟩
    | operator o =>
      cases factor with
      | none =>
        cases o with
        | concat => exact absurd h.1 Token.not_spelled_concat
        | union | star => cases hdue
      | some factor =>
        cases o with
        | concat => exact absurd h.1 Token.not_spelled_concat
        | union =>
          obtain ⟨d, hd⟩ := ih h.2 frames hrem (f.choose factor) none hgap
          exact ⟨d, by simpa [factorTokens] using hd⟩
        | star =>
          obtain ⟨d, hd⟩ := ih h.2 frames hrem f (some (.star factor)) hgap
          exact ⟨d, by simpa [factorTokens, Derivation.tokens] using hd⟩
    | lparen =>
      cases factor with
      | none =>
        obtain ⟨d, hd⟩ := ih h.2 (f :: frames) hrem .start none hgap
        exact ⟨d, by simpa [factorTokens, openTokens] using hd⟩
      | some factor =>
        obtain ⟨d, hd⟩ := ih h.2 (f.next factor :: frames) hrem .start none hgap
        exact ⟨d, by simpa [factorTokens, openTokens] using hd⟩
    | rparen =>
      cases factor with
      | none => cases hdue
      | some factor =>
        cases frames with
        | nil => cases hrem
        | cons outer frames =>
          obtain ⟨d, hd⟩ := ih h.2 frames hrem outer (some (.group (f.close factor))) hgap
          exact ⟨d, by simpa [factorTokens, openTokens, Derivation.tokens] using hd⟩

/-- A pattern without a gap whose groups are closed is derived. -/
theorem exists_pattern_eq {pattern : String} (hgap : gaps false (tokenize pattern) = 0)
    (hrem : remaining 0 (tokenize pattern) = some 0) :
    ∃ d : Derivation .expression, d.pattern = pattern := by
  obtain ⟨d, hd⟩ :=
    exists_derivation (fun t => spelled_of_mem_tokenize) [] hrem .start none hgap
  exact ⟨d, Derivation.pattern_eq hd⟩

end PatternAutomata
