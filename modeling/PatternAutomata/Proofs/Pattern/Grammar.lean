import PatternAutomata.Proofs.Expression.Tree
import PatternAutomata.Proofs.Pattern.Concatenation

/-!
# The grammar of patterns

A choice binds weaker than a sequence, a sequence weaker than a repetition, and both of
the former associate to the left. A derivation spells a pattern and says which words the
pattern describes. Making concatenations explicit puts one between the factors of every
sequence, and nowhere else.
-/

namespace PatternAutomata

/-- The characters that do not stand for themselves. -/
def reserved : List Char := ['(', ')', '|', '*']

/-- The nonterminals of the grammar, from weak to tight. -/
inductive Level
  | expression
  | term
  | factor

/-- A derivation in the grammar. -/
inductive Derivation : Level → Type
  | ofTerm (d : Derivation .term) : Derivation .expression
  | union (left : Derivation .expression) (right : Derivation .term) : Derivation .expression
  | ofFactor (d : Derivation .factor) : Derivation .term
  | concat (left : Derivation .term) (right : Derivation .factor) : Derivation .term
  | literal (c : Char) (h : c ∉ reserved) : Derivation .factor
  | group (d : Derivation .expression) : Derivation .factor
  | star (d : Derivation .factor) : Derivation .factor

namespace Derivation

variable {level : Level}

/-- The characters that a derivation spells. -/
def spelling {level : Level} : Derivation level → List Char
  | ofTerm d => d.spelling
  | union left right => left.spelling ++ '|' :: right.spelling
  | ofFactor d => d.spelling
  | concat left right => left.spelling ++ right.spelling
  | literal c _ => [c]
  | group d => '(' :: (d.spelling ++ [')'])
  | star d => d.spelling ++ ['*']

/-- The pattern that a derivation derives. -/
def pattern (d : Derivation level) : String := String.ofList d.spelling

/-- The words that a derivation describes. -/
def language {level : Level} : Derivation level → Language Char
  | ofTerm d => d.language
  | union left right => left.language + right.language
  | ofFactor d => d.language
  | concat left right => left.language * right.language
  | literal c _ => {[c]}
  | group d => d.language
  | star d => KStar.kstar d.language

/-- The expression of a derivation. -/
def expr {level : Level} : Derivation level → Expr
  | ofTerm d => d.expr
  | union left right => .union left.expr right.expr
  | ofFactor d => d.expr
  | concat left right => .concat left.expr right.expr
  | literal c _ => .literal c
  | group d => d.expr
  | star d => .star d.expr

/-- The tokens of a derivation. -/
def tokens {level : Level} : Derivation level → List Token
  | ofTerm d => d.tokens
  | union left right => left.tokens ++ .operator .union :: right.tokens
  | ofFactor d => d.tokens
  | concat left right => left.tokens ++ right.tokens
  | literal c _ => [.literal c]
  | group d => .lparen :: (d.tokens ++ [.rparen])
  | star d => d.tokens ++ [.operator .star]

/-- The tokens of a derivation with its concatenations made explicit. -/
def explicit {level : Level} : Derivation level → List Token
  | ofTerm d => d.explicit
  | union left right => left.explicit ++ .operator .union :: right.explicit
  | ofFactor d => d.explicit
  | concat left right => left.explicit ++ .operator .concat :: right.explicit
  | literal c _ => [.literal c]
  | group d => .lparen :: (d.explicit ++ [.rparen])
  | star d => d.explicit ++ [.operator .star]

/-- The expression of a derivation describes the words of the derivation. -/
theorem language_expr (d : Derivation level) : d.expr.language = d.language := by
  induction d with
  | ofTerm _ ih | ofFactor _ ih | group _ ih => exact ih
  | union _ _ ihl ihr => rw [expr, Expr.language, language, ihl, ihr]
  | concat _ _ ihl ihr => rw [expr, Expr.language, language, ihl, ihr]
  | literal => rfl
  | star _ ih => rw [expr, Expr.language, language, ih]

end Derivation

/-- A character that is not reserved stands for itself. -/
theorem Token.ofChar_of_notMem {c : Char} (h : c ∉ reserved) : Token.ofChar c = .literal c := by
  unfold Token.ofChar
  split <;> first | rfl | exact absurd (by decide) h

namespace Derivation

variable {level : Level}

/-- The characters of a derivation spell its tokens. -/
theorem map_spelling (d : Derivation level) : d.spelling.map Token.ofChar = d.tokens := by
  induction d with
  | ofTerm _ ih | ofFactor _ ih => exact ih
  | union _ _ ihl ihr =>
    rw [spelling, tokens, List.map_append, List.map_cons, ihl, ihr]
    rfl
  | concat _ _ ihl ihr => rw [spelling, tokens, List.map_append, ihl, ihr]
  | literal c h => rw [spelling, tokens, List.map_singleton, Token.ofChar_of_notMem h]
  | group _ ih =>
    rw [spelling, tokens, List.map_cons, List.map_append, ih]
    rfl
  | star _ ih =>
    rw [spelling, tokens, List.map_append, ih]
    rfl

/-- The tokens of a derived pattern are those of the derivation. -/
theorem tokenize_pattern (d : Derivation level) : tokenize d.pattern = d.tokens := by
  rw [tokenize, pattern, String.toList_ofList, map_spelling]

/-- A derivation begins with a token that begins an operand. -/
theorem exists_head (d : Derivation level) :
    ∃ t, d.tokens.head? = some t ∧ t.beginsOperand = true := by
  induction d with
  | ofTerm _ ih | ofFactor _ ih => exact ih
  | union _ _ ih _ | concat _ _ ih _ | star _ ih =>
    obtain ⟨t, ht, hb⟩ := ih
    exact ⟨t, by rw [tokens, List.head?_append, ht, Option.some_or], hb⟩
  | literal c => exact ⟨_, rfl, rfl⟩
  | group => exact ⟨_, rfl, rfl⟩

/-- A derivation ends with a token that ends an operand. -/
theorem exists_getLast (d : Derivation level) :
    ∃ t, d.tokens.getLast? = some t ∧ t.endsOperand = true := by
  induction d with
  | ofTerm _ ih | ofFactor _ ih => exact ih
  | union _ _ _ ih =>
    obtain ⟨t, ht, he⟩ := ih
    exact ⟨t, by rw [tokens, List.getLast?_append, List.getLast?_cons, ht]; rfl, he⟩
  | concat _ _ _ ih =>
    obtain ⟨t, ht, he⟩ := ih
    exact ⟨t, by rw [tokens, List.getLast?_append, ht]; rfl, he⟩
  | literal c => exact ⟨_, rfl, rfl⟩
  | group =>
    exact ⟨.rparen, by rw [tokens, List.getLast?_cons, List.getLast?_append]; rfl, rfl⟩
  | star => exact ⟨.operator .star, by rw [tokens, List.getLast?_append]; rfl, rfl⟩

/-- Making concatenations explicit puts one between the factors of every sequence. -/
theorem insertConcat_tokens (d : Derivation level) : insertConcat d.tokens = d.explicit := by
  induction d with
  | ofTerm _ ih | ofFactor _ ih => exact ih
  | union left right ihl ihr =>
    obtain ⟨t, ht, _⟩ := left.exists_getLast
    rw [tokens, insertConcat_append ht rfl, ihl, joint_of_not_begins t rfl,
      insertConcat_cons_of_not_ends rfl, ihr]
    rfl
  | concat left right ihl ihr =>
    obtain ⟨t, ht, he⟩ := left.exists_getLast
    obtain ⟨u, hu, hb⟩ := right.exists_head
    have hjoint : joint t u = [.operator .concat] := by
      rw [joint, he, hb]
      rfl
    rw [tokens, insertConcat_append ht hu, ihl, ihr, hjoint]
    rfl
  | literal c => rfl
  | group d ih =>
    rw [tokens, insertConcat_cons_of_not_ends rfl, insertConcat_append_of_not_begins _ rfl, ih]
    rfl
  | star d ih => rw [tokens, insertConcat_append_of_not_begins _ rfl, ih, explicit]

/-- A derivation with the tokens of a pattern derives the pattern. -/
theorem pattern_eq {d : Derivation level} {pattern : String} (h : d.tokens = tokenize pattern) :
    d.pattern = pattern := by
  have htokens : tokenize d.pattern = tokenize pattern := d.tokenize_pattern.trans h
  rw [← display_tokenize d.pattern, htokens, display_tokenize]

end Derivation

/-- Tokens are derived at a level, and stand for an expression. A literal may be any character,
and `link` is what stands between the factors of a sequence: nothing in a pattern, and a
concatenation once concatenations are explicit. -/
inductive Derives (link : List Token) : Level → List Token → Expr → Prop
  | ofTerm {ts : List Token} {e : Expr} : Derives link .term ts e → Derives link .expression ts e
  | union {ts us : List Token} {left right : Expr} :
    Derives link .expression ts left → Derives link .term us right →
    Derives link .expression (ts ++ .operator .union :: us) (.union left right)
  | ofFactor {ts : List Token} {e : Expr} : Derives link .factor ts e → Derives link .term ts e
  | concat {ts us : List Token} {left right : Expr} :
    Derives link .term ts left → Derives link .factor us right →
    Derives link .term (ts ++ (link ++ us)) (.concat left right)
  | literal (c : Char) : Derives link .factor [.literal c] (.literal c)
  | group {ts : List Token} {e : Expr} :
    Derives link .expression ts e → Derives link .factor (.lparen :: (ts ++ [.rparen])) e
  | star {ts : List Token} {e : Expr} :
    Derives link .factor ts e → Derives link .factor (ts ++ [.operator .star]) (.star e)

/-- A derivation with its concatenations made explicit derives its expression. -/
theorem Derivation.derives_explicit {level : Level} (d : Derivation level) :
    Derives [.operator .concat] level d.explicit d.expr := by
  induction d with
  | ofTerm _ ih => exact .ofTerm ih
  | union _ _ ihl ihr => exact .union ihl ihr
  | ofFactor _ ih => exact .ofFactor ih
  | concat _ _ ihl ihr => exact .concat ihl ihr
  | literal c => exact .literal c
  | group _ ih => exact .group ih
  | star _ ih => exact .star ih

end PatternAutomata
