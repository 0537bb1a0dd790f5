import PatternAutomata.Proofs.Pattern.Gaps
import PatternAutomata.Proofs.Pattern.Postfix

/-!
# Postfix order follows the tree, not the groups

The postfix form of derived tokens is the postfix form of the tree that the derivation
stands for, in which groups leave no trace. So a group around an expression that is one
already changes nothing, in tokens with explicit concatenations and in patterns alike.
-/

namespace PatternAutomata

variable {link : List Token} {level : Level} {ts ts' : List Token} {e : Expr}

/-- Any number of groups can be put around an expression at any level. -/
theorem Derives.enclose (h : Derives link level ts e) (n : Nat) :
    Derives link level (List.replicate n .lparen ++ (ts ++ List.replicate n .rparen)) e := by
  induction n with
  | zero => simpa using h
  | succ n ih =>
    have hgroup : List.replicate (n + 1) Token.lparen ++ (ts ++ List.replicate (n + 1) .rparen) =
        .lparen ::
          ((List.replicate n .lparen ++ (ts ++ List.replicate n .rparen)) ++ [.rparen]) := by
      rw [List.replicate_succ, List.replicate_succ']
      simp only [List.cons_append, List.append_assoc]
    rw [hgroup]
    cases level with
    | expression => exact .ofTerm (.ofFactor (.group ih))
    | term => exact .ofFactor (.group (.ofTerm ih))
    | factor => exact .group (.ofTerm (.ofFactor ih))

/-- The second tokens are the first, which are derived, with any number of groups around each
expression in them. -/
inductive Regroups (link : List Token) : Level → List Token → List Token → Prop
  | same {level : Level} {ts : List Token} {e : Expr} :
    Derives link level ts e → Regroups link level ts ts
  | enclose {level : Level} {ts ts' : List Token} (n : Nat) : Regroups link level ts ts' →
    Regroups link level ts (List.replicate n .lparen ++ (ts' ++ List.replicate n .rparen))
  | ofTerm {ts ts' : List Token} : Regroups link .term ts ts' → Regroups link .expression ts ts'
  | union {ts ts' us us' : List Token} :
    Regroups link .expression ts ts' → Regroups link .term us us' →
    Regroups link .expression (ts ++ .operator .union :: us) (ts' ++ .operator .union :: us')
  | ofFactor {ts ts' : List Token} : Regroups link .factor ts ts' → Regroups link .term ts ts'
  | concat {ts ts' us us' : List Token} :
    Regroups link .term ts ts' → Regroups link .factor us us' →
    Regroups link .term (ts ++ (link ++ us)) (ts' ++ (link ++ us'))
  | group {ts ts' : List Token} : Regroups link .expression ts ts' →
    Regroups link .factor (.lparen :: (ts ++ [.rparen])) (.lparen :: (ts' ++ [.rparen]))
  | star {ts ts' : List Token} : Regroups link .factor ts ts' →
    Regroups link .factor (ts ++ [.operator .star]) (ts' ++ [.operator .star])

/-- Regrouped tokens stand for the same expression. -/
theorem Regroups.exists_derives (h : Regroups link level ts ts') :
    ∃ e, Derives link level ts e ∧ Derives link level ts' e := by
  induction h with
  | same h => exact ⟨_, h, h⟩
  | enclose n _ ih =>
    obtain ⟨e, h, h'⟩ := ih
    exact ⟨e, h, h'.enclose n⟩
  | ofTerm _ ih =>
    obtain ⟨e, h, h'⟩ := ih
    exact ⟨e, .ofTerm h, .ofTerm h'⟩
  | union _ _ ihl ihr =>
    obtain ⟨left, hl, hl'⟩ := ihl
    obtain ⟨right, hr, hr'⟩ := ihr
    exact ⟨.union left right, .union hl hr, .union hl' hr'⟩
  | ofFactor _ ih =>
    obtain ⟨e, h, h'⟩ := ih
    exact ⟨e, .ofFactor h, .ofFactor h'⟩
  | concat _ _ ihl ihr =>
    obtain ⟨left, hl, hl'⟩ := ihl
    obtain ⟨right, hr, hr'⟩ := ihr
    exact ⟨.concat left right, .concat hl hr, .concat hl' hr'⟩
  | group _ ih =>
    obtain ⟨e, h, h'⟩ := ih
    exact ⟨e, .group h, .group h'⟩
  | star _ ih =>
    obtain ⟨e, h, h'⟩ := ih
    exact ⟨.star e, .star h, .star h'⟩

/-- Tokens of a pattern that are derived are the tokens of a derivation. -/
theorem Derives.exists_derivation (h : Derives [] level ts e) (hts : ∀ t ∈ ts, t.Spelled) :
    ∃ d : Derivation level, d.tokens = ts ∧ d.expr = e := by
  induction h with
  | ofTerm _ ih =>
    obtain ⟨d, rfl, rfl⟩ := ih hts
    exact ⟨.ofTerm d, rfl, rfl⟩
  | union _ _ ihl ihr =>
    rw [List.forall_mem_append, List.forall_mem_cons] at hts
    obtain ⟨left, rfl, rfl⟩ := ihl hts.1
    obtain ⟨right, rfl, rfl⟩ := ihr hts.2.2
    exact ⟨.union left right, rfl, rfl⟩
  | ofFactor _ ih =>
    obtain ⟨d, rfl, rfl⟩ := ih hts
    exact ⟨.ofFactor d, rfl, rfl⟩
  | concat _ _ ihl ihr =>
    rw [List.nil_append, List.forall_mem_append] at hts
    obtain ⟨left, rfl, rfl⟩ := ihl hts.1
    obtain ⟨right, rfl, rfl⟩ := ihr hts.2
    exact ⟨.concat left right, rfl, rfl⟩
  | literal c => exact ⟨.literal c (Token.notMem_of_spelled (hts _ List.mem_cons_self)), rfl, rfl⟩
  | group _ ih =>
    rw [List.forall_mem_cons, List.forall_mem_append] at hts
    obtain ⟨d, rfl, rfl⟩ := ih hts.2.1
    exact ⟨.group d, rfl, rfl⟩
  | star _ ih =>
    rw [List.forall_mem_append] at hts
    obtain ⟨d, rfl, rfl⟩ := ih hts.1
    exact ⟨.star d, rfl, rfl⟩

/-- The postfix form of a pattern whose tokens are derived is that of their expression. -/
theorem Derives.postfixForm_eq {pattern : String} (h : Derives [] level (tokenize pattern) e) :
    postfixForm pattern = .ok e.postorder := by
  obtain ⟨d, hd, rfl⟩ := h.exists_derivation fun t => spelled_of_mem_tokenize
  rw [← Derivation.pattern_eq hd]
  exact d.postfixForm_pattern

/-- Putting derived tokens in postfix order lists the operators of their tree after its
operands, and so does the postfix form of a derived pattern. Groups around expressions in
them change nothing. -/
theorem postfix_lists_tree :
    (∀ (ts : List Token) (e : Expr), Derives [.operator .concat] .expression ts e →
      toPostfix ts = .ok e.postorder) ∧
    (∀ (pattern : String) (e : Expr), Derives [] .expression (tokenize pattern) e →
      postfixForm pattern = .ok e.postorder) ∧
    (∀ ts ts' : List Token, Regroups [.operator .concat] .expression ts ts' →
      toPostfix ts' = toPostfix ts) ∧
    ∀ pattern pattern' : String, Regroups [] .expression (tokenize pattern) (tokenize pattern') →
      postfixForm pattern' = postfixForm pattern := by
  refine ⟨fun ts e h => h.toPostfix_eq, fun pattern e h => h.postfixForm_eq,
    fun ts ts' h => ?_, fun pattern pattern' h => ?_⟩
  · obtain ⟨e, h, h'⟩ := h.exists_derives
    rw [h.toPostfix_eq, h'.toPostfix_eq]
  · obtain ⟨e, h, h'⟩ := h.exists_derives
    rw [h.postfixForm_eq, h'.postfixForm_eq]

/-- A choice, one of whose operands is a star character, repeated and followed by a literal; and
a sequence of three with groups around its first two factors, around its last and around all. -/
theorem postfix_lists_tree_repeated_choice :
    let tree : Expr := .concat (.star (.union (.literal 'a') (.literal '*'))) (.literal 'b')
    let ts : List Token := [.lparen, .literal 'a', .operator .union, .literal '*', .rparen,
      .operator .star, .operator .concat, .literal 'b']
    let ts' : List Token := [.lparen, .literal 'a', .operator .union, .lparen, .lparen,
      .literal '*', .rparen, .rparen, .rparen, .operator .star, .operator .concat, .literal 'b']
    let sequence : Expr := .concat (.concat (.literal 'a') (.literal 'b')) (.literal 'c')
    (Derives [.operator .concat] .expression ts tree ∧ toPostfix ts = .ok tree.postorder) ∧
    (Derives [] .expression (tokenize "abc") sequence ∧
      postfixForm "abc" = .ok sequence.postorder) ∧
    (Regroups [.operator .concat] .expression ts ts' ∧ toPostfix ts' = toPostfix ts) ∧
    Regroups [] .expression (tokenize "abc") (tokenize "((ab)((c)))") ∧
      postfixForm "((ab)((c)))" = postfixForm "abc" := by
  intro tree ts ts' sequence
  have htokens : tokenize "abc" = [.literal 'a', .literal 'b', .literal 'c'] := by cbv
  have htokens' : tokenize "((ab)((c)))" = [.lparen, .lparen, .literal 'a', .literal 'b', .rparen,
      .lparen, .lparen, .literal 'c', .rparen, .rparen, .rparen] := by cbv
  have hts : Derives [.operator .concat] .expression ts tree :=
    .ofTerm (.concat (.ofFactor (.star (.group
      (.union (.ofTerm (.ofFactor (.literal 'a'))) (.ofFactor (.literal '*')))))) (.literal 'b'))
  have habc : Derives [] .expression (tokenize "abc") sequence := by
    rw [htokens]
    exact .ofTerm (.concat (.concat (.ofFactor (.literal 'a')) (.literal 'b')) (.literal 'c'))
  have hts' : Regroups [.operator .concat] .expression ts ts' :=
    .ofTerm (.concat (.ofFactor (.star (.group (.union (.ofTerm (.ofFactor (.same (.literal 'a'))))
      (.ofFactor (.enclose 2 (.same (.literal '*')))))))) (.same (.literal 'b')))
  have habc' : Regroups [] .expression (tokenize "abc") (tokenize "((ab)((c)))") := by
    rw [htokens, htokens']
    exact .enclose 1 (.ofTerm (.concat
      (.enclose 1 (.concat (.ofFactor (.same (.literal 'a'))) (.same (.literal 'b'))))
      (.enclose 2 (.same (.literal 'c')))))
  obtain ⟨htree, hpattern, hgroups, hgroups'⟩ := postfix_lists_tree
  exact ⟨⟨hts, htree ts tree hts⟩, ⟨habc, hpattern "abc" sequence habc⟩,
    ⟨hts', hgroups ts ts' hts'⟩, habc', hgroups' "abc" "((ab)((c)))" habc'⟩

end PatternAutomata
