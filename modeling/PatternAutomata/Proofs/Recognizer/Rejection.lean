import PatternAutomata.Proofs.Pattern.Gaps
import PatternAutomata.Proofs.Pattern.Rearrangement
import PatternAutomata.Proofs.Recognizer.Compilation

/-!
# Which patterns are compiled, and why others are rejected

Rearranging settles what the parentheses are worth. The weight of the tokens settles the
rest: tokens that leave a tree weigh at least one, and the tokens of a pattern weigh at
most one and as much only where no operand is missing. So no pattern leaves more than one
tree, and only derived patterns leave one.
-/

namespace PatternAutomata

/-- Some derivation derives the pattern. -/
def Derivable (pattern : String) : Prop := ∃ d : Derivation .expression, d.pattern = pattern

/-- The pattern is derived, or is made of groups around nothing. -/
def Compilable (pattern : String) : Prop := Derivable pattern ∨ ∃ n, nested n = pattern

/-- What compiling a pattern comes to. -/
inductive CompileOutcome {α : Type} (pattern : String) : Except CompileError α → Prop
  | overclosed {k : Nat} (h : remaining 0 (infixForm pattern) = none)
    (hk : IsLeast (surplus 0 (infixForm pattern)) k) :
    CompileOutcome pattern (.error (.rejected (.unbalancedClose k)))
  | unclosed {n : Nat} (h : remaining 0 (infixForm pattern) = some (n + 1)) :
    CompileOutcome pattern (.error (.rejected .unbalancedOpen))
  | missing {o : Operator} (h : remaining 0 (infixForm pattern) = some 0) :
    CompileOutcome pattern (.error (.rejected (.missingOperand o)))
  | compiled {a : α} (h : remaining 0 (infixForm pattern) = some 0)
    (hyes : Compilable pattern) : CompileOutcome pattern (.ok a)

/-- A derived pattern and groups around nothing are compiled. -/
theorem Compilable.exists_compile {pattern : String} (h : Compilable pattern) :
    (∃ nfa, compileNfa pattern = .ok nfa) ∧ ∃ m, compile pattern = .ok m := by
  rcases h with ⟨d, rfl⟩ | ⟨n, rfl⟩
  · obtain ⟨m, hm, _⟩ := d.exists_compile
    exact ⟨⟨_, d.compileNfa_pattern⟩, m, hm⟩
  · obtain ⟨m, hm, _⟩ := exists_compile_nested n
    exact ⟨⟨_, by rw [compileNfa, postfixForm_nested]; rfl⟩, m, hm⟩

/-- Parentheses weigh nothing. -/
theorem totalWeight_keptTokens (ts : List Token) :
    totalWeight (keptTokens ts) = totalWeight ts := by
  induction ts with
  | nil => rfl
  | cons t ts ih =>
    rw [totalWeight, ← ih]
    cases t with
    | literal | operator => rfl
    | lparen | rparen => exact (Int.zero_add _).symm

/-- Tokens of which none is kept are parentheses, the opening ones first. -/
theorem exists_replicate {ts : List Token} (h : keptTokens (insertConcat ts) = []) :
    ∃ m n, ts = List.replicate m .lparen ++ List.replicate n .rparen := by
  fun_induction insertConcat ts with
  | case1 => exact ⟨0, 0, rfl⟩
  | case2 t =>
    cases t with
    | literal | operator => cases h
    | lparen => exact ⟨1, 0, rfl⟩
    | rparen => exact ⟨0, 1, rfl⟩
  | case3 t u rest hjoint ih => simp [keptTokens, Token.isKept] at h
  | case4 t u rest hjoint ih =>
    cases t with
    | literal | operator => cases h
    | lparen =>
      obtain ⟨m, n, hmn⟩ := ih h
      exact ⟨m + 1, n, by rw [hmn]; rfl⟩
    | rparen =>
      obtain ⟨m, n, hmn⟩ := ih h
      cases m with
      | zero => exact ⟨0, n + 1, by rw [hmn]; rfl⟩
      | succ m =>
        cases (List.cons.inj hmn).1
        exact absurd rfl hjoint

/-- A pattern that leaves no tokens in postfix order is made of groups around nothing. -/
theorem exists_nested {pattern : String} (hkept : keptTokens (infixForm pattern) = [])
    (hrem : remaining 0 (infixForm pattern) = some 0) : ∃ n, nested n = pattern := by
  obtain ⟨m, n, hmn⟩ := exists_replicate hkept
  have hcount := count_of_remaining ((remaining_insertConcat 0 _).symm.trans hrem)
  rw [hmn] at hcount
  simp [List.count_append, List.count_replicate] at hcount
  subst hcount
  refine ⟨m, ?_⟩
  rw [← display_tokenize (nested m), tokenize_nested, ← hmn, display_tokenize]

/-- A pattern that leaves trees leaves one, and is derived. -/
theorem derivable_of_takeAll {pattern : String} {out : List Token} {trees : List Expr}
    (hperm : out.Perm (keptTokens (infixForm pattern))) (hne : out ≠ [])
    (hrem : remaining 0 (infixForm pattern) = some 0)
    (htrees : Expr.takeAll [] 0 out = .ok trees) :
    Derivable pattern ∧ trees.length = 1 := by
  have hpos : 0 < trees.length :=
    List.length_pos_iff.mpr (Expr.ne_nil_of_takeAll htrees (Or.inr hne))
  have hlen := Expr.length_of_takeAll htrees
  have hweight : totalWeight (infixForm pattern) = 1 - gaps false (tokenize pattern) :=
    totalWeight_insertConcat fun t => spelled_of_mem_tokenize
  rw [totalWeight_of_perm hperm, totalWeight_keptTokens, hweight, List.length_nil] at hlen
  have hgap : gaps false (tokenize pattern) = 0 := by omega
  refine ⟨exists_pattern_eq hgap ((remaining_insertConcat 0 _).symm.trans hrem), ?_⟩
  omega

/-- What the automaton of a pattern comes to. -/
theorem outcome_compileNfa (pattern : String) : CompileOutcome pattern (compileNfa pattern) := by
  have hout := rearrange_outcome 0 [] (infixForm pattern)
  have hpost : postfixForm pattern = rearrange 0 [] (infixForm pattern) := rfl
  rw [compileNfa, hpost]
  rw [show Pending.heldTokens [] = [] from rfl, List.append_nil] at hout
  generalize rearrange 0 [] (infixForm pattern) = result at hout
  cases hout with
  | @overclosed k h hk =>
    rw [Nat.zero_add]
    exact .overclosed h hk
  | unclosed h => exact .unclosed h
  | @written out h hperm =>
    by_cases hne : out = []
    · subst hne
      exact .compiled h (Or.inr (exists_nested (List.nil_perm.mp hperm) h))
    · have htoNfa := Expr.toNfa_eq hne
      cases htrees : Expr.takeAll [] 0 out with
      | error e =>
        obtain ⟨o, rfl⟩ := Expr.error_of_takeAll htrees fun t ht =>
          ne_paren_of_mem_keptTokens (hperm.mem_iff.mp ht)
        have hmissing : toNfa out = .error (.rejected (.missingOperand o)) := by
          rw [htoNfa, htrees]
          rfl
        simp only [hmissing]
        exact .missing h
      | ok trees =>
        obtain ⟨hderivable, hlen⟩ := derivable_of_takeAll hperm hne h htrees
        obtain ⟨e, rfl⟩ := List.length_eq_one_iff.mp hlen
        have hok : toNfa out = .ok e.nfa := by
          rw [htoNfa, htrees]
          rfl
        simp only [hok]
        exact .compiled h (Or.inl hderivable)

/-- What a pattern comes to. -/
theorem outcome_compile (pattern : String) : CompileOutcome pattern (compile pattern) := by
  have hnfa := outcome_compileNfa pattern
  generalize hresult : compileNfa pattern = result at hnfa
  cases hnfa with
  | overclosed h hk =>
    rw [compile, hresult]
    exact .overclosed h hk
  | unclosed h =>
    rw [compile, hresult]
    exact .unclosed h
  | missing h =>
    rw [compile, hresult]
    exact .missing h
  | compiled h hyes =>
    obtain ⟨m, hm⟩ := hyes.exists_compile.2
    rw [hm]
    exact .compiled h hyes

/-- Which patterns are compiled, and for which of the reasons each other pattern is rejected.
The positions are those of the tokens once concatenations are explicit. -/
structure Classifies {α : Type} (pattern : String) (outcome : Except CompileError α) : Prop where
  ok_iff : (∃ a, outcome = .ok a) ↔ Derivable pattern ∨ ∃ n, nested n = pattern
  unbalancedClose_iff : (∃ i, outcome = .error (.rejected (.unbalancedClose i))) ↔
    ∃ k, ((infixForm pattern).take k).count .lparen < ((infixForm pattern).take k).count .rparen
  unbalancedClose_isLeast : ∀ i, outcome = .error (.rejected (.unbalancedClose i)) →
    IsLeast {i | (infixForm pattern)[i]? = some .rparen ∧
      ((infixForm pattern).take (i + 1)).count .lparen <
        ((infixForm pattern).take (i + 1)).count .rparen} i
  unbalancedOpen_iff : outcome = .error (.rejected .unbalancedOpen) ↔
    (¬ ∃ k, ((infixForm pattern).take k).count .lparen <
      ((infixForm pattern).take k).count .rparen) ∧
    (infixForm pattern).count .rparen < (infixForm pattern).count .lparen
  error_eq : ∀ e, outcome = .error e → (∃ i, e = .rejected (.unbalancedClose i)) ∨
    e = .rejected .unbalancedOpen ∨ ∃ o, e = .rejected (.missingOperand o)

/-- An outcome classifies its pattern, where nothing that can be compiled is rejected. -/
theorem CompileOutcome.classifies {α : Type} {pattern : String} {outcome : Except CompileError α}
    (houtcome : CompileOutcome pattern outcome) (hok : Compilable pattern → ∃ a, outcome = .ok a) :
    Classifies pattern outcome := by
  cases houtcome with
  | @overclosed k h hk =>
    have hover := (remaining_zero_eq_none_iff _).mp h
    refine ⟨⟨?_, hok⟩, iff_of_true ⟨k, rfl⟩ hover, ?_,
      iff_of_false ?_ fun hopen => hopen.1 hover, ?_⟩
    · rintro ⟨a, ⟨⟩⟩
    · rintro i ⟨⟩
      simpa only [surplus, Overclosed, Nat.zero_add] using hk
    · rintro ⟨⟩
    · rintro e ⟨⟩
      exact Or.inl ⟨k, rfl⟩
  | unclosed h =>
    have hcount := count_of_remaining h
    have hno := not_overclosed_of_remaining h
    refine ⟨⟨?_, hok⟩, iff_of_false ?_ hno, ?_, iff_of_true rfl ⟨hno, by omega⟩, ?_⟩
    · rintro ⟨a, ⟨⟩⟩
    · rintro ⟨i, ⟨⟩⟩
    · rintro i ⟨⟩
    · rintro e ⟨⟩
      exact Or.inr (Or.inl rfl)
  | @missing o h =>
    have hcount := count_of_remaining h
    have hno := not_overclosed_of_remaining h
    refine ⟨⟨?_, hok⟩, iff_of_false ?_ hno, ?_, iff_of_false ?_ (by omega), ?_⟩
    · rintro ⟨a, ⟨⟩⟩
    · rintro ⟨i, ⟨⟩⟩
    · rintro i ⟨⟩
    · rintro ⟨⟩
    · rintro e ⟨⟩
      exact Or.inr (Or.inr ⟨o, rfl⟩)
  | @compiled a h hyes =>
    have hcount := count_of_remaining h
    have hno := not_overclosed_of_remaining h
    refine ⟨iff_of_true ⟨a, rfl⟩ hyes, iff_of_false ?_ hno, ?_,
      iff_of_false ?_ (by omega), ?_⟩
    · rintro ⟨i, ⟨⟩⟩
    · rintro i ⟨⟩
    · rintro ⟨⟩
    · rintro e ⟨⟩

/-- Exactly the derived patterns and groups around nothing are compiled. Any other pattern is
rejected for its parentheses, or else for an operator without its operands. -/
theorem compile_classifies (pattern : String) :
    Classifies pattern (compile pattern) ∧ Classifies pattern (compileNfa pattern) :=
  ⟨(outcome_compile pattern).classifies fun h => h.exists_compile.2,
    (outcome_compileNfa pattern).classifies fun h => h.exists_compile.1⟩

-- Rearranging moves the repetition behind the first literal; the count still finds the gap.
example : compileNfa "a(*b)" = .error (.rejected (.missingOperand .concat)) := by cbv

example : compileNfa "a)(" = .error (.rejected (.unbalancedClose 1)) := by cbv

end PatternAutomata
