import PatternAutomata.Proofs.Automaton.Residual
import PatternAutomata.Proofs.Expression.Layout

/-!
# The automaton of an expression recognizes its language

Let a block stand somewhere in an automaton. From its entry it leads to all that the
expression followed by the exit leads to, since the edges of the block run through every
word of the expression. It leads to nothing else: the states of the block have labels,
written down by recursion on the expression, that every edge respects.
-/

namespace PatternAutomata

/-- The items stand one after another from `base` on. -/
def Stands {β : Type*} (r : Nat → β → Prop) (base : Nat) (xs : List β) : Prop :=
  ∀ (i : Nat) (x : β), xs[i]? = some x → r (base + i) x

/-- Where an item and others stand, the item stands first. -/
theorem stands_cons {β : Type*} {r : Nat → β → Prop} {base : Nat} {x : β} {xs : List β} :
    Stands r base (x :: xs) ↔ r base x ∧ Stands r (base + 1) xs := by
  constructor
  · intro h
    refine ⟨h 0 x rfl, fun i y hy => ?_⟩
    have := h (i + 1) y hy
    rwa [show base + (i + 1) = base + 1 + i by omega] at this
  · rintro ⟨hx, hxs⟩ i y hy
    cases i with
    | zero => cases hy; exact hx
    | succ i =>
      have := hxs i y hy
      rwa [show base + 1 + i = base + (i + 1) by omega] at this

/-- Two lists stand one after the other. -/
theorem stands_append {β : Type*} {r : Nat → β → Prop} {base : Nat} {xs ys : List β} :
    Stands r base (xs ++ ys) ↔ Stands r base xs ∧ Stands r (base + xs.length) ys := by
  induction xs generalizing base with
  | nil => simp [Stands]
  | cons x xs ih =>
    rw [List.cons_append, stands_cons, stands_cons, ih, List.length_cons, and_assoc,
      show base + 1 + xs.length = base + (xs.length + 1) by omega]

/-- Two lists stand with an item between them and two items behind them. -/
theorem Stands.split_union {β : Type*} {r : Nat → β → Prop} {base : Nat} {xs ys : List β}
    {x y z : β} (h : Stands r base (xs ++ x :: (ys ++ [y, z]))) :
    Stands r base xs ∧ r (base + xs.length) x ∧ Stands r (base + (xs.length + 1)) ys ∧
      r (base + (xs.length + 1) + ys.length) y ∧
      r (base + (xs.length + 1) + (ys.length + 1)) z := by
  simp only [stands_append, stands_cons] at h
  exact ⟨h.1, h.2.1, h.2.2.1, h.2.2.2.1, h.2.2.2.2.1⟩

/-- Two lists stand with an item between them. -/
theorem Stands.split_concat {β : Type*} {r : Nat → β → Prop} {base : Nat} {xs ys : List β}
    {x : β} (h : Stands r base (xs ++ x :: ys)) :
    Stands r base xs ∧ r (base + xs.length) x ∧ Stands r (base + (xs.length + 1)) ys := by
  rw [stands_append, stands_cons] at h
  exact h

/-- A list stands with two items behind it. -/
theorem Stands.split_star {β : Type*} {r : Nat → β → Prop} {base : Nat} {xs : List β}
    {x y : β} (h : Stands r base (xs ++ [x, y])) :
    Stands r base xs ∧ r (base + xs.length) x ∧ r (base + (xs.length + 1)) y := by
  simp only [stands_append, stands_cons] at h
  exact ⟨h.1, h.2.1, h.2.2.1⟩

namespace Expr

/-- The labels of the states before the exit, when the exit has a label of its own. -/
def labels : Expr → Language Char → List (Language Char)
  | literal c, exit => [{[c]} * exit]
  | union left right, exit =>
    left.labels exit ++ exit :: (right.labels exit ++
      [exit, (left.language + right.language) * exit])
  | concat left right, exit =>
    left.labels (right.language * exit) ++ (right.language * exit) :: right.labels exit
  | star inner, exit =>
    let loop := KStar.kstar inner.language * exit
    inner.labels loop ++ [loop, loop]

@[simp] theorem length_labels (e : Expr) (exit : Language Char) :
    (e.labels exit).length = e.span := by
  induction e generalizing exit with
  | literal c => rfl
  | union left right ihl ihr =>
    simp only [labels, span, List.length_append, List.length_cons, List.length_nil, ihl, ihr]
    omega
  | concat left right ihl ihr =>
    simp only [labels, span, List.length_append, List.length_cons, ihl, ihr]
    omega
  | star inner ih =>
    simp only [labels, span, List.length_append, List.length_cons, List.length_nil, ih]

/-- The label of the entry is the language of the expression followed by the exit. -/
theorem label_entry {label : Nat → Language Char} {e : Expr} {base : Nat}
    {exit : Language Char} (h : Stands (label · = ·) base (e.labels exit)) :
    label (e.entry base) = e.language * exit := by
  induction e generalizing base exit with
  | literal c => exact (stands_cons.mp h).1
  | union left right =>
    obtain ⟨-, -, -, -, hfork⟩ := h.split_union
    rwa [length_labels, length_labels] at hfork
  | concat left right ihl =>
    obtain ⟨hleft, -, -⟩ := h.split_concat
    rw [entry, ihl hleft, language, mul_assoc]
  | star inner =>
    obtain ⟨-, -, hfork⟩ := h.split_star
    rwa [length_labels] at hfork

/-- Every state of a block admits its label. -/
theorem admits_body {label : Nat → Language Char} {e : Expr} {base : Nat}
    {exit : Language Char} (h : Stands (label · = ·) base (e.labels exit))
    (hexit : label (base + e.span) = exit) :
    List.Forall₂ (State.Admits label) (e.body base) (e.labels exit) := by
  induction e generalizing base exit with
  | literal c => exact .cons (State.admits_reader (by rw [← hexit]; rfl)) .nil
  | union left right ihl ihr =>
    let middle := base + (left.span + 1)
    obtain ⟨hleft, hoverl, hright, hoverr, -⟩ := h.split_union
    simp only [length_labels] at hoverl hright hoverr
    have hend : label (middle + (right.span + 1) + 1) = exit := by
      rw [← hexit, span]
      congr 1
      omega
    have hfork : ∀ q ∈ [left.entry base, right.entry middle],
        label q ≤ (left.language + right.language) * exit := by
      intro q hq
      rw [add_mul]
      rcases List.mem_pair.mp hq with rfl | rfl
      · rw [label_entry hleft]
        exact le_sup_left
      · rw [label_entry hright]
        exact le_sup_right
    have hout : (State.relay [middle + (right.span + 1) + 1]).Admits label exit :=
      State.admits_relay (by simpa only [List.forall_mem_singleton] using hend.le)
    exact List.rel_append (ihl hleft hoverl) (.cons hout (List.rel_append (ihr hright hoverr)
      (.cons hout (.cons (State.admits_relay hfork) .nil))))
  | concat left right ihl ihr =>
    let middle := base + (left.span + 1)
    obtain ⟨hleft, hover, hright⟩ := h.split_concat
    rw [length_labels] at hover hright
    have hend : label (middle + right.span) = exit := by
      rw [← hexit, span, Nat.add_assoc]
    have hon : (State.relay [right.entry middle]).Admits label (right.language * exit) :=
      State.admits_relay (by
        simpa only [List.forall_mem_singleton] using (label_entry hright).le)
    exact List.rel_append (ihl hleft hover) (.cons hon (ihr hright hend))
  | star inner ih =>
    let loop := KStar.kstar inner.language * exit
    obtain ⟨hinner, hover, -⟩ := h.split_star
    rw [length_labels] at hover
    have hend : label (base + (inner.span + 1) + 1) = exit := hexit
    -- The loop includes the exit, and a word of the expression followed by the loop.
    have hloop : ∀ q ∈ [base + (inner.span + 1) + 1, inner.entry base], label q ≤ loop := by
      intro q hq
      rcases List.mem_pair.mp hq with rfl | rfl
      · rw [hend]
        exact le_mul_of_one_le_left' one_le_kstar
      · rw [label_entry hinner, ← mul_assoc]
        exact mul_le_mul_left mul_kstar_le_kstar exit
    exact List.rel_append (ih hinner hover)
      (.cons (State.admits_relay hloop) (.cons (State.admits_relay hloop) .nil))

/-- A block leads from its entry to every word of the expression followed by what its exit
leads to. -/
theorem language_le {nfa : Nfa} {e : Expr} {base : Nat}
    (h : Stands (fun q s => nfa.states[q]? = some s) base (e.body base)) :
    e.language * nfa.residual (base + e.span) ≤ nfa.residual (e.entry base) := by
  induction e generalizing base with
  | literal c =>
    have hs : nfa.states[base]? = some (State.reader c (base + 1)) := (stands_cons.mp h).1
    have hread : nfa.Reads base c (base + 1) :=
      ⟨_, hs, by rw [State.get?_reader, if_pos rfl]⟩
    exact hread.residual_le
  | union left right ihl ihr =>
    let middle := base + (left.span + 1)
    have hend : base + (union left right).span = middle + (right.span + 1) + 1 := by
      simp only [span, middle]
      omega
    obtain ⟨hleft, hoverl, hright, hoverr, hfork⟩ := h.split_union
    simp only [length_body] at hoverl hright hoverr hfork
    have hl := Nfa.mul_residual_le (ihl hleft) ⟨_, hoverl, List.mem_singleton_self _⟩
    have hr := Nfa.mul_residual_le (ihr hright) ⟨_, hoverr, List.mem_singleton_self _⟩
    rw [hend]
    exact Nfa.add_mul_residual_le hl hr ⟨_, hfork, List.mem_cons_self⟩
      ⟨_, hfork, List.mem_cons_of_mem _ (List.mem_singleton_self _)⟩
  | concat left right ihl ihr =>
    let middle := base + (left.span + 1)
    have hend : base + (concat left right).span = middle + right.span := by
      simp only [span, middle]
      omega
    obtain ⟨hleft, hover, hright⟩ := h.split_concat
    rw [length_body] at hover hright
    rw [hend, language, mul_assoc]
    calc
      left.language * (right.language * nfa.residual (middle + right.span))
          ≤ left.language * nfa.residual (right.entry middle) :=
        mul_le_mul_right (ihr hright) _
      _ ≤ nfa.residual (left.entry base) :=
        Nfa.mul_residual_le (ihl hleft) ⟨_, hover, List.mem_singleton_self _⟩
  | star inner ih =>
    obtain ⟨hinner, hover, hfork⟩ := h.split_star
    rw [length_body] at hover hfork
    exact Nfa.kstar_mul_residual_le (ih hinner) ⟨_, hover, List.mem_cons_self⟩
      ⟨_, hover, List.mem_cons_of_mem _ (List.mem_singleton_self _)⟩
      ⟨_, hfork, List.mem_cons_self⟩
      ⟨_, hfork, List.mem_cons_of_mem _ (List.mem_singleton_self _)⟩

/-- The states of the automaton of an expression stand as its block and the exit. -/
theorem stands_nfa (e : Expr) :
    Stands (fun q s => e.nfa.states[q]? = some s) 0 (e.body 0 ++ [State.isolated true]) := by
  intro q s hs
  rw [Nat.zero_add, nfa, List.getElem?_toArray]
  exact hs

/-- The exit of an expression's automaton accepts and has no edges. -/
theorem getElem?_exit (e : Expr) : e.nfa.states[e.span]? = some (State.isolated true) := by
  have hexit := (stands_cons.mp (stands_append.mp e.stands_nfa).2).1
  rwa [length_body, Nat.zero_add] at hexit

/-- The automaton of an expression recognizes the words of its language. -/
theorem recognizes_nfa (e : Expr) (word : List Char) :
    e.nfa.Recognizes word ↔ word ∈ e.language := by
  rw [Nfa.recognizes_iff]
  constructor
  · -- The labels of a block whose exit is labelled with the empty word bound what is recognized.
    intro hword
    let label : Nat → Language Char := fun q => (e.labels 1 ++ [1]).getD q 0
    have hlabel : Stands (label · = ·) 0 (e.labels 1 ++ [1]) := by
      intro i X hX
      simp only [label, Nat.zero_add, List.getD_eq_getElem?_getD, hX, Option.getD_some]
    have hlabels := (stands_append.mp hlabel).1
    have hone : label e.span = 1 := by
      have := (stands_cons.mp (stands_append.mp hlabel).2).1
      rwa [length_labels, Nat.zero_add] at this
    have hall := List.rel_append (admits_body hlabels (by rw [Nat.zero_add]; exact hone))
      (.cons (State.admits_isolated le_rfl) .nil)
    have hadmits : ∀ (p : Nat) (s : State), e.nfa.states[p]? = some s →
        s.Admits label (label p) := by
      intro p s hs
      rw [nfa, List.getElem?_toArray] at hs
      obtain ⟨hp, rfl⟩ := List.getElem?_eq_some_iff.mp hs
      have hp' := hall.length_eq ▸ hp
      have hX := hlabel p _ (List.getElem?_eq_getElem hp')
      rw [Nat.zero_add] at hX
      rw [hX]
      exact hall.get hp hp'
    have hle := Nfa.residual_le hadmits e.nfa.start
    rw [show e.nfa.start = e.entry 0 from rfl, label_entry hlabels, mul_one] at hle
    exact hle hword
  · intro hword
    have hle := language_le (stands_append.mp e.stands_nfa).1
    have haccepts : e.nfa.Accepting e.span := ⟨_, e.getElem?_exit, rfl⟩
    rw [Nat.zero_add] at hle
    exact hle ⟨word, hword, [], haccepts.one_le rfl, List.append_nil word⟩

/-- The inner states of a block are plain, and lead into the block or to its exit. -/
theorem plain_body (e : Expr) (base : Nat) :
    ∀ s ∈ e.body base, s.Plain (base + e.span + 1) := by
  induction e generalizing base with
  | literal c =>
    intro s hs
    rw [List.mem_singleton.mp hs]
    exact .reader (Nat.lt_succ_self _)
  | union left right ihl ihr =>
    let middle := base + (left.span + 1)
    let exit := middle + (right.span + 1) + 1
    have hend : base + (union left right).span = exit := by
      simp only [span, exit, middle]
      omega
    have hl := left.entry_mem base
    have hr := right.entry_mem middle
    have hout : (State.relay [exit]).Plain (exit + 1) := .relay (by simp)
    have hfork : (State.relay [left.entry base, right.entry middle]).Plain (exit + 1) :=
      .relay (by simp only [List.mem_pair]; rintro q (rfl | rfl) <;> omega)
    rw [hend]
    simp only [body, List.forall_mem_append, List.forall_mem_cons, List.not_mem_nil,
      false_implies, implies_true, and_true]
    exact ⟨fun s hs => (ihl base s hs).mono (by omega), hout,
      fun s hs => (ihr middle s hs).mono (by omega), hout, hfork⟩
  | concat left right ihl ihr =>
    let middle := base + (left.span + 1)
    have hend : base + (concat left right).span = middle + right.span := by
      simp only [span, middle]
      omega
    have hr := right.entry_mem middle
    have hon : (State.relay [right.entry middle]).Plain (middle + right.span + 1) :=
      .relay (by simp only [List.mem_singleton]; rintro q rfl; omega)
    rw [hend]
    simp only [body, List.forall_mem_append, List.forall_mem_cons]
    exact ⟨fun s hs => (ihl base s hs).mono (by omega), hon, ihr middle⟩
  | star inner ih =>
    let exit := base + (inner.span + 1) + 1
    have hi := inner.entry_mem base
    have hfork : (State.relay [exit, inner.entry base]).Plain (exit + 1) :=
      .relay (by simp only [List.mem_pair]; rintro q (rfl | rfl) <;> omega)
    change ∀ s ∈ (star inner).body base, s.Plain (exit + 1)
    simp only [body, List.forall_mem_append, List.forall_mem_cons, List.not_mem_nil,
      false_implies, implies_true, and_true]
    exact ⟨fun s hs => (ih base s hs).mono (by omega), hfork, hfork⟩

@[simp] theorem size_nfa (e : Expr) : e.nfa.size = e.span + 1 := by
  rw [Nfa.size, nfa, List.size_toArray, List.length_append, length_body, List.length_singleton]

/-- The automaton of an expression is made of plain states. -/
theorem plain_nfa (e : Expr) : ∀ s ∈ e.nfa.states, s.Plain e.nfa.size := by
  intro s hs
  rw [size_nfa]
  rcases List.mem_append.mp (List.mem_toArray.mp hs) with h | h
  · exact (e.plain_body 0 s h).mono (by omega)
  · rw [List.mem_singleton.mp h]
    exact .isolated true

/-- The automaton of an expression is in range. -/
theorem inRange_nfa (e : Expr) : e.nfa.InRange := by
  refine Nfa.inRange_of_plain ?_ e.plain_nfa
  have h := (e.entry_mem 0).2
  rw [size_nfa]
  change e.entry 0 < e.span + 1
  omega

end Expr

/-- The automaton that comes of no tokens is made of plain states. -/
theorem plain_emptyNfa : ∀ s ∈ emptyNfa.states, s.Plain emptyNfa.size := by
  intro s hs
  rcases List.mem_pair.mp (List.mem_toArray.mp hs) with rfl | rfl
  · exact .relay (by decide)
  · exact .isolated true

/-- The automaton that comes of no tokens is in range. -/
theorem inRange_emptyNfa : emptyNfa.InRange := by decide

/-- The automaton that comes of no tokens recognizes the empty word alone. -/
theorem recognizes_emptyNfa (word : List Char) : emptyNfa.Recognizes word ↔ word = [] := by
  rw [Nfa.recognizes_iff]
  constructor
  · intro hword
    -- The label of both states is the empty word.
    have hadmits : ∀ (p : Nat) (s : State), emptyNfa.states[p]? = some s →
        s.Admits (fun _ => 1) 1 := by
      intro p s hs
      rcases List.mem_pair.mp (List.mem_toArray.mp (Array.mem_of_getElem? hs)) with rfl | rfl
      · exact State.admits_relay fun _ _ => le_rfl
      · exact State.admits_isolated le_rfl
    exact Nfa.residual_le hadmits _ hword
  · rintro rfl
    exact ⟨1, .jump ⟨_, rfl, List.mem_singleton_self _⟩ (.stay 1), _, rfl, rfl⟩

end PatternAutomata
