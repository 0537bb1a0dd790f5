import PatternAutomata.Proofs.Pattern.Grammar
import PatternAutomata.Proofs.Reference.Positions
import PatternAutomata.Reference.Engine

/-!
# Phrases of the common notation

The part of the common notation in which patterns are written, with what it means: a phrase
spells a text, and matches between positions of a word. An engine that goes by the notation
searches for matches that begin anywhere in the word. The engine of positions does: the units
of a phrase are read back one by one, and what has been read of a group means what the
phrase means.
-/

namespace PatternAutomata.Reference

open Relation

/-- A phrase of the common notation: a choice, a sequence or an item, which the notation has on
the levels of expressions, terms and factors. -/
inductive Phrase : Level → Type
  | single (s : Phrase .term) : Phrase .expression
  | either (left : Phrase .expression) (right : Phrase .term) : Phrase .expression
  | nothing : Phrase .term
  | chain (left : Phrase .term) (right : Phrase .factor) : Phrase .term
  | literal (c : Char) (h : c ∉ reserved) : Phrase .factor
  | escaped (c : Char) (h : c ∈ reserved) : Phrase .factor
  | startOfText : Phrase .factor
  | endOfText : Phrase .factor
  /-- A group with a number, in plain parentheses. -/
  | capture (inner : Phrase .expression) : Phrase .factor
  /-- A group without a number. -/
  | group (inner : Phrase .expression) : Phrase .factor
  | star (inner : Phrase .factor) : Phrase .factor

namespace Phrase

variable {level : Level}

/-- The characters that a phrase spells. -/
def spelling {level : Level} : Phrase level → List Char
  | single s => s.spelling
  | either left right => left.spelling ++ '|' :: right.spelling
  | nothing => []
  | chain left right => left.spelling ++ right.spelling
  | literal c _ => [c]
  | escaped c _ => ['\\', c]
  | startOfText => ['^']
  | endOfText => ['$']
  | capture inner => '(' :: (inner.spelling ++ [')'])
  | group inner => '(' :: '?' :: ':' :: (inner.spelling ++ [')'])
  | star inner => inner.spelling ++ ['*']

/-- The text of a phrase. -/
def text (p : Phrase level) : String := String.ofList p.spelling

/-- A match of the phrase in the word can begin at the first position and end at the second. -/
def Spans (word : List Char) {level : Level} : Phrase level → Nat → Nat → Prop
  | single s => s.Spans word
  | either left right => fun i j => left.Spans word i j ∨ right.Spans word i j
  | nothing => Eq
  | chain left right => Comp (left.Spans word) (right.Spans word)
  | literal c _ | escaped c _ => fun i j => word[i]? = some c ∧ j = i + 1
  | startOfText => fun i j => i = 0 ∧ i = j
  | endOfText => fun i j => i = word.length ∧ i = j
  | capture inner | group inner => inner.Spans word
  | star inner => ReflTransGen (inner.Spans word)

/-- Some match of the phrase begins somewhere in the word. -/
def Occurs (p : Phrase level) (word : List Char) : Prop :=
  ∃ i ≤ word.length, ∃ j, p.Spans word i j

/-- The units of a phrase. -/
def symbols {level : Level} : Phrase level → List Symbol
  | single s => s.symbols
  | either left right => left.symbols ++ .bar :: right.symbols
  | nothing => []
  | chain left right => left.symbols ++ right.symbols
  | literal c _ | escaped c _ => [.literal c]
  | startOfText => [.startOfText]
  | endOfText => [.endOfText]
  | capture inner | group inner => .opening :: (inner.symbols ++ [.closing])
  | star inner => inner.symbols ++ [.star]

end Phrase

/-- An engine goes by the common notation: it may refuse a phrase, but if it does not, its search
succeeds on the words in which the phrase occurs. -/
def Engine.Standard (engine : Engine) : Prop :=
  ∀ (p : Phrase .expression) (search : List Char → Bool), engine.search? p.text = some search →
    ∀ word, search word = true ↔ p.Occurs word

/-- A character that is not reserved is a unit of its own. -/
theorem symbols?_cons {c : Char} (h : c ∉ reserved) (rest : List Char) :
    symbols? (c :: rest) = (Symbol.literal c :: ·) <$> symbols? rest := by
  have hsubset : ['\\', '.', '+', '?', '[', '\x7b'] ⊆ reserved := by decide
  have hplain : c ∉ ['\\', '.', '+', '?', '[', '\x7b'] := fun hc => h (hsubset hc)
  rw [symbols?, if_neg hplain]
  -- the other units begin with reserved characters
  all_goals
    intros
    subst_vars
    exact h (by decide)

/-- An opening parenthesis that no question mark follows is a unit of its own. -/
theorem symbols?_opening {rest : List Char} (h : rest.head? ≠ some '?') :
    symbols? ('(' :: rest) = (Symbol.opening :: ·) <$> symbols? rest := by
  rw [symbols?]
  rintro rest' rfl
  exact h rfl

namespace Phrase

variable {level : Level}

/-- No phrase begins with a question mark. -/
theorem head?_spelling_ne (p : Phrase level) {rest : List Char} (h : rest.head? ≠ some '?') :
    (p.spelling ++ rest).head? ≠ some '?' := by
  induction p generalizing rest with
  | single s ih => exact ih h
  | either left right ihl ihr =>
    rw [spelling, List.append_assoc]
    apply ihl
    rw [List.cons_append, List.head?_cons]
    decide
  | nothing => exact h
  | chain left right ihl ihr =>
    rw [spelling, List.append_assoc]
    exact ihl (ihr h)
  | literal c hc =>
    rw [spelling, List.singleton_append, List.head?_cons, Ne, Option.some.injEq]
    rintro rfl
    exact hc (by decide)
  | escaped | startOfText | endOfText | capture | group =>
    rw [spelling, List.cons_append, List.head?_cons]
    decide
  | star inner ih =>
    rw [spelling, List.append_assoc]
    apply ih
    rw [List.singleton_append, List.head?_cons]
    decide

/-- The spelling of a phrase has the units of the phrase. -/
theorem symbols?_spelling (p : Phrase level) (rest : List Char) :
    symbols? (p.spelling ++ rest) = (p.symbols ++ ·) <$> symbols? rest := by
  induction p generalizing rest with
  | single s ih => exact ih rest
  | either left right ihl ihr =>
    rw [spelling, List.append_assoc, ihl, List.cons_append, symbols?, ihr]
    simp only [Option.map_eq_map, Option.map_map, symbols, List.append_assoc]
    rfl
  | nothing =>
    simp only [spelling, symbols, List.nil_append, id_map']
  | chain left right ihl ihr =>
    rw [spelling, List.append_assoc, ihl, ihr]
    simp only [Option.map_eq_map, Option.map_map, symbols, List.append_assoc]
    rfl
  | literal c hc => exact symbols?_cons hc rest
  | escaped | startOfText | endOfText => rfl
  | capture inner ih =>
    have hhead : (inner.spelling ++ ')' :: rest).head? ≠ some '?' := by
      apply inner.head?_spelling_ne
      rw [List.head?_cons]
      decide
    rw [spelling, List.cons_append, List.append_assoc, List.singleton_append,
      symbols?_opening hhead, ih, symbols?]
    simp only [Option.map_eq_map, Option.map_map, symbols, List.cons_append, List.append_assoc]
    rfl
  | group inner ih =>
    rw [spelling, List.cons_append, List.cons_append, List.cons_append, List.append_assoc,
      List.singleton_append, symbols?, ih, symbols?]
    simp only [Option.map_eq_map, Option.map_map, symbols, List.cons_append, List.append_assoc]
    rfl
  | star inner ih =>
    rw [spelling, List.append_assoc, ih, List.singleton_append, symbols?]
    simp only [Option.map_eq_map, Option.map_map, symbols, List.append_assoc]
    rfl

end Phrase

/-- The matches of a sequence are those of its first expression followed by the others. -/
theorem spans_sequence_cons (word : List Char) (r : Regex) (rs : List Regex) :
    (sequence (r :: rs)).Spans word = Comp (r.Spans word) ((sequence rs).Spans word) := by
  cases rs with
  | nil => exact comp_eq.symm
  | cons s rs => rfl

/-- The matches of two sequences one after the other. -/
theorem spans_sequence_append (word : List Char) (rs ss : List Regex) :
    (sequence (rs ++ ss)).Spans word =
      Comp ((sequence rs).Spans word) ((sequence ss).Spans word) := by
  induction rs with
  | nil => exact eq_comp.symm
  | cons r rs ih =>
    rw [List.cons_append, spans_sequence_cons, ih, spans_sequence_cons, comp_assoc]

/-- The matches of a choice are those of its alternatives. -/
theorem spans_choice {rs : List Regex} (h : rs ≠ []) (word : List Char) (i j : Nat) :
    (choice rs).Spans word i j ↔ ∃ r ∈ rs, r.Spans word i j := by
  induction rs with
  | nil => exact absurd rfl h
  | cons r rs ih =>
    cases rs with
    | nil => simp only [choice, List.mem_singleton, exists_eq_left]
    | cons s rs =>
      have hrest := ih (List.cons_ne_nil s rs)
      rw [List.exists_mem_cons_iff, ← hrest]
      rfl

namespace Frame

/-- The matches of a group that has been read are those of its unfinished alternative and of the
finished ones. -/
theorem spans_toRegex (f : Frame) (word : List Char) (i j : Nat) :
    f.toRegex.Spans word i j ↔ (sequence f.items.reverse).Spans word i j ∨
      ∃ r ∈ f.alternatives, r.Spans word i j := by
  have hne : f.nextAlternative.alternatives.reverse ≠ [] := by
    rw [Ne, List.reverse_eq_nil_iff]
    exact List.cons_ne_nil _ _
  rw [toRegex, spans_choice hne]
  simp only [List.mem_reverse]
  exact List.exists_mem_cons_iff _ _ _

end Frame

namespace Phrase

/-- What reading the units of a phrase adds to the innermost open group: an item adds one
expression, a sequence adds several, and a choice fills a group. What is added has the matches
of the phrase. -/
def Reads : {level : Level} → Phrase level → Prop
  | .factor, p => ∃ r, (∀ word, r.Spans word = p.Spans word) ∧
      ∀ outer f rest, readFrom outer f (p.symbols ++ rest) = readFrom outer (f.push r) rest
  | .term, p => ∃ items, (∀ word, (sequence items.reverse).Spans word = p.Spans word) ∧
      ∀ outer f rest, readFrom outer f (p.symbols ++ rest) =
        readFrom outer { f with items := items ++ f.items } rest
  | .expression, p => ∃ f : Frame, (∀ word, f.toRegex.Spans word = p.Spans word) ∧
      ∀ outer rest, readFrom outer .start (p.symbols ++ rest) = readFrom outer f rest

/-- The matches of a sequence of items in the order of reading, after one item more. -/
theorem spans_items_cons (word : List Char) (r : Regex) (items : List Regex) :
    (sequence (r :: items).reverse).Spans word =
      Comp ((sequence items.reverse).Spans word) (r.Spans word) := by
  rw [List.reverse_cons, spans_sequence_append]
  rfl

/-- A group around a choice is read as one expression. -/
theorem reads_of_group {inner : Phrase .expression} {p : Phrase .factor} (h : inner.Reads)
    (hsymbols : p.symbols = .opening :: (inner.symbols ++ [.closing]))
    (hspans : ∀ word, p.Spans word = inner.Spans word) : p.Reads := by
  obtain ⟨g, hg, hread⟩ := h
  refine ⟨.group g.toRegex, fun word => ?_, fun outer f rest => ?_⟩
  · rw [hspans word, ← hg word]
    rfl
  · rw [hsymbols, List.cons_append, readFrom, List.append_assoc, hread, List.singleton_append,
      readFrom]

/-- The units of every phrase are read back. -/
theorem reads {level : Level} (p : Phrase level) : p.Reads := by
  -- the units that follow are arbitrary, so that each level can go on from the one inside it
  induction p with
  | single s ih =>
    obtain ⟨items, hitems, hread⟩ := ih
    refine ⟨⟨[], items⟩, fun word => ?_, fun outer rest => ?_⟩
    · rw [Spans, ← hitems word]
      rfl
    · rw [symbols, hread]
      simp only [Frame.start, List.append_nil]
  | either left right ihl ihr =>
    obtain ⟨g, hg, hreadl⟩ := ihl
    obtain ⟨items, hitems, hreadr⟩ := ihr
    refine ⟨{ g.nextAlternative with items }, fun word => ?_, fun outer rest => ?_⟩
    · funext i j
      have halternatives : (∃ r ∈ g.nextAlternative.alternatives, r.Spans word i j) ↔
          g.toRegex.Spans word i j := by
        rw [g.spans_toRegex]
        exact List.exists_mem_cons_iff _ _ _
      rw [Frame.spans_toRegex, halternatives, hg word, hitems word, or_comm]
      rfl
    · rw [symbols, List.append_assoc, hreadl, List.cons_append, readFrom, hreadr]
      simp only [Frame.nextAlternative, List.append_nil]
  | nothing =>
    refine ⟨[], fun word => rfl, fun outer f rest => ?_⟩
    rw [symbols, List.nil_append, List.nil_append]
  | chain left right ihl ihr =>
    obtain ⟨items, hitems, hreadl⟩ := ihl
    obtain ⟨r, hr, hreadr⟩ := ihr
    refine ⟨r :: items, fun word => ?_, fun outer f rest => ?_⟩
    · rw [spans_items_cons, hitems word, hr word]
      rfl
    · rw [symbols, List.append_assoc, hreadl, hreadr]
      rfl
  | literal c | escaped c =>
    refine ⟨.literal c, fun word => rfl, fun outer f rest => ?_⟩
    rw [symbols, List.singleton_append, readFrom]
  | startOfText =>
    refine ⟨.startOfText, fun word => rfl, fun outer f rest => ?_⟩
    rw [symbols, List.singleton_append, readFrom]
  | endOfText =>
    refine ⟨.endOfText, fun word => rfl, fun outer f rest => ?_⟩
    rw [symbols, List.singleton_append, readFrom]
  | capture inner ih | group inner ih => exact reads_of_group ih rfl fun word => rfl
  | star inner ih =>
    obtain ⟨r, hr, hread⟩ := ih
    refine ⟨.star r, fun word => ?_, fun outer f rest => ?_⟩
    · rw [Regex.Spans, hr word]
      rfl
    · rw [symbols, List.append_assoc, hread, List.singleton_append, readFrom]
      rfl

/-- What is read from the text of a phrase has the matches of the phrase. -/
theorem spans_of_read? {p : Phrase .expression} {r : Regex} (h : read? p.text = some r)
    (word : List Char) : r.Spans word = p.Spans word := by
  obtain ⟨f, hf, hread⟩ := p.reads
  have hsymbols : symbols? p.text.toList = some p.symbols := by
    have happend := p.symbols?_spelling []
    rw [List.append_nil] at happend
    rw [text, String.toList_ofList, happend, symbols?]
    simp only [Option.map_eq_map, Option.map_some, List.append_nil]
  have hregex : readFrom [] .start p.symbols = some f.toRegex := by
    have hall := hread [] []
    rw [List.append_nil] at hall
    rw [hall, readFrom]
    rfl
  rw [read?, hsymbols] at h
  simp only [bind, Option.bind, hregex] at h
  split at h
  · cases h
    exact hf word
  · cases h

end Phrase

/-- The engine of positions goes by the common notation. -/
theorem standard_positional : Engine.positional.Standard := by
  intro p search h word
  rw [Engine.positional, Option.map_eq_map, Option.map_eq_some_iff] at h
  obtain ⟨r, hr, rfl⟩ := h
  rw [r.matchesIn_iff, Phrase.spans_of_read? hr]
  rfl

end PatternAutomata.Reference
