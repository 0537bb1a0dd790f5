import PatternAutomata.Proofs.Recognizer.Meaning
import PatternAutomata.Proofs.Reference.Phrase

/-!
# The reference expression of a pattern means what the pattern means

A derivation of a pattern is rewritten as a phrase, with reserved literals escaped, and the
phrase spells what the tokens of the pattern spell. It matches between two positions of a word
when the symbols between them are a word of the derivation. So between the anchors it matches
the words that the pattern describes.
-/

namespace PatternAutomata

open Relation

/-- The symbols of the word between two positions. -/
def Segment (word : List Char) (i : Nat) (segment : List Char) (j : Nat) : Prop :=
  word.drop i = segment ++ word.drop j ∧ j = i + segment.length

namespace Segment

variable {word u v : List Char} {i j k : Nat}

/-- Between a position and itself there is nothing. -/
theorem nil_iff : Segment word i [] j ↔ i = j := by
  constructor
  · rintro ⟨-, rfl⟩
    rfl
  · rintro rfl
    exact ⟨rfl, rfl⟩

/-- Between a position and the next one there is the symbol at the position. -/
theorem singleton_iff {c : Char} : Segment word i [c] j ↔ word[i]? = some c ∧ j = i + 1 := by
  constructor
  · rintro ⟨hdrop, rfl⟩
    refine ⟨?_, rfl⟩
    rw [← List.head?_drop, hdrop]
    rfl
  · rintro ⟨hc, rfl⟩
    obtain ⟨hi, hget⟩ := List.getElem?_eq_some_iff.mp hc
    refine ⟨?_, rfl⟩
    rw [List.drop_eq_getElem_cons hi, hget]
    rfl

/-- Symbols come one after the other when some position lies between them. -/
theorem append_iff :
    Segment word i (u ++ v) k ↔ ∃ j, Segment word i u j ∧ Segment word j v k := by
  constructor
  · rintro ⟨hdrop, rfl⟩
    have hmiddle : word.drop (i + u.length) = v ++ word.drop (i + (u ++ v).length) := by
      rw [← List.drop_drop, hdrop, List.append_assoc, List.drop_left]
    refine ⟨i + u.length, ⟨?_, rfl⟩, hmiddle, ?_⟩
    · rw [hmiddle, ← List.append_assoc, hdrop]
    · rw [List.length_append, Nat.add_assoc]
  · rintro ⟨j, ⟨hu, rfl⟩, hv, rfl⟩
    refine ⟨?_, ?_⟩
    · rw [hu, hv, List.append_assoc]
    · rw [List.length_append, Nat.add_assoc]

/-- Between the beginning and the end there is the whole word. -/
theorem whole_iff : Segment word 0 u word.length ↔ u = word := by
  constructor
  · rintro ⟨hdrop, -⟩
    rw [List.drop_zero, List.drop_length, List.append_nil] at hdrop
    exact hdrop.symm
  · rintro rfl
    refine ⟨?_, (Nat.zero_add _).symm⟩
    rw [List.drop_zero, List.drop_length, List.append_nil]

end Segment

/-- The symbols between two positions are a word of the language. -/
def Between (words : Language Char) (word : List Char) (i j : Nat) : Prop :=
  ∃ u ∈ words, Segment word i u j

namespace Between

variable {words words' : Language Char} {word : List Char}

theorem one_eq : Between 1 word = Eq := by
  funext i j
  simp only [Between, Language.mem_one, exists_eq_left, Segment.nil_iff]

theorem singleton_eq {c : Char} :
    Between {[c]} word = fun i j => word[i]? = some c ∧ j = i + 1 := by
  funext i j
  have hmem : ∀ u, u ∈ ({[c]} : Language Char) ↔ u = [c] := fun u => Set.mem_singleton_iff
  simp only [Between, hmem, exists_eq_left, Segment.singleton_iff]

theorem add_eq :
    Between (words + words') word =
      fun i j => Between words word i j ∨ Between words' word i j := by
  funext i j
  simp only [Between, Language.mem_add, or_and_right, exists_or]

theorem mul_eq :
    Between (words * words') word = Comp (Between words word) (Between words' word) := by
  funext i k
  rw [eq_iff_iff]
  constructor
  · rintro ⟨uv, huv, hsegment⟩
    obtain ⟨u, hu, v, hv, rfl⟩ := Language.mem_mul.mp huv
    obtain ⟨j, hleft, hright⟩ := Segment.append_iff.mp hsegment
    exact ⟨j, ⟨u, hu, hleft⟩, v, hv, hright⟩
  · rintro ⟨j, ⟨u, hu, hleft⟩, v, hv, hright⟩
    have hsegment := Segment.append_iff.mpr ⟨j, hleft, hright⟩
    exact ⟨u ++ v, Language.append_mem_mul hu hv, hsegment⟩

/-- Words of the language one after the other. -/
theorem kstar_eq : Between (KStar.kstar words) word = ReflTransGen (Between words word) := by
  funext i j
  rw [eq_iff_iff]
  constructor
  · rintro ⟨u, hu, hsegment⟩
    obtain ⟨parts, rfl, hparts⟩ := Language.mem_kstar.mp hu
    induction parts generalizing i with
    | nil =>
      rw [List.flatten_nil, Segment.nil_iff] at hsegment
      exact hsegment ▸ .refl
    | cons part parts ih =>
      obtain ⟨k, hfirst, hrest⟩ := Segment.append_iff.mp hsegment
      have hlater : ∀ v ∈ parts, v ∈ words := fun v hv => hparts v (List.mem_cons_of_mem part hv)
      have hreach := ih k hlater (Language.join_mem_kstar hlater) hrest
      exact hreach.head ⟨part, hparts part List.mem_cons_self, hfirst⟩
  · intro hreach
    induction hreach with
    | refl => exact ⟨[], Language.nil_mem_kstar words, Segment.nil_iff.mpr rfl⟩
    | tail _ hlast ih =>
      obtain ⟨u, hu, hfirst⟩ := ih
      obtain ⟨v, hv, hsegment⟩ := hlast
      have hmem : u ++ v ∈ KStar.kstar words * words := Language.append_mem_mul hu hv
      have hword : u ++ v ∈ KStar.kstar words :=
        (kstar_mul_le_kstar : KStar.kstar words * words ≤ _) hmem
      exact ⟨u ++ v, hword, Segment.append_iff.mpr ⟨_, hfirst, hsegment⟩⟩

end Between

namespace Derivation

/-- The phrase of a derivation. -/
def phrase {level : Level} : Derivation level → Reference.Phrase level
  | ofTerm d => .single d.phrase
  | union left right => .either left.phrase right.phrase
  | ofFactor d => .chain .nothing d.phrase
  | concat left right => .chain left.phrase right.phrase
  | literal c _ => if h : c ∈ Reference.reserved then .escaped c h else .literal c h
  | group d => .capture d.phrase
  | star d => .star d.phrase

variable {level : Level}

/-- The phrase of a derivation spells what the tokens of the derivation spell. -/
theorem spelling_phrase (d : Derivation level) :
    d.phrase.spelling = d.tokens.flatMap Reference.spell := by
  induction d with
  | ofTerm _ ih => exact ih
  | ofFactor _ ih => exact ih
  | union left right ihl ihr =>
    rw [tokens, List.flatMap_append, List.flatMap_cons, ← ihl, ← ihr]
    rfl
  | concat left right ihl ihr =>
    rw [tokens, List.flatMap_append, ← ihl, ← ihr]
    rfl
  | literal c h =>
    rw [phrase, tokens, List.flatMap_singleton, Reference.spell]
    by_cases hc : c ∈ Reference.reserved
    · rw [dif_pos hc, if_pos hc]
      rfl
    · rw [dif_neg hc, if_neg hc]
      rfl
  | group d ih =>
    rw [tokens, List.flatMap_cons, List.flatMap_append, ← ih]
    rfl
  | star d ih =>
    rw [tokens, List.flatMap_append, ← ih]
    rfl

/-- The phrase of a derivation matches the words of the derivation. -/
theorem spans_phrase (d : Derivation level) (word : List Char) :
    d.phrase.Spans word = Between d.language word := by
  induction d with
  | ofTerm _ ih => exact ih
  | ofFactor d ih =>
    rw [phrase, Reference.Phrase.Spans, ih, Reference.Phrase.Spans, eq_comp, language]
  | union left right ihl ihr =>
    rw [phrase, Reference.Phrase.Spans, ihl, ihr, language, Between.add_eq]
  | concat left right ihl ihr =>
    rw [phrase, Reference.Phrase.Spans, ihl, ihr, language, Between.mul_eq]
  | literal c h =>
    rw [phrase, language, Between.singleton_eq]
    by_cases hc : c ∈ Reference.reserved
    · rw [dif_pos hc, Reference.Phrase.Spans]
    · rw [dif_neg hc, Reference.Phrase.Spans]
  | group d ih => exact ih
  | star d ih =>
    rw [phrase, Reference.Phrase.Spans, ih, language, Between.kstar_eq]

end Derivation

namespace Reference

/-- The phrase of groups around nothing. -/
def nestedPhrase : Nat → Phrase .expression
  | 0 => .single .nothing
  | n + 1 => .single (.chain .nothing (.capture (nestedPhrase n)))

/-- The phrase of groups around nothing spells them. -/
theorem spelling_nestedPhrase (n : Nat) :
    (nestedPhrase n).spelling = (tokenize (nested n)).flatMap spell := by
  rw [tokenize_nested]
  induction n with
  | zero => rfl
  | succ n ih =>
    rw [replicate_succ_append, List.flatMap_cons, List.flatMap_append, ← ih]
    rfl

/-- Groups around nothing match the empty word. -/
theorem spans_nestedPhrase (n : Nat) (word : List Char) : (nestedPhrase n).Spans word = Eq := by
  induction n with
  | zero => rfl
  | succ n ih =>
    rw [nestedPhrase, Phrase.Spans, Phrase.Spans, Phrase.Spans, Phrase.Spans, ih, eq_comp]

/-- A phrase between the anchors of the text. -/
def Phrase.anchored (p : Phrase .expression) : Phrase .expression :=
  .single (.chain (.chain (.chain .nothing .startOfText) (.group p)) .endOfText)

/-- An anchored phrase occurs in a word where the phrase matches the whole word. -/
theorem Phrase.occurs_anchored_iff (p : Phrase .expression) (word : List Char) :
    p.anchored.Occurs word ↔ p.Spans word 0 word.length := by
  constructor
  · rintro ⟨i, -, j, k, ⟨k', ⟨k'', rfl, rfl, rfl⟩, hspans⟩, rfl, rfl⟩
    exact hspans
  · intro hspans
    exact ⟨0, Nat.zero_le _, word.length, word.length, ⟨0, ⟨0, rfl, rfl, rfl⟩, hspans⟩, rfl, rfl⟩

/-- The reference expression of a pattern is an anchored phrase that matches the words which the
pattern describes. -/
theorem exists_phrase {pattern : String} {words : Language Char}
    (h : Describes pattern words) :
    ∃ p : Phrase .expression, p.anchored.text = anchoredText pattern ∧
      ∀ word, p.Spans word = Between words word := by
  have htext : ∀ p : Phrase .expression, p.spelling = (tokenize pattern).flatMap spell →
      p.anchored.text = anchoredText pattern := by
    intro p hp
    apply String.toList_injective
    rw [anchoredText, ← hp]
    simp only [Phrase.text, Phrase.anchored, Phrase.spelling, String.toList_append,
      String.toList_ofList, List.nil_append]
    simp only [List.cons_append, List.nil_append, List.append_assoc]
    rfl
  cases h with
  | derived d =>
    refine ⟨d.phrase, htext _ ?_, d.spans_phrase⟩
    rw [d.tokenize_pattern]
    exact d.spelling_phrase
  | nested n =>
    refine ⟨nestedPhrase n, htext _ (spelling_nestedPhrase n), fun word => ?_⟩
    rw [spans_nestedPhrase, Between.one_eq]

/-- An engine that goes by the notation finds the reference expression of a pattern in exactly
the words that the pattern describes. -/
theorem Engine.Standard.search_iff {engine : Engine} (hengine : engine.Standard)
    {pattern : String} {words : Language Char} (h : Describes pattern words)
    {search : List Char → Bool} (hsearch : engine.search? (anchoredText pattern) = some search)
    (word : List Char) : search word = true ↔ word ∈ words := by
  obtain ⟨p, htext, hspans⟩ := exists_phrase h
  rw [← htext] at hsearch
  rw [hengine p.anchored search hsearch word, p.occurs_anchored_iff, hspans]
  simp only [Between, Segment.whole_iff, exists_eq_right]

end Reference

end PatternAutomata
