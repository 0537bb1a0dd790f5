import Mathlib.Logic.Relation
import PatternAutomata.Proofs.Collection.Lookup
import PatternAutomata.Reference.Regex

/-!
# Positions of matches

An expression relates the positions where a match can begin to those where it can end. The
sets of positions that a search computes are the images of sets under this relation: a
repetition has been followed far enough when a round finds nothing new, and every other
round takes one of the positions that are left.
-/

namespace PatternAutomata.Regex

open Relation

/-- A match in the word can begin at the first position and end at the second. -/
def Spans (word : List Char) : Regex → Nat → Nat → Prop
  | .empty => Eq
  | .literal c => fun i j => word[i]? = some c ∧ j = i + 1
  | .startOfText => fun i j => i = 0 ∧ i = j
  | .endOfText => fun i j => i = word.length ∧ i = j
  | .group inner => inner.Spans word
  | .star inner => ReflTransGen (inner.Spans word)
  | .seq left right => Comp (left.Spans word) (right.Spans word)
  | .alt left right => fun i j => left.Spans word i j ∨ right.Spans word i j

/-- What is related to positions in a range by steps inside the range is in it. -/
theorem lt_of_reflTransGen {R : Nat → Nat → Prop} {n p q : Nat}
    (hR : ∀ p q, p < n → R p q → q < n) (hp : p < n) (h : ReflTransGen R p q) : q < n := by
  induction h with
  | refl => exact hp
  | tail _ hr ih => exact hR _ _ ih hr

/-- A match that begins in a word ends in it. -/
theorem Spans.lt {word : List Char} {r : Regex} {i j : Nat} (hi : i < word.length + 1)
    (h : r.Spans word i j) : j < word.length + 1 := by
  induction r generalizing i j with
  | empty => exact h ▸ hi
  | literal c =>
    obtain ⟨hc, rfl⟩ := h
    have hlt := (List.getElem?_eq_some_iff.mp hc).1
    omega
  | startOfText | endOfText => exact h.2 ▸ hi
  | group inner ih => exact ih hi h
  | star inner ih => exact lt_of_reflTransGen (fun _ _ hp hr => ih hp hr) hi h
  | seq left right ihl ihr =>
    obtain ⟨k, hl, hr⟩ := h
    exact ihr (ihl hi hl) hr
  | alt left right ihl ihr =>
    rcases h with hl | hr
    · exact ihl hi hl
    · exact ihr hi hr

namespace Text

/-- A noted position is found under its character. -/
theorem mem_note {occurrences : SortedMap Char NatSet} {c d : Char} {p q : Nat} :
    q ∈ ((note occurrences d p).get? c).getD ∅ ↔
      (d = c ∧ p = q) ∨ q ∈ (occurrences.get? c).getD ∅ := by
  rw [note, SortedMap.get?_insert]
  by_cases hd : d = c
  · subst hd
    rw [if_pos rfl, Option.getD_some, NatSet.mem_insert, eq_comm (a := q)]
    simp only [true_and]
  · rw [if_neg hd]
    simp only [hd, false_and, false_or]

/-- The noted positions are those that were given. -/
theorem mem_foldl_note {entries : List (Char × Nat)} {occurrences : SortedMap Char NatSet}
    {c : Char} {q : Nat} :
    q ∈ ((entries.foldl (fun found (d, p) => note found d p) occurrences).get? c).getD ∅ ↔
      (c, q) ∈ entries ∨ q ∈ (occurrences.get? c).getD ∅ := by
  induction entries generalizing occurrences with
  | nil => simp only [List.foldl_nil, List.not_mem_nil, false_or]
  | cons entry entries ih =>
    rw [List.foldl_cons, ih, mem_note, List.mem_cons, or_left_comm, or_assoc, Prod.ext_iff]
    simp only [eq_comm]

/-- The positions of a character in a text are those at which it stands. -/
theorem mem_positionsOf {word : List Char} {c : Char} {q : Nat} :
    q ∈ (Text.ofList word).positionsOf c ↔ word[q]? = some c := by
  have hnone : ¬ q ∈ ((∅ : SortedMap Char NatSet).get? c).getD ∅ := NatSet.not_mem_empty q
  rw [positionsOf, ofList, occurrencesOf, mem_foldl_note, or_iff_left hnone,
    List.mem_zipIdx_iff_getElem?]

end Text

/-- Positions below a bound that have been found, and among them those whose successors still
have to be looked for. -/
structure Explored (R : Nat → Nat → Prop) (n : Nat) (seen frontier : NatSet) : Prop where
  lt : ∀ p, p ∈ seen → p < n
  subset : ∀ p, p ∈ frontier → p ∈ seen
  done : ∀ p q, p ∈ seen → p ∉ frontier → R p q → q ∈ seen

/-- Where nothing is left to look for, all that can be reached has been found. -/
theorem Explored.mem_iff {R : Nat → Nat → Prop} {n : Nat} {seen frontier : NatSet}
    (h : Explored R n seen frontier) (hfrontier : ∀ p q, p ∈ frontier → R p q → q ∈ seen)
    (q : Nat) : q ∈ seen ↔ ∃ p, p ∈ seen ∧ ReflTransGen R p q := by
  constructor
  · intro hq
    exact ⟨q, hq, .refl⟩
  · rintro ⟨p, hp, hreach⟩
    induction hreach with
    | refl => exact hp
    | @tail r s _ hr ih =>
      by_cases hwaits : r ∈ frontier
      · exact hfrontier r s hwaits hr
      · exact h.done r s ih hwaits hr

/-- A round that finds something goes on from what it finds. -/
theorem Explored.union {R : Nat → Nat → Prop} {n : Nat} {seen frontier fresh : NatSet}
    (h : Explored R n seen frontier) (hR : ∀ p q, p < n → R p q → q < n)
    (hfresh : ∀ q, q ∈ fresh ↔ (∃ p, p ∈ frontier ∧ R p q) ∧ q ∉ seen) :
    Explored R n (seen.union fresh) fresh := by
  constructor
  · intro q hq
    rcases NatSet.mem_union.mp hq with hq | hq
    · exact h.lt q hq
    · obtain ⟨⟨p, hp, hr⟩, -⟩ := (hfresh q).mp hq
      exact hR p q (h.lt p (h.subset p hp)) hr
  · intro q hq
    exact NatSet.mem_union.mpr (Or.inr hq)
  · intro p q hp hfound hr
    have hseen : p ∈ seen := (NatSet.mem_union.mp hp).resolve_right hfound
    rw [NatSet.mem_union]
    by_cases hq : q ∈ seen
    · exact Or.inl hq
    · by_cases hwaits : p ∈ frontier
      · exact Or.inr ((hfresh q).mpr ⟨⟨p, hwaits, hr⟩, hq⟩)
      · exact absurd (h.done p q hseen hwaits hr) hq

/-- What is found in one round can be reached already. -/
theorem exists_reached_union {R : Nat → Nat → Prop} {n : Nat} {seen frontier fresh : NatSet}
    (h : Explored R n seen frontier)
    (hfresh : ∀ q, q ∈ fresh ↔ (∃ p, p ∈ frontier ∧ R p q) ∧ q ∉ seen) (q : Nat) :
    (∃ p, p ∈ seen.union fresh ∧ ReflTransGen R p q) ↔ ∃ p, p ∈ seen ∧ ReflTransGen R p q := by
  constructor
  · rintro ⟨p, hp, hreach⟩
    rcases NatSet.mem_union.mp hp with hp | hp
    · exact ⟨p, hp, hreach⟩
    · obtain ⟨⟨o, ho, hr⟩, -⟩ := (hfresh p).mp hp
      exact ⟨o, h.subset o ho, hreach.head hr⟩
  · rintro ⟨p, hp, hreach⟩
    exact ⟨p, NatSet.mem_union.mpr (Or.inl hp), hreach⟩

/-- With rounds for all positions that are left, saturation finds all that can be reached. -/
theorem mem_saturate {R : Nat → Nat → Prop} {n : Nat} {step : NatSet → NatSet}
    (hstep : ∀ set, (∀ p, p ∈ set → p < n) → ∀ q, q ∈ step set ↔ ∃ p, p ∈ set ∧ R p q)
    (hR : ∀ p q, p < n → R p q → q < n) {rounds : Nat} {seen frontier : NatSet}
    (h : Explored R n seen frontier) (hrounds : seen.absentBelow n ≤ rounds) (q : Nat) :
    q ∈ saturate step rounds seen frontier ↔ ∃ p, p ∈ seen ∧ ReflTransGen R p q := by
  induction rounds generalizing seen frontier with
  | zero =>
    -- no position is left that could be found anew
    have hall : ∀ p < n, p ∈ seen := by
      intro p hp
      by_contra hno
      have hcount := List.countP_eq_zero.mp (Nat.le_zero.mp hrounds) p (List.mem_range.mpr hp)
      exact hcount (decide_eq_true hno)
    rw [saturate]
    refine h.mem_iff (fun p q hp hr => hall q ?_) q
    exact hR p q (h.lt p (h.subset p hp)) hr
  | succ rounds ih =>
    obtain ⟨fresh, hdef⟩ : ∃ fresh, fresh = (step frontier).diff seen := ⟨_, rfl⟩
    have hfresh : ∀ q, q ∈ fresh ↔ (∃ p, p ∈ frontier ∧ R p q) ∧ q ∉ seen := by
      intro q
      rw [hdef, NatSet.mem_diff, hstep frontier fun p hp => h.lt p (h.subset p hp)]
    simp only [saturate, ← hdef]
    by_cases hempty : fresh = ∅
    · rw [if_pos (NatSet.isEmpty_iff.mpr hempty)]
      refine h.mem_iff (fun p q hp hr => ?_) q
      by_contra hno
      have hq := (hfresh q).mpr ⟨⟨p, hp, hr⟩, hno⟩
      rw [hempty] at hq
      exact NatSet.not_mem_empty q hq
    · rw [if_neg (fun he => hempty (NatSet.isEmpty_iff.mp he))]
      obtain ⟨new, hnew⟩ := NatSet.exists_mem_of_ne_empty hempty
      have hunion := h.union hR hfresh
      have hmem := hunion.subset new hnew
      have hfewer : (seen.union fresh).absentBelow n < seen.absentBelow n :=
        NatSet.absentBelow_lt_of_subset (fun p hp => NatSet.mem_union.mpr (Or.inl hp))
          (hunion.lt new hmem) hmem ((hfresh new).mp hnew).2
      rw [← exists_reached_union h hfresh q]
      exact ih hunion (by omega)

/-- The members of a set that are one given number. -/
theorem mem_inter_singleton {set : NatSet} {n q : Nat} :
    q ∈ set.inter (.ofList [n]) ↔ ∃ p, p ∈ set ∧ p = n ∧ p = q := by
  rw [NatSet.mem_inter, NatSet.mem_ofList, List.mem_singleton]
  constructor
  · rintro ⟨hq, rfl⟩
    exact ⟨q, hq, rfl, rfl⟩
  · rintro ⟨p, hp, rfl, rfl⟩
    exact ⟨hp, rfl⟩

/-- The computed ends of matches from a set of positions in the word are the ends of matches. -/
theorem mem_ends {word : List Char} (r : Regex) {starts : NatSet}
    (hstarts : ∀ p, p ∈ starts → p < word.length + 1) (q : Nat) :
    q ∈ r.ends (.ofList word) starts ↔ ∃ p, p ∈ starts ∧ r.Spans word p q := by
  induction r generalizing starts q with
  | empty => simp only [ends, Spans, exists_eq_right]
  | literal c =>
    simp only [ends, Spans, NatSet.mem_shift, NatSet.mem_inter, Text.mem_positionsOf, and_assoc]
  | startOfText | endOfText => exact mem_inter_singleton
  | group inner ih => exact ih hstarts q
  | star inner ih =>
    have hexplored : Explored (inner.Spans word) (word.length + 1) starts starts :=
      ⟨hstarts, fun p hp => hp, fun p q hp hno => absurd hp hno⟩
    have hstep : ∀ set : NatSet, (∀ p, p ∈ set → p < word.length + 1) → ∀ q,
        q ∈ inner.ends (.ofList word) set ↔ ∃ p, p ∈ set ∧ inner.Spans word p q :=
      fun set hset q => ih hset q
    exact mem_saturate hstep (fun _ _ hp hr => hr.lt hp) hexplored
      (starts.absentBelow_le (word.length + 1)) q
  | seq left right ihl ihr =>
    have hmiddle : ∀ p, p ∈ left.ends (.ofList word) starts → p < word.length + 1 := by
      intro p hp
      obtain ⟨o, ho, hspans⟩ := (ihl hstarts p).mp hp
      exact hspans.lt (hstarts o ho)
    rw [ends, ihr hmiddle]
    constructor
    · rintro ⟨k, hk, hright⟩
      obtain ⟨p, hp, hleft⟩ := (ihl hstarts k).mp hk
      exact ⟨p, hp, k, hleft, hright⟩
    · rintro ⟨p, hp, k, hleft, hright⟩
      exact ⟨k, (ihl hstarts k).mpr ⟨p, hp, hleft⟩, hright⟩
  | alt left right ihl ihr =>
    simp only [ends, Spans, NatSet.mem_union, ihl hstarts, ihr hstarts, and_or_left, exists_or]

/-- A search finds a match exactly when some match begins in the word. -/
theorem matchesIn_iff (r : Regex) (word : List Char) :
    r.matchesIn word = true ↔ ∃ i ≤ word.length, ∃ j, r.Spans word i j := by
  have hbelow : ∀ p, p ∈ NatSet.below (word.length + 1) → p < word.length + 1 :=
    fun p hp => NatSet.mem_below.mp hp
  have hmem := r.mem_ends hbelow
  rw [matchesIn, Bool.not_eq_true', ← Bool.not_eq_true, NatSet.isEmpty_iff]
  constructor
  · intro hsome
    obtain ⟨q, hq⟩ := NatSet.exists_mem_of_ne_empty hsome
    obtain ⟨p, hp, hspans⟩ := (hmem q).mp hq
    exact ⟨p, Nat.le_of_lt_succ (hbelow p hp), q, hspans⟩
  · rintro ⟨i, hi, j, hspans⟩ hempty
    have hj := (hmem j).mpr ⟨i, NatSet.mem_below.mpr (Nat.lt_succ_of_le hi), hspans⟩
    rw [hempty] at hj
    exact NatSet.not_mem_empty j hj

end PatternAutomata.Regex
