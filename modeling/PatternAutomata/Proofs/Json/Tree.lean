import PatternAutomata.Json.Decode
import PatternAutomata.Json.Value
import PatternAutomata.Proofs.Json.Numeral
import PatternAutomata.Proofs.Json.StringBody

/-!
# Values are read as they were written

Reading the compact text of a value builds the tree of the value and puts it where a value was
awaited, whatever encloses it and whatever follows it. So a reader of typed data gets from the text
what it makes of the tree. Decimals are left out: they are written with the fewest digits, and what
is read back is another decimal of the same value.
-/

namespace PatternAutomata.Json

namespace Lexeme

/-- A text that does not begin with a blank has the unit that begins there for its first. -/
theorem ofText_cons {c : Char} (h : isBlank c = false) (rest : List Char) :
    ofText (c :: rest) = (take c rest).1 :: ofText (take c rest).2 := by
  rw [ofText, if_neg (Bool.eq_false_iff.mp h)]

/-- A sign or a digit is not blank and begins a number. -/
theorem take_numeral {c : Char} (h : c = '-' ∨ c.isDigit = true) (rest : List Char) :
    isBlank c = false ∧ take c rest = takeNumber (c :: rest) := by
  constructor
  · refine Bool.eq_false_iff.mpr fun hblank => ?_
    simp only [isBlank, Bool.or_eq_true, decide_eq_true_eq] at hblank
    rcases hblank with ((rfl | rfl) | rfl) | rfl
    all_goals exact absurd h (by decide)
  · rw [take.eq_def]
    split
    all_goals try exact absurd h (by decide)
    have hsign : (decide (c = '-') || c.isDigit) = true := by
      rwa [Bool.or_eq_true, decide_eq_true_eq]
    rw [if_pos hsign]

end Lexeme

namespace Tree

/-- The tree of a number, which is damaged beyond the range of double precision. -/
def ofNumeral (n : Numeral) : Tree :=
  if n.toDecimal.inRange then .number n else .damaged (.passable .malformed)

/-- The unit of a number is put in place as the tree of the number. -/
theorem takeValue_ofNumeral (outer : List Enclosure) (n : Numeral) :
    takeValue outer (Lexeme.ofNumeral n) = place (ofNumeral n) outer := by
  rw [Lexeme.ofNumeral, ofNumeral]
  split <;> rfl

/-- What is built of a text once `p` has been built of what stands before it. -/
def Progress.after (p : Progress) (text : List Char) : Progress :=
  (Lexeme.ofText text).foldl Progress.step p

/-- The first unit of a text is taken up first. -/
theorem Progress.after_cons {p : Progress} {c : Char} {l : Lexeme} {text rest : List Char}
    (hblank : Lexeme.isBlank c = false) (htake : Lexeme.take c text = (l, rest)) :
    p.after (c :: text) = (p.step l).after rest := by
  rw [after, Lexeme.ofText_cons hblank, htake]
  rfl

/-- Nothing is built of an empty text. -/
theorem Progress.after_nil (p : Progress) : p.after [] = p := by
  rw [after, Lexeme.ofText, List.foldl_nil]

/-- A value may come next and belongs into the given enclosures. -/
inductive Awaits : List Enclosure → Progress → Prop
  | value (outer : List Enclosure) : Awaits outer (.value outer)
  | firstItem (outer : List Enclosure) : Awaits (.array [] :: outer) (.firstItem outer)

/-- A key may come next in an object with the given members. -/
inductive AwaitsKey : Members → List Enclosure → Progress → Prop
  | firstKey (outer : List Enclosure) : AwaitsKey [] outer (.firstKey outer)
  | nextKey (members : Members) (outer : List Enclosure) :
    AwaitsKey members outer (.nextKey members outer)

/-- Where a value may come, a unit is taken up as one unless it ends the array. -/
theorem Awaits.step {outer : List Enclosure} {p : Progress} (h : Awaits outer p) {l : Lexeme}
    (hl : l ≠ .closeArray) : p.step l = takeValue outer l := by
  cases h with
  | value => rfl
  | firstItem outer =>
    cases l with
    | closeArray => exact absurd rfl hl
    | _ => rfl

/-- Where a value may come, the first unit of a text is taken up as one. -/
theorem Awaits.after_cons {outer : List Enclosure} {p : Progress} (h : Awaits outer p) {c : Char}
    (l : Lexeme) {text rest : List Char} (hblank : Lexeme.isBlank c = false)
    (htake : Lexeme.take c text = (l, rest)) (hl : l ≠ .closeArray) :
    p.after (c :: text) = (takeValue outer l).after rest := by
  rw [Progress.after_cons hblank htake, h.step hl]

/-- Where a key may come, a string is a key. -/
theorem AwaitsKey.step_text {members : Members} {outer : List Enclosure} {p : Progress}
    (h : AwaitsKey members outer p) (s : String) :
    p.step (.text s) = .colon members s outer := by
  cases h <;> rfl

end Tree

open PatternAutomata.Json.Tree

namespace Value

/-- A value without decimals. -/
inductive Integral : Value → Prop
  | null : Integral .null
  | bool (b : Bool) : Integral (.bool b)
  | integer (negative : Bool) (magnitude : Nat) : Integral (.number (.integer negative magnitude))
  | text (s : String) : Integral (.text s)
  | array {items : List Value} (h : ∀ v ∈ items, Integral v) : Integral (.array items)
  | object {members : List (String × Value)} (h : ∀ m ∈ members, Integral m.2) :
    Integral (.object members)

mutual

/-- The tree of a value. -/
def tree : Value → Tree
  | .null => .null
  | .bool b => .bool b
  | .number n => .ofNumeral n
  | .text s => .text s
  | .array items => .array (treeItems items) none
  | .object members => .object (treeMembers members) none

/-- The trees of items. -/
def treeItems : List Value → List Tree
  | [] => []
  | v :: rest => tree v :: treeItems rest

/-- The trees of members. -/
def treeMembers : List (String × Value) → Members
  | [] => []
  | (key, v) :: rest => (key, tree v) :: treeMembers rest

end

/-- Where a value may come, the text of this one is read as its tree. -/
def ReadsBack (v : Value) : Prop :=
  ∀ {outer : List Enclosure} {p : Progress} {rest : List Char}, Awaits outer p →
    Numeral.Ends rest → p.after (v.write ++ rest) = (place v.tree outer).after rest

/-- A written string is taken up as one unit. -/
theorem after_writeString (p : Progress) (s : String) (rest : List Char) :
    p.after (writeString s ++ rest) = (p.step (.text s)).after rest := by
  have htake : Lexeme.take '"' (StringBody.write s.toList ++ '"' :: rest) = (.text s, rest) := by
    rw [Lexeme.take, Lexeme.takeText, StringBody.read_write_append]
    simp only [String.ofList_toList]
  rw [writeString, List.cons_append, List.append_assoc]
  exact Progress.after_cons (by decide) htake

/-- A written integer is read back. -/
theorem readsBack_integer (negative : Bool) (magnitude : Nat) :
    ReadsBack (.number (.integer negative magnitude)) := by
  intro outer p rest hp hrest
  obtain ⟨c, cs, hwrite, hc⟩ := Numeral.exists_write_eq_cons negative magnitude
  obtain ⟨hblank, htake⟩ := Lexeme.take_numeral hc (cs ++ rest)
  have hread := Numeral.take_write_append hrest negative magnitude
  rw [hwrite, List.cons_append] at hread
  rw [Lexeme.takeNumber, hread] at htake
  have hne : Lexeme.ofNumeral (.integer negative magnitude) ≠ .closeArray := by
    rw [Lexeme.ofNumeral]
    split <;> nofun
  rw [write, hwrite, List.cons_append, hp.after_cons _ hblank htake hne, takeValue_ofNumeral, tree]

/-- Written items are read into the array that awaits them. -/
theorem after_writeItems {items : List Value} (h : ∀ v ∈ items, v.ReadsBack) (hne : items ≠ [])
    {done : List Tree} {outer : List Enclosure} {p : Progress}
    (hp : Awaits (.array done :: outer) p) (rest : List Char) :
    p.after (writeItems items ++ ']' :: rest) =
      (place (.array (done.reverse ++ treeItems items) none) outer).after rest := by
  induction items generalizing done p with
  | nil => exact absurd rfl hne
  | cons v items ih =>
    obtain ⟨hv, hitems⟩ := List.forall_mem_cons.mp h
    cases items with
    | nil =>
      rw [writeItems, hv hp (Numeral.ends_cons (by decide) rest), Progress.after_cons rfl rfl,
        treeItems, treeItems, ← List.reverse_cons]
      rfl
    | cons w items =>
      rw [writeItems, List.append_assoc, List.cons_append,
        hv hp (Numeral.ends_cons (by decide) _), Progress.after_cons rfl rfl]
      refine (ih hitems (List.cons_ne_nil w items) (.value _)).trans ?_
      rw [treeItems, List.reverse_cons, List.append_assoc]
      rfl

/-- The key of a written member is read, and its value is awaited. -/
theorem after_writeKey {members : Members} {outer : List Enclosure} {p : Progress}
    (hp : AwaitsKey members outer p) (key : String) (rest : List Char) :
    p.after (writeString key ++ ':' :: rest) =
      (Progress.value (.object members key :: outer)).after rest := by
  rw [after_writeString, hp.step_text, Progress.after_cons rfl rfl]
  rfl

/-- Written members are read into the object that awaits them. -/
theorem after_writeMembers {members : List (String × Value)}
    (h : ∀ m ∈ members, m.2.ReadsBack) (hne : members ≠ []) {done : Members}
    {outer : List Enclosure} {p : Progress} (hp : AwaitsKey done outer p) (rest : List Char) :
    p.after (writeMembers members ++ '\x7d' :: rest) =
      (place (.object (done.reverse ++ treeMembers members) none) outer).after rest := by
  induction members generalizing done p with
  | nil => exact absurd rfl hne
  | cons m members ih =>
    obtain ⟨key, v⟩ := m
    obtain ⟨hv, hmembers⟩ := List.forall_mem_cons.mp h
    cases members with
    | nil =>
      rw [writeMembers, List.append_assoc, List.cons_append, after_writeKey hp,
        hv (.value _) (Numeral.ends_cons (by decide) rest), Progress.after_cons rfl rfl,
        treeMembers, treeMembers, ← List.reverse_cons]
      rfl
    | cons m members =>
      rw [writeMembers, List.append_assoc, List.cons_append, List.append_assoc, List.cons_append,
        after_writeKey hp, hv (.value _) (Numeral.ends_cons (by decide) _),
        Progress.after_cons rfl rfl]
      refine (ih hmembers (List.cons_ne_nil m members) (.nextKey _ _)).trans ?_
      rw [treeMembers, List.reverse_cons, List.append_assoc]
      rfl

/-- A value without decimals is read back. -/
theorem Integral.readsBack {v : Value} (h : v.Integral) : v.ReadsBack := by
  intro outer p rest hp hrest
  induction h generalizing outer p rest with
  | null => exact hp.after_cons .null rfl rfl nofun
  | bool b =>
    cases b with
    | true => exact hp.after_cons (.bool true) rfl rfl nofun
    | false => exact hp.after_cons (.bool false) rfl rfl nofun
  | integer negative magnitude => exact readsBack_integer negative magnitude hp hrest
  | text s =>
    have hne : Lexeme.text s ≠ .closeArray := nofun
    rw [write, after_writeString, hp.step hne]
    rfl
  | @array items h ih =>
    rw [write, List.cons_append, List.append_assoc,
      hp.after_cons .openArray rfl rfl nofun]
    cases items with
    | nil => exact Progress.after_cons rfl rfl
    | cons v items =>
      exact after_writeItems ih (List.cons_ne_nil v items) (.firstItem outer) rest
  | @object members h ih =>
    rw [write, List.cons_append, List.append_assoc,
      hp.after_cons .openObject rfl rfl nofun]
    cases members with
    | nil => exact Progress.after_cons rfl rfl
    | cons m members =>
      exact after_writeMembers ih (List.cons_ne_nil m members) (.firstKey outer) rest

end Value

/-- A reader gets from the compact text of a value what it makes of the tree of the value. -/
theorem readText_compact {α : Type} (read : Tree → Except ReadError α) {v : Value}
    (h : v.Integral) : readText read v.compact = read v.tree := by
  have hprogress : Progress.ofLexemes (Lexeme.ofText v.write) = .finished v.tree false := by
    have hread := h.readsBack (.value []) Numeral.ends_nil
    rw [List.append_nil, Progress.after_nil] at hread
    exact hread
  rw [readText, Value.compact, String.toList_ofList, hprogress]
  simp only [Progress.tree, Progress.hasMore, Bool.false_eq_true, if_false, bind_pure]

end PatternAutomata.Json
