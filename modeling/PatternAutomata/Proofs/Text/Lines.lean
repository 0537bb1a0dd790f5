import Mathlib.Data.List.Forall2
import PatternAutomata.Text.Lines

/-!
# A text is made up of its lines

How lines make up a text is said without cutting it: a newline ends a line, alone or with a
carriage return before it, and the last line may lack the end if it is not empty. Each text is made
up of the lines that it is cut into, and of no others. A word without a newline that does not end
in a carriage return stands on one line, whichever end the line has, so a text that lists such
words is made up of them: neither an empty word nor a carriage return inside a word adds or removes
a line.
-/

namespace PatternAutomata.Lines

/-- Lines make up a text. -/
inductive MakeUp : List (List Char) → List Char → Prop
  | nil : MakeUp [] []
  | last {line : List Char} (hne : line ≠ []) (hline : '\n' ∉ line) : MakeUp [line] line
  | newline {line text : List Char} {lines : List (List Char)} (hline : '\n' ∉ line)
      (hreturn : line.getLast? ≠ some '\r') (hrest : MakeUp lines text) :
      MakeUp (line :: lines) (line ++ '\n' :: text)
  | returnNewline {line text : List Char} {lines : List (List Char)} (hline : '\n' ∉ line)
      (hrest : MakeUp lines text) : MakeUp (line :: lines) (line ++ '\r' :: '\n' :: text)

/-- A text of no lines is empty. -/
theorem MakeUp.eq_nil {text : List Char} (h : MakeUp [] text) : text = [] := by
  cases h
  rfl

/-- A character joins the line that follows it, unless it is a newline or the carriage return of
one. -/
theorem MakeUp.cons {c : Char} {line text : List Char} {lines : List (List Char)}
    (h : MakeUp (line :: lines) text) (hc : c ≠ '\n')
    (hreturn : c = '\r' → ∀ rest, text = '\n' :: rest → False) :
    MakeUp ((c :: line) :: lines) (c :: text) := by
  have hmem : '\n' ∉ line → '\n' ∉ c :: line := fun hline hmem =>
    (List.mem_cons.mp hmem).elim (fun he => hc he.symm) hline
  cases h with
  | last hne hline => exact .last (List.cons_ne_nil c line) (hmem hline)
  | @newline _ rest _ hline hlast hrest =>
    refine .newline (hmem hline) ?_ hrest
    cases line with
    | nil =>
      rw [List.getLast?_singleton, ne_eq, Option.some.injEq]
      exact fun he => hreturn he rest rfl
    | cons d line => rwa [List.getLast?_cons_cons]
  | returnNewline hline hrest => exact .returnNewline (hmem hline) hrest

/-- The lines that a text is cut into make it up. -/
theorem makeUp_cut (text : List Char) : MakeUp (cut text) text := by
  fun_induction cut text with
  | case1 => exact .nil
  | case2 rest ih => exact .newline List.not_mem_nil nofun ih
  | case3 rest ih => exact .returnNewline List.not_mem_nil ih
  | case4 c rest hnewline hreturn hcut ih =>
    rw [hcut] at ih
    cases ih.eq_nil
    refine .last (List.cons_ne_nil c []) fun hmem => ?_
    exact hnewline (List.mem_singleton.mp hmem).symm
  | case5 c rest hnewline hreturn line lines hcut ih =>
    rw [hcut] at ih
    exact ih.cons hnewline fun hc next hnext => hreturn next hc hnext

/-- A line goes up to the next end of a line. -/
theorem cut_append {line rest : List Char} {lines : List (List Char)} (hline : '\n' ∉ line)
    (hreturn : line.getLast? = some '\r' → ∀ next, rest = '\n' :: next → False)
    (hrest : cut rest = [] :: lines) : cut (line ++ rest) = line :: lines := by
  induction line with
  | nil => exact hrest
  | cons c line ih =>
    have hc : c ≠ '\n' := fun he => hline (he ▸ List.mem_cons_self)
    have htail : '\n' ∉ line := fun hmem => hline (List.mem_cons_of_mem _ hmem)
    have hcut : cut (line ++ rest) = line :: lines := by
      refine ih htail fun hlast => hreturn ?_
      cases line with
      | nil => cases hlast
      | cons d line => exact List.getLast?_cons_cons.trans hlast
    -- a carriage return is followed by another character of the line or by what is no newline
    have hnext : ∀ next, c = '\r' → line ++ rest = '\n' :: next → False := by
      rintro next rfl he
      cases line with
      | nil => exact hreturn rfl next he
      | cons d line =>
        obtain ⟨rfl, -⟩ := List.cons.inj he
        exact htail List.mem_cons_self
    rw [List.cons_append, cut.eq_4 c _ hc hnext, hcut]

/-- A line that is all of a text is its line, unless it is empty. -/
theorem cut_eq_singleton {line : List Char} (hne : line ≠ []) (hline : '\n' ∉ line) :
    cut line = [line] := by
  induction line with
  | nil => exact absurd rfl hne
  | cons c line ih =>
    have hc : c ≠ '\n' := fun he => hline (he ▸ List.mem_cons_self)
    have htail : '\n' ∉ line := fun hmem => hline (List.mem_cons_of_mem _ hmem)
    have hnext : ∀ next, c = '\r' → line = '\n' :: next → False := by
      rintro next - rfl
      exact htail List.mem_cons_self
    rw [cut.eq_4 c _ hc hnext]
    cases line with
    | nil => rfl
    | cons d line => rw [ih (List.cons_ne_nil d line) htail]

/-- A text is cut into the lines that make it up. -/
theorem MakeUp.cut_eq {lines : List (List Char)} {text : List Char} (h : MakeUp lines text) :
    cut text = lines := by
  induction h with
  | nil => rfl
  | last hne hline => exact cut_eq_singleton hne hline
  | @newline line text lines hline hreturn _ ih =>
    refine cut_append hline (fun hlast => absurd hlast hreturn) ?_
    rw [cut, ih]
  | @returnNewline line text lines hline _ ih =>
    refine cut_append hline (fun _ next he => by cases he) ?_
    rw [cut, ih]

/-- Lines make up a text exactly when they are the lines that it is cut into. -/
theorem makeUp_iff {lines : List String} {text : String} :
    MakeUp (lines.map String.toList) text.toList ↔ ofText text = lines := by
  have hlines : (lines.map String.toList).map String.ofList = lines := by
    rw [List.map_map]
    exact (List.map_congr_left fun line _ => String.ofList_toList).trans (List.map_id lines)
  constructor
  · intro h
    rw [ofText, h.cut_eq, hlines]
  · rintro rfl
    have hcut : ((cut text.toList).map String.ofList).map String.toList = cut text.toList := by
      rw [List.map_map]
      exact (List.map_congr_left fun line _ => String.toList_ofList).trans (List.map_id _)
    rw [ofText, hcut]
    exact makeUp_cut text.toList

/-- A word that fits on a line: it has no newline, and no carriage return at its end. -/
structure Fits (word : List Char) : Prop where
  newline_notMem : '\n' ∉ word
  getLast?_ne : word.getLast? ≠ some '\r'

/-- The two ways to end a line. -/
def ends : List String := ["\n", "\r\n"]

/-- A text that lists words, each followed by the end of a line, which the last one may lack if
it is not empty. -/
inductive Written : List String → String → Prop
  | nil : Written [] ""
  | last {word : String} (hne : word ≠ "") : Written [word] word
  | cons (word : String) {ending : String} {words : List String} {text : String}
      (hending : ending ∈ ends) (hrest : Written words text) :
      Written (word :: words) (word ++ ending ++ text)

/-- Words that fit on lines make up the text that lists them. -/
theorem Written.makeUp {words : List String} {text : String} (h : Written words text)
    (hfits : ∀ word ∈ words, Fits word.toList) :
    MakeUp (words.map String.toList) text.toList := by
  induction h with
  | nil => exact .nil
  | @last word hne =>
    have hnil : word.toList ≠ [] := fun he => hne (String.toList_eq_nil_iff.mp he)
    exact .last hnil (hfits word List.mem_cons_self).newline_notMem
  | @cons word ending words text hending hrest ih =>
    obtain ⟨hword, hwords⟩ := List.forall_mem_cons.mp hfits
    rw [String.toList_append, String.toList_append, List.append_assoc, List.map_cons]
    simp only [ends, List.mem_cons, List.not_mem_nil, or_false] at hending
    rcases hending with rfl | rfl
    · exact .newline hword.newline_notMem hword.getLast?_ne (ih hwords)
    · exact .returnNewline hword.newline_notMem (ih hwords)

/-- A line is a word with carriage returns at its end. -/
def Trimmed (word line : String) : Prop :=
  word.toList.getLast? ≠ some '\r' ∧
    ∃ n, line.toList = word.toList ++ List.replicate n '\r'

/-- What is left of a line without the carriage returns at its end is its word. -/
theorem trimmed_trimReturns (line : String) : Trimmed (trimReturns line) line := by
  let returns := line.toList.reverse.takeWhile (· = '\r')
  have hreturns : returns = List.replicate returns.length '\r' := by
    refine List.eq_replicate_of_mem fun c hc => ?_
    exact of_decide_eq_true (List.all_eq_true.mp List.all_takeWhile c hc)
  refine ⟨?_, returns.length, ?_⟩
  · rw [trimReturns, String.toList_ofList, List.getLast?_reverse]
    intro hhead
    have hnot := List.head?_dropWhile_not (fun c => decide (c = '\r')) line.toList.reverse
    rw [hhead] at hnot
    cases hnot
  · rw [trimReturns, String.toList_ofList, ← List.reverse_replicate, ← hreturns,
      ← List.reverse_append, List.takeWhile_append_dropWhile, List.reverse_reverse]

/-- The word of a line is what is left of it without the carriage returns at its end. -/
theorem Trimmed.trimReturns_eq {word line : String} (h : Trimmed word line) :
    trimReturns line = word := by
  obtain ⟨hlast, n, hline⟩ := h
  have hreturns : ∀ c ∈ List.replicate n '\r', decide (c = '\r') = true := fun c hc =>
    decide_eq_true (List.eq_of_mem_replicate hc)
  have hword : word.toList.reverse.dropWhile (· = '\r') = word.toList.reverse := by
    rw [← List.head?_reverse] at hlast
    cases hrev : word.toList.reverse with
    | nil => rfl
    | cons c chars =>
      rw [hrev, List.head?_cons, ne_eq, Option.some.injEq] at hlast
      exact List.dropWhile_cons_of_neg (by rwa [decide_eq_true_eq])
  rw [trimReturns, hline, List.reverse_append, List.reverse_replicate,
    List.dropWhile_append_of_pos hreturns, hword, List.reverse_reverse, String.ofList_toList]

/-- The words of lines are what is left of them without the carriage returns at their ends. -/
theorem forall₂_trimmed_iff {words lines : List String} :
    List.Forall₂ Trimmed words lines ↔ lines.map trimReturns = words := by
  constructor
  · intro h
    induction h with
    | nil => rfl
    | cons hword _ ih => rw [List.map_cons, hword.trimReturns_eq, ih]
  · rintro rfl
    rw [List.forall₂_map_left_iff]
    exact List.forall₂_same.mpr fun line _ => trimmed_trimReturns line

end PatternAutomata.Lines
