import PatternAutomata.Benchmark.Run
import PatternAutomata.Proofs.Reference.Translation
import PatternAutomata.Proofs.Text.Lines

/-!
# Recognizers agree with the reference

Every strategy decides the language that a pattern describes, and an engine that goes by the
common notation searches for the same language. So all scores of a case count the words of its
list that are in the language, and its result is consistent.
-/

namespace PatternAutomata

open Classical in
/-- How many places of a list hold a word of the language. -/
noncomputable def hits (language : Language Char) (words : List String) : Nat :=
  words.countP fun word => word.toList ∈ language

namespace Benchmark

/-- The numbers of a result are those of a list of words and a language: each of the three
strategies and the reference count the words that belong to the language. -/
structure Result.Counts {τ : Type} (result : Result τ) (words : List String)
    (language : Language Char) : Prop where
  numWords : result.numWords = words.length
  strategies : result.strategies.map Score.strategy = ["dfs", "multi-state", "dfa"]
  numMatches : ∀ score ∈ result.strategies, score.numMatches = hits language words
  reference : result.reference.numMatches = hits language words
  isConsistent : result.isConsistent = true

/-- The words of a case when a file may be read in a state: those that it lists, and after them
the lines that make up the text of its file if it names one. -/
inductive Case.Lists {σ : Type} (read : FileReader (StateM σ)) (s : σ) (case : Case) :
    List String → Prop
  | listed (h : case.filename = none) : Lists read s case case.words
  | file {path text : String} {lines : List String} (h : case.filename = some path)
      (hread : ((read path).run s).1 = .ok text.toUTF8)
      (hlines : Lines.MakeUp (lines.map String.toList) text.toList) :
      Lists read s case (case.words ++ lines)

namespace Case

variable {σ : Type} {read : FileReader (StateM σ)} {s : σ} {case : Case}

/-- What an action answers after another one. -/
theorem fst_run_bind {α β : Type} (action : StateM σ α) (next : α → StateM σ β) (s : σ) :
    ((action >>= next).run s).1 = ((next (action.run s).1).run (action.run s).2).1 := rfl

/-- The words that are loaded are those of the case. -/
theorem lists_of_loadWords {words : List String}
    (h : ((case.loadWords read).run s).1 = .ok words) : case.Lists read s words := by
  rw [loadWords] at h
  cases hname : case.filename with
  | none =>
    rw [hname] at h
    cases h
    exact .listed hname
  | some path =>
    simp only [hname] at h
    rw [fst_run_bind, readFile, fst_run_bind] at h
    cases hread : ((read path).run s).1 with
    | error e =>
      rw [hread] at h
      cases h
    | ok bytes =>
      rw [hread] at h
      cases htext : decodeText bytes with
      | error e =>
        simp only [htext] at h
        cases h
      | ok text =>
        simp only [htext] at h
        cases h
        rw [eq_toUTF8_of_decodeText htext] at hread
        exact .file hname hread (Lines.makeUp_iff.mpr rfl)

/-- The words of a case with a file are those that it lists and the lines of the file. -/
theorem loadWords_of_file {path text : String} (hname : case.filename = some path)
    (hread : ((read path).run s).1 = .ok text.toUTF8) :
    ((case.loadWords read).run s).1 = .ok (case.words ++ Lines.ofText text) := by
  simp only [loadWords, hname]
  rw [fst_run_bind, readFile, fst_run_bind, hread]
  simp only [decodeText_toUTF8]
  rfl

/-- What a run answers is measured on the words that are loaded. -/
theorem runWith_of_loadWords {words : List String}
    (h : ((case.loadWords read).run s).1 = .ok words) (engine : Reference.Engine) :
    ((case.runWith engine read).run s).1 = case.measure engine words := by
  rw [runWith, fst_run_bind, h]
  rfl

/-- A case that has a result has words, and the result is what is measured on them. -/
theorem exists_measure_of_runWith {engine : Reference.Engine}
    {result : Result (Option Delays)} (h : ((case.runWith engine read).run s).1 = .ok result) :
    ∃ words, case.Lists read s words ∧ case.measure engine words = .ok result := by
  cases hwords : ((case.loadWords read).run s).1 with
  | error e =>
    rw [runWith, fst_run_bind, hwords] at h
    cases h
  | ok words =>
    rw [runWith_of_loadWords hwords] at h
    exact ⟨words, lists_of_loadWords hwords, h⟩

/-- A strategy counts the words of the language that the matcher decides. -/
theorem scoreOf_eq {m : Matcher} {language : Language Char} (h : m.Decides language)
    (words : List String) (strategy : Strategy) :
    scoreOf m words strategy =
      .ok ⟨strategy.name, hits language words, knownDelays words⟩ := by
  have hfilter := filterM_eq_ok (fun word : String => h.matchesWith_eq strategy word.toList) words
  rw [scoreOf, hfilter, hits, List.countP_eq_length_filter]
  rfl

/-- The words that a search counts are those of the language that it searches for. -/
theorem numMatches_referenceScore {search : List Char → Bool} {language : Language Char}
    (h : ∀ word, search word = true ↔ word ∈ language) (words : List String) :
    (referenceScore search words).numMatches = hits language words := by
  classical
  rw [referenceScore, hits]
  apply List.countP_congr
  intro word _
  exact (h word.toList).trans decide_eq_true_iff.symm

/-- What is measured of a case counts the words of its language. -/
theorem exists_measure {engine : Reference.Engine} (hengine : engine.Standard)
    {language : Language Char} (h : Describes case.regex language) {search : List Char → Bool}
    (hsearch : engine.search? (Reference.anchoredText case.regex) = some search)
    (words : List String) :
    ∃ result, case.measure engine words = .ok result ∧ result.Counts words language := by
  obtain ⟨m, hm, hdecides⟩ := h.exists_compile
  have hreference := numMatches_referenceScore (hengine.search_iff h hsearch) words
  rw [measure, hm, hsearch]
  simp only [Strategy.all, List.mapM_cons, List.mapM_nil, scoreOf_eq hdecides, Except.mapError,
    bind, Except.bind, pure, Except.pure]
  refine ⟨_, rfl, rfl, rfl, ?_, hreference, ?_⟩
  · intro score hscore
    simp only [List.mem_cons, List.not_mem_nil, or_false] at hscore
    rcases hscore with rfl | rfl | rfl <;> rfl
  · simp only [Result.isConsistent, List.all_cons, List.all_nil, hreference, decide_true,
      Bool.and_self]

end Case

/-- A result of a case, by an engine that goes by the notation, counts the words of its language. -/
theorem Case.counts_of_runWith {engine : Reference.Engine} (hengine : engine.Standard) {σ : Type}
    {read : FileReader (StateM σ)} {s : σ} {case : Case} {result : Result (Option Delays)}
    (h : ((case.runWith engine read).run s).1 = .ok result) :
    ∃ words language, case.Lists read s words ∧ Describes case.regex language ∧
      result.Counts words language := by
  obtain ⟨words, hwords, hmeasure⟩ := exists_measure_of_runWith h
  obtain ⟨m, hm, hscores⟩ := exists_of_bind_eq_ok hmeasure
  obtain ⟨language, hlanguage⟩ := exists_describes (eq_ok_of_mapError hm)
  cases hsearch : engine.search? (Reference.anchoredText case.regex) with
  | none =>
    rw [hsearch] at hscores
    cases hscores
  | some search =>
    obtain ⟨result', hresult', hcounts⟩ := exists_measure hengine hlanguage hsearch words
    have he : result' = result := Except.ok.inj (hresult'.symm.trans hmeasure)
    exact ⟨words, language, hwords, hlanguage, he ▸ hcounts⟩

/-- An engine that goes by the common notation matches the reference expression of a compiled
pattern in the words that the matcher of the pattern matches. So the result of every case is
consistent: its scores count the words of the case that belong to the language of its pattern. -/
theorem standard_engine_consistent (engine : Reference.Engine) (hengine : engine.Standard) :
    (∀ pattern m search, compile pattern = .ok m →
      engine.search? (Reference.anchoredText pattern) = some search →
      ∀ word, m.matchesWord word = .ok (search word)) ∧
    ∀ (σ : Type) (read : FileReader (StateM σ)) (s : σ) (case : Case)
      (result : Result (Option Delays)), ((case.runWith engine read).run s).1 = .ok result →
      ∃ words language, case.Lists read s words ∧ Describes case.regex language ∧
        result.Counts words language := by
  refine ⟨?_, fun _ _ _ _ _ h => Case.counts_of_runWith hengine h⟩
  intro pattern m search hm hsearch word
  obtain ⟨language, hlanguage⟩ := exists_describes hm
  have hsearches := hengine.search_iff hlanguage hsearch word
  obtain ⟨b, -, hb, hiff⟩ := hlanguage.decides hm word
  rw [hb, Except.ok.injEq, Bool.eq_iff_iff, hiff, hsearches]

/-- A case with words in a list and in a file, whose pattern has a literal that the notation
reserves. -/
def escapedCase : Case where
  name := "escaped"
  comment := ""
  regex := "a.b|c"
  words := ["a.b", "axb"]
  filename := some "words.txt"
  repetitions := none

/-- The text of the file: lines that end in both ways, an empty one among them, and a carriage
return inside the last one. -/
def escapedText : String := "c\r\n\na.b\nc\rd"

/-- A reader that finds one text under every path. -/
def readerOf (text : String) : FileReader (StateM Unit) := fun _ => pure (.ok text.toUTF8)

/-- The words of the case, wherever they stand. -/
theorem words_of_lists_escapedCase {words : List String}
    (h : escapedCase.Lists (readerOf escapedText) () words) :
    words = ["a.b", "axb", "c", "", "a.b", "c\rd"] := by
  cases h with
  | listed h => cases h
  | @file path text lines h hread hlines =>
    have htext : escapedText.toUTF8 = text.toUTF8 := Except.ok.inj hread
    have he : escapedText = text := String.toByteArray_inj.mp htext
    subst he
    rw [← Lines.makeUp_iff.mp hlines]
    rfl

/-- The results of a case with a reserved literal and a file of words, by the engine of
positions. -/
theorem escapedCase_consistent :
    Reference.Engine.positional.Standard ∧
    ∃ m search result, compile escapedCase.regex = .ok m ∧
      Reference.Engine.positional.search? (Reference.anchoredText escapedCase.regex) =
        some search ∧
      (∀ word, m.matchesWord word = .ok (search word)) ∧
      ((escapedCase.runWith .positional (readerOf escapedText)).run ()).1 = .ok result ∧
      ∃ language, Describes escapedCase.regex language ∧
        result.Counts ["a.b", "axb", "c", "", "a.b", "c\rd"] language := by
  have hstandard := Reference.standard_positional
  let left : Derivation .term :=
    .concat (.concat (.ofFactor (.literal 'a' (by decide))) (.literal '.' (by decide)))
      (.literal 'b' (by decide))
  let d : Derivation .expression := .union (.ofTerm left) (.ofFactor (.literal 'c' (by decide)))
  have hdescribes : Describes escapedCase.regex d.language := .derived d
  obtain ⟨m, hm, -⟩ := hdescribes.exists_compile
  have hread : (Reference.Engine.positional.search?
      (Reference.anchoredText escapedCase.regex)).isSome = true := by decide +kernel
  obtain ⟨search, hsearch⟩ := Option.isSome_iff_exists.mp hread
  have hload : ((escapedCase.loadWords (readerOf escapedText)).run ()).1 =
      .ok (escapedCase.words ++ Lines.ofText escapedText) := Case.loadWords_of_file rfl rfl
  obtain ⟨result, hresult, -⟩ := Case.exists_measure hstandard hdescribes hsearch
    (escapedCase.words ++ Lines.ofText escapedText)
  rw [← Case.runWith_of_loadWords hload] at hresult
  have hconsistent := standard_engine_consistent .positional hstandard
  obtain ⟨words, language, hwords, hlanguage, hcounts⟩ :=
    hconsistent.2 Unit (readerOf escapedText) () escapedCase result hresult
  rw [words_of_lists_escapedCase hwords] at hcounts
  exact ⟨hstandard, m, search, result, hm, hsearch, hconsistent.1 _ _ _ hm hsearch, hresult,
    language, hlanguage, hcounts⟩

end Benchmark

end PatternAutomata
