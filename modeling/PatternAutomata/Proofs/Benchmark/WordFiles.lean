import PatternAutomata.Proofs.Benchmark.Consistency
import PatternAutomata.Proofs.Text.Lines

/-!
# Words in a file are words of the case

A case with a file of words loads the words that it lists and then those of the file. What is
measured depends on the pattern and the loaded words alone, so it makes no difference whether
words stand in the file or at the end of the list.
-/

namespace PatternAutomata.Benchmark

/-- The numbers of two results are the same, recognizer by recognizer. -/
structure Result.SameNumbers {τ : Type} (r r' : Result τ) : Prop where
  numWords : r.numWords = r'.numWords
  nfaStates : r.nfaStates = r'.nfaStates
  dfaStates : r.dfaStates = r'.dfaStates
  strategies : r.strategies = r'.strategies
  reference : r.reference = r'.reference
  isConsistent : r.isConsistent = r'.isConsistent

/-- Two runs end alike: the pattern is rejected for the same cause, or the reference expression
is refused, or both have results with the same numbers. -/
inductive SameOutcome {τ : Type} :
    Except RunError (Result τ) → Except RunError (Result τ) → Prop
  | rejected (cause : PatternError) :
    SameOutcome (.error (.pattern (.rejected cause))) (.error (.pattern (.rejected cause)))
  | refused : SameOutcome (.error .reference) (.error .reference)
  | measured {r r' : Result τ} (h : r.SameNumbers r') : SameOutcome (.ok r) (.ok r')

namespace Case

/-- The case with its file of words at a path. -/
def withFile (case : Case) (path : String) : Case := { case with filename := some path }

/-- The case with no file of words, and with words at the end of its list. -/
def withWords (case : Case) (words : List String) : Case :=
  { case with words := case.words ++ words, filename := none }

variable {σ : Type} {read : FileReader (StateM σ)} {s : σ}

/-- A case without a file has the words that it lists. -/
theorem loadWords_withWords (case : Case) (words : List String) :
    (((case.withWords words).loadWords read).run s).1 = .ok (case.words ++ words) := rfl

/-- What is measured on words depends on the pattern of a case alone. -/
theorem sameOutcome_measure {case case' : Case} (h : case.regex = case'.regex)
    (engine : Reference.Engine) (words : List String) :
    SameOutcome (case.measure engine words) (case'.measure engine words) := by
  rw [measure, measure, ← h]
  have houtcome := outcome_compile case.regex
  generalize hcompile : compile case.regex = result at houtcome
  cases houtcome with
  | overclosed => exact .rejected _
  | unclosed => exact .rejected _
  | missing => exact .rejected _
  | @compiled m hrem hyes =>
    cases hsearch : engine.search? (Reference.anchoredText case.regex) with
    | none => exact .refused
    | some search =>
      obtain ⟨language, hlanguage⟩ := exists_describes hcompile
      have hdecides := hlanguage.decides hcompile
      simp only [Strategy.all, List.mapM_cons, List.mapM_nil, scoreOf_eq hdecides,
        Except.mapError, bind, Except.bind, pure, Except.pure]
      exact .measured ⟨rfl, rfl, rfl, rfl, rfl, rfl⟩

end Case

open Case in
/-- A file of words that fit on lines gives its case these words, in order, whichever ends the
lines have. So the case runs as it does with the same words at the end of its list and no file. -/
theorem words_file_inline {σ : Type} (read : FileReader (StateM σ)) (s : σ) (case : Case)
    {path text : String} {words : List String} (hfits : ∀ word ∈ words, Lines.Fits word.toList)
    (htext : Lines.Written words text) (hread : ((read path).run s).1 = .ok text.toUTF8) :
    (((case.withFile path).loadWords read).run s).1 = .ok (case.words ++ words) ∧
    ∀ (engine : Reference.Engine) (read' : FileReader (StateM σ)) (s' : σ),
      SameOutcome (((case.withFile path).runWith engine read).run s).1
        (((case.withWords words).runWith engine read').run s').1 := by
  have hload : (((case.withFile path).loadWords read).run s).1 =
      .ok (case.words ++ Lines.ofText text) := loadWords_of_file rfl hread
  rw [Lines.makeUp_iff.mp (htext.makeUp hfits)] at hload
  refine ⟨hload, fun engine read' s' => ?_⟩
  rw [runWith_of_loadWords hload, runWith_of_loadWords (loadWords_withWords case words)]
  have hregex : (case.withFile path).regex = (case.withWords words).regex := rfl
  exact sameOutcome_measure hregex engine (case.words ++ words)

/-- Lines that end in both ways, with an empty word, a carriage return inside a word, and no end
after the last word. -/
theorem words_file_inline_mixed_ends :
    (∀ word ∈ ["a.b", "", "c\rd"], Lines.Fits word.toList) ∧
    Lines.Written ["a.b", "", "c\rd"] "a.b\r\n\nc\rd" ∧
    ∃ read : FileReader (StateM Unit),
      ((read "words.txt").run ()).1 = .ok "a.b\r\n\nc\rd".toUTF8 ∧
      (((escapedCase.withFile "words.txt").loadWords read).run ()).1 =
        .ok (escapedCase.words ++ ["a.b", "", "c\rd"]) ∧
      ∀ (engine : Reference.Engine) (read' : FileReader (StateM Unit)) (s' : Unit),
        SameOutcome (((escapedCase.withFile "words.txt").runWith engine read).run ()).1
          (((escapedCase.withWords ["a.b", "", "c\rd"]).runWith engine read').run s').1 := by
  have hfits : ∀ word ∈ ["a.b", "", "c\rd"], Lines.Fits word.toList := by
    simp only [List.forall_mem_cons, List.not_mem_nil, false_imp_iff, implies_true, and_true]
    exact ⟨⟨by decide, by decide⟩, ⟨by decide, by decide⟩, ⟨by decide, by decide⟩⟩
  have hwritten : Lines.Written ["a.b", "", "c\rd"] "a.b\r\n\nc\rd" :=
    .cons "a.b" (show "\r\n" ∈ Lines.ends by decide)
      (.cons "" (show "\n" ∈ Lines.ends by decide) (.last (by decide)))
  let read : FileReader (StateM Unit) := fun _ => pure (.ok "a.b\r\n\nc\rd".toUTF8)
  exact ⟨hfits, hwritten, read, rfl, words_file_inline read () escapedCase hfits hwritten rfl⟩

end PatternAutomata.Benchmark
