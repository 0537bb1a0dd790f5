import Mathlib.Data.List.Basic
import Mathlib.Data.List.Forall2
import PatternAutomata.CommandLine.Session
import PatternAutomata.Proofs.Recognizer.Meaning
import PatternAutomata.Proofs.Text.Lines

/-!
# Sessions answer alike in every mode

All strategies answer alike for the words of a compiled pattern, so a word has the same judgement
whoever decides about it, and where all are compared no one dissents. So a session that judges
words has one answer, whichever strategy is asked for. While the words that are accepted can be
counted in 32 bits, it succeeds, complains of nothing, and shows the verdicts in order or counts
those that are true. Otherwise it is broken off by the word that is one too many, after the verdicts
on the words before it. A pattern that is rejected has no verdicts, and its rejection is the same
answer in every mode.
-/

namespace PatternAutomata

/-- Every strategy gives these answers for words. -/
def Matcher.Answers (m : Matcher) (accepts : String → Bool) : Prop :=
  ∀ (strategy : Strategy) (word : String), m.matchesWith strategy word.toList = .ok (accepts word)

/-- All strategies of a compiled pattern give the same answers. -/
theorem exists_answers {pattern : String} {m : Matcher} (h : compile pattern = .ok m) :
    ∃ accepts, m.Answers accepts := by
  classical
  obtain ⟨language, hlanguage⟩ := exists_describes h
  refine ⟨fun word => decide (word.toList ∈ language), fun strategy word => ?_⟩
  exact (hlanguage.decides h).matchesWith_eq strategy word.toList

/-- The answers tell which words belong to the language that the pattern describes. -/
theorem Matcher.Answers.accepts_iff {pattern : String} {language : Language Char} {m : Matcher}
    {accepts : String → Bool} (h : m.Answers accepts) (hlanguage : Describes pattern language)
    (hcompile : compile pattern = .ok m) (word : String) :
    accepts word = true ↔ word.toList ∈ language := by
  classical
  have hanswer := (hlanguage.decides hcompile).matchesWith_eq Strategy.default word.toList
  rw [Except.ok.inj ((h Strategy.default word).symm.trans hanswer), decide_eq_true_iff]

/-- A pattern that is not compiled is rejected for its own faults. -/
theorem exists_cause_of_compile {pattern : String} {e : CompileError}
    (h : compile pattern = .error e) : ∃ cause, e = .rejected cause := by
  have houtcome := outcome_compile pattern
  rw [h] at houtcome
  cases houtcome with
  | overclosed | unclosed | missing => exact ⟨_, rfl⟩

namespace CommandLine

/-- The lines of the verdicts on words, in order. A line names its word unless that is the only
one. -/
def verdictLines (accepts : String → Bool) (words : List String) : List String :=
  words.map fun word =>
    (if 1 < words.length then word ++ ": " else "") ++ if accepts word then "true" else "false"

/-- The line of a verdict says that its word is accepted. -/
def SaysTrue (line : String) : Prop := "true".toList <:+ line.toList

instance (line : String) : Decidable (SaysTrue line) :=
  inferInstanceAs (Decidable ("true".toList <:+ line.toList))

/-- The largest number of words that can be counted. -/
def countLimit : Nat := 2 ^ 31 - 1

/-- The answer to a request once its words are read, where the mode is left out: the lines of the
verdicts, or their number of true ones. If more of them are true than can be counted, only the lines
before the one that is too many are shown. Nothing else is complained of that was not asked for. -/
def verdictAnswer (r : Matching) (m : Matcher) (accepts : String → Bool) :
    Except IoError (List String) → Answer
  | .error e => ⟨1, .lines [], requestedDebugLines r m ++ ["error: " ++ e.message]⟩
  | .ok words =>
    let lines := verdictLines accepts words
    if lines.countP (SaysTrue ·) ≤ countLimit then
      { code := 0
        output := .lines <| if r.countOnly then [toString (lines.countP (SaysTrue ·))] else lines
        complaints := requestedDebugLines r m }
    else
      { code := 101
        output := .lines <|
          if r.countOnly then [] else lines.take (lines.findIdxNth (SaysTrue ·) countLimit)
        complaints := requestedDebugLines r m ++ ["attempt to add with overflow"] }

/-- What bytes list for a session: the words of the lines that make up their text, if they encode
one. -/
inductive InputLists : ByteArray → Except IoError (List String) → Prop
  | text {text : String} {lines words : List String}
      (hlines : Lines.MakeUp (lines.map String.toList) text.toList)
      (hwords : List.Forall₂ Lines.Trimmed words lines) : InputLists text.toUTF8 (.ok words)
  | noText {bytes : ByteArray} (h : ∀ text : String, bytes ≠ text.toUTF8) :
      InputLists bytes (.error .invalidData)

/-- The words of the input are those that it lists. -/
theorem inputLists_iff {bytes : ByteArray} {answer : Except IoError (List String)} :
    InputLists bytes answer ↔ wordsOfInput bytes = answer := by
  constructor
  · intro h
    cases h with
    | text hlines hwords =>
      rw [wordsOfInput, decodeText_toUTF8]
      change Except.ok ((Lines.ofText _).map Lines.trimReturns) = _
      rw [Lines.makeUp_iff.mp hlines, Lines.forall₂_trimmed_iff.mp hwords]
    | noText hno =>
      rw [wordsOfInput]
      cases htext : decodeText bytes with
      | ok text => exact absurd (eq_toUTF8_of_decodeText htext) (hno text)
      | error e => rw [eq_invalidData_of_decodeText htext]; rfl
  · rintro rfl
    rw [wordsOfInput]
    cases htext : decodeText bytes with
    | ok text =>
      rw [eq_toUTF8_of_decodeText htext]
      exact .text (Lines.makeUp_iff.mpr rfl) (Lines.forall₂_trimmed_iff.mpr rfl)
    | error e =>
      rw [eq_invalidData_of_decodeText htext]
      exact .noText (ne_toUTF8_of_decodeText htext)

/-- The end of a line tells the verdict, whatever stands before it. -/
theorem saysTrue_append_iff (before : String) (accepted : Bool) :
    SaysTrue (before ++ if accepted then "true" else "false") ↔ accepted = true := by
  rw [SaysTrue, String.toList_append]
  cases accepted with
  | true => exact iff_of_true (List.suffix_append _ _) rfl
  | false =>
    refine iff_of_false (fun h => ?_) Bool.false_ne_true
    have hends : "true".toList <:+ "false".toList :=
      List.suffix_of_suffix_length_le h (List.suffix_append _ _) (by decide)
    exact absurd hends (by decide)

namespace Judgement

variable {m : Matcher} {accepts : String → Bool}

/-- All three strategies dissent from an answer that is not the common one, and none from the
common one. -/
theorem dissenters_eq (h : m.Answers accepts) (word : String) (accepted : Bool) :
    dissenters m word accepted =
      .ok (if accepted = accepts word then [] else [.depthFirst, .simulation, .walk]) := by
  have hdissent : ∀ strategy, (do
      pure ((← m.matchesWith strategy word.toList) != accepted) : Except Fault Bool) =
      .ok (accepts word != accepted) := by
    intro strategy
    rw [h strategy word]
    rfl
  rw [dissenters, filterM_eq_ok hdissent]
  by_cases he : accepted = accepts word
  · rw [if_pos he, he, bne_self_eq_false, List.filter_false]
  · rw [if_neg he, bne_iff_ne.mpr (Ne.symm he), List.filter_true, Strategy.all]

/-- The judgement of a word is the same in every mode. -/
theorem ofWord_eq (h : m.Answers accepts) (mode : Mode) (word : String) :
    ofWord m mode word = .ok ⟨word, accepts word, []⟩ := by
  cases mode with
  | single strategy =>
    rw [ofWord, h strategy word]
    rfl
  | all =>
    have hdefault : m.matchesWord word.toList = .ok (accepts word) := h Strategy.default word
    simp only [ofWord, hdefault, bind, Except.bind, dissenters_eq h word, if_true]
    rfl

/-- The line of a judgement ends in its verdict. -/
theorem line_eq (showWord : Bool) (word : String) (accepted : Bool) (dissent : List Strategy) :
    line showWord ⟨word, accepted, dissent⟩ =
      (if showWord then word ++ ": " else "") ++ if accepted then "true" else "false" := by
  cases showWord with
  | true => rfl
  | false => exact String.empty_append.symm

end Judgement

/-- A number below the limit has a next one. -/
theorem tally_of_lt {n : Nat} (h : n < countLimit) :
    tally true (.ofNat n) = .ok (.ofNat (n + 1)) := by
  rw [countLimit] at h
  have hne : Int32.ofNat n ≠ Int32.maxValue := by
    intro he
    have hint : (Int32.ofNat n).toInt = 2147483647 := congrArg Int32.toInt he
    rw [Int32.toInt_ofNat_of_lt (by omega)] at hint
    omega
  rw [tally, if_pos rfl, if_neg hne, Int32.ofNat_add]
  rfl

/-- The limit has no next number. -/
theorem tally_countLimit : tally true (.ofNat countLimit) = .error overflowMessage := rfl

/-- Counts up to the limit are shown as numbers. -/
theorem toString_ofNat {n : Nat} (h : n ≤ countLimit) : toString (Int32.ofNat n) = toString n := by
  rw [countLimit] at h
  change toString (Int32.ofNat n).toInt = toString n
  rw [Int32.toInt_ofNat_of_lt (by omega)]
  rfl

section Places

variable {α : Type} {p : α → Bool}

/-- The places of elements that have a property are those of elements whose images have it. -/
theorem findIdxNth_map {β : Type} (f : β → α) (xs : List β) (n : Nat) :
    (xs.map f).findIdxNth p n = xs.findIdxNth (p ∘ f) n := by
  induction xs generalizing n with
  | nil => rfl
  | cons x xs ih => simp only [List.map_cons, List.findIdxNth_cons, ih, Function.comp_apply]

/-- Before the place of an element that has a property there are as many of them as it is counted
after. -/
theorem countP_take_findIdxNth {xs : List α} {n : Nat} (h : n < xs.countP p) :
    (xs.take (xs.findIdxNth p n)).countP p = n := by
  induction xs generalizing n with
  | nil => exact absurd h (Nat.not_lt_zero n)
  | cons x xs ih =>
    cases hx : p x with
    | false =>
      have hx' : ¬ p x = true := by rw [hx]; exact Bool.false_ne_true
      rw [List.countP_cons_of_neg hx'] at h
      rw [List.findIdxNth_cons_of_neg hx, List.take_succ_cons, List.countP_cons_of_neg hx', ih h]
    | true =>
      rw [List.countP_cons_of_pos hx] at h
      cases n with
      | zero => rw [List.findIdxNth_cons_zero_of_pos hx, List.take_zero, List.countP_nil]
      | succ n =>
        rw [List.findIdxNth_cons_succ_of_pos hx, List.take_succ_cons, List.countP_cons_of_pos hx,
          ih (Nat.lt_of_succ_lt_succ h)]

end Places

namespace Display

/-- The lines that are shown of words without dissent while they are judged. -/
def linesOf (display : Display) (accepts : String → Bool) (words : List String) : List String :=
  words.flatMap fun word => display.verdict ⟨word, accepts word, []⟩

/-- The lines of a word are shown before those of the words after it. -/
theorem append_linesOf_cons (display : Display) (accepts : String → Bool) (shown : Array String)
    (word : String) (words : List String) :
    shown ++ display.linesOf accepts (word :: words) =
      shown ++ display.verdict ⟨word, accepts word, []⟩ ++ display.linesOf accepts words := by
  apply Array.toList_inj.mp
  rw [Array.toList_appendList, Array.toList_appendList, Array.toList_appendList, linesOf,
    List.flatMap_cons, List.append_assoc]
  rfl

/-- The lines that are shown of words are the verdicts on them, unless only a number is asked
for. -/
theorem linesOf_take (countOnly : Bool) (accepts : String → Bool) (words : List String) (n : Nat) :
    (ofWords countOnly words).linesOf accepts (words.take n) =
      if countOnly then [] else (verdictLines accepts words).take n := by
  cases countOnly with
  | true => exact List.flatMap_eq_nil_iff.mpr fun _ _ => rfl
  | false =>
    rw [if_neg Bool.false_ne_true, verdictLines, ← List.map_take, List.map_eq_flatMap]
    refine List.flatMap_congr fun word _ => congrArg (fun line => [line]) ?_
    rw [Judgement.line_eq]
    simp only [decide_eq_true_eq]

end Display

namespace Progress

variable {m : Matcher} {accepts : String → Bool}

/-- A word is counted if it is accepted, and then shown. -/
theorem judge_eq (h : m.Answers accepts) (mode : Mode) (display : Display) (word : String)
    (n : Int32) (shown : Array String) :
    judge m mode display ⟨n, 0, shown, #[]⟩ word =
      ((tally (accepts word) n).mapError (⟨⟨n, 0, shown, #[]⟩, ·⟩)).map fun accepted =>
        ⟨accepted, 0, shown ++ display.verdict ⟨word, accepts word, []⟩, #[]⟩ := by
  have hsilent : (#[] : Array String) ++ Judgement.complaint ⟨word, accepts word, []⟩ = #[] := rfl
  have hagree : tally (!([] : List Strategy).isEmpty) 0 = .ok 0 := rfl
  rw [judge, Judgement.ofWord_eq h]
  simp only [Except.mapError, bind, Except.bind, hsilent, hagree]
  cases tally (accepts word) n with
  | error message => rfl
  | ok accepted => rfl

/-- Words are judged one after another while those that are accepted can be counted. -/
theorem foldlM_judge (h : m.Answers accepts) (mode : Mode) (display : Display)
    {words : List String} {n : Nat} (hn : n + words.countP accepts ≤ countLimit)
    (shown : Array String) :
    words.foldlM (judge m mode display) ⟨.ofNat n, 0, shown, #[]⟩ =
      .ok ⟨.ofNat (n + words.countP accepts), 0, shown ++ display.linesOf accepts words, #[]⟩ := by
  induction words generalizing n shown with
  | nil => exact (congrArg (fun lines => Except.ok (Progress.mk _ 0 lines #[]))
      Array.appendList_nil).symm
  | cons word words ih =>
    rw [List.foldlM_cons, judge_eq h, display.append_linesOf_cons]
    cases hword : accepts word with
    | false =>
      have hcount : (word :: words).countP accepts = words.countP accepts :=
        List.countP_cons_of_neg (by rw [hword]; exact Bool.false_ne_true)
      rw [hcount] at hn ⊢
      exact ih hn _
    | true =>
      have hcount : (word :: words).countP accepts = words.countP accepts + 1 :=
        List.countP_cons_of_pos hword
      have hnext : n + (words.countP accepts + 1) = n + 1 + words.countP accepts := by omega
      rw [hcount, hnext] at hn ⊢
      rw [tally_of_lt (by omega)]
      exact ih hn _

/-- Judging is broken off by the word that is too many to be counted. -/
theorem foldlM_judge_overflow (h : m.Answers accepts) (mode : Mode) (display : Display)
    {words : List String} (hcount : countLimit < words.countP accepts) :
    words.foldlM (judge m mode display) start =
      .error ⟨⟨.ofNat countLimit, 0, (#[] : Array String) ++ display.linesOf accepts
        (words.take (words.findIdxNth accepts countLimit)), #[]⟩, overflowMessage⟩ := by
  have hplace := List.findIdxNth_lt_length_of_lt_countP hcount
  have hsplit : words = words.take (words.findIdxNth accepts countLimit) ++
      words[words.findIdxNth accepts countLimit] ::
        words.drop (words.findIdxNth accepts countLimit + 1) := by
    rw [List.getElem_cons_drop, List.take_append_drop]
  have hbefore := countP_take_findIdxNth hcount
  have hword : accepts words[words.findIdxNth accepts countLimit] = true :=
    List.pos_findIdxNth_getElem
  generalize words[words.findIdxNth accepts countLimit] = word at hsplit hword
  generalize words.take (words.findIdxNth accepts countLimit) = before at hsplit hbefore ⊢
  have hjudged : before.foldlM (judge m mode display) start = .ok ⟨.ofNat countLimit, 0,
      (#[] : Array String) ++ display.linesOf accepts before, #[]⟩ := by
    have hle : 0 + before.countP accepts ≤ countLimit := by rw [Nat.zero_add, hbefore]
    have hrun := foldlM_judge h mode display hle #[]
    rwa [Nat.zero_add, hbefore] at hrun
  rw [hsplit, List.foldlM_append, hjudged]
  change (judge _ _ _ _ _ >>= _) = _
  rw [judge_eq h, hword, tally_countLimit]
  rfl

end Progress

section

variable (accepts : String → Bool) (words : List String)

/-- The verdict on a word is true exactly when the word is accepted. -/
theorem saysTrue_comp (before : String → String) : (fun line => decide (SaysTrue line)) ∘
    (fun word => before word ++ if accepts word then "true" else "false") = accepts := by
  funext word
  rw [Function.comp_apply, Bool.eq_iff_iff, decide_eq_true_iff, saysTrue_append_iff]

/-- As many verdicts are true as words are accepted. -/
theorem countP_verdictLines :
    (verdictLines accepts words).countP (SaysTrue ·) = words.countP accepts := by
  rw [verdictLines, List.countP_map, saysTrue_comp]

/-- The true verdicts stand in the places of the words that are accepted. -/
theorem findIdxNth_verdictLines (n : Nat) :
    (verdictLines accepts words).findIdxNth (SaysTrue ·) n = words.findIdxNth accepts n := by
  rw [verdictLines, findIdxNth_map, saysTrue_comp]

end

variable {matcher : Matcher} {accepts : String → Bool}

/-- All verdicts, or their number of true ones, are shown of words that can be counted. -/
theorem shown_eq (countOnly : Bool) {words : List String}
    (hcount : words.countP accepts ≤ countLimit) :
    (Display.ofWords countOnly words).linesOf accepts words ++
        (Display.ofWords countOnly words).total (.ofNat (words.countP accepts)) =
      if countOnly then [toString (words.countP accepts)] else verdictLines accepts words := by
  have hlines := Display.linesOf_take countOnly accepts words words.length
  have hlength : (verdictLines accepts words).length = words.length := List.length_map _
  rw [List.take_length, ← hlength, List.take_length] at hlines
  rw [hlines]
  cases countOnly with
  | true => exact congrArg (fun line => [line]) (toString_ofNat hcount)
  | false => exact List.append_nil _

/-- Words are judged alike in every mode. -/
theorem judgeAnswer_eq (h : matcher.Answers accepts) (r : Matching) (words : List String) :
    judgeAnswer r matcher words = verdictAnswer r matcher accepts (.ok words) := by
  rw [judgeAnswer, verdictAnswer]
  simp only [countP_verdictLines, findIdxNth_verdictLines]
  by_cases hcount : words.countP accepts ≤ countLimit
  · have hle : 0 + words.countP accepts ≤ countLimit := by rwa [Nat.zero_add]
    have hstart : Progress.start = ⟨.ofNat 0, 0, #[], #[]⟩ := rfl
    have hrun := Progress.foldlM_judge h r.mode (.ofWords r.countOnly words) hle #[]
    rw [Nat.zero_add, ← hstart] at hrun
    rw [if_pos hcount, ← shown_eq r.countOnly hcount, hrun]
    simp only [Array.toList_appendList, List.append_nil, List.nil_append]
    rfl
  · have hrun := Progress.foldlM_judge_overflow h r.mode (.ofWords r.countOnly words)
      (Nat.lt_of_not_le hcount)
    rw [if_neg hcount, ← Display.linesOf_take, hrun]
    simp only [Array.toList_appendList, List.append_nil, List.nil_append]
    rfl

namespace Host

variable {m : Type → Type} [Monad m] (host : Host m)

/-- A session without drawings reads the words and judges them, alike in every mode. -/
theorem answerMatching_eq [LawfulMonad m] {r : Matching}
    (hcompile : compile r.pattern = .ok matcher) (h : matcher.Answers accepts)
    (hdot : r.dot = none) (hdfaDot : r.dfaDot = none) :
    host.answerMatching r = verdictAnswer r matcher accepts <$> host.words r := by
  have hdraw : host.drawAll r matcher = pure (.ok ()) := by
    rw [drawAll, hdot, hdfaDot]
    exact pure_bind _ _
  rw [answerMatching, hcompile]
  simp only [hdraw, pure_bind, map_eq_pure_bind]
  refine bind_congr fun words => ?_
  cases words with
  | error e => rfl
  | ok words => exact congrArg pure (judgeAnswer_eq h r words)

/-- A pattern that is rejected ends a session before its drawings and its words. -/
theorem answerMatching_rejected {r : Matching} {cause : PatternError}
    (h : compile r.pattern = .error (.rejected cause)) :
    host.answerMatching r = pure (.fail [] [] cause.message) := by
  rw [answerMatching, h]
  rfl

end Host

/-- All strategies answer alike for the words of a compiled pattern, so that those that are compared
dissent from a wrong answer only. What a session without drawings answers depends on these answers
and not on the mode, whether its words are given or listed by the input: it succeeds with the
verdicts in order, or with the number of those that are true, unless there are more of them than can
be counted. A session on a rejected pattern shows no verdict in any mode, and fails for the reason
of the rejection. -/
theorem every_mode_answers_alike {m : Type → Type} [Monad m] [LawfulMonad m] (host : Host m)
    (pattern : String) :
    (∀ matcher, compile pattern = .ok matcher → ∃ accepts, matcher.Answers accepts ∧
      (∀ word accepted, Judgement.dissenters matcher word accepted =
        .ok (if accepted = accepts word then [] else [.depthFirst, .simulation, .walk])) ∧
      ∀ (r : Matching) (mode : Mode), r.pattern = pattern → r.dot = none → r.dfaDot = none →
        (∀ words, r.words = some words → host.answer (.matching { r with mode }) =
          pure (verdictAnswer r matcher accepts (.ok words))) ∧
        (r.words = none → ∃ read, (∀ bytes answer, InputLists bytes answer ↔ read bytes = answer) ∧
          host.answer (.matching { r with mode }) =
            (verdictAnswer r matcher accepts ∘ read) <$> host.input)) ∧
    ∀ e, compile pattern = .error e → ∃ cause, e = .rejected cause ∧
      ∀ (r : Matching) (mode : Mode), r.pattern = pattern →
        host.answer (.matching { r with mode }) =
          pure ⟨1, .lines [], ["error: " ++ cause.message]⟩ := by
  constructor
  · intro matcher hcompile
    obtain ⟨accepts, haccepts⟩ := exists_answers hcompile
    refine ⟨accepts, haccepts, Judgement.dissenters_eq haccepts, ?_⟩
    rintro r mode rfl hdot hdfaDot
    -- The request in another mode has the same words and the same debug lines.
    have hanswer : host.answer (.matching { r with mode }) =
        verdictAnswer r matcher accepts <$> host.words r :=
      host.answerMatching_eq (r := { r with mode }) hcompile haccepts hdot hdfaDot
    constructor
    · intro words hwords
      rw [hanswer, Host.words, hwords]
      exact map_pure _ _
    · intro hwords
      refine ⟨wordsOfInput, fun _ _ => inputLists_iff, ?_⟩
      rw [hanswer, Host.words, hwords, comp_map]
  · intro e hcompile
    obtain ⟨cause, rfl⟩ := exists_cause_of_compile hcompile
    refine ⟨cause, rfl, ?_⟩
    rintro r mode rfl
    exact host.answerMatching_rejected (r := { r with mode }) hcompile

/-- A request for the verdicts on three words. -/
def choiceRequest : Matching where
  pattern := "ab|c"
  words := some ["ab", "abc", "c"]
  mode := .all
  countOnly := false
  debugInfos := false
  dot := none
  dfaDot := none

/-- The language of the pattern. -/
theorem describes_choice : Describes "ab|c" ({['a']} * {['b']} + {['c']}) := by
  let pair : Derivation .term :=
    .concat (.ofFactor (.literal 'a' (by decide))) (.literal 'b' (by decide))
  exact .derived (.union (.ofTerm pair) (.ofFactor (.literal 'c' (by decide))))

/-- The verdicts on the words of the request. -/
theorem verdictLines_choice (hcompile : compile "ab|c" = .ok matcher)
    (h : matcher.Answers accepts) :
    verdictLines accepts ["ab", "abc", "c"] = ["ab: true", "abc: false", "c: true"] := by
  have haccepts := h.accepts_iff describes_choice hcompile
  have hwords : ∀ word, accepts word = true ↔ word.toList = ['a', 'b'] ∨ word.toList = ['c'] := by
    intro word
    rw [haccepts, Language.mem_add, Language.mem_mul]
    change (∃ a, a = ['a'] ∧ ∃ b, b = ['b'] ∧ a ++ b = word.toList) ∨ _ ↔ _
    simp only [exists_eq_left]
    exact or_congr_left eq_comm
  have hab : accepts "ab" = true := (hwords "ab").mpr (by decide)
  have habc : accepts "abc" = false := Bool.eq_false_iff.mpr ((hwords "abc").not.mpr (by decide))
  have hc : accepts "c" = true := (hwords "c").mpr (by decide)
  simp only [verdictLines, List.map_cons, List.map_nil, hab, habc, hc]
  decide

/-- What is answered on the words of the request, wherever they come from. -/
theorem verdictAnswer_choice (hcompile : compile "ab|c" = .ok matcher) (h : matcher.Answers accepts)
    (words : Option (List String)) (countOnly : Bool) :
    verdictAnswer { choiceRequest with words, countOnly } matcher accepts
        (.ok ["ab", "abc", "c"]) =
      .ofLines (if countOnly then ["2"] else ["ab: true", "abc: false", "c: true"]) := by
  have hcount : ["ab: true", "abc: false", "c: true"].countP (SaysTrue ·) = 2 := by decide
  rw [verdictAnswer]
  simp only [verdictLines_choice hcompile h, hcount]
  rw [if_pos (by decide)]
  rfl

/-- The words of the request on lines that end in both ways, the last one in a carriage return. -/
def choiceInput : String := "ab\r\nabc\nc\r"

theorem inputLists_choice : InputLists choiceInput.toUTF8 (.ok ["ab", "abc", "c"]) :=
  inputLists_iff.mpr (by rw [wordsOfInput, decodeText_toUTF8]; rfl)

/-- The names that can be asked for. -/
def modeNames : List String := ["dfs", "multi-state", "dfa", "all"]

/-- Each name has its mode, and nothing else of a request depends on it. -/
theorem exists_mode_of_name : ∀ name ∈ modeNames, ∃ mode,
    Request.ofArguments ["-s", name, "ab|c", "ab", "abc", "c"] =
      .ok (.matching { choiceRequest with mode }) ∧
    Request.ofArguments ["-cs", name, "ab|c"] =
      .ok (.matching { choiceRequest with mode, words := none, countOnly := true }) ∧
    Request.ofArguments ["-s", name, "a)(", "ab", "abc", "c"] =
      .ok (.matching { choiceRequest with mode, pattern := "a)(" }) ∧
    Request.ofArguments ["-cs", name, ""] =
      .ok (.matching
        { choiceRequest with mode, pattern := "", words := none, countOnly := true }) := by
  simp only [modeNames, List.forall_mem_cons]
  refine ⟨⟨.single .depthFirst, ?_⟩, ⟨.single .simulation, ?_⟩, ⟨.single .walk, ?_⟩,
    ⟨.all, ?_⟩, fun _ h => absurd h List.not_mem_nil⟩ <;> exact ⟨rfl, rfl, rfl, rfl⟩

/-- Command lines that differ in their strategy, on a pattern that is compiled and on one that is
rejected. -/
theorem every_mode_answers_alike_repeated_choice :
    (modeNames.map fun name => (Host.ofStore .empty).answerArguments
      ["-s", name, "ab|c", "ab", "abc", "c"]) =
        List.replicate 4 (pure (.ofLines ["ab: true", "abc: false", "c: true"])) ∧
    (modeNames.map fun name => (Host.ofStore choiceInput.toUTF8).answerArguments
      ["-cs", name, "ab|c"]) =
        List.replicate 4 (pure (.ofLines ["2"])) ∧
    (modeNames.map fun name => (Host.ofStore .empty).answerArguments
      ["-s", name, "a)(", "ab", "abc", "c"]) =
        List.replicate 4 (pure ⟨1, .lines [], ["error: unmatched `)` at token 1"]⟩) := by
  obtain ⟨matcher, hmatcher, -⟩ := describes_choice.exists_compile
  have hrejected : compile "a)(" = .error (.rejected (.unbalancedClose 1)) := by cbv
  obtain ⟨cause, hcause, hfails⟩ :=
    (every_mode_answers_alike (Host.ofStore .empty) "a)(").2 _ hrejected
  cases hcause
  refine ⟨?_, ?_, ?_⟩ <;>
    refine List.eq_replicate_iff.mpr ⟨rfl, List.forall_mem_map.mpr fun name hname => ?_⟩ <;>
    obtain ⟨mode, hshown, hcounted, hrefused, -⟩ := exists_mode_of_name name hname
  · obtain ⟨accepts, haccepts, -, hsame⟩ :=
      (every_mode_answers_alike (Host.ofStore .empty) "ab|c").1 matcher hmatcher
    have hanswer := (hsame choiceRequest mode rfl rfl rfl).1 _ rfl
    rw [Host.answerArguments, hshown]
    exact hanswer.trans (congrArg pure (verdictAnswer_choice hmatcher haccepts _ false))
  · obtain ⟨accepts, haccepts, -, hsame⟩ :=
      (every_mode_answers_alike (Host.ofStore choiceInput.toUTF8) "ab|c").1 matcher hmatcher
    obtain ⟨read, hread, hanswer⟩ :=
      (hsame { choiceRequest with words := none, countOnly := true } mode rfl rfl rfl).2 rfl
    have hwords := (hread _ _).mp inputLists_choice
    rw [Host.answerArguments, hcounted]
    refine hanswer.trans ((map_pure _ _).trans (congrArg pure ?_))
    rw [Function.comp_apply, hwords]
    exact verdictAnswer_choice hmatcher haccepts none true
  · rw [Host.answerArguments, hrefused]
    exact hfails { choiceRequest with pattern := "a)(" } mode rfl

/-- A text of empty lines. -/
def newlines (n : Nat) : String := String.ofList (List.replicate n '\n')

/-- A text of empty lines lists as many empty words. -/
theorem inputLists_newlines (n : Nat) :
    InputLists (newlines n).toUTF8 (.ok (List.replicate n "")) := by
  have hchars : (newlines n).toList = List.replicate n '\n' := String.toList_ofList
  have hlines : Lines.MakeUp ((List.replicate n "").map String.toList) (newlines n).toList := by
    rw [List.map_replicate, hchars]
    clear hchars
    induction n with
    | zero => exact .nil
    | succ n ih => exact .newline List.not_mem_nil nofun ih
  exact .text hlines (Lines.forall₂_trimmed_iff.mpr List.map_replicate)

/-- The number of empty words is not shown if it is too large. -/
theorem verdictAnswer_newlines {n : Nat} (hn : countLimit < n) (hempty : accepts "" = true)
    (r : Matching) (hcount : r.countOnly = true) :
    verdictAnswer r matcher accepts (.ok (List.replicate n "")) =
      ⟨101, .lines [], requestedDebugLines r matcher ++ ["attempt to add with overflow"]⟩ := by
  have hlarge : ¬ (List.replicate n "").countP accepts ≤ countLimit := by
    rw [List.countP_replicate, if_pos hempty]
    exact Nat.not_le.mpr hn
  rw [verdictAnswer]
  simp only [countP_verdictLines, if_neg hlarge, hcount, if_true]

/-- The number of true verdicts is not shown in any mode, and no session succeeds, where the input
has more empty lines than can be counted and the pattern describes the empty word. -/
theorem empty_lines_overflow :
    (∃ matcher, compile "" = .ok matcher) ∧ ∀ name ∈ modeNames, ∃ answer,
      (Host.ofStore (newlines (2 ^ 31)).toUTF8).answerArguments ["-cs", name, ""] = pure answer ∧
      answer.output = .lines [] ∧ answer.code ≠ 0 := by
  have hdescribes : Describes "" 1 := .nested 0
  obtain ⟨matcher, hmatcher, -⟩ := hdescribes.exists_compile
  obtain ⟨accepts, haccepts⟩ := exists_answers hmatcher
  have hempty : accepts "" = true := (haccepts.accepts_iff hdescribes hmatcher "").mpr rfl
  refine ⟨⟨matcher, hmatcher⟩, fun name hname => ?_⟩
  obtain ⟨mode, -, -, -, hrequest⟩ := exists_mode_of_name name hname
  let host := Host.ofStore (newlines (2 ^ 31)).toUTF8
  let r : Matching := { choiceRequest with mode, pattern := "", words := none, countOnly := true }
  have hwords : host.words r = pure (.ok (List.replicate (2 ^ 31) "")) :=
    (map_pure _ _).trans (congrArg pure (inputLists_iff.mp (inputLists_newlines (2 ^ 31))))
  have hanswer : host.answerMatching r =
      pure (verdictAnswer r matcher accepts (.ok (List.replicate (2 ^ 31) ""))) := by
    rw [host.answerMatching_eq hmatcher haccepts rfl rfl, hwords, map_pure]
  rw [verdictAnswer_newlines (by decide) hempty r rfl] at hanswer
  rw [Host.answerArguments, hrequest]
  exact ⟨_, hanswer, rfl, Nat.succ_ne_zero 100⟩

end CommandLine

end PatternAutomata
