import PatternAutomata.Proofs.Benchmark.CaseForms
import PatternAutomata.Proofs.Benchmark.Consistency
import PatternAutomata.Proofs.Files.Path

/-!
# Cases are read from files as they were written

What is read from a file are the cases that were written to it, in the same order. Only the files of
words that they name are looked for beside the file.
-/

namespace PatternAutomata.Benchmark

open Json

namespace Case

/-- Where a file of words is that is named by a case in the file at `path`. -/
def wordsPath (path file : String) : String :=
  match Path.parent? path.toList with
  | some directory => String.ofList (Path.join directory file.toList)
  | none => file

/-- The case with its file of words in the directory of `path`, and otherwise unchanged. -/
def beside (path : String) (case : Case) : Case :=
  { case with filename := case.filename.map (wordsPath path) }

/-- Below a directory, cases are relocated to it. -/
theorem beside_of_parent {path : String} {directory : List Char}
    (h : Path.parent? path.toList = some directory) : beside path = relocate directory := by
  have hwords : wordsPath path = fun file => String.ofList (Path.join directory file.toList) := by
    funext file
    rw [wordsPath, h]
  funext case
  rw [beside, hwords, relocate]

/-- Where there is no directory, cases are left as they are. -/
theorem beside_of_no_parent {path : String} (h : Path.parent? path.toList = none) :
    beside path = id := by
  have hwords : wordsPath path = id := by
    funext file
    rw [wordsPath, h]
    rfl
  funext case
  rw [beside, hwords, Option.map_id]
  rfl

/-- The cases that a text lists have their files of words beside the file of the text. -/
theorem listOfFileText_eq {text : String} {cases : List Case} (h : listOfJson text = .ok cases)
    (path : String) : listOfFileText path text = .ok (cases.map (beside path)) := by
  rw [listOfFileText, h]
  cases hparent : Path.parent? path.toList with
  | none =>
    rw [beside_of_no_parent hparent, List.map_id]
    rfl
  | some directory =>
    rw [beside_of_parent hparent]
    rfl

/-- A file of words stays where it is if its path is absolute or the directory is empty. -/
theorem wordsPath_of_stays {path file : String}
    (h : Path.isAbsolute file.toList = true ∨ Path.parent? path.toList = some []) :
    wordsPath path file = file := by
  rw [wordsPath]
  cases hparent : Path.parent? path.toList with
  | none => rfl
  | some directory =>
    rw [hparent, Option.some.injEq] at h
    simp only [Path.join_of_stays h, String.ofList_toList]

/-- A file of words stays where it is if the file of cases is named without a directory. -/
theorem wordsPath_of_proper {path : String} (h : Path.Proper path.toList) (file : String) :
    wordsPath path file = file :=
  wordsPath_of_stays (Or.inr (Path.parent?_of_proper h))

/-- A file of words is looked for in the directory of the file of cases. -/
theorem wordsPath_of_named {path file : String} {directory name : List Char}
    (hpath : path.toList = directory ++ '/' :: name) (hdirectory : Path.Named directory)
    (hname : Path.Proper name) (hfile : Path.isAbsolute file.toList = false) :
    wordsPath path file = String.ofList (directory ++ '/' :: file.toList) := by
  rw [wordsPath, hpath, Path.parent?_append hdirectory hname]
  simp only [Path.join_of_named hdirectory hfile]

end Case

open Case in
/-- Cases that are written to a file, each in one of the ways that are read, are read back in the
same order and unchanged, but for their files of words: these are looked for in the directory of the
file, where their paths are not absolute and the directory is not empty. The directory of a file
that is named alone is empty. -/
theorem case_files_read_back {σ : Type} (read : FileReader (StateM σ)) (s : σ) (path : String) :
    (∀ case : Case, case.WrittenAs case.toValue) ∧
    (∀ (cases : List Case) (values : List Value), List.Forall₂ WrittenAs cases values →
      ((read path).run s).1 = .ok (Value.array values).compact.toUTF8 →
      ((readFrom read path).run s).1 = .ok (cases.map (beside path))) ∧
    (∀ file : String, Path.isAbsolute file.toList = true ∨ Path.parent? path.toList = some [] →
      wordsPath path file = file) ∧
    (Path.Proper path.toList → ∀ file : String, wordsPath path file = file) ∧
    ∀ (directory name : List Char) (file : String), path.toList = directory ++ '/' :: name →
      Path.Named directory → Path.Proper name → Path.isAbsolute file.toList = false →
      wordsPath path file = String.ofList (directory ++ '/' :: file.toList) := by
  refine ⟨writtenAs_toValue, ?_, fun _ h => wordsPath_of_stays h, wordsPath_of_proper,
    fun _ _ _ hpath hdirectory hname hfile => wordsPath_of_named hpath hdirectory hname hfile⟩
  intro cases values hvalues hread
  have hlist := listOfFileText_eq (listOfJson_compact hvalues) path
  rw [readFrom, fst_run_bind, readFile, fst_run_bind, hread]
  simp only [decodeText_toUTF8]
  change (listOfFileText path (Value.array values).compact).mapError FileError.json = _
  rw [hlist]
  rfl

/-- A case with quotes, controls and letters beyond ASCII, a file of words and no listed words. -/
def quotedCase : Case where
  name := "say \"a\\b\""
  comment := "é\n\x01"
  regex := "(a|b)*"
  words := []
  filename := some "words.txt"
  repetitions := some 18446744073709551615

/-- The members of the case but for its empty list of words. -/
def quotedMembers : List (String × Value) :=
  [("name", .text quotedCase.name), ("comment", .text quotedCase.comment),
    ("regex", .text quotedCase.regex), ("filename", .text "words.txt"),
    ("repetitions", .ofNat 18446744073709551615)]

/-- A case with an absolute path to its file of words. -/
def absoluteCase : Case := { escapedCase with filename := some "/words.txt" }

/-- An object in reverse order, with an unknown key and without the empty list of words, and the
array of six values. -/
def writtenCases : List Value :=
  [.object (quotedMembers.reverse ++ [("rank", .number (.integer true 7))]),
    .array (absoluteCase.members.map Prod.snd)]

/-- Two cases written in different ways to a file in a directory and to a file without one. -/
theorem case_files_read_back_reversed :
    List.Forall₂ Case.WrittenAs [quotedCase, absoluteCase] writtenCases ∧
    ∃ read : FileReader (StateM Unit),
      ((read "cases/set.json").run ()).1 = .ok (Value.array writtenCases).compact.toUTF8 ∧
      ((Case.readFrom read "cases/set.json").run ()).1 =
        .ok [{ quotedCase with filename := some "cases/words.txt" }, absoluteCase] ∧
      ((read "set.json").run ()).1 = .ok (Value.array writtenCases).compact.toUTF8 ∧
      ((Case.readFrom read "set.json").run ()).1 = .ok [quotedCase, absoluteCase] := by
  have hcase : quotedCase.members.Perm (quotedMembers ++ [("words", .array [])]) := by
    refine List.Perm.trans ?_ (List.perm_append_singleton _ _).symm
    exact @List.perm_middle _ _ (quotedMembers.take 3) (quotedMembers.drop 3)
  have hquoted : quotedCase.WrittenAs
      (.object (quotedMembers.reverse ++ [("rank", .number (.integer true 7))])) := by
    refine .object hcase ?_ ?_ ((List.reverse_perm quotedMembers).append_right _)
    · exact List.forall_mem_singleton.mpr List.mem_cons_self
    · exact List.forall_mem_singleton.mpr ⟨by decide, .integer true 7⟩
  have habsolute : absoluteCase.WrittenAs (.array (absoluteCase.members.map Prod.snd)) := .array
  have hvalues : List.Forall₂ Case.WrittenAs [quotedCase, absoluteCase] writtenCases :=
    .cons hquoted (.cons habsolute .nil)
  let read : FileReader (StateM Unit) := fun _ =>
    pure (.ok (Value.array writtenCases).compact.toUTF8)
  obtain ⟨-, hread, hstays, -, hmoves⟩ := case_files_read_back read () "cases/set.json"
  have hstay := hstays "/words.txt" (Or.inl (by decide))
  have hmove := hmoves "cases".toList "set.json".toList "words.txt" (by decide)
    (.alone ⟨by decide, by decide, by decide⟩) ⟨by decide, by decide, by decide⟩ (by decide)
  obtain ⟨-, hreadAlone, -, halone, -⟩ := case_files_read_back read () "set.json"
  have hkeep := halone ⟨by decide, by decide, by decide⟩
  refine ⟨hvalues, read, rfl, (hread _ _ hvalues rfl).trans ?_, rfl,
    (hreadAlone _ _ hvalues rfl).trans ?_⟩
  · rw [List.map_cons, List.map_singleton, Case.beside, Case.beside, quotedCase, absoluteCase,
      Option.map_some, Option.map_some, hmove, hstay]
    rfl
  · rw [List.map_cons, List.map_singleton, Case.beside, Case.beside, quotedCase, absoluteCase,
      Option.map_some, Option.map_some, hkeep, hkeep]

end PatternAutomata.Benchmark
