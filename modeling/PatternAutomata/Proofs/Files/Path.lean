import PatternAutomata.Files.Path

/-!
# Parents of paths

The segments of a path spell it, and what stands after its last slash is its last segment. So a path
that ends in two proper names has what stands before the last one for its parent.
-/

namespace PatternAutomata.Path

/-- A name that a path keeps wherever it stands. -/
structure Proper (name : List Char) : Prop where
  ne_nil : name ≠ []
  ne_dot : name ≠ ['.']
  slash_notMem : '/' ∉ name

/-- A path that ends in a proper name. -/
inductive Named : List Char → Prop
  | alone {name : List Char} (h : Proper name) : Named name
  | inside (above : List Char) {name : List Char} (h : Proper name) : Named (above ++ '/' :: name)

/-- There are segments in every path. -/
theorem segments_ne_nil (path : List Char) : segments path ≠ [] := by
  cases path with
  | nil => exact List.cons_ne_nil _ _
  | cons c rest =>
    rw [segments]
    split
    · exact List.cons_ne_nil _ _
    · split <;> exact List.cons_ne_nil _ _

/-- A character other than the slash joins the first segment of what follows. -/
theorem segments_cons {c : Char} (hc : c ≠ '/') {rest segment : List Char}
    {others : List (List Char)} (h : segments rest = segment :: others) :
    segments (c :: rest) = (c :: segment) :: others := by
  rw [segments, if_neg hc, h]

/-- A text without slashes is one segment. -/
theorem segments_of_notMem {name : List Char} (h : '/' ∉ name) : segments name = [name] := by
  induction name with
  | nil => rfl
  | cons c name ih =>
    rw [List.mem_cons, not_or] at h
    exact segments_cons (Ne.symm h.1) (ih h.2)

/-- A slash in front ends an empty segment. -/
theorem segments_slash_cons (rest : List Char) : segments ('/' :: rest) = [] :: segments rest := rfl

/-- What stands after the last slash is the last segment. -/
theorem segments_append_slash (above : List Char) {name : List Char} (h : '/' ∉ name) :
    segments (above ++ '/' :: name) = segments above ++ [name] := by
  induction above with
  | nil =>
    rw [List.nil_append, segments_slash_cons, segments_of_notMem h, segments,
      List.singleton_append]
  | cons c above ih =>
    by_cases hc : c = '/'
    · rw [hc, List.cons_append, segments_slash_cons, segments_slash_cons, ih, List.cons_append]
    · obtain ⟨segment, others, hsegments⟩ := List.exists_cons_of_ne_nil (segments_ne_nil above)
      rw [hsegments, List.cons_append] at ih
      rw [List.cons_append, segments_cons hc ih, segments_cons hc hsegments, List.cons_append]

/-- An empty segment in front is a slash before the others. -/
theorem joinSegments_nil_cons {segments : List (List Char)} (h : segments ≠ []) :
    joinSegments ([] :: segments) = '/' :: joinSegments segments := by
  cases segments with
  | nil => exact absurd rfl h
  | cons segment others => rfl

/-- The first character of the first segment comes first. -/
theorem joinSegments_cons_cons (c : Char) (segment : List Char) (others : List (List Char)) :
    joinSegments ((c :: segment) :: others) = c :: joinSegments (segment :: others) := by
  cases others <;> rfl

/-- The segments of a path spell it. -/
theorem joinSegments_segments (path : List Char) : joinSegments (segments path) = path := by
  induction path with
  | nil => rfl
  | cons c rest ih =>
    by_cases hc : c = '/'
    · rw [hc, segments_slash_cons, joinSegments_nil_cons (segments_ne_nil rest), ih]
    · obtain ⟨segment, others, hsegments⟩ := List.exists_cons_of_ne_nil (segments_ne_nil rest)
      rw [hsegments] at ih
      rw [segments_cons hc hsegments, joinSegments_cons_cons, ih]

/-- A proper name in front is kept. -/
theorem trimUnnamed_cons {name : List Char} (h : Proper name) (above : List (List Char)) :
    trimUnnamed (name :: above) = name :: above := by
  have hnot : ¬ (name = [] ∨ (name = ['.'] ∧ above ≠ [])) := by
    rintro (hnil | ⟨hdot, -⟩)
    · exact h.ne_nil hnil
    · exact h.ne_dot hdot
  rw [trimUnnamed, if_neg hnot]

/-- All segments of a path that ends in a proper name are kept. -/
theorem trimUnnamed_segments {path : List Char} (h : Named path) :
    trimUnnamed (segments path).reverse = (segments path).reverse := by
  cases h with
  | alone h => rw [segments_of_notMem h.slash_notMem, List.reverse_singleton, trimUnnamed_cons h]
  | @inside above name h =>
    rw [segments_append_slash above h.slash_notMem, List.reverse_append, List.reverse_singleton,
      List.singleton_append, trimUnnamed_cons h]

/-- A proper name alone is in the empty directory. -/
theorem parent?_of_proper {name : List Char} (h : Proper name) : parent? name = some [] := by
  have habsolute : isAbsolute name = false := by
    cases name with
    | nil => rfl
    | cons c name =>
      have hc : c ≠ '/' := fun he => h.slash_notMem (he ▸ List.mem_cons_self)
      simp [isAbsolute, hc]
  rw [parent?, segments_of_notMem h.slash_notMem, List.reverse_singleton, trimUnnamed_cons h]
  simp [trimUnnamed, habsolute]

/-- A proper name after a directory is in that directory. -/
theorem parent?_append {directory name : List Char} (hdirectory : Named directory)
    (hname : Proper name) : parent? (directory ++ '/' :: name) = some directory := by
  have hkept := trimUnnamed_segments hdirectory
  rw [parent?, segments_append_slash directory hname.slash_notMem, List.reverse_append,
    List.reverse_singleton, List.singleton_append, trimUnnamed_cons hname]
  cases habove : (segments directory).reverse with
  | nil => exact absurd (List.reverse_eq_nil_iff.mp habove) (segments_ne_nil directory)
  | cons last above =>
    rw [habove] at hkept
    simp only [hkept]
    rw [← habove, List.reverse_reverse, joinSegments_segments]

/-- A proper name does not end in a slash. -/
theorem Proper.getLast?_ne {name : List Char} (h : Proper name) : name.getLast? ≠ some '/' :=
  fun hlast => h.slash_notMem (List.mem_of_getLast? hlast)

/-- A path that ends in a proper name does not end in a slash. -/
theorem Named.getLast?_ne {path : List Char} (h : Named path) : path.getLast? ≠ some '/' := by
  cases h with
  | alone h => exact h.getLast?_ne
  | @inside above name h =>
    obtain ⟨c, rest, hname⟩ := List.exists_cons_of_ne_nil h.ne_nil
    have hlast := h.getLast?_ne
    rw [hname, List.getLast?_cons] at hlast
    rwa [hname, List.getLast?_append, List.getLast?_cons_cons, List.getLast?_cons, Option.some_or]

/-- A path that ends in a proper name is not empty. -/
theorem Named.ne_nil {path : List Char} (h : Named path) : path ≠ [] := by
  cases h with
  | alone h => exact h.ne_nil
  | inside => exact List.append_ne_nil_of_right_ne_nil _ (List.cons_ne_nil _ _)

/-- A relative path is joined by a slash to a path that ends in a proper name. -/
theorem join_of_named {directory path : List Char} (hdirectory : Named directory)
    (hrelative : isAbsolute path = false) : join directory path = directory ++ '/' :: path := by
  have hstays : ¬ (isAbsolute path || directory.isEmpty) = true := by
    rw [hrelative, Bool.false_or, List.isEmpty_iff]
    exact hdirectory.ne_nil
  rw [join, if_neg hstays, if_neg hdirectory.getLast?_ne]

/-- An absolute path, or any path in an empty directory, is not changed by joining. -/
theorem join_of_stays {directory path : List Char} (h : isAbsolute path = true ∨ directory = []) :
    join directory path = path := by
  have hstays : (isAbsolute path || directory.isEmpty) = true := by
    rw [Bool.or_eq_true, List.isEmpty_iff]
    exact h
  rw [join, if_pos hstays]

end PatternAutomata.Path
