import Mathlib.Data.List.Pairwise
import PatternAutomata.Benchmark.Case
import PatternAutomata.Proofs.Json.Decode

/-!
# The ways to write a case that are read

A case may be written with its members in any order, with members of unknown keys between them, and
without those that are empty; or as the array of its values. Whichever way, each member fills its
place of the draft once, so the same case is read.
-/

namespace PatternAutomata.Benchmark

open Json

namespace Case

/-- The members that may be left out. -/
def omissible : List (String × Value) :=
  [("words", .array []), ("filename", .null), ("repetitions", .null)]

/-- The ways to write a case that are read. -/
inductive WrittenAs (case : Case) : Value → Prop
  /-- An object of the members that are not left out and members of unknown keys, in any order. -/
  | object {shown omitted extra members : List (String × Value)}
    (hcase : case.members.Perm (shown ++ omitted)) (homitted : ∀ m ∈ omitted, m ∈ omissible)
    (hextra : ∀ m ∈ extra, m.1 ∉ reader.keys ∧ m.2.Scalar)
    (hmembers : members.Perm (shown ++ extra)) : WrittenAs case (.object members)
  /-- The array of the six values. -/
  | array : WrittenAs case (.array (case.members.map Prod.snd))

/-- The keys of a case are those that are known. -/
theorem map_fst_members (case : Case) : case.members.map Prod.fst = reader.keys := rfl

theorem mem_keys {case : Case} {m : String × Value} (h : m ∈ case.members) : m.1 ∈ reader.keys :=
  case.map_fst_members ▸ List.mem_map_of_mem h

/-- A case is written in one of the ways that are read. -/
theorem writtenAs_toValue (case : Case) : case.WrittenAs case.toValue := by
  have hcase : case.members.Perm (case.members ++ []) := by rw [List.append_nil]
  refine .object hcase ?_ ?_ hcase
  · intro m hm
    exact absurd hm List.not_mem_nil
  · intro m hm
    exact absurd hm List.not_mem_nil

/-- The draft of a case of which the members at some keys have been read. -/
def draft (case : Case) (seen : List String) : Draft where
  name := if "name" ∈ seen then some case.name else none
  comment := if "comment" ∈ seen then some case.comment else none
  regex := if "regex" ∈ seen then some case.regex else none
  words := if "words" ∈ seen then some case.words else none
  filename := if "filename" ∈ seen then some case.filename else none
  repetitions := if "repetitions" ∈ seen then some case.repetitions else none

/-- A member of the case fills its place. -/
theorem put_member {case : Case} {key : String} {v : Value} (h : (key, v) ∈ case.members)
    {seen : List String} (hnew : key ∉ seen) :
    (case.draft seen).put key v.tree = some (.ok (case.draft (key :: seen))) := by
  simp only [members, List.mem_cons, List.not_mem_nil, or_false, Prod.mk.injEq] at h
  rcases h with ⟨rfl, rfl⟩ | ⟨rfl, rfl⟩ | ⟨rfl, rfl⟩ | ⟨rfl, rfl⟩ | ⟨rfl, rfl⟩ | ⟨rfl, rfl⟩
  all_goals rw [Draft.put]
  · exact RecordReader.fill_of_read (if_neg hnew) (Tree.asText_text _) (by simp [draft])
  · exact RecordReader.fill_of_read (if_neg hnew) (Tree.asText_text _) (by simp [draft])
  · exact RecordReader.fill_of_read (if_neg hnew) (Tree.asText_text _) (by simp [draft])
  · exact RecordReader.fill_of_read (if_neg hnew) (Tree.asList_texts _) (by simp [draft])
  · exact RecordReader.fill_of_read (if_neg hnew) (Tree.asOptional_text _) (by simp [draft])
  · exact RecordReader.fill_of_read (if_neg hnew) (Tree.asOptional_word _) (by simp [draft])

/-- A member of an unknown key has no place. -/
theorem put_unknown {key : String} (h : key ∉ reader.keys) (d : Draft) (t : Tree) :
    d.put key t = none := by
  simp only [reader, List.mem_cons, List.not_mem_nil, or_false, not_or] at h
  obtain ⟨hname, hcomment, hregex, hwords, hfilename, hrepetitions⟩ := h
  exact Draft.put.eq_7 d key t hname hcomment hregex hwords hfilename hrepetitions

/-- An unknown key makes no difference to a draft. -/
theorem draft_cons_unknown (case : Case) {key : String} (h : key ∉ reader.keys)
    (seen : List String) : case.draft (key :: seen) = case.draft seen := by
  have hkey : ∀ known ∈ reader.keys, (known ∈ key :: seen ↔ known ∈ seen) := by
    intro known hknown
    have hne : known ≠ key := fun he => h (he ▸ hknown)
    simp [hne]
  simp only [reader, List.forall_mem_cons] at hkey
  simp only [draft, hkey]

/-- Members of the case that have not been read, with members of unknown keys between them, fill
their places. -/
theorem readMembers_eq {case : Case} {members : List (String × Value)}
    (h : ∀ m ∈ members, m ∈ case.members ∨ (m.1 ∉ reader.keys ∧ m.2.Scalar))
    (honce : members.Pairwise fun m m' => m.1 ∈ reader.keys → m.1 ≠ m'.1) (seen : List String)
    (hnew : ∀ m ∈ members, m.1 ∈ reader.keys → m.1 ∉ seen) :
    reader.readMembers (case.draft seen) (Value.treeMembers members) =
      .ok (case.draft ((members.map Prod.fst).reverse ++ seen)) := by
  induction members generalizing seen with
  | nil => rfl
  | cons m members ih =>
    obtain ⟨key, v⟩ := m
    obtain ⟨hm, hmembers⟩ := List.forall_mem_cons.mp h
    obtain ⟨hother, honce⟩ := List.pairwise_cons.mp honce
    obtain ⟨hkey, hnew⟩ := List.forall_mem_cons.mp hnew
    have hrest : ∀ m ∈ members, m.1 ∈ reader.keys → m.1 ∉ key :: seen := by
      intro m hm hknown hmem
      rcases List.mem_cons.mp hmem with he | hseen
      · exact hother m hm (he ▸ hknown) he.symm
      · exact hnew m hm hknown hseen
    have hread := ih hmembers honce (key :: seen) hrest
    rw [List.map_cons, List.reverse_cons, List.append_assoc, List.singleton_append, ← hread,
      Value.treeMembers, RecordReader.readMembers]
    rcases hm with hmember | ⟨hunknown, hscalar⟩
    · have hput : reader.put (case.draft seen) key v.tree = some (.ok (case.draft (key :: seen))) :=
        put_member hmember (hkey (mem_keys hmember))
      rw [hput]
    · have hput : reader.put (case.draft seen) key v.tree = none := put_unknown hunknown _ _
      rw [hput, hscalar.pass_tree, draft_cons_unknown case hunknown]

/-- The values of members that have not been read fill their places in order. -/
theorem readItems_eq {case : Case} {members : List (String × Value)} (stop : Option ReadError)
    (h : ∀ m ∈ members, m ∈ case.members) (honce : (members.map Prod.fst).Nodup)
    (seen : List String) (hnew : ∀ key ∈ members.map Prod.fst, key ∉ seen) :
    reader.readItems stop (case.draft seen) (members.map Prod.fst)
        (Value.treeItems (members.map Prod.snd)) =
      .ok (case.draft ((members.map Prod.fst).reverse ++ seen)) := by
  induction members generalizing seen with
  | nil => rfl
  | cons m members ih =>
    obtain ⟨key, v⟩ := m
    obtain ⟨hm, hmembers⟩ := List.forall_mem_cons.mp h
    obtain ⟨hother, honce⟩ := List.nodup_cons.mp honce
    obtain ⟨hkey, hnew⟩ := List.forall_mem_cons.mp hnew
    have hrest : ∀ other ∈ members.map Prod.fst, other ∉ key :: seen := by
      intro other hmem hseen
      rcases List.mem_cons.mp hseen with rfl | hseen
      · exact hother hmem
      · exact hnew other hmem hseen
    have hput : reader.put (case.draft seen) key v.tree = some (.ok (case.draft (key :: seen))) :=
      put_member hm hkey
    have hread := ih hmembers honce (key :: seen) hrest
    rw [List.map_cons, List.map_cons, List.reverse_cons, List.append_assoc, List.singleton_append,
      ← hread, Value.treeItems, RecordReader.readItems, hput]

/-- A place that may be left empty has its value, or is empty and its value is the default. -/
theorem getD_place {α : Type} {p : Prop} [Decidable p] {x default : α} (h : p ∨ x = default) :
    (if p then some x else none).getD default = x := by
  by_cases hp : p
  · rw [if_pos hp, Option.getD_some]
  · rw [if_neg hp, Option.getD_none, h.resolve_left hp]

/-- A draft in which nothing is missing but what may be left out is the draft of the case. -/
theorem finish_draft {case : Case} {seen : List String}
    (h : ∀ m ∈ case.members, m.1 ∈ seen ∨ m ∈ omissible) : (case.draft seen).finish = .ok case := by
  simp only [members, omissible, List.mem_cons, List.not_mem_nil, or_false, forall_eq_or_imp,
    forall_eq, Prod.mk.injEq, String.reduceEq, reduceCtorEq, and_self, or_self, true_and, false_and,
    false_or] at h
  obtain ⟨hname, hcomment, hregex, hwords, hfilename, hrepetitions⟩ := h
  have hwords : "words" ∈ seen ∨ case.words = [] := hwords.imp_right fun he =>
    List.map_eq_nil_iff.mp (Value.array.inj he)
  have hfilename : "filename" ∈ seen ∨ case.filename = none := by
    refine hfilename.imp_right fun he => ?_
    cases hf : case.filename with
    | none => rfl
    | some f => simp only [hf, Value.ofOption, reduceCtorEq] at he
  have hrepetitions : "repetitions" ∈ seen ∨ case.repetitions = none := by
    refine hrepetitions.imp_right fun he => ?_
    cases hr : case.repetitions with
    | none => rfl
    | some w => simp only [hr, Value.ofOption, Value.ofNat, reduceCtorEq] at he
  simp only [Draft.finish, draft, if_pos hname, if_pos hcomment, if_pos hregex,
    RecordReader.require, getD_place hwords, getD_place hfilename, getD_place hrepetitions]
  rfl

/-- The keys of a case differ. -/
theorem nodup_keys (case : Case) : (case.members.map Prod.fst).Nodup := by
  rw [map_fst_members]
  decide

/-- No known key comes twice where members of a case and of unknown keys are mixed. -/
theorem once_of_perm {case : Case} {shown omitted extra members : List (String × Value)}
    (hcase : case.members.Perm (shown ++ omitted)) (hextra : ∀ m ∈ extra, m.1 ∉ reader.keys)
    (hmembers : members.Perm (shown ++ extra)) :
    members.Pairwise fun m m' => m.1 ∈ reader.keys → m.1 ≠ m'.1 := by
  have hnodup : ((shown ++ omitted).map Prod.fst).Nodup :=
    (hcase.map Prod.fst).nodup_iff.mp case.nodup_keys
  rw [List.map_append] at hnodup
  have hshown : shown.Pairwise fun m m' => m.1 ≠ m'.1 :=
    List.pairwise_map.mp (List.nodup_append.mp hnodup).1
  have hsymm : ∀ {m m' : String × Value}, (m.1 ∈ reader.keys → m.1 ≠ m'.1) →
      m'.1 ∈ reader.keys → m'.1 ≠ m.1 := fun h hknown he => h (he ▸ hknown) he.symm
  rw [hmembers.pairwise_iff hsymm, List.pairwise_append]
  refine ⟨List.Pairwise.imp ?_ hshown, List.pairwise_of_forall_mem_list ?_, ?_⟩
  · intro m m' hne _
    exact hne
  · intro m hm m' _ hknown
    exact absurd hknown (hextra m hm)
  · intro m _ m' hm' hknown he
    exact hextra m' hm' (he ▸ hknown)

/-- A case is read from an object of its members and members of unknown keys, in any order. -/
theorem read_object {case : Case} {shown omitted extra members : List (String × Value)}
    (hcase : case.members.Perm (shown ++ omitted)) (homitted : ∀ m ∈ omitted, m ∈ omissible)
    (hextra : ∀ m ∈ extra, m.1 ∉ reader.keys ∧ m.2.Scalar)
    (hmembers : members.Perm (shown ++ extra)) :
    reader.read (Value.object members).tree = .ok case := by
  have hstart : reader.start = case.draft [] := rfl
  have hmem : ∀ m ∈ members, m ∈ case.members ∨ (m.1 ∉ reader.keys ∧ m.2.Scalar) := by
    intro m hm
    rcases List.mem_append.mp (hmembers.mem_iff.mp hm) with hshown | hunknown
    · exact Or.inl (hcase.mem_iff.mpr (List.mem_append_left _ hshown))
    · exact Or.inr (hextra m hunknown)
  have honce := once_of_perm hcase (fun m hm => (hextra m hm).1) hmembers
  have hread := readMembers_eq hmem honce [] fun m _ _ => List.not_mem_nil
  have hall : ∀ m ∈ case.members, m.1 ∈ (members.map Prod.fst).reverse ∨ m ∈ omissible := by
    intro m hm
    rcases List.mem_append.mp (hcase.mem_iff.mp hm) with hshown | homit
    · have hwritten : m ∈ members := hmembers.mem_iff.mpr (List.mem_append_left _ hshown)
      exact Or.inl (List.mem_reverse.mpr (List.mem_map_of_mem hwritten))
    · exact Or.inr (homitted m homit)
  rw [Value.tree, RecordReader.read, hstart, hread, List.append_nil]
  exact finish_draft hall

/-- A case is read from the array of its values. -/
theorem read_array (case : Case) :
    reader.read (Value.array (case.members.map Prod.snd)).tree = .ok case := by
  have hstart : reader.start = case.draft [] := rfl
  have hread := readItems_eq none (fun m hm => hm) case.nodup_keys []
    fun key _ => List.not_mem_nil
  have hall : ∀ m ∈ case.members, m.1 ∈ (case.members.map Prod.fst).reverse := by
    intro m hm
    exact List.mem_reverse.mpr (List.mem_map_of_mem hm)
  have hfinish := finish_draft fun m hm => Or.inl (hall m hm)
  rw [Value.tree, RecordReader.read, hstart, ← map_fst_members case, hread, List.append_nil]
  exact hfinish

/-- Whichever way a case is written, it is read. -/
theorem WrittenAs.read_eq {case : Case} {v : Value} (h : case.WrittenAs v) :
    reader.read v.tree = .ok case := by
  cases h with
  | object hcase homitted hextra hmembers => exact read_object hcase homitted hextra hmembers
  | array => exact case.read_array

/-- Whichever way a case is written, no decimal is written. -/
theorem WrittenAs.integral {case : Case} {v : Value} (h : case.WrittenAs v) : v.Integral := by
  have hcase : ∀ m ∈ case.members, m.2.Integral := by
    simp only [members, List.forall_mem_cons, List.not_mem_nil, false_imp_iff, implies_true,
      and_true]
    refine ⟨.text _, .text _, .text _, Value.integral_texts _, ?_, ?_⟩
    · cases case.filename with
      | none => exact .null
      | some f => exact .text f
    · cases case.repetitions with
      | none => exact .null
      | some w => exact .integer false w.toNat
  cases h with
  | @object shown omitted extra members hcase' homitted hextra hmembers =>
    refine .object fun m hm => ?_
    rcases List.mem_append.mp (hmembers.mem_iff.mp hm) with hshown | hunknown
    · exact hcase m (hcase'.mem_iff.mpr (List.mem_append_left _ hshown))
    · exact (hextra m hunknown).2.integral
  | array => exact .array (List.forall_mem_map.mpr hcase)

/-- Whichever way each of the cases is written, the text of the array of them lists the cases. -/
theorem listOfJson_compact {cases : List Case} {values : List Value}
    (h : List.Forall₂ WrittenAs cases values) :
    listOfJson (Value.array values).compact = .ok cases := by
  have hintegral : ∀ v ∈ values, v.Integral := by
    induction h with
    | nil => exact fun v hv => absurd hv List.not_mem_nil
    | cons hv _ ih => exact List.forall_mem_cons.mpr ⟨hv.integral, ih⟩
  rw [listOfJson, readText_compact _ (.array hintegral)]
  exact Tree.asList_array (h.imp fun case v hv => hv.read_eq)

end Case

end PatternAutomata.Benchmark
