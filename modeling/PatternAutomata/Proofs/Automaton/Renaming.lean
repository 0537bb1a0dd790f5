import Mathlib.Data.Set.Function
import Mathlib.Order.Interval.Set.Defs
import PatternAutomata.Proofs.Automaton.Reach

/-!
# Automata with other names for the same states

A renaming takes the names of one automaton to those of another, so that acceptance and
edges are the same up to names. Of the ε-edges of a state only the set of targets counts:
their order and repetitions may differ. What a relation of the second automaton leads to
from an image is then the image of what it leads to in the first one, and from single edges
this passes on to closures, to the successors of a set, and to whole runs.
-/

namespace PatternAutomata

open Relation

namespace NatSet

/-- The images of the members. -/
def image (f : Nat → Nat) (s : NatSet) : NatSet := ofList (s.toList.map f)

@[simp] theorem mem_image {f : Nat → Nat} {s : NatSet} {r : Nat} :
    r ∈ s.image f ↔ ∃ q, q ∈ s ∧ f q = r := by
  simp only [image, mem_ofList, List.mem_map, mem_toList]

/-- Sets are told apart by their images where the map tells their members apart. -/
theorem image_eq_image_iff {f : Nat → Nat} {n : Nat} (hf : Set.InjOn f (Set.Iio n)) {s t : NatSet}
    (hs : ∀ q, q ∈ s → q < n) (ht : ∀ q, q ∈ t → q < n) : s.image f = t.image f ↔ s = t := by
  have hsub : ∀ {u v : NatSet}, (∀ q, q ∈ u → q < n) → (∀ q, q ∈ v → q < n) →
      u.image f = v.image f → ∀ q, q ∈ u → q ∈ v := by
    intro u v hu hv he q hq
    have himage : f q ∈ v.image f := he ▸ mem_image.mpr ⟨q, hq, rfl⟩
    obtain ⟨p, hp, hpq⟩ := mem_image.mp himage
    exact hf (hv p hp) (hu q hq) hpq ▸ hp
  constructor
  · intro he
    exact ext fun q => ⟨hsub hs ht he q, hsub ht hs he.symm q⟩
  · intro he
    rw [he]

end NatSet

/-- Where the steps from an image are the images of the steps, so are chains of steps. -/
theorem reflTransGen_image_iff {α β : Type} {r : α → α → Prop} {r' : β → β → Prop} {g : α → β}
    {D : α → Prop} (hD : ∀ a b, D a → r a b → D b)
    (hstep : ∀ a, D a → ∀ y, r' (g a) y ↔ ∃ b, r a b ∧ g b = y) {a : α} (ha : D a) (y : β) :
    ReflTransGen r' (g a) y ↔ ∃ b, ReflTransGen r a b ∧ g b = y := by
  have hdomain : ∀ b, ReflTransGen r a b → D b := by
    intro b hb
    induction hb with
    | refl => exact ha
    | tail _ hstep ih => exact hD _ _ ih hstep
  constructor
  · intro h
    induction h with
    | refl => exact ⟨a, .refl, rfl⟩
    | tail _ hlast ih =>
      obtain ⟨b, hb, rfl⟩ := ih
      obtain ⟨c, hc, rfl⟩ := (hstep b (hdomain b hb) _).mp hlast
      exact ⟨c, hb.tail hc, rfl⟩
  · rintro ⟨b, hb, rfl⟩
    induction hb with
    | refl => exact .refl
    | tail hb hlast ih => exact ih.tail ((hstep _ (hdomain _ hb) _).mpr ⟨_, hlast, rfl⟩)

namespace Nfa

/-- The map `f` takes the states of `A` to those of `B`, one to one, and the start to the
start; states agree in acceptance and transitions up to names, and in the set of targets of
their ε-edges. -/
structure Renames (f : StateId → StateId) (A B : Nfa) : Prop where
  bijOn : Set.BijOn f (Set.Iio A.size) (Set.Iio B.size)
  start : f A.start = B.start
  accepting_iff : ∀ q < A.size, B.Accepting (f q) ↔ A.Accepting q
  reads_iff : ∀ p < A.size, ∀ q < A.size, ∀ c, B.Reads (f p) c (f q) ↔ A.Reads p c q
  jumps_iff : ∀ p < A.size, ∀ r, B.Jumps (f p) r ↔ ∃ q, A.Jumps p q ∧ f q = r

variable {f : StateId → StateId} {A B : Nfa}

/-- The image of a set of states is a set of states. -/
theorem Renames.lt_size_of_mem_image (h : Renames f A B) {set : NatSet}
    (hset : ∀ q, q ∈ set → q < A.size) {r : StateId} (hr : r ∈ set.image f) : r < B.size := by
  obtain ⟨q, hq, rfl⟩ := NatSet.mem_image.mp hr
  exact h.bijOn.mapsTo (hset q hq)

/-- What the transitions of a renamed state lead to are the images of what they led to. -/
theorem Renames.reads_image_iff (h : Renames f A B) (hA : A.InRange) (hB : B.InRange) {p : StateId}
    (hp : p < A.size) (c : Char) (r : StateId) :
    B.Reads (f p) c r ↔ ∃ q, A.Reads p c q ∧ f q = r := by
  constructor
  · intro hr
    obtain ⟨q, hq, rfl⟩ := h.bijOn.surjOn (hB.reads_lt hr)
    exact ⟨q, (h.reads_iff p hp q hq c).mp hr, rfl⟩
  · rintro ⟨q, hq, rfl⟩
    exact (h.reads_iff p hp q (hA.reads_lt hq) c).mpr hq

/-- What ε-edges lead to from a renamed state are the images of what they led to. -/
theorem Renames.reaches_image_iff (h : Renames f A B) (hA : A.InRange) {p : StateId}
    (hp : p < A.size) (r : StateId) :
    ReflTransGen B.Jumps (f p) r ↔ ∃ q, ReflTransGen A.Jumps p q ∧ f q = r :=
  reflTransGen_image_iff (fun _ _ _ hj => hA.jumps_lt hj) h.jumps_iff hp r

/-- The closure of a renamed state is the image of the closure. -/
theorem Renames.close_image (h : Renames f A B) (hA : A.InRange) (hB : B.InRange) {q : StateId}
    (hq : q < A.size) {closed : NatSet} (hclosed : A.close q = .ok closed) :
    B.close (f q) = .ok (closed.image f) := by
  obtain ⟨closedA, hokA, hmemA⟩ := exists_close hA hq
  obtain ⟨closedB, hokB, hmemB⟩ := exists_close hB (h.bijOn.mapsTo hq)
  cases hokA.symm.trans hclosed
  have he : closedB = closed.image f := by
    refine NatSet.ext fun r => ?_
    rw [hmemB, h.reaches_image_iff hA hq, NatSet.mem_image]
    simp only [hmemA]
  exact he ▸ hokB

/-- What a symbol leads to from the image of a set is the image of what it led to. -/
theorem Renames.leads_image_iff (h : Renames f A B) (hA : A.InRange) (hB : B.InRange)
    {set : NatSet} (hset : ∀ q, q ∈ set → q < A.size) (c : Char) (r : StateId) :
    B.Leads (set.image f) c r ↔ ∃ q, A.Leads set c q ∧ f q = r := by
  constructor
  · rintro ⟨t, ⟨p, himage, hread⟩, hreach⟩
    obtain ⟨p, hp, rfl⟩ := NatSet.mem_image.mp himage
    obtain ⟨t, ht, rfl⟩ := (h.reads_image_iff hA hB (hset p hp) c t).mp hread
    obtain ⟨q, hq, rfl⟩ := (h.reaches_image_iff hA (hA.reads_lt ht) r).mp hreach
    exact ⟨q, ⟨t, ⟨p, hp, ht⟩, hq⟩, rfl⟩
  · rintro ⟨q, ⟨t, ⟨p, hp, ht⟩, hq⟩, rfl⟩
    have hread := (h.reads_image_iff hA hB (hset p hp) c (f t)).mpr ⟨t, ht, rfl⟩
    have hreach := (h.reaches_image_iff hA (hA.reads_lt ht) (f q)).mpr ⟨q, hq, rfl⟩
    exact ⟨f t, ⟨f p, NatSet.mem_image.mpr ⟨p, hp, rfl⟩, hread⟩, hreach⟩

/-- The successors of the image of a set are the images of its successors. -/
theorem Renames.successors_image (h : Renames f A B) (hA : A.InRange) (hB : B.InRange)
    {set : NatSet} (hset : ∀ q, q ∈ set → q < A.size) {table : SortedMap Char NatSet}
    (htable : A.successors set = .ok table) :
    B.successors (set.image f) = .ok (table.mapValues (NatSet.image f)) := by
  obtain ⟨tableA, hokA, hlookA⟩ := exists_successors hA hset
  obtain ⟨tableB, hokB, hlookB⟩ :=
    exists_successors hB fun _ hr => h.lt_size_of_mem_image hset hr
  cases hokA.symm.trans htable
  have he : tableB = table.mapValues (NatSet.image f) := by
    refine SortedMap.ext_get? fun c => ?_
    rw [SortedMap.get?_mapValues]
    have hleads := h.leads_image_iff hA hB hset c
    rcases hlookA c with ⟨hA, hnone⟩ | ⟨next, hA, ⟨q, hq⟩, hnext⟩
    · rcases hlookB c with ⟨hB, -⟩ | ⟨next', -, ⟨r, hr⟩, hnext'⟩
      · rw [hA, hB, Option.map_none]
      · obtain ⟨q, hq, -⟩ := (hleads r).mp ((hnext' r).mp hr)
        exact absurd hq (hnone q)
    · rcases hlookB c with ⟨-, hnone⟩ | ⟨next', hB, -, hnext'⟩
      · exact absurd ((hleads (f q)).mpr ⟨q, (hnext q).mp hq, rfl⟩) (hnone (f q))
      · rw [hA, hB, Option.map_some]
        refine congrArg some (NatSet.ext fun r => ?_)
        rw [hnext', hleads, NatSet.mem_image]
        simp only [hnext]
  exact he ▸ hokB

/-- The image of a set has an accepting state exactly when the set has one. -/
theorem Renames.containsAccepting_image (h : Renames f A B) {set : NatSet}
    (hset : ∀ q, q ∈ set → q < A.size) {b : Bool} (hb : A.containsAccepting set = .ok b) :
    B.containsAccepting (set.image f) = .ok b := by
  obtain ⟨a, ha, hiffA⟩ := exists_containsAccepting hset
  obtain ⟨b', hb', hiffB⟩ :=
    exists_containsAccepting fun _ hr => h.lt_size_of_mem_image hset hr
  cases ha.symm.trans hb
  have he : b' = b := by
    refine Bool.eq_iff_iff.mpr (hiffB.trans (Iff.trans ?_ hiffA.symm))
    constructor
    · rintro ⟨r, hr, hacc⟩
      obtain ⟨q, hq, rfl⟩ := NatSet.mem_image.mp hr
      exact ⟨q, hq, (h.accepting_iff q (hset q hq)).mp hacc⟩
    · rintro ⟨q, hq, hacc⟩
      exact ⟨f q, NatSet.mem_image.mpr ⟨q, hq, rfl⟩, (h.accepting_iff q (hset q hq)).mpr hacc⟩
  exact he ▸ hb'

/-- The runs from a renamed state end in the images of where the runs ended. -/
theorem Renames.run_image_iff (h : Renames f A B) (hA : A.InRange) (hB : B.InRange)
    {word : List Char} {p : StateId} (hp : p < A.size) (r : StateId) :
    B.Run (f p) word r ↔ ∃ q, A.Run p word q ∧ f q = r := by
  induction word generalizing p with
  | nil =>
    rw [run_nil_iff, h.reaches_image_iff hA hp]
    simp only [run_nil_iff]
  | cons c word ih =>
    constructor
    · intro hrun
      obtain ⟨p', t, hreach, hread, hrun⟩ := run_cons_iff.mp hrun
      obtain ⟨p', hp', rfl⟩ := (h.reaches_image_iff hA hp p').mp hreach
      have hlt : p' < A.size := hA.run_lt hp (run_of_jumps hp')
      obtain ⟨t, ht, rfl⟩ := (h.reads_image_iff hA hB hlt c t).mp hread
      obtain ⟨q, hq, rfl⟩ := (ih (hA.reads_lt ht)).mp hrun
      exact ⟨q, run_cons_iff.mpr ⟨p', t, hp', ht, hq⟩, rfl⟩
    · rintro ⟨q, hrun, rfl⟩
      obtain ⟨p', t, hp', ht, hq⟩ := run_cons_iff.mp hrun
      have hlt : p' < A.size := hA.run_lt hp (run_of_jumps hp')
      exact run_cons_iff.mpr ⟨f p', f t, (h.reaches_image_iff hA hp (f p')).mpr ⟨p', hp', rfl⟩,
        (h.reads_image_iff hA hB hlt c (f t)).mpr ⟨t, ht, rfl⟩,
        (ih (hA.reads_lt ht)).mpr ⟨q, hq, rfl⟩⟩

/-- Automata with other names for the same states have the same language. -/
theorem Renames.recognizes_iff (h : Renames f A B) (hA : A.InRange) (hB : B.InRange)
    (word : List Char) : B.Recognizes word ↔ A.Recognizes word := by
  rw [Recognizes, ← h.start]
  constructor
  · rintro ⟨r, hrun, hacc⟩
    obtain ⟨q, hq, rfl⟩ := (h.run_image_iff hA hB hA.start_lt r).mp hrun
    exact ⟨q, hq, (h.accepting_iff q (hA.run_lt hA.start_lt hq)).mp hacc⟩
  · rintro ⟨q, hq, hacc⟩
    exact ⟨f q, (h.run_image_iff hA hB hA.start_lt (f q)).mpr ⟨q, hq, rfl⟩,
      (h.accepting_iff q (hA.run_lt hA.start_lt hq)).mpr hacc⟩

end Nfa

end PatternAutomata
