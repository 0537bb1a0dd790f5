import PatternAutomata.Collection.Counting

/-!
# Finite sets of natural numbers as bit patterns

A set is one natural number whose bit `n` says whether `n` is a member. Two sets with
the same members are therefore the same value, so a set can index a table by plain
equality, and listing the bits from the lowest upward gives the members in increasing
order without duplicates.
-/

namespace PatternAutomata

/-- A finite set of natural numbers; bit `n` of `bits` is set exactly when `n` is a member. -/
structure NatSet where
  bits : Nat
  deriving DecidableEq

namespace NatSet

/-- The set without members. -/
def empty : NatSet := ⟨0⟩

instance : EmptyCollection NatSet := ⟨empty⟩

instance : Inhabited NatSet := ⟨empty⟩

instance : Membership Nat NatSet := ⟨fun s n => s.bits.testBit n = true⟩

instance (n : Nat) (s : NatSet) : Decidable (n ∈ s) :=
  inferInstanceAs (Decidable (s.bits.testBit n = true))

/-- Adds one member. -/
def insert (s : NatSet) (n : Nat) : NatSet := ⟨s.bits ||| 1 <<< n⟩

/-- The set of the listed numbers. -/
def ofList (ns : List Nat) : NatSet := ns.foldl insert ∅

/-- The members in increasing order. -/
def toList (s : NatSet) : List Nat := (List.range (s.bits.log2 + 1)).filter s.bits.testBit

/-- The number of members. -/
def size (s : NatSet) : Nat := s.toList.length

/-- No number is a member. -/
def isEmpty (s : NatSet) : Bool := s.bits == 0

/-- The members of either set. -/
def union (s t : NatSet) : NatSet := ⟨s.bits ||| t.bits⟩

/-- The members of both sets. -/
def inter (s t : NatSet) : NatSet := ⟨s.bits &&& t.bits⟩

/-- The members of the first set that are not in the second. -/
def diff (s t : NatSet) : NatSet := ⟨s.bits ^^^ (s.bits &&& t.bits)⟩

/-- Every member plus one. -/
def shift (s : NatSet) : NatSet := ⟨s.bits <<< 1⟩

/-- The numbers below `n`. -/
def below (n : Nat) : NatSet := ⟨(1 <<< n) - 1⟩

/-- How many numbers below `n` are not members. -/
def absentBelow (s : NatSet) (n : Nat) : Nat := (List.range n).countP (decide <| · ∉ s)

/-- Membership is the test of one bit. -/
theorem mem_iff {s : NatSet} {n : Nat} : n ∈ s ↔ s.bits.testBit n = true := Iff.rfl

/-- Sets with the same members are equal. -/
theorem ext {s t : NatSet} (h : ∀ n, n ∈ s ↔ n ∈ t) : s = t := by
  cases s with
  | mk a =>
    cases t with
    | mk b =>
      have hab : a = b := Nat.eq_of_testBit_eq fun i => Bool.eq_iff_iff.mpr (h i)
      rw [hab]

@[simp] theorem not_mem_empty (n : Nat) : ¬ n ∈ (∅ : NatSet) := by
  change ¬ (Nat.testBit 0 n = true)
  simp only [Nat.zero_testBit, Bool.false_eq_true, not_false_eq_true]

@[simp] theorem mem_insert {s : NatSet} {m n : Nat} : m ∈ s.insert n ↔ m = n ∨ m ∈ s := by
  change (s.bits ||| 1 <<< n).testBit m = true ↔ m = n ∨ s.bits.testBit m = true
  rw [Nat.one_shiftLeft, Nat.testBit_or, Nat.testBit_two_pow, Bool.or_eq_true,
    decide_eq_true_eq, or_comm, eq_comm]

@[simp] theorem mem_union {s t : NatSet} {n : Nat} : n ∈ s.union t ↔ n ∈ s ∨ n ∈ t := by
  rw [mem_iff, union, Nat.testBit_or, Bool.or_eq_true]
  exact Iff.rfl

@[simp] theorem mem_inter {s t : NatSet} {n : Nat} : n ∈ s.inter t ↔ n ∈ s ∧ n ∈ t := by
  rw [mem_iff, inter, Nat.testBit_and, Bool.and_eq_true]
  exact Iff.rfl

@[simp] theorem mem_diff {s t : NatSet} {n : Nat} : n ∈ s.diff t ↔ n ∈ s ∧ n ∉ t := by
  rw [mem_iff, diff, Nat.testBit_xor, Nat.testBit_and, mem_iff, mem_iff]
  cases s.bits.testBit n <;> cases t.bits.testBit n <;> decide

@[simp] theorem mem_below {n m : Nat} : m ∈ below n ↔ m < n := by
  rw [mem_iff, below, Nat.one_shiftLeft, Nat.testBit_two_pow_sub_one, decide_eq_true_eq]

@[simp] theorem mem_shift {s : NatSet} {n : Nat} : n ∈ s.shift ↔ ∃ m, m ∈ s ∧ n = m + 1 := by
  rw [mem_iff, shift, Nat.testBit_shiftLeft, Bool.and_eq_true, decide_eq_true_eq]
  constructor
  · rintro ⟨h1, hs⟩
    exact ⟨n - 1, hs, by omega⟩
  · rintro ⟨m, hm, rfl⟩
    exact ⟨by omega, hm⟩

/-- A member is bounded by the highest bit. -/
theorem lt_of_mem {s : NatSet} {n : Nat} (h : n ∈ s) : n < s.bits.log2 + 1 := by
  by_cases hn : s.bits.log2 + 1 ≤ n
  · have hlt : s.bits < 2 ^ n :=
      Nat.lt_of_lt_of_le Nat.lt_log2_self (Nat.pow_le_pow_right (by decide) hn)
    rw [mem_iff, Nat.testBit_lt_two_pow hlt] at h
    exact absurd h (by decide)
  · omega

@[simp] theorem mem_toList {s : NatSet} {n : Nat} : n ∈ s.toList ↔ n ∈ s := by
  rw [toList, List.mem_filter, List.mem_range]
  exact ⟨fun h => h.2, fun h => ⟨lt_of_mem h, h⟩⟩

private theorem mem_foldl_insert {ns : List Nat} {s : NatSet} {n : Nat} :
    n ∈ ns.foldl insert s ↔ n ∈ ns ∨ n ∈ s := by
  induction ns generalizing s with
  | nil => simp only [List.foldl_nil, List.not_mem_nil, false_or]
  | cons m ns ih =>
    rw [List.foldl_cons, ih, mem_insert, List.mem_cons, or_left_comm, ← or_assoc]

@[simp] theorem mem_ofList {ns : List Nat} {n : Nat} : n ∈ ofList ns ↔ n ∈ ns := by
  simp only [ofList, mem_foldl_insert, not_mem_empty, or_false]

@[simp] theorem ofList_toList (s : NatSet) : ofList s.toList = s :=
  ext fun _ => by rw [mem_ofList, mem_toList]

/-- Sets that list the same members are equal. -/
theorem toList_inj {s t : NatSet} : s.toList = t.toList ↔ s = t := by
  refine ⟨fun h => ?_, congrArg toList⟩
  rw [← ofList_toList s, h, ofList_toList]

theorem isEmpty_iff {s : NatSet} : s.isEmpty = true ↔ s = ∅ := by
  cases s with
  | mk a =>
    change (a == 0) = true ↔ NatSet.mk a = NatSet.mk 0
    rw [beq_iff_eq, NatSet.mk.injEq]

/-- A set that is not empty has a member. -/
theorem exists_mem_of_ne_empty {s : NatSet} (h : s ≠ ∅) : ∃ n, n ∈ s := by
  apply Classical.byContradiction
  intro hno
  exact h (ext fun n => iff_of_false (fun hn => hno ⟨n, hn⟩) (not_mem_empty n))

/-- A set with a member has a positive size. -/
theorem size_pos {s : NatSet} {n : Nat} (h : n ∈ s) : 0 < s.size :=
  List.length_pos_of_mem (mem_toList.mpr h)

/-- A set whose members all lie below `n` has a pattern of at most `n` bits. -/
theorem bits_lt_of_forall_lt {s : NatSet} {n : Nat} (h : ∀ m, m ∈ s → m < n) :
    s.bits < 1 <<< n := by
  rw [Nat.one_shiftLeft]
  apply Nat.lt_pow_two_of_testBit
  intro i hi
  cases hb : s.bits.testBit i with
  | false => rfl
  | true => exact absurd (h i hb) (by omega)

/-- A set with one more member below `n` has fewer absent numbers. -/
theorem absentBelow_lt_of_subset {s t : NatSet} {n q : Nat} (hst : ∀ m, m ∈ s → m ∈ t)
    (hq : q < n) (ht : q ∈ t) (hs : q ∉ s) : t.absentBelow n < s.absentBelow n := by
  apply countP_lt_countP (y := q)
  · intro x _ hx
    rw [decide_eq_true_eq] at hx ⊢
    exact fun h => hx (hst x h)
  · exact List.mem_range.mpr hq
  · exact decide_eq_true hs
  · exact decide_eq_false fun h => h ht

/-- Adding a number below `n` that was absent leaves one absent number fewer. -/
theorem absentBelow_insert_lt {s : NatSet} {n q : Nat} (hq : q < n) (hs : q ∉ s) :
    (s.insert q).absentBelow n < s.absentBelow n :=
  absentBelow_lt_of_subset (fun _ hm => mem_insert.mpr (Or.inr hm)) hq
    (mem_insert.mpr (Or.inl rfl)) hs

/-- No more than `n` numbers below `n` are absent. -/
theorem absentBelow_le (s : NatSet) (n : Nat) : s.absentBelow n ≤ n := by
  have h := List.countP_le_length (p := fun q => decide (q ∉ s)) (l := List.range n)
  rwa [List.length_range] at h

end NatSet

end PatternAutomata
