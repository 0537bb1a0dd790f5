import PatternAutomata.Collection.Outcome

/-!
# Maps sorted by key

A map is a list of entries in strictly increasing order of key, so that walking it
visits the keys in order, and two maps that answer every look-up alike are the same
value. Insertion changes the look-up at one key, and transforming the values never touches
the keys.
-/

namespace PatternAutomata

/-- A finite map whose entries stand in strictly increasing order of key. -/
structure SortedMap (κ : Type) (β : Type) [LT κ] where
  entries : List (κ × β)
  sorted : (entries.map Prod.fst).Pairwise (· < ·)

namespace SortedMap

variable {κ β γ : Type}

/-- Equality of maps is equality of their entries. -/
theorem ext_entries [LT κ] {m n : SortedMap κ β} (h : m.entries = n.entries) : m = n := by
  cases m
  cases n
  cases h
  rfl

instance [LT κ] [DecidableEq κ] [DecidableEq β] : DecidableEq (SortedMap κ β) := fun m n =>
  if h : m.entries = n.entries then .isTrue (ext_entries h)
  else .isFalse fun he => h (congrArg entries he)

/-- The map without entries. -/
def empty [LT κ] : SortedMap κ β := ⟨[], .nil⟩

instance [LT κ] : EmptyCollection (SortedMap κ β) := ⟨empty⟩

instance [LT κ] : Inhabited (SortedMap κ β) := ⟨empty⟩

/-- The keys in increasing order. -/
def keys [LT κ] (m : SortedMap κ β) : List κ := m.entries.map Prod.fst

/-- The values in order of their keys. -/
def values [LT κ] (m : SortedMap κ β) : List β := m.entries.map Prod.snd

/-- The value at a key, if there is one. -/
def get? [LT κ] [DecidableEq κ] (m : SortedMap κ β) (k : κ) : Option β :=
  (m.entries.find? (·.1 = k)).map Prod.snd

@[simp] theorem get?_empty [LT κ] [DecidableEq κ] (k : κ) :
    (∅ : SortedMap κ β).get? k = none := rfl

/-- Puts `v` at `k` into a list of entries in order of key. -/
def insertEntry [LT κ] [DecidableLT κ] [DecidableEq κ] (k : κ) (v : β) :
    List (κ × β) → List (κ × β)
  | [] => [(k, v)]
  | e :: rest =>
    if k < e.1 then (k, v) :: e :: rest
    else if k = e.1 then (k, v) :: rest
    else e :: insertEntry k v rest

/-- An inserted entry is found first under its key, and hides no other key. -/
theorem find?_insertEntry [LT κ] [DecidableLT κ] [DecidableEq κ] {k k' : κ} {v : β}
    {es : List (κ × β)} :
    (insertEntry k v es).find? (·.1 = k') =
      if k = k' then some (k, v) else es.find? (·.1 = k') := by
  induction es with
  | nil =>
    rw [insertEntry, List.find?_cons, List.find?_nil]
    by_cases hk : k = k' <;> simp only [hk, decide_true, decide_false, if_true, if_false]
  | cons e es ih =>
    simp only [insertEntry]
    split
    · rw [List.find?_cons]
      by_cases hk : k = k' <;> simp only [hk, decide_true, decide_false, if_true, if_false]
    · split
      · rename_i hke
        rw [List.find?_cons, List.find?_cons, ← hke]
        by_cases hk : k = k' <;> simp only [hk, decide_true, decide_false, if_true, if_false]
      · rename_i hke
        rw [List.find?_cons, List.find?_cons, ih]
        by_cases hk : k = k'
        · have hne : ¬ e.1 = k' := fun he => hke (hk.trans he.symm)
          simp only [hk, hne, decide_false, if_true]
        · simp only [hk, if_false]

/-- Insertion adds no key but the inserted one. -/
theorem mem_keys_insertEntry [LT κ] [DecidableLT κ] [DecidableEq κ] {k : κ} {v : β}
    {es : List (κ × β)} {x : κ} (h : x ∈ (insertEntry k v es).map Prod.fst) :
    x = k ∨ x ∈ es.map Prod.fst := by
  induction es with
  | nil => exact Or.inl (by simpa only [insertEntry, List.map_cons, List.map_nil,
      List.mem_singleton] using h)
  | cons e rest ih =>
    simp only [insertEntry] at h
    split at h
    · simpa only [List.map_cons, List.mem_cons] using h
    · split at h
      · simp only [List.map_cons, List.mem_cons] at h ⊢
        exact h.imp id Or.inr
      · simp only [List.map_cons, List.mem_cons] at h ⊢
        rcases h with h | h
        · exact Or.inr (Or.inl h)
        · exact (ih h).imp id Or.inr

section Insertion

variable [LE κ] [LT κ] [DecidableLT κ] [DecidableEq κ] [Std.IsLinearOrder κ] [Std.LawfulOrderLT κ]

/-- Insertion keeps the order of keys. -/
theorem pairwise_insertEntry {k : κ} {v : β} {es : List (κ × β)}
    (h : (es.map Prod.fst).Pairwise (· < ·)) :
    ((insertEntry k v es).map Prod.fst).Pairwise (· < ·) := by
  induction es with
  | nil => simp only [insertEntry, List.map_cons, List.map_nil, List.pairwise_cons,
      List.not_mem_nil, false_implies, implies_true, List.Pairwise.nil, and_self]
  | cons e rest ih =>
    rw [List.map_cons, List.pairwise_cons] at h
    simp only [insertEntry]
    split
    · rename_i hlt
      rw [List.map_cons, List.pairwise_cons, List.map_cons, List.pairwise_cons]
      refine ⟨fun x hx => ?_, h⟩
      rcases List.mem_cons.mp hx with hx | hx
      · exact hx ▸ hlt
      · exact Std.lt_trans hlt (h.1 x hx)
    · rename_i hnlt
      split
      · rename_i heq
        rw [List.map_cons, List.pairwise_cons]
        exact ⟨fun x hx => heq ▸ h.1 x hx, h.2⟩
      · rename_i hne
        rw [List.map_cons, List.pairwise_cons]
        refine ⟨fun x hx => ?_, ih h.2⟩
        rcases mem_keys_insertEntry hx with hx | hx
        · have hle : e.1 ≤ k := Std.not_lt.mp hnlt
          exact hx ▸ Std.lt_of_le_of_ne hle (Ne.symm hne)
        · exact h.1 x hx

/-- Puts `v` at `k`, in place of the value that stood there. -/
def insert (m : SortedMap κ β) (k : κ) (v : β) : SortedMap κ β :=
  ⟨insertEntry k v m.entries, pairwise_insertEntry m.sorted⟩

/-- Insertion changes the look-up at the inserted key alone. -/
theorem get?_insert (m : SortedMap κ β) (k k' : κ) (v : β) :
    (m.insert k v).get? k' = if k = k' then some v else m.get? k' := by
  unfold get? insert
  rw [find?_insertEntry]
  split <;> rfl

/-- The map of the listed entries, later ones replacing earlier ones of the same key. -/
def ofList (es : List (κ × β)) : SortedMap κ β := es.foldl (fun m e => m.insert e.1 e.2) ∅

end Insertion

/-- Pairing keys with values keeps the keys in their order. -/
theorem map_fst_zip_sublist (ks : List κ) (vs : List γ) :
    ((ks.zip vs).map Prod.fst).Sublist ks := by
  induction ks generalizing vs with
  | nil => simp only [List.zip_nil_left, List.map_nil, List.Sublist.refl]
  | cons k ks ih =>
    cases vs with
    | nil => exact List.nil_sublist _
    | cons v vs => exact (ih vs).cons_cons k

/-- Gives the keys new values, one each in order of key. -/
def rekey [LT κ] (m : SortedMap κ β) (vs : List γ) : SortedMap κ γ :=
  ⟨m.keys.zip vs, m.sorted.sublist (map_fst_zip_sublist _ _)⟩

/-- Transforms listed values from left to right, a state passing from each to the next. -/
def accumulate {m : Type → Type} [Monad m] {σ : Type} (f : σ → β → m (γ × σ)) :
    σ → List β → m (List γ × σ)
  | s, [] => pure ([], s)
  | s, v :: vs => do
    let (w, s) ← f s v
    let (ws, s) ← accumulate f s vs
    pure (w :: ws, s)

/-- A successful transformation of a list transforms its first value and then the others. -/
theorem exists_of_accumulate_cons {ε σ : Type} {f : σ → β → Except ε (γ × σ)} {s s' : σ} {v : β}
    {vs : List β} {ws : List γ} (h : accumulate f s (v :: vs) = .ok (ws, s')) :
    ∃ w s₁ rest, f s v = .ok (w, s₁) ∧ accumulate f s₁ vs = .ok (rest, s') ∧ ws = w :: rest := by
  rw [accumulate] at h
  obtain ⟨⟨w, s₁⟩, hv, h⟩ := exists_of_bind_eq_ok h
  obtain ⟨⟨rest, s₂⟩, hvs, h⟩ := exists_of_bind_eq_ok h
  cases h
  exact ⟨w, s₁, rest, hv, hvs, rfl⟩

/-- Transforms every value in order of key, a state passing from each to the next; the
keys stay the same. -/
def mapAccumM {m : Type → Type} [Monad m] {σ : Type} [LT κ] (f : σ → β → m (γ × σ)) (s : σ)
    (map : SortedMap κ β) : m (SortedMap κ γ × σ) := do
  let (ws, s) ← accumulate f s map.values
  pure (map.rekey ws, s)

/-- `mapAccumM` for a transformation that always succeeds. -/
def mapAccum {σ : Type} [LT κ] (f : σ → β → γ × σ) (s : σ) (map : SortedMap κ β) :
    SortedMap κ γ × σ :=
  Id.run (map.mapAccumM (fun s v => pure (f s v)) s)

/-- Transforms every value in order of key without a state. -/
def mapValuesM {m : Type → Type} [Monad m] [LT κ] (f : β → m γ) (map : SortedMap κ β) :
    m (SortedMap κ γ) := do
  pure (map.rekey (← map.values.mapM f))

/-- New values are taken from the given ones. -/
theorem mem_of_mem_values_rekey [LT κ] {map : SortedMap κ β} {ws : List γ} {w : γ}
    (h : w ∈ (map.rekey ws).values) : w ∈ ws := by
  obtain ⟨e, he, hw⟩ := List.mem_map.mp h
  exact hw ▸ (List.of_mem_zip he).2

/-- Every value of a successfully transformed map comes from one of its values. -/
theorem exists_of_mem_mapValuesM [LT κ] {ε : Type} {f : β → Except ε γ} {map : SortedMap κ β}
    {result : SortedMap κ γ} (h : map.mapValuesM f = .ok result) {w : γ}
    (hw : w ∈ result.values) : ∃ v ∈ map.values, f v = .ok w := by
  obtain ⟨ws, hvs, h⟩ := exists_of_bind_eq_ok h
  cases h
  exact exists_of_mem_mapM hvs (mem_of_mem_values_rekey hw)

end SortedMap

end PatternAutomata
