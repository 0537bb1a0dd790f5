import Mathlib.Data.List.Forall2
import Mathlib.Data.List.Sort
import PatternAutomata.Collection.SortedMap

/-!
# Look-ups in a sorted map

A look-up finds exactly the entries, because no key stands twice, so a map is known by its
look-ups. A transformation of the values relates the look-ups of the two maps key by key.
-/

namespace PatternAutomata.SortedMap

variable {κ β γ : Type}

/-- Keys paired with related values: every new entry belongs to an old one. -/
theorem exists_of_mem_zip {R : β → γ → Prop} {es : List (κ × β)} {ws : List γ}
    (h : List.Forall₂ R (es.map Prod.snd) ws) {k : κ} {w : γ}
    (hw : (k, w) ∈ (es.map Prod.fst).zip ws) : ∃ v, (k, v) ∈ es ∧ R v w := by
  induction es generalizing ws with
  | nil => exact absurd hw List.not_mem_nil
  | cons e es ih =>
    cases h with
    | cons hR hrest =>
      rcases List.mem_cons.mp hw with hw | hw
      · cases hw
        exact ⟨e.2, List.mem_cons_self, hR⟩
      · obtain ⟨v, hv, hvw⟩ := ih hrest hw
        exact ⟨v, List.mem_cons_of_mem _ hv, hvw⟩

/-- Keys paired with related values: every old entry has a new one. -/
theorem exists_mem_zip {R : β → γ → Prop} {es : List (κ × β)} {ws : List γ}
    (h : List.Forall₂ R (es.map Prod.snd) ws) {k : κ} {v : β} (hv : (k, v) ∈ es) :
    ∃ w, (k, w) ∈ (es.map Prod.fst).zip ws ∧ R v w := by
  induction es generalizing ws with
  | nil => exact absurd hv List.not_mem_nil
  | cons e es ih =>
    cases h with
    | cons hR hrest =>
      rcases List.mem_cons.mp hv with hv | hv
      · cases hv
        exact ⟨_, List.mem_cons_self, hR⟩
      · obtain ⟨w, hw, hvw⟩ := ih hrest hv
        exact ⟨w, List.mem_cons_of_mem _ hw, hvw⟩

/-- Transforms every value; the keys stay the same. -/
def mapValues [LT κ] (g : β → γ) (m : SortedMap κ β) : SortedMap κ γ := m.rekey (m.values.map g)

/-- The values of a transformed map are the transformed values. -/
theorem values_mapValues [LT κ] (g : β → γ) (m : SortedMap κ β) :
    (m.mapValues g).values = m.values.map g := by
  have hlen : (m.values.map g).length ≤ m.keys.length := by
    simp only [values, keys, List.length_map, Nat.le_refl]
  exact List.map_snd_zip hlen

/-- New values take the place of transformed ones as they take that of the given ones. -/
theorem rekey_mapValues {δ : Type} [LT κ] (g : β → γ) (m : SortedMap κ β) (ws : List δ) :
    (m.mapValues g).rekey ws = m.rekey ws := by
  have hlen : m.keys.length ≤ (m.values.map g).length := by
    simp only [values, keys, List.length_map, Nat.le_refl]
  have hkeys : (m.mapValues g).keys = m.keys := List.map_fst_zip hlen
  exact ext_entries (congrArg (·.zip ws) hkeys)

section Order

variable [LE κ] [LT κ] [DecidableEq κ] [Std.LawfulOrderLT κ]

/-- An entry of a sorted list is found by its key. -/
theorem find?_eq_some_of_mem {es : List (κ × β)} (h : (es.map Prod.fst).Pairwise (· < ·))
    {e : κ × β} (he : e ∈ es) : es.find? (·.1 = e.1) = some e := by
  induction es with
  | nil => exact absurd he List.not_mem_nil
  | cons d es ih =>
    rw [List.map_cons, List.pairwise_cons] at h
    rcases List.mem_cons.mp he with he | he
    · subst he
      exact List.find?_cons_of_pos (decide_eq_true rfl)
    · have hlt : d.1 < e.1 := h.1 e.1 (List.mem_map.mpr ⟨e, he, rfl⟩)
      have hne : ¬ d.1 = e.1 := fun hd => Std.lt_irrefl (hd ▸ hlt)
      rw [List.find?_cons_of_neg (by rwa [decide_eq_true_eq])]
      exact ih h.2 he

/-- A look-up finds exactly the entries. -/
theorem get?_eq_some_iff {m : SortedMap κ β} {k : κ} {v : β} :
    m.get? k = some v ↔ (k, v) ∈ m.entries := by
  constructor
  · intro h
    obtain ⟨e, he, hv⟩ := Option.map_eq_some_iff.mp h
    have hk := List.find?_some he
    rw [decide_eq_true_eq] at hk
    have hmem : e ∈ m.entries := List.mem_of_find?_eq_some he
    rwa [← hk, ← hv]
  · intro h
    have hf := find?_eq_some_of_mem m.sorted h
    rw [get?, hf, Option.map_some]

/-- A key is one that a look-up finds something under. -/
theorem mem_keys_iff {m : SortedMap κ β} {k : κ} : k ∈ m.keys ↔ ∃ v, m.get? k = some v := by
  simp only [keys, List.mem_map, Prod.exists, get?_eq_some_iff, exists_and_right, exists_eq_right]

/-- Maps that answer every look-up alike are equal. -/
theorem ext_get? {m n : SortedMap κ β} (h : ∀ k, m.get? k = n.get? k) : m = n := by
  have hasymm : ∀ k k' : κ, k < k' → ¬ k' < k := fun k k' hlt hgt =>
    (Std.LawfulOrderLT.lt_iff k k').mp hlt |>.2 ((Std.LawfulOrderLT.lt_iff k' k).mp hgt).1
  have : Std.Irrefl fun d e : κ × β => d.1 < e.1 := ⟨fun e he => hasymm e.1 e.1 he he⟩
  have : Std.Antisymm fun d e : κ × β => d.1 < e.1 :=
    ⟨fun d e hlt hgt => absurd hgt (hasymm d.1 e.1 hlt)⟩
  have hm : m.entries.Pairwise (fun d e => d.1 < e.1) := List.pairwise_map.mp m.sorted
  have hn : n.entries.Pairwise (fun d e => d.1 < e.1) := List.pairwise_map.mp n.sorted
  refine ext_entries (hm.eq_of_mem_iff hn fun e => ?_)
  rw [← get?_eq_some_iff, ← get?_eq_some_iff, h]

/-- The look-ups of a map and of the same keys with related values fit together. -/
theorem get?_rekey {R : β → γ → Prop} {m : SortedMap κ β} {ws : List γ}
    (h : List.Forall₂ R m.values ws) (k : κ) :
    Option.Rel R (m.get? k) ((m.rekey ws).get? k) := by
  cases hm : m.get? k with
  | none =>
    cases hr : (m.rekey ws).get? k with
    | none => exact .none
    | some w =>
      obtain ⟨v, hv, _⟩ := exists_of_mem_zip h (get?_eq_some_iff.mp hr)
      rw [get?_eq_some_iff.mpr hv] at hm
      cases hm
  | some v =>
    obtain ⟨w, hw, hvw⟩ := exists_mem_zip h (get?_eq_some_iff.mp hm)
    have hr : (m.rekey ws).get? k = some w := get?_eq_some_iff.mpr hw
    rw [hr]
    exact .some hvw

/-- Every new value is found under some key. -/
theorem exists_get?_rekey {m : SortedMap κ β} {ws : List γ} (hlen : ws.length = m.values.length)
    {w : γ} (hw : w ∈ ws) : ∃ k, (m.rekey ws).get? k = some w := by
  obtain ⟨i, hi, rfl⟩ := List.mem_iff_getElem.mp hw
  have hkey : i < m.keys.length := by
    simp only [values, List.length_map] at hlen
    simp only [keys, List.length_map]
    omega
  have hzip : i < (m.keys.zip ws).length := by
    rw [List.length_zip]
    omega
  refine ⟨m.keys[i], get?_eq_some_iff.mpr ?_⟩
  have hentry : (m.keys.zip ws)[i] = (m.keys[i], ws[i]) := List.getElem_zip
  rw [← hentry]
  exact List.getElem_mem hzip

/-- A look-up in a transformed map is the transformed look-up. -/
theorem get?_mapValues (g : β → γ) (m : SortedMap κ β) (k : κ) :
    (m.mapValues g).get? k = (m.get? k).map g := by
  have hvalues : List.Forall₂ (fun v w => g v = w) m.values (m.values.map g) := by
    rw [List.forall₂_map_right_iff]
    exact List.forall₂_same.mpr fun _ _ => rfl
  have hrel := get?_rekey hvalues k
  rw [mapValues]
  generalize (m.rekey (m.values.map g)).get? k = found at hrel ⊢
  generalize m.get? k = old at hrel ⊢
  cases hrel with
  | none => rfl
  | some hw => exact congrArg some hw.symm

/-- A transformation that succeeds on every value succeeds on the map, key by key. -/
theorem exists_mapValuesM {ε : Type} {f : β → Except ε γ} {m : SortedMap κ β}
    (h : ∀ v ∈ m.values, ∃ w, f v = .ok w) :
    ∃ m', m.mapValuesM f = .ok m' ∧
      ∀ k, Option.Rel (fun v w => f v = .ok w) (m.get? k) (m'.get? k) := by
  have hvs : ∃ ws, m.values.mapM f = .ok ws ∧
      List.Forall₂ (fun v w => f v = .ok w) m.values ws := by
    generalize m.values = vs at h
    induction vs with
    | nil => exact ⟨[], rfl, .nil⟩
    | cons v vs ih =>
      obtain ⟨w, hw⟩ := h v List.mem_cons_self
      obtain ⟨ws, hws, hall⟩ := ih fun u hu => h u (List.mem_cons_of_mem _ hu)
      refine ⟨w :: ws, ?_, .cons hw hall⟩
      rw [List.mapM_cons, hw, hws]
      rfl
  obtain ⟨ws, hws, hall⟩ := hvs
  refine ⟨m.rekey ws, ?_, get?_rekey hall⟩
  rw [mapValuesM, hws]
  rfl

end Order

section Insertion

variable [LE κ] [LT κ] [DecidableLT κ] [DecidableEq κ] [Std.IsLinearOrder κ] [Std.LawfulOrderLT κ]

/-- Insertion adds the inserted key to the keys. -/
theorem mem_keys_insert {m : SortedMap κ β} {k k' : κ} {v : β} :
    k' ∈ (m.insert k v).keys ↔ k = k' ∨ k' ∈ m.keys := by
  rw [mem_keys_iff, get?_insert, mem_keys_iff]
  by_cases hk : k = k' <;> simp [hk]

/-- The keys of a map of listed entries are the listed keys. -/
theorem mem_keys_ofList {es : List (κ × β)} {k : κ} :
    k ∈ (ofList es).keys ↔ k ∈ es.map Prod.fst := by
  have hfold : ∀ m : SortedMap κ β, k ∈ (es.foldl (fun m e => m.insert e.1 e.2) m).keys ↔
      k ∈ m.keys ∨ k ∈ es.map Prod.fst := by
    induction es with
    | nil => simp
    | cons e es ih =>
      intro m
      rw [List.foldl_cons, ih, mem_keys_insert, List.map_cons, List.mem_cons]
      tauto
  rw [ofList, hfold]
  simp [mem_keys_iff]

end Insertion

end PatternAutomata.SortedMap
