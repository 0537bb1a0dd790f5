import Mathlib.Data.List.Forall2
import PatternAutomata.Proofs.Json.Tree

/-!
# Typed data of the trees of values

What readers of strings, words, lists and optional values make of the trees that written values
have, and what a reader that passes over a scalar makes of it.
-/

namespace PatternAutomata.Json

open PatternAutomata.Json.Tree

/-- An integer of at most twenty digits lies in the range of double precision. -/
theorem Numeral.inRange_integer (negative : Bool) {n : Nat} (h : n < Nat.pow 10 20) :
    (integer negative n).toDecimal.inRange = true := by
  have hlength : (Decimal.digits n).length ≤ 20 :=
    (Nat.length_toDigits_le_iff (by decide) (by decide)).mpr h
  have hplace : ((Decimal.digits n).length : Int) + 0 < Decimal.limitPlace := by
    rw [Decimal.limitPlace]
    omega
  rw [toDecimal, Decimal.inRange]
  exact if_pos (Or.inr hplace)

/-- A word is a number in the range of double precision. -/
theorem Value.tree_ofWord (w : UInt64) :
    (Value.ofNat w.toNat).tree = .number (.integer false w.toNat) := by
  have hlt : w.toNat < Nat.pow 10 20 := Nat.lt_of_lt_of_le w.toNat_lt (by decide)
  rw [ofNat, tree, ofNumeral, if_pos (Numeral.inRange_integer false hlt)]

namespace Tree

/-- A string is read back. -/
theorem asText_text (s : String) : asText (Value.text s).tree = .ok s := rfl

/-- A word is read back. -/
theorem asWord_ofWord (w : UInt64) : asWord (Value.ofNat w.toNat).tree = .ok w := by
  have hfits : w.toNat < UInt64.size ∧ (false → w.toNat = 0) := ⟨w.toNat_lt, nofun⟩
  rw [Value.tree_ofWord, asWord, if_pos hfits, UInt64.ofNat_toNat]

/-- A missing value and a present one are read back, where a present one is not null. -/
theorem asOptional_ofOption {α : Type} {read : Tree → Except ReadError α} {f : α → Value}
    (h : ∀ x, (f x).tree ≠ .null ∧ read (f x).tree = .ok x) (o : Option α) :
    asOptional read (Value.ofOption f o).tree = .ok o := by
  cases o with
  | none => rfl
  | some x =>
    obtain ⟨hne, hread⟩ := h x
    rw [Value.ofOption, asOptional.eq_2 _ _ hne, hread]
    rfl

/-- A string that may be missing is read back. -/
theorem asOptional_text (o : Option String) :
    asOptional asText (Value.ofOption .text o).tree = .ok o := by
  apply asOptional_ofOption
  intro s
  exact ⟨nofun, asText_text s⟩

/-- A word that may be missing is read back. -/
theorem asOptional_word (o : Option UInt64) :
    asOptional asWord (Value.ofOption (Value.ofNat ·.toNat) o).tree = .ok o := by
  apply asOptional_ofOption
  intro w
  refine ⟨?_, asWord_ofWord w⟩
  rw [Value.tree_ofWord]
  nofun

/-- Items that are read one by one are read as a list. -/
theorem asList_array {α : Type} {read : Tree → Except ReadError α} {xs : List α}
    {values : List Value} (h : List.Forall₂ (fun x v => read (Value.tree v) = .ok x) xs values) :
    asList read (Value.array values).tree = .ok xs := by
  have hmap : (Value.treeItems values).mapM read = .ok xs := by
    induction h with
    | nil => rfl
    | cons hv _ ih =>
      rw [Value.treeItems, List.mapM_cons, hv, ih]
      rfl
  rw [Value.tree, asList, hmap]
  rfl

/-- A list of strings is read back. -/
theorem asList_texts (words : List String) :
    asList asText (Value.ofList .text words).tree = .ok words := by
  apply asList_array
  rw [List.forall₂_map_right_iff]
  exact List.forall₂_same.mpr fun word _ => asText_text word

end Tree

/-- A list of strings holds no decimals. -/
theorem Value.integral_texts (words : List String) : (Value.ofList .text words).Integral :=
  .array (List.forall_mem_map.mpr fun word _ => .text word)

/-- A value that holds no other values and is no decimal. -/
inductive Value.Scalar : Value → Prop
  | null : Scalar .null
  | bool (b : Bool) : Scalar (.bool b)
  | integer (negative : Bool) (magnitude : Nat) : Scalar (.number (.integer negative magnitude))
  | text (s : String) : Scalar (.text s)

/-- A scalar holds no decimals. -/
theorem Value.Scalar.integral {v : Value} (h : v.Scalar) : v.Integral := by
  cases h
  · exact .null
  · exact .bool _
  · exact .integer _ _
  · exact .text _

/-- Scalars are passed over, numbers of any size among them. -/
theorem Value.Scalar.pass_tree {v : Value} (h : v.Scalar) : v.tree.pass = .ok () := by
  cases h with
  | integer negative magnitude =>
    rw [tree, ofNumeral]
    split <;> rfl
  | _ => rfl

namespace RecordReader

/-- An empty place of a draft is filled with what is read. -/
theorem fill_of_read {δ β : Type} {slot : Option β} {read : Tree → Except ReadError β} {t : Tree}
    {x : β} {set : Option β → δ} {draft : δ} (hslot : slot = none) (hread : read t = .ok x)
    (hset : set (some x) = draft) : fill slot read t set = some (.ok draft) := by
  rw [fill, hslot, hread, ← hset]
  rfl

end RecordReader

end PatternAutomata.Json
