import PatternAutomata.Pattern.Postfix
import PatternAutomata.Proofs.Pattern.Grammar

/-!
# The postfix form of a derivation

While the tokens of a derivation are put in postfix order, nothing below them on the
stack moves: every operator of a derivation binds at least as tightly as its level, and
the stack below holds on to what binds weaker. What the derivation leaves on the stack
is released by the next operator of its level at the latest, so the order comes out as
the postfix form of its expression.
-/

namespace PatternAutomata

/-- The weakest operator that can stand at a level. -/
def Level.operator : Level → Operator
  | .expression => .union
  | .term => .concat
  | .factor => .star

namespace Pending

/-- The stack holds on to all of its operators when `o` comes. -/
def Holds (o : Operator) (stack : List Pending) : Prop := release o stack = ([], stack)

/-- What holds on to its operators when `o` comes does so when a tighter operator comes. -/
theorem Holds.mono {o o' : Operator} {stack : List Pending} (h : Holds o stack)
    (hle : o.precedence ≤ o'.precedence) : Holds o' stack := by
  match stack with
  | [] => rfl
  | .group :: rest => rfl
  | .operator p :: rest =>
    rw [Holds, release] at h ⊢
    split at h
    case isTrue hlt => rw [if_pos (Nat.lt_of_lt_of_le hlt hle)]
    case isFalse => cases congrArg Prod.fst h

/-- A weaker operator on top is held on to. -/
theorem holds_operator {p o : Operator} (h : p.precedence < o.precedence)
    (stack : List Pending) : Holds o (.operator p :: stack) := if_pos h

/-- Operators that bind at least as tightly are released, down to what is held on to. -/
theorem release_append {o : Operator} {held : List Operator} {stack : List Pending}
    (hheld : ∀ p ∈ held, o.precedence ≤ p.precedence) (h : Holds o stack) :
    release o (held.map .operator ++ stack) = (held, stack) := by
  induction held with
  | nil => exact h
  | cons p held ih =>
    rw [List.forall_mem_cons] at hheld
    rw [List.map_cons, List.cons_append, release, if_neg (Nat.not_lt.mpr hheld.1), ih hheld.2]

/-- Closing a group releases the operators above it. -/
theorem closeGroup_append (held : List Operator) (stack : List Pending) :
    closeGroup (held.map .operator ++ .group :: stack) = some (held, stack) := by
  induction held with
  | nil => rfl
  | cons p held ih => rw [List.map_cons, List.cons_append, closeGroup, ih]; rfl

/-- A stack of operators is drained in order. -/
theorem drain_map (held : List Operator) : drain (held.map .operator) = some held := by
  induction held with
  | nil => rfl
  | cons p held ih => rw [List.map_cons, drain, ih]; rfl

end Pending

open Pending

/-- The tokens `ts` become `out` on the way from one stack to another. -/
def Becomes (stack : List Pending) (ts out : List Token) (stack' : List Pending) : Prop :=
  ∀ (position : Nat) (rest : List Token), rearrange position stack (ts ++ rest) =
    (out ++ ·) <$> rearrange (position + ts.length) stack' rest

namespace Becomes

variable {stack stack' stack'' : List Pending} {ts ts' out out' : List Token}

/-- Tokens one after another become what each of them becomes. -/
theorem append (h : Becomes stack ts out stack') (h' : Becomes stack' ts' out' stack'') :
    Becomes stack (ts ++ ts') (out ++ out') stack'' := by
  intro position rest
  have hout : (fun tail => (out ++ out') ++ tail) = (out ++ ·) ∘ (out' ++ ·) :=
    funext fun tail => List.append_assoc out out' tail
  rw [List.append_assoc, h, h', ← comp_map, hout, List.length_append, Nat.add_assoc]

/-- A literal is written at once. -/
theorem literal (c : Char) (stack : List Pending) :
    Becomes stack [.literal c] [.literal c] stack := fun _ _ => rfl

/-- An operator is held back, and those that it releases are written. -/
theorem operator {o : Operator} {released : List Operator} {kept : List Pending}
    (h : release o stack = (released, kept)) :
    Becomes stack [.operator o] (released.map .operator) (.operator o :: kept) := by
  intro position rest
  rw [List.singleton_append, rearrange, h]
  rfl

/-- An opening parenthesis is held back. -/
theorem lparen (stack : List Pending) : Becomes stack [.lparen] [] (.group :: stack) := by
  intro position rest
  exact (id_map (rearrange (position + 1) (.group :: stack) rest)).symm

/-- A closing parenthesis writes the operators of its group. -/
theorem rparen {released : List Operator} {kept : List Pending}
    (h : closeGroup stack = some (released, kept)) :
    Becomes stack [.rparen] (released.map .operator) kept := by
  intro position rest
  rw [List.singleton_append, rearrange, h]
  rfl

end Becomes

/-- The tokens `ts` become a part of `post`, and the operators that complete it are left on
top of the stack. All of these bind at least as tightly as `o`. -/
def Settles (o : Operator) (stack : List Pending) (ts post : List Token) : Prop :=
  ∃ (out : List Token) (held : List Operator),
    Becomes stack ts out (held.map .operator ++ stack) ∧
    out ++ held.map .operator = post ∧ ∀ p ∈ held, o.precedence ≤ p.precedence

namespace Settles

variable {o o' : Operator} {stack : List Pending} {ts ts' post post' : List Token}

/-- What is left on the stack binds as tightly as any weaker operator. -/
theorem mono (h : Settles o stack ts post) (hle : o'.precedence ≤ o.precedence) :
    Settles o' stack ts post := by
  obtain ⟨out, held, hb, hpost, hheld⟩ := h
  exact ⟨out, held, hb, hpost, fun p hp => Nat.le_trans hle (hheld p hp)⟩

/-- A literal leaves nothing on the stack. -/
theorem literal (o : Operator) (stack : List Pending) (c : Char) :
    Settles o stack [.literal c] [.literal c] :=
  ⟨[.literal c], [], .literal c stack, rfl, List.forall_mem_nil _⟩

/-- An operator between two operands comes after both. -/
theorem binary (hl : Settles o stack ts post) (hr : Settles o' (.operator o :: stack) ts' post')
    (h : Holds o stack) (hle : o.precedence ≤ o'.precedence) :
    Settles o stack (ts ++ .operator o :: ts') (post ++ post' ++ [.operator o]) := by
  obtain ⟨outl, heldl, hbl, rfl, hheldl⟩ := hl
  obtain ⟨outr, heldr, hbr, rfl, hheldr⟩ := hr
  refine ⟨outl ++ (heldl.map .operator ++ outr), heldr ++ [o], ?_, ?_, ?_⟩
  · have hb := hbl.append ((Becomes.operator (release_append hheldl h)).append hbr)
    rwa [List.map_append, List.append_assoc]
  · simp only [List.map_append, List.map_singleton, List.append_assoc]
  · rw [List.forall_mem_append, List.forall_mem_singleton]
    exact ⟨fun p hp => Nat.le_trans hle (hheldr p hp), Nat.le_refl _⟩

/-- A repetition comes after its operand. -/
theorem star (hd : Settles .star stack ts post) (h : Holds .star stack) :
    Settles .star stack (ts ++ [.operator .star]) (post ++ [.operator .star]) := by
  obtain ⟨out, held, hb, rfl, hheld⟩ := hd
  refine ⟨out ++ held.map .operator, [.star], ?_, rfl, ?_⟩
  · exact hb.append (.operator (release_append hheld h))
  · rw [List.forall_mem_singleton]

/-- A group leaves nothing on the stack. -/
theorem group (hd : Settles o (.group :: stack) ts post) (o' : Operator) :
    Settles o' stack (.lparen :: (ts ++ [.rparen])) post := by
  obtain ⟨out, held, hb, rfl, _⟩ := hd
  refine ⟨out ++ held.map .operator, [], ?_, List.append_nil _, List.forall_mem_nil _⟩
  exact (Becomes.lparen stack).append (hb.append (.rparen (closeGroup_append held stack)))

end Settles

/-- Derived tokens settle as the postfix form of their expression. -/
theorem Derives.settles {level : Level} {ts : List Token} {e : Expr}
    (h : Derives [.operator .concat] level ts e) {stack : List Pending}
    (hholds : Holds level.operator stack) :
    Settles level.operator stack ts e.postorder := by
  induction h generalizing stack with
  | ofTerm _ ih => exact (ih (hholds.mono (by decide))).mono (by decide)
  | union _ _ ihl ihr =>
    exact (ihl hholds).binary (ihr (holds_operator (by decide) stack)) hholds (by decide)
  | ofFactor _ ih => exact (ih (hholds.mono (by decide))).mono (by decide)
  | concat _ _ ihl ihr =>
    exact (ihl hholds).binary (ihr (holds_operator (by decide) stack)) hholds (by decide)
  | literal c => exact .literal _ stack c
  | group _ ih =>
    have hgroup : Holds .union (.group :: stack) := rfl
    exact (ih hgroup).group _
  | star _ ih => exact (ih hholds).star hholds

/-- The postfix form of derived tokens is that of their expression. -/
theorem Derives.toPostfix_eq {level : Level} {ts : List Token} {e : Expr}
    (h : Derives [.operator .concat] level ts e) : toPostfix ts = .ok e.postorder := by
  have hempty : Holds level.operator [] := rfl
  obtain ⟨out, held, hb, hout, _⟩ := h.settles hempty
  have hrun := hb 0 []
  rw [List.append_nil, List.append_nil, rearrange, drain_map] at hrun
  rw [toPostfix, hrun, ← hout]
  simp only [prependOperators, List.append_nil]
  rfl

/-- The postfix form of a derived pattern is that of the expression of the derivation. -/
theorem Derivation.postfixForm_pattern {level : Level} (d : Derivation level) :
    postfixForm d.pattern = .ok d.expr.postorder := by
  rw [postfixForm, infixForm, d.tokenize_pattern, d.insertConcat_tokens,
    d.derives_explicit.toPostfix_eq]

end PatternAutomata
