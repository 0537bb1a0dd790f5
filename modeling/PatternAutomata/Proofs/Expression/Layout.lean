import PatternAutomata.Proofs.Automaton.Fragments
import PatternAutomata.Proofs.Expression.Tree

/-!
# Where the states of an expression stand in the arena

An expression fills one block of the arena, whose last state is its exit. The states
before the exit are written down by recursion on the expression, and the operands of an
assembly are the blocks of trees laid out one after another. So assembling tokens is
taking them up on a stack of trees and laying the trees out.
-/

namespace PatternAutomata

namespace Expr

/-- The number of states before the exit. -/
def span : Expr → Nat
  | literal _ => 1
  | union left right => left.span + 1 + (right.span + 1) + 1
  | concat left right => left.span + 1 + right.span
  | star inner => inner.span + 1 + 1

/-- Where a block that begins at `base` is entered. -/
def entry : Expr → Nat → Nat
  | literal _, base => base
  | union left right, base => base + (left.span + 1) + (right.span + 1)
  | concat left _, base => left.entry base
  | star inner, base => base + (inner.span + 1)

/-- The states before the exit of a block that begins at `base`. -/
def body : Expr → Nat → List State
  | literal c, base => [State.reader c (base + 1)]
  | union left right, base =>
    let middle := base + (left.span + 1)
    let exit := middle + (right.span + 1) + 1
    left.body base ++ State.relay [exit] :: (right.body middle ++
      [State.relay [exit], State.relay [left.entry base, right.entry middle]])
  | concat left right, base =>
    let middle := base + (left.span + 1)
    left.body base ++ State.relay [right.entry middle] :: right.body middle
  | star inner, base =>
    let exit := base + (inner.span + 1) + 1
    inner.body base ++
      [State.relay [exit, inner.entry base], State.relay [exit, inner.entry base]]

@[simp] theorem length_body (e : Expr) (base : Nat) : (e.body base).length = e.span := by
  induction e generalizing base with
  | literal c => rfl
  | union left right ihl ihr =>
    simp only [body, span, List.length_append, List.length_cons, List.length_nil, ihl, ihr]
    omega
  | concat left right ihl ihr =>
    simp only [body, span, List.length_append, List.length_cons, ihl, ihr]
    omega
  | star inner ih =>
    simp only [body, span, List.length_append, List.length_cons, List.length_nil, ih]

/-- A block is entered inside and before its exit. -/
theorem entry_mem (e : Expr) (base : Nat) : base ≤ e.entry base ∧ e.entry base < base + e.span := by
  induction e generalizing base with
  | literal c => exact ⟨Nat.le_refl _, Nat.lt_succ_self _⟩
  | union left right => simp only [entry, span]; omega
  | concat left right ihl =>
    have hl := ihl base
    simp only [entry, span]
    omega
  | star inner => simp only [entry, span]; omega

/-- The blocks of a stack of trees, the most recent tree last. -/
def blocks : List Expr → List State
  | [] => []
  | e :: trees => blocks trees ++ (e.body (blocks trees).length ++ [State.isolated true])

/-- The fragments of a stack of trees, the most recent one first. -/
def fragments : List Expr → List Fragment
  | [] => []
  | e :: trees =>
    ⟨e.entry (blocks trees).length, (blocks trees).length + e.span⟩ :: fragments trees

/-- The assembly of a stack of trees. -/
def assembly (trees : List Expr) : Assembly := ⟨.ofList (blocks trees), fragments trees⟩

/-- The automaton of an expression. -/
def nfa (e : Expr) : Nfa := ⟨(e.body 0 ++ [State.isolated true]).toArray, e.entry 0, e.span⟩

/-- A tree on top of the stack takes one state more than its span. -/
@[simp] theorem length_blocks_cons (e : Expr) (trees : List Expr) :
    (blocks (e :: trees)).length = (blocks trees).length + (e.span + 1) := by
  simp only [blocks, List.length_append, length_body, List.length_singleton]

/-- Repetition turns the block on top into the block of the repetition. -/
theorem wrapStar_assembly (inner : Expr) (trees : List Expr) :
    (assembly (inner :: trees)).applyOperator .star = .ok (assembly (star inner :: trees)) := by
  let n := (blocks trees).length
  let before := blocks trees ++ inner.body n
  have hlen : before.length = n + inner.span := by
    simp only [before, n, List.length_append, length_body]
  have h := Arena.wrapStar_ofList before (hlen ▸ (inner.entry_mem n).2)
  have hstates : blocks (inner :: trees) = before ++ [State.isolated true] :=
    (List.append_assoc _ _ _).symm
  simp only [hlen] at h
  simp only [Assembly.applyOperator, assembly, fragments, hstates, n, h, Assembly.push]
  simp only [blocks, body, entry, span, before, n, List.append_assoc, List.cons_append,
    List.nil_append, Nat.add_assoc]

/-- Two blocks on top of each other, with the exit of the lower one in between. -/
theorem blocks_pair (left right : Expr) (trees : List Expr) :
    blocks (right :: left :: trees) =
      (blocks trees ++ left.body (blocks trees).length) ++ State.isolated true ::
        (right.body ((blocks trees).length + (left.span + 1)) ++ [State.isolated true]) := by
  rw [blocks, length_blocks_cons, blocks]
  simp only [List.append_assoc, List.cons_append, List.nil_append]

/-- A choice turns the two blocks on top into the block of the choice. -/
theorem joinUnion_assembly (left right : Expr) (trees : List Expr) :
    (assembly (right :: left :: trees)).applyOperator .union =
      .ok (assembly (union left right :: trees)) := by
  let n := (blocks trees).length
  let m := n + (left.span + 1)
  have hlen : (blocks trees ++ left.body n).length = n + left.span := by
    simp only [n, List.length_append, length_body]
  have hright : right.entry m < n + left.span + (right.body m).length + 1 := by
    have := (right.entry_mem m).2
    rw [length_body]
    omega
  have h := Arena.joinUnion_ofList (blocks trees ++ left.body n) (right.body m)
    (hlen ▸ (left.entry_mem n).2) (hlen ▸ hright)
  simp only [hlen, length_body] at h
  have hexit : n + left.span + right.span + 1 = m + right.span := by omega
  have hexit' : n + left.span + right.span + 3 = m + (right.span + 1) + 1 := by omega
  have hentry' : n + left.span + right.span + 2 = m + (right.span + 1) := by omega
  rw [hexit, hexit', hentry'] at h
  simp only [Assembly.applyOperator, assembly, fragments, blocks_pair, length_blocks_cons]
  simp only [m, n] at h ⊢
  rw [h]
  simp only [Assembly.push, blocks, body, entry, span, List.append_assoc, List.cons_append,
    List.nil_append, Nat.add_assoc]

/-- A concatenation turns the two blocks on top into the block of the concatenation. -/
theorem joinConcat_assembly (left right : Expr) (trees : List Expr) :
    (assembly (right :: left :: trees)).applyOperator .concat =
      .ok (assembly (concat left right :: trees)) := by
  let n := (blocks trees).length
  let m := n + (left.span + 1)
  have hlen : (blocks trees ++ left.body n).length = n + left.span := by
    simp only [n, List.length_append, length_body]
  have hright : right.entry m <
      n + left.span + (right.body m ++ [State.isolated true]).length + 1 := by
    have := (right.entry_mem m).2
    rw [List.length_append, length_body]
    omega
  have h := Arena.joinConcat_ofList (blocks trees ++ left.body n)
    (right.body m ++ [State.isolated true]) (left.entry n) (m + right.span) (hlen ▸ hright)
  rw [hlen] at h
  simp only [Assembly.applyOperator, assembly, fragments, blocks_pair, length_blocks_cons]
  simp only [m, n] at h ⊢
  rw [h]
  simp only [Assembly.push, blocks, body, entry, span, List.append_assoc, List.cons_append,
    Nat.add_assoc]

/-- An operator joins the fragments on top as it joins the trees. -/
theorem applyOperator_assembly (o : Operator) (trees : List Expr) :
    (assembly trees).applyOperator o =
      ((join o trees).map assembly).mapError CompileError.rejected := by
  match o, trees with
  | .star, inner :: trees => exact wrapStar_assembly inner trees
  | .union, right :: left :: trees => exact joinUnion_assembly left right trees
  | .concat, right :: left :: trees => exact joinConcat_assembly left right trees
  | .star, [] | .union, [] | .union, [_] | .concat, [] | .concat, [_] => rfl

/-- A token is taken up by the assembly as it is by the stack of trees. -/
theorem step_assembly (trees : List Expr) (position : Nat) (t : Token) :
    (assembly trees).step position t =
      ((take trees position t).map assembly).mapError CompileError.rejected := by
  cases t with
  | literal c =>
    simp only [Assembly.step, assembly, Arena.addLiteral_ofList]
    rfl
  | operator o => exact applyOperator_assembly o trees
  | lparen => rfl
  | rparen => rfl

/-- Tokens are assembled as they are taken up by the stack of trees. -/
theorem run_assembly (trees : List Expr) (position : Nat) (tokens : List Token) :
    (assembly trees).run position tokens =
      ((takeAll trees position tokens).map assembly).mapError CompileError.rejected := by
  induction tokens generalizing trees position with
  | nil => rfl
  | cons t rest ih =>
    rw [Assembly.run, step_assembly, takeAll]
    cases take trees position t with
    | error e => rfl
    | ok next => exact ih next (position + 1)

/-- An assembly of one tree is frozen into the automaton of the tree. -/
theorem finish_singleton (e : Expr) : (assembly [e]).finish = .ok e.nfa := by
  have hsize : (Arena.ofList (blocks [e])).size = e.span + 1 := by
    rw [Arena.size_ofList, length_blocks_cons]
    exact Nat.zero_add _
  have hends : e.entry 0 < e.span + 1 ∧ e.span < e.span + 1 := by
    have := (e.entry_mem 0).2
    omega
  have hlen : (blocks []).length = 0 := rfl
  simp only [assembly, Assembly.finish, fragments, Assembly.freeze, Arena.build, hsize, hlen,
    Nat.zero_add, if_pos hends]
  rfl

/-- What comes of a stack of trees at the end of the tokens. -/
def finish : List Expr → Except CompileError Nfa
  | [e] => .ok e.nfa
  | trees => .error (.rejected (.danglingOperands trees.length))

/-- An assembly is finished as its stack of trees is. -/
theorem finish_assembly (trees : List Expr) : (assembly trees).finish = finish trees := by
  match trees with
  | [e] => exact finish_singleton e
  | [] => rfl
  | _ :: _ :: trees =>
    have hlen : (fragments trees).length = trees.length := by
      induction trees with
      | nil => rfl
      | cons _ _ ih => rw [fragments, List.length_cons, ih, List.length_cons]
    simp only [Assembly.finish, assembly, fragments, finish, List.length_cons, hlen]

/-- The automaton of tokens is the automaton of the only tree that they leave. -/
theorem toNfa_eq {tokens : List Token} (h : tokens ≠ []) :
    toNfa tokens = ((takeAll [] 0 tokens).mapError CompileError.rejected).bind finish := by
  have hrun : Assembly.start.run 0 tokens =
      ((takeAll [] 0 tokens).map assembly).mapError CompileError.rejected :=
    run_assembly [] 0 tokens
  have hempty : ¬ tokens.isEmpty = true := by simpa using h
  rw [toNfa, if_neg hempty, hrun]
  cases takeAll [] 0 tokens with
  | error e => rfl
  | ok trees => exact finish_assembly trees

/-- A postfix form is not empty. -/
theorem postorder_ne_nil (e : Expr) : e.postorder ≠ [] := by
  cases e <;> simp only [postorder, ne_eq, List.append_eq_nil_iff, List.cons_ne_self,
    and_false, not_false_eq_true]

/-- The automaton of a postfix form is the automaton of the expression. -/
theorem toNfa_postorder (e : Expr) : toNfa e.postorder = .ok e.nfa := by
  rw [toNfa_eq e.postorder_ne_nil, takeAll_postorder]
  rfl

end Expr

/-- The automaton that comes of no tokens: its exit is reached without reading. -/
def emptyNfa : Nfa := ⟨#[State.relay [1], State.isolated true], 0, 1⟩

/-- No tokens give the automaton of the empty word. -/
theorem toNfa_nil : toNfa [] = .ok emptyNfa := rfl

end PatternAutomata
