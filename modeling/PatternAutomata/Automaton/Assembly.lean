import PatternAutomata.Automaton.Arena
import PatternAutomata.Pattern.Postfix

/-!
# Assembling an automaton from a postfix expression

Every token of a postfix expression works on a stack of fragments, each a piece of the
arena entered at one state and left at another. An operator takes its operands from
the stack, joins them by ε-edges in the arena and puts back one fragment. The exit of a
fragment is its only accepting state until an operator takes the fragment up and clears
the flag. Names are given in order of creation and ε-edges in the order a search should
try them, so the automaton of an expression is determined to the last detail.
-/

namespace PatternAutomata

/-- Why no automaton came of an expression. -/
inductive CompileError
  /-- The expression is not well formed. -/
  | rejected (cause : PatternError)
  /-- An arena was misused. -/
  | faulty (fault : Fault)
  deriving DecidableEq

/-- The wording of a failure. -/
def CompileError.message : CompileError → String
  | .rejected cause => cause.message
  | .faulty fault => fault.message

/-- A piece of an automaton under construction. -/
structure Fragment where
  entry : StateId
  exit : StateId
  deriving DecidableEq

namespace Arena

/-- A new fragment whose exit is reached without reading. -/
def addEmptyFragment (a : Arena) : Except Fault (Fragment × Arena) := do
  let (entry, a) := a.addState false
  let (exit, a) := a.addState true
  let a ← a.addEpsilon entry exit
  pure (⟨entry, exit⟩, a)

/-- A new fragment whose exit is reached by reading `c`. -/
def addLiteral (a : Arena) (c : Char) : Except Fault (Fragment × Arena) := do
  let (entry, a) := a.addState false
  let (exit, a) := a.addState true
  let a ← a.addTransition entry c exit
  pure (⟨entry, exit⟩, a)

/-- Leads from the exit of one fragment into another. -/
def joinConcat (a : Arena) (left right : Fragment) : Except Fault (Fragment × Arena) := do
  let a ← a.addEpsilon left.exit right.entry
  let a ← a.setAccepting left.exit false
  pure (⟨left.entry, right.exit⟩, a)

/-- Makes a fragment's exit an inner state that leads to `target`. -/
def leadExit (a : Arena) (fragment : Fragment) (target : StateId) : Except Fault Arena := do
  let a ← a.addEpsilon fragment.exit target
  a.setAccepting fragment.exit false

/-- A choice between two fragments, the left one first. -/
def joinUnion (a : Arena) (left right : Fragment) : Except Fault (Fragment × Arena) := do
  let (entry, a) := a.addState false
  let a ← a.addEpsilon entry left.entry
  let a ← a.addEpsilon entry right.entry
  let (exit, a) := a.addState true
  let a ← a.leadExit left exit
  let a ← a.leadExit right exit
  pure (⟨entry, exit⟩, a)

/-- Any number of runs through a fragment; leaving is tried before running through it. -/
def wrapStar (a : Arena) (inner : Fragment) : Except Fault (Fragment × Arena) := do
  let (entry, a) := a.addState false
  let (exit, a) := a.addState true
  let a ← a.addEpsilon entry exit
  let a ← a.addEpsilon entry inner.entry
  let a ← a.addEpsilon inner.exit exit
  let a ← a.addEpsilon inner.exit inner.entry
  let a ← a.setAccepting inner.exit false
  pure (⟨entry, exit⟩, a)

end Arena

/-- The arena and the operands that wait for an operator, the most recent first. -/
structure Assembly where
  arena : Arena
  operands : List Fragment
  deriving DecidableEq

namespace Assembly

/-- Nothing built yet. -/
def start : Assembly := ⟨∅, []⟩

/-- Puts a fragment on top of the operands. -/
def push (rest : List Fragment) :
    Except Fault (Fragment × Arena) → Except CompileError Assembly
  | .error fault => .error (.faulty fault)
  | .ok (fragment, arena) => .ok ⟨arena, fragment :: rest⟩

/-- Applies an operator to the operands on top; the most recent one is the right operand. -/
def applyOperator (s : Assembly) (o : Operator) : Except CompileError Assembly :=
  match o, s.operands with
  | .star, inner :: rest => push rest (s.arena.wrapStar inner)
  | .union, right :: left :: rest => push rest (s.arena.joinUnion left right)
  | .concat, right :: left :: rest => push rest (s.arena.joinConcat left right)
  | o, _ => .error (.rejected (.missingOperand o))

/-- Takes up the token at `position`. -/
def step (s : Assembly) (position : Nat) : Token → Except CompileError Assembly
  | .literal c => push s.operands (s.arena.addLiteral c)
  | .operator o => s.applyOperator o
  | .lparen => .error (.rejected .unbalancedOpen)
  | .rparen => .error (.rejected (.unbalancedClose position))

/-- Takes up all tokens from `position` on. -/
def run (s : Assembly) (position : Nat) : List Token → Except CompileError Assembly
  | [] => .ok s
  | t :: rest =>
    match s.step position t with
    | .error e => .error e
    | .ok s => run s (position + 1) rest

/-- Freezes the arena between the ends of a fragment. -/
def freeze (a : Arena) (fragment : Fragment) : Except CompileError Nfa :=
  (a.build fragment.entry fragment.exit).mapError .faulty

/-- The automaton of the one operand that is left. -/
def finish (s : Assembly) : Except CompileError Nfa :=
  match s.operands with
  | [fragment] => freeze s.arena fragment
  | operands => .error (.rejected (.danglingOperands operands.length))

end Assembly

/-- The automaton of an expression in postfix order. The expression without tokens gives
the automaton that accepts the empty word alone. -/
def toNfa (tokens : List Token) : Except CompileError Nfa :=
  if tokens.isEmpty then
    match (∅ : Arena).addEmptyFragment with
    | .error fault => .error (.faulty fault)
    | .ok (fragment, arena) => Assembly.freeze arena fragment
  else
    match Assembly.start.run 0 tokens with
    | .error e => .error e
    | .ok s => s.finish

end PatternAutomata
