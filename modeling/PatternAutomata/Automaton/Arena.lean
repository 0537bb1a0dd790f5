import PatternAutomata.Automaton.Nfa

/-!
# The arena in which automata are built

States are only ever added, so a name stays valid once it is given out. An edge is
accepted when its target is in the arena, its source can be read, and the source has no
transition on the same symbol yet; anything else is a fault.
-/

namespace PatternAutomata

/-- The states of an automaton under construction. -/
structure Arena where
  states : Array State
  deriving DecidableEq

namespace Arena

/-- The arena without states. -/
def empty : Arena := ⟨#[]⟩

instance : EmptyCollection Arena := ⟨empty⟩

/-- The number of states. -/
def size (a : Arena) : Nat := a.states.size

/-- Adds a state without edges and gives its name. -/
def addState (a : Arena) (accepting : Bool) : StateId × Arena :=
  (a.size, ⟨a.states.push (State.isolated accepting)⟩)

/-- Replaces the state `q` by what `f` makes of it. -/
def modify (a : Arena) (q : StateId) (f : State → Except Fault State) : Except Fault Arena :=
  match a.states[q]? with
  | none => .error (.indexOutOfRange a.size q)
  | some s =>
    match f s with
    | .error fault => .error fault
    | .ok s' => .ok ⟨a.states.setIfInBounds q s'⟩

/-- Sets whether the state `q` accepts. -/
def setAccepting (a : Arena) (q : StateId) (accepting : Bool) : Except Fault Arena :=
  a.modify q fun s => .ok { s with accepting }

/-- Adds a transition on `c`. The target is checked before the source. -/
def addTransition (a : Arena) (source : StateId) (c : Char) (target : StateId) :
    Except Fault Arena :=
  if target < a.size then
    a.modify source fun s =>
      match s.transitions.get? c with
      | some _ => .error (.repeatedSymbol c)
      | none => .ok { s with transitions := s.transitions.insert c target }
  else .error .targetOutOfRange

/-- Adds an ε-edge after those of the source. The target is checked before the source. -/
def addEpsilon (a : Arena) (source target : StateId) : Except Fault Arena :=
  if target < a.size then
    a.modify source fun s => .ok { s with epsilon := s.epsilon ++ [target] }
  else .error .targetOutOfRange

/-- Freezes the arena into an automaton. -/
def build (a : Arena) (start final : StateId) : Except Fault Nfa :=
  if start < a.size ∧ final < a.size then .ok ⟨a.states, start, final⟩
  else .error .endpointOutOfRange

/-- One change of an arena. -/
inductive Edit
  | addState (accepting : Bool)
  | setAccepting (q : StateId) (accepting : Bool)
  | addTransition (source : StateId) (c : Char) (target : StateId)
  | addEpsilon (source target : StateId)
  deriving DecidableEq

/-- Applies one change. -/
def apply (a : Arena) : Edit → Except Fault Arena
  | .addState accepting => .ok (a.addState accepting).2
  | .setAccepting q accepting => a.setAccepting q accepting
  | .addTransition source c target => a.addTransition source c target
  | .addEpsilon source target => a.addEpsilon source target

/-- Applies changes in order, up to the first fault. -/
def applyAll (a : Arena) (edits : List Edit) : Except Fault Arena := edits.foldlM apply a

end Arena

end PatternAutomata
