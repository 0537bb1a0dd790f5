import PatternAutomata.Automaton.Graphviz
import PatternAutomata.Recognizer.Verdicts

/-!
# A workbench for automata built by hand

The workbench holds an arena and the automaton that was last frozen or compiled.
Commands change the one or ask about the other, in order, up to the first fault. An
arena is used up by freezing it.
-/

namespace PatternAutomata

/-- What the workbench is asked to do. -/
inductive Workbench.Command
  | edit (e : Arena.Edit)
  | build (start final : StateId)
  | load (pattern : String)
  | showNfa
  | drawNfa
  | alphabet
  | isAccepting (q : StateId)
  | transition (q : StateId) (c : Char)
  | close (qs : List StateId)
  | step (qs : List StateId) (c : Char)
  | successors (qs : List StateId)
  | containsAccepting (qs : List StateId)
  | showDfa
  | drawDfa
  | dfaNext (q : DfaStateId) (c : Char)
  | verdicts (words : List String)

/-- What the workbench answers. -/
inductive Workbench.Reply
  | nothing
  | number (n : Nat)
  | flag (b : Bool)
  | text (s : String)
  | states (set : NatSet)
  | table (targets : SortedMap Char NatSet)
  | nfa (nfa : Nfa)
  | dfa (dfa : Dfa)
  | verdicts (v : Verdicts)
  | rejected (cause : PatternError)

/-- The arena in work and the current automaton. -/
structure Workbench where
  arena : Arena
  current : Option Nfa

namespace Workbench

/-- A workbench with nothing on it. -/
def start : Workbench := ⟨∅, none⟩

/-- The answer that names a state if there is one. -/
def replyState : Option Nat → Reply
  | some q => .number q
  | none => .nothing

/-- Answers a question about an automaton. -/
def ask (nfa : Nfa) : Command → Except Fault Reply
  | .showNfa => pure (.nfa nfa)
  | .drawNfa => pure (.text nfa.toDot)
  | .alphabet => pure (.text (String.ofList nfa.alphabet))
  | .isAccepting q => Reply.flag <$> nfa.isAccepting q
  | .transition q c => replyState <$> nfa.transition q c
  | .close qs => Reply.states <$> nfa.closeAll qs
  | .step qs c => Reply.states <$> nfa.step (.ofList qs) c
  | .successors qs => Reply.table <$> nfa.successors (.ofList qs)
  | .containsAccepting qs => Reply.flag <$> nfa.containsAccepting (.ofList qs)
  | .showDfa => Reply.dfa <$> Dfa.ofNfa nfa
  | .drawDfa => (Reply.text ·.toDot) <$> Dfa.ofNfa nfa
  | .dfaNext q c => do
    let dfa ← Dfa.ofNfa nfa
    replyState <$> dfa.next q c
  | .verdicts words => do
    let m ← Matcher.ofNfa nfa
    Reply.verdicts <$> m.verdicts words
  | .edit _ | .build _ _ | .load _ => pure .nothing

/-- Carries out one command. Adding a state answers with its name. -/
def perform (w : Workbench) : Command → Except Fault (Reply × Workbench)
  | .edit (.addState accepting) =>
    let (q, arena) := w.arena.addState accepting
    pure (.number q, { w with arena })
  | .edit e => do
    let arena ← w.arena.apply e
    pure (.nothing, { w with arena })
  | .build start final => do
    let nfa ← w.arena.build start final
    pure (.nfa nfa, ⟨∅, some nfa⟩)
  | .load pattern =>
    match compileNfa pattern with
    | .ok nfa => pure (.number nfa.size, { w with current := some nfa })
    | .error (.rejected cause) => pure (.rejected cause, w)
    | .error (.faulty fault) => .error fault
  | command =>
    match w.current with
    | none => pure (.nothing, w)
    | some nfa => do
      pure (← ask nfa command, w)

/-- The answers to commands in order; the first fault is the last answer. -/
def run (w : Workbench) : List Command → List (Except Fault Reply)
  | [] => []
  | command :: rest =>
    match w.perform command with
    | .error fault => [.error fault]
    | .ok (reply, w) => .ok reply :: run w rest

end Workbench

end PatternAutomata
