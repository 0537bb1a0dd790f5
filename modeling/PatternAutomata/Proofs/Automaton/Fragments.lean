import PatternAutomata.Automaton.Assembly

/-!
# Fragments in an arena of listed states

What each operator of the assembly does is written down as lists of states: it turns the
exits of its operands, wherever they stand, into relays, and puts new states behind all
others. In a list none of the changes can fault.
-/

namespace PatternAutomata

/-- An inner state that only leads on by ε-edges. -/
def State.relay (targets : List StateId) : State := ⟨false, ∅, targets⟩

/-- An inner state that only leads on by reading `c`. -/
def State.reader (c : Char) (target : StateId) : State := ⟨false, .ofList [(c, target)], []⟩

namespace Arena

/-- The arena of listed states. -/
def ofList (states : List State) : Arena := ⟨states.toArray⟩

theorem size_ofList (states : List State) : (ofList states).size = states.length := rfl

/-- A new state is put behind the others. -/
theorem addState_ofList (states : List State) (accepting : Bool) :
    (ofList states).addState accepting =
      (states.length, ofList (states ++ [State.isolated accepting])) := by
  simp only [addState, ofList, size, List.size_toArray, List.push_toArray]

/-- A change of a state leaves the states before and behind it. -/
theorem modify_ofList {before behind : List State} {s s' : State} {q : Nat}
    (hq : q = before.length) {f : State → Except Fault State} (hf : f s = .ok s') :
    (ofList (before ++ s :: behind)).modify q f = .ok (ofList (before ++ s' :: behind)) := by
  subst hq
  have hget : (ofList (before ++ s :: behind)).states[before.length]? = some s := by
    simp only [ofList, List.getElem?_toArray, List.getElem?_append_right (Nat.le_refl _),
      Nat.sub_self, List.getElem?_cons_zero]
  rw [modify, hget]
  simp only [hf, ofList, List.setIfInBounds_toArray, List.set_append_right _ _ (Nat.le_refl _),
    Nat.sub_self, List.set_cons_zero]

/-- Acceptance is set in place. -/
theorem setAccepting_ofList {before behind : List State} {s : State} {q : Nat}
    (hq : q = before.length) (accepting : Bool) :
    (ofList (before ++ s :: behind)).setAccepting q accepting =
      .ok (ofList (before ++ { s with accepting } :: behind)) :=
  modify_ofList hq rfl

/-- An ε-edge is added in place. -/
theorem addEpsilon_ofList {before behind : List State} {s : State} {q target : Nat}
    (hq : q = before.length) (ht : target < before.length + behind.length + 1) :
    (ofList (before ++ s :: behind)).addEpsilon q target =
      .ok (ofList (before ++ { s with epsilon := s.epsilon ++ [target] } :: behind)) := by
  have hlt : target < (ofList (before ++ s :: behind)).size := by
    rw [size_ofList, List.length_append, List.length_cons]
    omega
  rw [addEpsilon, if_pos hlt]
  exact modify_ofList hq rfl

/-- A transition is added in place to a state without edges. -/
theorem addTransition_ofList {before behind : List State} {q target : Nat} {c : Char}
    (hq : q = before.length) (ht : target < before.length + behind.length + 1) :
    (ofList (before ++ State.isolated false :: behind)).addTransition q c target =
      .ok (ofList (before ++ State.reader c target :: behind)) := by
  have hlt : target < (ofList (before ++ State.isolated false :: behind)).size := by
    rw [size_ofList, List.length_append, List.length_cons]
    omega
  rw [addTransition, if_pos hlt]
  exact modify_ofList hq rfl

/-- A literal puts a reader and its exit behind the other states. -/
theorem addLiteral_ofList (states : List State) (c : Char) :
    (ofList states).addLiteral c = .ok (⟨states.length, states.length + 1⟩,
      ofList (states ++ [State.reader c (states.length + 1), State.isolated true])) := by
  have hadd : (ofList (states ++ State.isolated false :: [State.isolated true])).addTransition
      states.length c (states.length + 1) =
      .ok (ofList (states ++ State.reader c (states.length + 1) :: [State.isolated true])) :=
    addTransition_ofList rfl (Nat.lt_succ_self _)
  simp only [addLiteral, addState_ofList, List.length_append, List.length_singleton,
    List.append_assoc, List.singleton_append, bind, Except.bind, hadd]
  rfl

/-- The exit of a fragment becomes a relay to the target. -/
theorem leadExit_ofList {before behind : List State} {entry exit target : Nat}
    (hexit : exit = before.length) (ht : target < before.length + behind.length + 1) :
    (ofList (before ++ State.isolated true :: behind)).leadExit ⟨entry, exit⟩ target =
      .ok (ofList (before ++ State.relay [target] :: behind)) := by
  rw [leadExit]
  simp only [addEpsilon_ofList hexit ht, bind, Except.bind, setAccepting_ofList hexit]
  rfl

/-- A concatenation makes the exit of the left fragment a relay to the right one. -/
theorem joinConcat_ofList (before behind : List State) (left exit : Nat) {right : Nat}
    (hright : right < before.length + behind.length + 1) :
    (ofList (before ++ State.isolated true :: behind)).joinConcat
        ⟨left, before.length⟩ ⟨right, exit⟩ =
      .ok (⟨left, exit⟩, ofList (before ++ State.relay [right] :: behind)) := by
  rw [joinConcat]
  simp only [addEpsilon_ofList rfl hright, bind, Except.bind, setAccepting_ofList rfl]
  rfl

/-- A choice makes the exits of both fragments relays to a new exit, behind a new entry
that leads to both. -/
theorem joinUnion_ofList (before between : List State) {left right : Nat}
    (hleft : left < before.length) (hright : right < before.length + between.length + 1) :
    (ofList (before ++ State.isolated true :: (between ++ [State.isolated true]))).joinUnion
        ⟨left, before.length⟩ ⟨right, before.length + between.length + 1⟩ =
      .ok (⟨before.length + between.length + 2, before.length + between.length + 3⟩,
        ofList (before ++ State.relay [before.length + between.length + 3] :: (between ++
          [State.relay [before.length + between.length + 3], State.relay [left, right],
            State.isolated true]))) := by
  let operands := before ++ State.isolated true :: (between ++ [State.isolated true])
  let fork := State.relay [left, right]
  let exit := before.length + between.length + 3
  have hlen : operands.length = before.length + between.length + 2 := by
    simp only [operands, List.length_append, List.length_cons, List.length_nil]
    omega
  have hentry : (ofList operands).addState false =
      (before.length + between.length + 2, ofList (operands ++ [State.isolated false])) := by
    rw [addState_ofList, hlen]
  have hl : (ofList (operands ++ [State.isolated false])).addEpsilon
      (before.length + between.length + 2) left = .ok (ofList (operands ++ [State.relay [left]])) :=
    addEpsilon_ofList hlen.symm (by rw [hlen]; omega)
  have hr : (ofList (operands ++ [State.relay [left]])).addEpsilon
      (before.length + between.length + 2) right = .ok (ofList (operands ++ [fork])) :=
    addEpsilon_ofList hlen.symm (by rw [hlen]; omega)
  have hexit : (ofList (operands ++ [fork])).addState true =
      (exit, ofList (before ++ State.isolated true ::
        (between ++ [State.isolated true, fork, State.isolated true]))) := by
    rw [addState_ofList, List.length_append, hlen]
    simp only [operands, List.append_assoc, List.cons_append, List.nil_append]
    rfl
  have houtl : (ofList (before ++ State.isolated true ::
      (between ++ [State.isolated true, fork, State.isolated true]))).leadExit
        ⟨left, before.length⟩ exit = .ok (ofList ((before ++ State.relay [exit] :: between) ++
          State.isolated true :: [fork, State.isolated true])) := by
    rw [leadExit_ofList rfl (by simp only [exit, List.length_append, List.length_cons]; omega),
      List.append_assoc, List.cons_append]
  have houtr : (ofList ((before ++ State.relay [exit] :: between) ++
      State.isolated true :: [fork, State.isolated true])).leadExit
        ⟨right, before.length + between.length + 1⟩ exit =
      .ok (ofList ((before ++ State.relay [exit] :: between) ++
        State.relay [exit] :: [fork, State.isolated true])) :=
    leadExit_ofList (by simp only [List.length_append, List.length_cons]; omega)
      (by simp only [exit, List.length_append, List.length_cons, List.length_nil]; omega)
  change (ofList operands).joinUnion _ _ = _
  simp only [joinUnion, hentry, hl, hr, hexit, houtl, houtr, bind, Except.bind]
  simp only [List.append_assoc, List.cons_append]
  rfl

/-- Repetition makes the exit of the fragment a relay to a new exit and back to its entry,
behind a new entry that leads to the same two states. -/
theorem wrapStar_ofList (before : List State) {entry : Nat} (hentry : entry < before.length) :
    (ofList (before ++ [State.isolated true])).wrapStar ⟨entry, before.length⟩ =
      .ok (⟨before.length + 1, before.length + 2⟩,
        ofList (before ++ [State.relay [before.length + 2, entry],
          State.relay [before.length + 2, entry], State.isolated true])) := by
  let exit := before.length + 2
  let fork := State.relay [exit, entry]
  let operand := before ++ [State.isolated true]
  have hlen : operand.length = before.length + 1 := by
    rw [List.length_append, List.length_singleton]
  have hnew : (ofList operand).addState false =
      (before.length + 1, ofList (operand ++ [State.isolated false])) := by
    rw [addState_ofList, hlen]
  have hexit : (ofList (operand ++ [State.isolated false])).addState true =
      (exit, ofList (operand ++ State.isolated false :: [State.isolated true])) := by
    rw [addState_ofList, List.length_append, hlen, List.append_assoc _ [_] [_]]
    rfl
  have hout : (ofList (operand ++ State.isolated false :: [State.isolated true])).addEpsilon
      (before.length + 1) exit =
      .ok (ofList (operand ++ State.relay [exit] :: [State.isolated true])) :=
    addEpsilon_ofList hlen.symm (by rw [hlen]; exact Nat.lt_succ_self _)
  have hin : (ofList (operand ++ State.relay [exit] :: [State.isolated true])).addEpsilon
      (before.length + 1) entry =
      .ok (ofList (before ++ State.isolated true :: [fork, State.isolated true])) := by
    rw [addEpsilon_ofList hlen.symm (by rw [hlen]; omega), List.append_assoc]
    rfl
  have hleave : (ofList (before ++ State.isolated true :: [fork, State.isolated true])).addEpsilon
      before.length exit =
      .ok (ofList (before ++ ⟨true, ∅, [exit]⟩ :: [fork, State.isolated true])) :=
    addEpsilon_ofList rfl (Nat.lt_succ_self _)
  have hagain : (ofList (before ++ ⟨true, ∅, [exit]⟩ :: [fork, State.isolated true])).addEpsilon
      before.length entry =
      .ok (ofList (before ++ ⟨true, ∅, [exit, entry]⟩ :: [fork, State.isolated true])) :=
    addEpsilon_ofList rfl (by omega)
  have hinner : (ofList (before ++ ⟨true, ∅, [exit, entry]⟩ ::
      [fork, State.isolated true])).setAccepting before.length false =
      .ok (ofList (before ++ fork :: [fork, State.isolated true])) :=
    setAccepting_ofList rfl false
  change (ofList operand).wrapStar ⟨entry, before.length⟩ = _
  simp only [wrapStar, hnew, hexit, hout, hin, hleave, hagain, hinner, bind, Except.bind]
  rfl

end Arena

end PatternAutomata
