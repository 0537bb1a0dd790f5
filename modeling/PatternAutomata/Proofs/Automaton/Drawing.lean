import PatternAutomata.Automaton.Graphviz
import PatternAutomata.Proofs.Automaton.Edges
import PatternAutomata.Proofs.Text.Digits

/-!
# Drawings show an automaton without loss

A drawing is a row of lines, and each kind of line can be told apart in front of whatever follows
it: numbers end where their digits end, and a label ends with its only character, which has a
backslash before it exactly where it could be mistaken. So a drawing determines the numbers of
its lines, and these determine the states: all of a deterministic state but its set, and all of
a state with ε-edges where no symbol looks like the label of these.
-/

namespace PatternAutomata

namespace Graphviz

variable {α : Type}

/-- The texts of a writer can be told apart in front of whatever follows them. -/
def Delimited (write : α → List Char) : Prop :=
  ∀ ⦃x y : α⦄ ⦃u v : List Char⦄, write x ++ u = write y ++ v → x = y ∧ u = v

/-- Rows of texts that can be told apart can be told apart, where what follows them begins with
no such text. -/
theorem Delimited.flatMap_inj {write : α → List Char} (h : Delimited write) {xs ys : List α}
    {u v : List Char} (hu : ∀ x w, u ≠ write x ++ w) (hv : ∀ x w, v ≠ write x ++ w)
    (heq : xs.flatMap write ++ u = ys.flatMap write ++ v) : xs = ys ∧ u = v := by
  induction xs generalizing ys with
  | nil =>
    cases ys with
    | nil => exact ⟨rfl, heq⟩
    | cons y ys =>
      rw [List.flatMap_cons, List.append_assoc] at heq
      exact absurd heq (hu y _)
  | cons x xs ih =>
    cases ys with
    | nil =>
      rw [List.flatMap_cons, List.append_assoc] at heq
      exact absurd heq.symm (hv x _)
    | cons y ys =>
      rw [List.flatMap_cons, List.append_assoc, List.flatMap_cons, List.append_assoc] at heq
      obtain ⟨rfl, hrest⟩ := h heq
      obtain ⟨rfl, huv⟩ := ih hrest
      exact ⟨rfl, huv⟩

/-- What the line of a state shows. -/
structure NodeLine where
  id : Nat
  accepting : Bool

/-- The line of a state, as characters. -/
def NodeLine.write (line : NodeLine) : List Char := (node line.id line.accepting).toList

/-- What the line of an edge shows. -/
structure EdgeLine where
  source : Nat
  label : Char
  target : Nat

/-- The line of an edge, as characters. -/
def EdgeLine.write (line : EdgeLine) : List Char :=
  (edge line.source line.label line.target).toList

/-- The name of the shape in which a state is drawn. -/
def shapeName (accepting : Bool) : List Char :=
  if accepting then "doublecircle".toList else "circle".toList

/-- The line of a state begins with its number. -/
theorem NodeLine.write_append (line : NodeLine) (rest : List Char) :
    line.write ++ rest = '\t' :: (Nat.toDigits 10 line.id ++ (' ' :: '[' :: ("label = \"".toList ++
      (Nat.toDigits 10 line.id ++ ("\", shape = ".toList ++
        (shapeName line.accepting ++ (']' :: ';' :: '\n' :: rest))))))) := by
  cases line with
  | mk id accepting => cases accepting <;> simp [write, node, shapeName]

/-- The line of an edge begins with the numbers of its ends. -/
theorem EdgeLine.write_append (line : EdgeLine) (rest : List Char) :
    line.write ++ rest = '\t' :: (Nat.toDigits 10 line.source ++ (' ' :: '-' :: '>' :: ' ' ::
      (Nat.toDigits 10 line.target ++ (' ' :: '[' :: ("label = \"".toList ++
        (escapeLabel [line.label] ++ ('"' :: ']' :: ';' :: '\n' :: rest))))))) := by
  simp [write, edge]

/-- The lines that point to the start, up to its number. -/
def entryHead : String := "\tinit [label = \"\", shape = none];\n\tinit -> "

/-- The lines that point to the start begin with a name that is no number. -/
theorem exists_toList_entryHead : ∃ rest, entryHead.toList = '\t' :: 'i' :: rest :=
  ⟨entryHead.toList.drop 2, by decide⟩

theorem toList_entry_append (start : Nat) (rest : List Char) :
    (entry start).toList ++ rest =
      entryHead.toList ++ (Nat.toDigits 10 start ++ (';' :: '\n' :: rest)) := by
  have hentry : entry start = entryHead ++ toString start ++ ";\n" := rfl
  have hend : ";\n".toList = [';', '\n'] := by decide
  rw [hentry, String.toList_append, String.toList_append, Nat.toString_eq_repr, Nat.toList_repr,
    hend, List.append_assoc, List.append_assoc]
  rfl

/-- A name that is no number does not begin with digits. -/
theorem ne_toDigits_append {c : Char} (hc : c.isDigit = false) (rest : List Char) (n : Nat)
    (w : List Char) : c :: rest ≠ Nat.toDigits 10 n ++ w := by
  intro h
  cases hdigits : Nat.toDigits 10 n with
  | nil => exact Nat.toDigits_ne_nil hdigits
  | cons d ds =>
    rw [hdigits] at h
    have hd : d.isDigit = true :=
      Nat.isDigit_of_mem_toDigits (b := 10) (n := n) (by decide) (by decide)
        (hdigits ▸ List.mem_cons_self)
    rw [← (List.cons.inj h).1, hc] at hd
    cases hd

/-- The shapes of states can be told apart. -/
theorem shapeName_append_inj {a b : Bool} {u v : List Char}
    (h : shapeName a ++ u = shapeName b ++ v) : a = b ∧ u = v := by
  cases a <;> cases b <;> simp_all [shapeName]

/-- The lines of states can be told apart. -/
theorem delimited_node : Delimited NodeLine.write := by
  rintro ⟨id, a⟩ ⟨id', b⟩ u v h
  rw [NodeLine.write_append, NodeLine.write_append] at h
  obtain ⟨rfl, hlabel⟩ := Digits.toDigits_append_inj (Digits.stops_cons rfl)
    (Digits.stops_cons rfl) (List.cons.inj h).2
  simp only [List.cons.injEq, true_and, List.append_cancel_left_eq] at hlabel
  obtain ⟨rfl, hend⟩ := shapeName_append_inj hlabel
  simp only [List.cons.injEq, true_and] at hend
  exact ⟨rfl, hend⟩

/-- A label of one character can be told apart from what follows it. -/
theorem delimited_label : Delimited fun c => escapeLabel [c] := by
  intro c d u v h
  simp only [escapeLabel, List.flatMap_singleton, Bool.or_eq_true, decide_eq_true_eq] at h
  split at h <;> split at h
  case isTrue.isTrue => simpa using h
  case isTrue.isFalse hd => exact absurd (Or.inl (List.cons.inj h).1.symm) hd
  case isFalse.isTrue hc _ => exact absurd (Or.inl (List.cons.inj h).1) hc
  case isFalse.isFalse => simpa using h

/-- The lines of edges can be told apart. -/
theorem delimited_edge : Delimited EdgeLine.write := by
  rintro ⟨source, label, target⟩ ⟨source', label', target'⟩ u v h
  rw [EdgeLine.write_append, EdgeLine.write_append] at h
  obtain ⟨rfl, harrow⟩ := Digits.toDigits_append_inj (Digits.stops_cons rfl)
    (Digits.stops_cons rfl) (List.cons.inj h).2
  simp only [List.cons.injEq, true_and] at harrow
  obtain ⟨rfl, hlabel⟩ := Digits.toDigits_append_inj (Digits.stops_cons rfl)
    (Digits.stops_cons rfl) harrow
  simp only [List.cons.injEq, true_and, List.append_cancel_left_eq] at hlabel
  obtain ⟨rfl, hend⟩ := delimited_label hlabel
  simp only [List.cons.injEq, true_and] at hend
  exact ⟨rfl, hend⟩

/-- The lines of the states, the first of which has the number `k`. -/
def nodeLines (k : Nat) (shapes : List Shape) : List NodeLine :=
  (shapes.zipIdx k).map fun (s, q) => ⟨q, s.accepting⟩

/-- The lines of the edges of states, the first of which has the number `k`. -/
def edgeLines (k : Nat) (shapes : List Shape) : List EdgeLine :=
  (shapes.zipIdx k).flatMap fun (s, q) => s.edges.map fun (label, target) => ⟨q, label, target⟩

/-- A drawing is its head, the lines of the states, what points to the start, the lines of the
edges, and its end. -/
theorem toList_digraph (name : String) (start : Nat) (shapes : List Shape) :
    (digraph name start shapes).toList =
      ("digraph " ++ name ++ " \x7b\n\trankdir = LR;\n").toList ++
        ((nodeLines 0 shapes).flatMap NodeLine.write ++ ((entry start).toList ++
          ((edgeLines 0 shapes).flatMap EdgeLine.write ++ ['\x7d', '\n']))) := by
  have hnodes : (nodeLines 0 shapes).flatMap NodeLine.write =
      (shapes.zipIdx.map fun (s, q) => node q s.accepting).flatMap String.toList := by
    simp only [nodeLines, List.flatMap_map]
    rfl
  have hedges : (edgeLines 0 shapes).flatMap EdgeLine.write =
      (shapes.zipIdx.map fun (s, q) => String.join (s.edges.map fun (label, target) =>
        edge q label target)).flatMap String.toList := by
    simp only [edgeLines, List.flatMap_assoc, List.flatMap_map, String.toList_join]
    rfl
  rw [hnodes, hedges, digraph]
  simp only [String.toList_append, String.toList_join, List.append_assoc]
  rfl

/-- The edges of states after the first `k` begin at states after the first `k`. -/
theorem le_source_of_mem {k : Nat} {shapes : List Shape} {line : EdgeLine}
    (h : line ∈ edgeLines k shapes) : k ≤ line.source := by
  obtain ⟨⟨s, q⟩, hs, hline⟩ := List.mem_flatMap.mp h
  obtain ⟨e, -, rfl⟩ := List.mem_map.mp hline
  exact List.le_snd_of_mem_zipIdx hs

/-- The edges of the first of several states are those that begin at its number. -/
theorem filter_edgeLines_cons (k : Nat) (s : Shape) (shapes : List Shape) :
    (edgeLines k (s :: shapes)).filter (·.source = k) =
      s.edges.map fun (label, target) => ⟨k, label, target⟩ := by
  have hfirst : ((s.edges.map fun (label, target) => EdgeLine.mk k label target).filter
      (·.source = k)) = s.edges.map fun (label, target) => ⟨k, label, target⟩ := by
    rw [List.filter_eq_self]
    intro line hline
    obtain ⟨e, -, rfl⟩ := List.mem_map.mp hline
    exact decide_eq_true rfl
  have hothers : (edgeLines (k + 1) shapes).filter (·.source = k) = [] := by
    rw [List.filter_eq_nil_iff]
    intro line hline
    have := le_source_of_mem hline
    rw [decide_eq_true_eq]
    omega
  rw [edgeLines, List.zipIdx_cons, List.flatMap_cons, List.filter_append, hfirst]
  exact (congrArg _ hothers).trans (List.append_nil _)

/-- Edges that begin at one state are determined by their lines. -/
theorem edges_eq_of_lines {k : Nat} {es es' : List (Char × Nat)}
    (h : (es.map fun (label, target) => EdgeLine.mk k label target) =
      es'.map fun (label, target) => EdgeLine.mk k label target) : es = es' := by
  refine List.map_injective_iff.mpr ?_ h
  rintro ⟨label, target⟩ ⟨label', target'⟩ he
  cases he
  rfl

/-- The lines of states and those of edges determine the shapes. -/
theorem eq_of_lines {k : Nat} {shapes shapes' : List Shape}
    (hnodes : nodeLines k shapes = nodeLines k shapes')
    (hedges : edgeLines k shapes = edgeLines k shapes') : shapes = shapes' := by
  induction shapes generalizing k shapes' with
  | nil =>
    cases shapes' with
    | nil => rfl
    | cons t shapes' => cases hnodes
  | cons s shapes ih =>
    cases shapes' with
    | nil => cases hnodes
    | cons t shapes' =>
      obtain ⟨hnode, hothers⟩ := List.cons.inj hnodes
      have hfirst := congrArg (List.filter (·.source = k)) hedges
      rw [filter_edgeLines_cons, filter_edgeLines_cons] at hfirst
      have hst : s = t := by
        cases s
        cases t
        cases hnode
        cases edges_eq_of_lines hfirst
        rfl
      subst hst
      rw [edgeLines, edgeLines, List.zipIdx_cons, List.zipIdx_cons, List.flatMap_cons,
        List.flatMap_cons] at hedges
      rw [ih hothers (List.append_cancel_left hedges)]

/-- What points to the start begins with no line of a state. -/
theorem entry_ne_node (start : Nat) (rest : List Char) (line : NodeLine) (w : List Char) :
    (entry start).toList ++ rest ≠ line.write ++ w := by
  intro h
  obtain ⟨tail, htail⟩ := exists_toList_entryHead
  rw [toList_entry_append, htail, NodeLine.write_append] at h
  exact ne_toDigits_append rfl _ _ _ (List.cons.inj h).2

/-- The end of a drawing begins with no line of an edge. -/
theorem end_ne_edge (line : EdgeLine) (w : List Char) : ['\x7d', '\n'] ≠ line.write ++ w := by
  rw [EdgeLine.write_append]
  intro h
  cases (List.cons.inj h).1

/-- A drawing determines the start and the shapes of the states. -/
theorem digraph_inj {name : String} {start start' : Nat} {shapes shapes' : List Shape} :
    digraph name start shapes = digraph name start' shapes' ↔
      start = start' ∧ shapes = shapes' := by
  constructor
  · intro h
    have htexts := congrArg String.toList h
    rw [toList_digraph, toList_digraph] at htexts
    obtain ⟨hnodes, hrest⟩ := delimited_node.flatMap_inj (entry_ne_node _ _) (entry_ne_node _ _)
      (List.append_cancel_left htexts)
    rw [toList_entry_append, toList_entry_append] at hrest
    obtain ⟨rfl, htail⟩ := Digits.toDigits_append_inj (Digits.stops_cons rfl)
      (Digits.stops_cons rfl) (List.append_cancel_left hrest)
    obtain ⟨hedges, -⟩ := delimited_edge.flatMap_inj end_ne_edge end_ne_edge
      (List.cons.inj (List.cons.inj htail).2).2
    exact ⟨rfl, eq_of_lines hnodes hedges⟩
  · rintro ⟨rfl, rfl⟩
    rfl

end Graphviz

open Graphviz

/-- Two deterministic automata that differ in nothing but the sets that their states stand for. -/
structure Dfa.Alike (a b : Dfa) : Prop where
  size_eq : a.size = b.size
  start_eq : a.start = b.start
  state_eq : ∀ (q : DfaStateId) (s t : DfaState), a.states[q]? = some s → b.states[q]? = some t →
    s.accepting = t.accepting ∧ s.transitions = t.transitions

/-- Two automata with ε-edges that differ in nothing but the end. -/
structure Nfa.Alike (a b : Nfa) : Prop where
  size_eq : a.size = b.size
  start_eq : a.start = b.start
  state_eq : ∀ (q : StateId) (s t : State), a.states[q]? = some s → b.states[q]? = some t →
    s.accepting = t.accepting ∧ s.transitions = t.transitions ∧ s.epsilon = t.epsilon

/-- Lists of states have the same shapes where they are as long and the shapes agree state by
state. -/
theorem map_shape_eq_iff {α : Type} {shape : α → Shape} {xs ys : Array α} :
    xs.toList.map shape = ys.toList.map shape ↔ xs.size = ys.size ∧
      ∀ (q : Nat) (x y : α), xs[q]? = some x → ys[q]? = some y → shape x = shape y := by
  constructor
  · intro h
    refine ⟨by simpa using congrArg List.length h, fun q x y hx hy => ?_⟩
    have hq := congrArg (fun l => l[q]?) h
    simpa [hx, hy] using hq
  · rintro ⟨hsize, hshapes⟩
    apply List.ext_getElem?
    intro q
    rw [List.getElem?_map, List.getElem?_map, Array.getElem?_toList, Array.getElem?_toList]
    by_cases hq : q < xs.size
    · have hx := Array.getElem?_eq_getElem hq
      have hy := Array.getElem?_eq_getElem (hsize ▸ hq)
      rw [hx, hy, Option.map_some, Option.map_some, hshapes q _ _ hx hy]
    · rw [Array.getElem?_eq_none (Nat.le_of_not_lt hq),
        Array.getElem?_eq_none (hsize ▸ Nat.le_of_not_lt hq)]

/-- The shape of a deterministic state shows its acceptance and its transitions. -/
theorem DfaState.shape_eq_iff {s t : DfaState} :
    s.shape = t.shape ↔ s.accepting = t.accepting ∧ s.transitions = t.transitions := by
  rw [shape, shape, Shape.mk.injEq]
  refine and_congr_right fun _ => ⟨SortedMap.ext_entries, ?_⟩
  exact congrArg SortedMap.entries

/-- Transitions that read no symbol like the label of ε-edges can be told apart from these. -/
theorem entries_append_inj {xs ys : List (Char × Nat)} {es fs : List Nat}
    (hx : ∀ e ∈ xs, e.1 ≠ epsilonLabel) (hy : ∀ e ∈ ys, e.1 ≠ epsilonLabel)
    (h : xs ++ es.map (epsilonLabel, ·) = ys ++ fs.map (epsilonLabel, ·)) : xs = ys ∧ es = fs := by
  have hepsilon : ∀ ns : List Nat,
      (ns.map (epsilonLabel, ·)).filter (·.1 ≠ epsilonLabel) = [] := by
    intro ns
    rw [List.filter_eq_nil_iff]
    intro e he
    obtain ⟨n, -, rfl⟩ := List.mem_map.mp he
    rw [decide_eq_true_eq]
    exact fun hne => hne rfl
  have hsymbols : ∀ zs : List (Char × Nat), (∀ e ∈ zs, e.1 ≠ epsilonLabel) →
      zs.filter (·.1 ≠ epsilonLabel) = zs := fun zs hzs =>
    List.filter_eq_self.mpr fun e he => decide_eq_true (hzs e he)
  have hxy := congrArg (List.filter (·.1 ≠ epsilonLabel)) h
  rw [List.filter_append, List.filter_append, hepsilon, hepsilon, hsymbols xs hx, hsymbols ys hy,
    List.append_nil, List.append_nil] at hxy
  subst hxy
  refine ⟨rfl, List.map_injective_iff.mpr (fun m n hmn => ?_) (List.append_cancel_left h)⟩
  exact (Prod.mk.inj hmn).2

/-- The shape of a state shows all of it, where no symbol looks like the label of ε-edges. -/
theorem State.shape_eq_iff {s t : State} (hs : epsilonLabel ∉ s.transitions.keys)
    (ht : epsilonLabel ∉ t.transitions.keys) :
    s.shape = t.shape ↔
      s.accepting = t.accepting ∧ s.transitions = t.transitions ∧ s.epsilon = t.epsilon := by
  have hkeys : ∀ {u : State}, epsilonLabel ∉ u.transitions.keys →
      ∀ e ∈ u.transitions.entries, e.1 ≠ epsilonLabel := by
    intro u hu e he heq
    exact hu (List.mem_map.mpr ⟨e, he, heq⟩)
  rw [shape, shape, Shape.mk.injEq]
  refine and_congr_right fun _ => ⟨fun h => ?_, ?_⟩
  · obtain ⟨hentries, hepsilon⟩ := entries_append_inj (hkeys hs) (hkeys ht) h
    exact ⟨SortedMap.ext_entries hentries, hepsilon⟩
  · rintro ⟨htransitions, hepsilon⟩
    rw [htransitions, hepsilon]

/-- A symbol outside the alphabet is read by no state. -/
theorem Nfa.notMem_keys_of_notMem_alphabet {nfa : Nfa} {c : Char} (hc : c ∉ nfa.alphabet)
    {q : StateId} {s : State} (hs : nfa.states[q]? = some s) : c ∉ s.transitions.keys := by
  intro hmem
  rw [mem_alphabet_iff] at hc
  exact hc (List.mem_flatMap.mpr ⟨s, Array.mem_toList_iff.mpr (Array.mem_of_getElem? hs), hmem⟩)

/-- Deterministic automata have the same drawing where they differ in nothing but the sets of
their states. Automata with ε-edges in which no symbol looks like the label of these have the
same drawing where they differ in nothing but the end. -/
theorem toDot_eq_iff : (∀ a b : Dfa, a.toDot = b.toDot ↔ a.Alike b) ∧
    ∀ a b : Nfa, epsilonLabel ∉ a.alphabet → epsilonLabel ∉ b.alphabet →
      (a.toDot = b.toDot ↔ a.Alike b) := by
  refine ⟨fun a b => ?_, fun a b ha hb => ?_⟩
  · rw [Dfa.toDot, Dfa.toDot, digraph_inj, map_shape_eq_iff]
    simp only [DfaState.shape_eq_iff]
    exact ⟨fun ⟨hstart, hsize, hstates⟩ => ⟨hsize, hstart, hstates⟩,
      fun ⟨hsize, hstart, hstates⟩ => ⟨hstart, hsize, hstates⟩⟩
  · rw [Nfa.toDot, Nfa.toDot, digraph_inj, map_shape_eq_iff]
    have hshape : ∀ {q : StateId} {s t : State}, a.states[q]? = some s → b.states[q]? = some t →
        (s.shape = t.shape ↔
          s.accepting = t.accepting ∧ s.transitions = t.transitions ∧ s.epsilon = t.epsilon) :=
      fun hs ht => State.shape_eq_iff (Nfa.notMem_keys_of_notMem_alphabet ha hs)
        (Nfa.notMem_keys_of_notMem_alphabet hb ht)
    constructor
    · rintro ⟨hstart, hsize, hstates⟩
      exact ⟨hsize, hstart, fun q s t hs ht => (hshape hs ht).mp (hstates q s t hs ht)⟩
    · rintro ⟨hsize, hstart, hstates⟩
      exact ⟨hstart, hsize, fun q s t hs ht => (hshape hs ht).mpr (hstates q s t hs ht)⟩

/-- An automaton that reads a quote and a backslash has the drawing of the one with another end. -/
theorem toDot_eq_of_other_end :
    let states : Array State := #[⟨false, .ofList [('"', 1), ('\\', 0)], [1, 0]⟩, .isolated true]
    let a : Nfa := ⟨states, 0, 1⟩
    let b : Nfa := ⟨states, 0, 0⟩
    epsilonLabel ∉ a.alphabet ∧ epsilonLabel ∉ b.alphabet ∧ a.toDot = b.toDot ∧ a.Alike b :=
  ⟨by decide, by decide, rfl, (toDot_eq_iff.2 _ _ (by decide) (by decide)).mp rfl⟩

end PatternAutomata
