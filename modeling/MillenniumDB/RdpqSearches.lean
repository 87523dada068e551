import MillenniumDB.BfsIterEnum

/-!
# `BFS_RDPQEnum` and `BFS_RDPQCheck`

The searches for data paths, whose nodes and edges pass checks of their properties.  The automaton
alternates between states with data transitions, which check the node that was reached, and states
with edge transitions.  A search only keeps states with edge transitions: a step takes an edge
transition and one data transition behind it.
-/

namespace MillenniumDB

inductive Operators
  | eq
  | notEq
  deriving DecidableEq

structure PropertyCheck (V : Type) where
  op : Operators
  key : String
  value : V

/-- `RDPQTransition`; `isCheck` tells a data transition from an edge transition. -/
structure RDPQTransition (V : Type) where
  fromState : Nat
  toState : Nat
  inverse : Bool
  isCheck : Bool
  type : String
  typeId : Nat
  propertyChecks : List (PropertyCheck V)

/-- `RDPQAutomaton`, after `transform_automaton`; the start state is 0. -/
structure RDPQAutomaton (V : Type) where
  finalState : Nat
  rows : Nat
  fromTo : Nat → List (RDPQTransition V)

namespace RDPQAutomaton

variable {V : Type}

structure InRange (A : RDPQAutomaton V) : Prop where
  toState_lt : ∀ i, ∀ t ∈ A.fromTo i, t.toState < A.rows

/-- The invariant of a D/E automaton, where `dState` are the states with data transitions. -/
structure IsDE (A : RDPQAutomaton V) (dState : Nat → Prop) : Prop where
  start : dState 0
  final : ¬ dState A.finalState
  data_transition : ∀ i, dState i → ∀ t ∈ A.fromTo i, t.isCheck ∧ ¬ dState t.toState
  edge_transition : ∀ i, ¬ dState i → ∀ t ∈ A.fromTo i, ¬ t.isCheck ∧ dState t.toState

end RDPQAutomaton

/-- The quad model with the index over the properties and `get_object_id` for their keys and
values. -/
structure PropertyModel (V : Type) extends QuadModel where
  objectKeyValue : List (Nat × Nat × Nat)
  keyId : String → Nat
  valueId : V → Nat

namespace PropertyModel

variable {V : Type}

/-- One round of `eval_data_check`: the first value under the key decides. -/
def evalCheck (G : PropertyModel V) (obj : Nat) (c : PropertyCheck V) : Bool :=
  match G.objectKeyValue.find? fun r => r.1 = obj ∧ r.2.1 = G.keyId c.key with
  | some r =>
    match c.op with
    | .eq => r.2.2 = G.valueId c.value
    | .notEq => r.2.2 ≠ G.valueId c.value
  | none => false

def evalDataCheck (G : PropertyModel V) (obj : Nat) (checks : List (PropertyCheck V)) : Bool :=
  checks.all (G.evalCheck obj)

/-- `set_iter`: the third and the fourth columns of the records, the node and the edge. -/
def setIter (G : PropertyModel V) (typeId : Nat) (inverse : Bool) (n : Nat) : List (Nat × Nat) :=
  if inverse then (prefixRange G.toTypeFromEdge n typeId).map (·.2.2)
  else (prefixRange G.typeFromToEdge typeId n).map (·.2.2)

def HasEdge (G : PropertyModel V) (n : Nat) (l : EdgeLabel) (edge m : Nat) : Prop :=
  (if l.2 then (l.1, m, n, edge) else (l.1, n, m, edge)) ∈ G.typeFromToEdge

variable {G : PropertyModel V} {n m edge : Nat} {l : EdgeLabel}

theorem mem_setIter : (m, edge) ∈ G.setIter l.1 l.2 n ↔ G.HasEdge n l edge m := by
  obtain ⟨typeId, inverse⟩ := l
  cases inverse with
  | false =>
    simp only [PropertyModel.setIter, HasEdge, prefixRange, Bool.false_eq_true,
      if_false, List.mem_map, List.mem_filter, decide_eq_true_eq]
    constructor
    · rintro ⟨⟨_, _, _, _⟩, ⟨hr, htype, hsource⟩, heq⟩
      obtain ⟨rfl, rfl⟩ := Prod.mk.inj heq
      dsimp only at htype hsource
      rw [← htype, ← hsource]
      exact hr
    · intro hr
      exact ⟨_, ⟨hr, rfl, rfl⟩, rfl⟩
  | true =>
    simp only [PropertyModel.setIter, HasEdge, prefixRange, if_true, List.mem_map,
      List.mem_filter, decide_eq_true_eq]
    rw [← G.same_edges]
    constructor
    · rintro ⟨⟨_, _, _, _⟩, ⟨hr, hsource, htype⟩, heq⟩
      obtain ⟨rfl, rfl⟩ := Prod.mk.inj heq
      dsimp only at htype hsource
      rw [← htype, ← hsource]
      exact hr
    · intro hr
      exact ⟨_, ⟨hr, rfl, rfl⟩, rfl⟩

theorem HasEdge.mem_nodes (h : G.HasEdge n l edge m) : m ∈ G.nodes := by
  unfold HasEdge at h
  split_ifs at h
  · exact (G.endpoints _ _ _ _ h).1
  · exact (G.endpoints _ _ _ _ h).2

end PropertyModel

namespace Paths

variable {V : Type}

structure PathStep where
  label : EdgeLabel
  edge : Nat
  node : Nat

/-- The automaton reads a data path from a state at a node to another state at the last node: a
data transition checks the node where the path is, an edge transition takes the next edge. -/
inductive ReadsDataPath (G : PropertyModel V) (A : RDPQAutomaton V) :
    Nat × Nat → List PathStep → Nat × Nat → Prop
  | nil (v) : ReadsDataPath G A v [] v
  | data {q n t p v} : t ∈ A.fromTo q → t.isCheck → G.evalDataCheck n t.propertyChecks →
      ReadsDataPath G A (t.toState, n) p v → ReadsDataPath G A (q, n) p v
  | edge {q n t edge m p v} : t ∈ A.fromTo q → ¬ t.isCheck →
      G.HasEdge n (t.typeId, t.inverse) edge m → G.evalDataCheck edge t.propertyChecks →
      ReadsDataPath G A (t.toState, m) p v →
      ReadsDataPath G A (q, n) (⟨(t.typeId, t.inverse), edge, m⟩ :: p) v

/-- The node ends a data path from `s` that the automaton accepts. -/
def EndsDataPath (G : PropertyModel V) (A : RDPQAutomaton V) (s m : Nat) : Prop :=
  ∃ p, ReadsDataPath G A (0, s) p (A.finalState, m)

def startTransitions (G : PropertyModel V) (A : RDPQAutomaton V) (s : Nat) :
    List (RDPQTransition V) :=
  (A.fromTo 0).filter fun t => G.evalDataCheck s t.propertyChecks

/-- The loop of `begin`: the states in the order in which they are inserted. -/
def beginStates (G : PropertyModel V) (s : Nat) :
    List SearchState → List (RDPQTransition V) → List SearchState
  | visited, [] => visited
  | visited, t :: ts =>
    if G.evalDataCheck s t.propertyChecks then
      let state := SearchState.root t.toState s
      -- `visited.emplace` adds nothing for a state that is there already
      if (findState visited state.key).isSome then beginStates G s visited ts
      else beginStates G s (visited ++ [state]) ts
    else beginStates G s visited ts

/-- What changes during the search.  `iter` holds `child_record` and the records behind it. -/
structure RDPQEnum where
  firstNext : Bool
  visited : List SearchState
  openStates : List SearchState
  iter : Option (List (Nat × Nat))
  currentEdgeTransition : Nat
  currentDataTransition : Nat

namespace RDPQEnum

/-- `begin`, from the start node. -/
def start (G : PropertyModel V) (A : RDPQAutomaton V) (s : Nat) : RDPQEnum where
  firstNext := true
  visited := beginStates G s [] (A.fromTo 0)
  openStates := beginStates G s [] (A.fromTo 0)
  iter := none
  currentEdgeTransition := 0
  currentDataTransition := 0

/-- The loop over the data transitions left, from the one with index `k`: the first state that
`visited.insert` adds, and the index behind its transition. -/
def dataLoop (G : PropertyModel V) (visited : List SearchState) (current : SearchState)
    (t : RDPQTransition V) (node : Nat) : List (RDPQTransition V) → Nat → Option (SearchState × Nat)
  | [], _ => none
  | d :: ds, k =>
    if G.evalDataCheck node d.propertyChecks then
      let next := SearchState.step current t.inverse t.typeId d.toState node
      if (findState visited next.key).isSome then dataLoop G visited current t node ds (k + 1)
      else some (next, k + 1)
    else dataLoop G visited current t node ds (k + 1)

/-- The loop over the records left, where data transitions from index `k` on are left for the
first one.  The edge is only checked when none of them was tried. -/
def recordLoop (G : PropertyModel V) (A : RDPQAutomaton V) (visited : List SearchState)
    (current : SearchState) (t : RDPQTransition V) :
    Nat → List (Nat × Nat) → Option (SearchState × Nat × List (Nat × Nat))
  | _, [] => none
  | k, (node, edge) :: records =>
    let found := if k ≠ 0 ∨ G.evalDataCheck edge t.propertyChecks then
      dataLoop G visited current t node ((A.fromTo t.toState).drop k) k else none
    match found with
    | some (next, k) => some (next, k, (node, edge) :: records)
    | none => recordLoop G A visited current t 0 records

/-- `set_iter` for the first of the edge transitions left. -/
def rowRecords (G : PropertyModel V) (n : Nat) : List (RDPQTransition V) → List (Nat × Nat)
  | [] => []
  | t :: _ => G.setIter t.typeId t.inverse n

/-- The loop over the edge transitions left, from the one with index `i`. -/
def edgeLoop (G : PropertyModel V) (A : RDPQAutomaton V) (visited : List SearchState)
    (current : SearchState) : List (RDPQTransition V) → Nat → Nat → List (Nat × Nat) →
      Option (SearchState × Nat × Nat × List (Nat × Nat))
  | [], _, _, _ => none
  | t :: ts, i, k, records =>
    match recordLoop G A visited current t k records with
    | some (next, k, records) => some (next, i, k, records)
    | none => edgeLoop G A visited current ts (i + 1) 0 (rowRecords G current.nodeId ts)

/-- `current_state_has_next`: the state that it reaches, with the cursors that it leaves. -/
def currentStateHasNext (G : PropertyModel V) (A : RDPQAutomaton V) (st : RDPQEnum)
    (current : SearchState) : Option (SearchState × Nat × Nat × List (Nat × Nat)) :=
  let row := A.fromTo current.automatonState
  match st.iter with
  | none => edgeLoop G A st.visited current row 0 0 (rowRecords G current.nodeId row)
  | some records =>
    edgeLoop G A st.visited current (row.drop st.currentEdgeTransition) st.currentEdgeTransition
      st.currentDataTransition records

/-- The state that was reached is visited and queued, and the cursors stay behind it. -/
def push (st : RDPQEnum) (next : SearchState) (i k : Nat) (records : List (Nat × Nat)) :
    RDPQEnum :=
  { st with
    visited := st.visited ++ [next]
    openStates := st.openStates ++ [next]
    iter := some records
    currentEdgeTransition := i
    currentDataTransition := k }

/-- The loop of `next`. -/
def loop (G : PropertyModel V) (A : RDPQAutomaton V) :
    Nat → RDPQEnum → Option (Option SearchState × RDPQEnum)
  | 0, _ => none
  | fuel + 1, st =>
    match st.openStates with
    | [] => some (none, st)
    | current :: rest =>
      match currentStateHasNext G A st current with
      | some (next, i, k, records) =>
        if next.automatonState = A.finalState then some (some next, st.push next i k records)
        else loop G A fuel (st.push next i k records)
      | none => loop G A fuel { st with iter := none, openStates := rest }

/-- `BFS_RDPQEnum::next`.  It has no outcome when it reads the front of an empty queue. -/
def next (G : PropertyModel V) (A : RDPQAutomaton V) (fuel : Nat) (st : RDPQEnum) :
    Option (Option SearchState × RDPQEnum) :=
  if st.firstNext then
    match st.openStates with
    | [] => none
    | current :: rest =>
      -- a node that does not exist leaves `first_next` as it is
      if ¬ G.provider.nodeExists current.nodeId then some (none, { st with openStates := rest })
      else
        let st := { st with firstNext := false }
        if current.automatonState = A.finalState then some (some current, st)
        else loop G A fuel st
  else loop G A fuel st

end RDPQEnum

structure RDPQCheck where
  isFirst : Bool
  visited : List SearchState
  openStates : List SearchState

namespace RDPQCheck

/-- `begin`, from the start node. -/
def start (G : PropertyModel V) (A : RDPQAutomaton V) (s : Nat) : RDPQCheck where
  isFirst := true
  visited := beginStates G s [] (A.fromTo 0)
  openStates := beginStates G s [] (A.fromTo 0)

def checkData (G : PropertyModel V) (final endId : Nat) (current : SearchState)
    (t : RDPQTransition V) (node : Nat) : List SearchState × List SearchState →
      List (RDPQTransition V) → Option SearchState × List SearchState × List SearchState
  | sets, [] => (none, sets)
  | sets, d :: ds =>
    if G.evalDataCheck node d.propertyChecks then
      let next := SearchState.step current t.inverse t.typeId d.toState node
      let found := findState sets.1 next.key
      let sets' := if found.isSome then sets else (sets.1 ++ [next], sets.2 ++ [next])
      -- the end is tested for states that were visited before as well
      if next.automatonState = final ∧ next.nodeId = endId then (some (found.getD next), sets')
      else checkData G final endId current t node sets' ds
    else checkData G final endId current t node sets ds

def checkRecords (G : PropertyModel V) (A : RDPQAutomaton V) (endId : Nat) (current : SearchState)
    (t : RDPQTransition V) : List SearchState × List SearchState → List (Nat × Nat) →
      Option SearchState × List SearchState × List SearchState
  | sets, [] => (none, sets)
  | sets, (node, edge) :: records =>
    if G.evalDataCheck edge t.propertyChecks then
      match checkData G A.finalState endId current t node sets (A.fromTo t.toState) with
      | (some s, sets) => (some s, sets)
      | (none, sets) => checkRecords G A endId current t sets records
    else checkRecords G A endId current t sets records

def checkEdges (G : PropertyModel V) (A : RDPQAutomaton V) (endId : Nat) (current : SearchState) :
    List SearchState × List SearchState → List (RDPQTransition V) →
      Option SearchState × List SearchState × List SearchState
  | sets, [] => (none, sets)
  | sets, t :: ts =>
    match checkRecords G A endId current t sets (G.setIter t.typeId t.inverse current.nodeId) with
    | (some s, sets) => (some s, sets)
    | (none, sets) => checkEdges G A endId current sets ts

def loop (G : PropertyModel V) (A : RDPQAutomaton V) (endId : Nat) :
    Nat → RDPQCheck → Option (Option SearchState × RDPQCheck)
  | 0, _ => none
  | fuel + 1, st =>
    match st.openStates with
    | [] => some (none, st)
    | current :: _ =>
      match checkEdges G A endId current (st.visited, st.openStates)
          (A.fromTo current.automatonState) with
      | (some s, sets) => some (some s, { st with visited := sets.1, openStates := [] })
      | (none, sets) => loop G A endId fuel { st with visited := sets.1, openStates := sets.2.tail }

/-- `BFS_RDPQCheck::next`.  It has no outcome when it reads the front of an empty queue. -/
def next (G : PropertyModel V) (A : RDPQAutomaton V) (endId fuel : Nat) (st : RDPQCheck) :
    Option (Option SearchState × RDPQCheck) :=
  if st.isFirst then
    match st.openStates with
    | [] => none
    | current :: rest =>
      if ¬ G.provider.nodeExists current.nodeId then some (none, { st with openStates := rest })
      else
        let st := { st with isFirst := false }
        if current.automatonState = A.finalState ∧ current.nodeId = endId then
          some (some current, { st with openStates := [] })
        else loop G A endId fuel st
  else loop G A endId fuel st

end RDPQCheck

end Paths
end MillenniumDB
