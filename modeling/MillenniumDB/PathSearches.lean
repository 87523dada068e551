import MillenniumDB.AllShortest

/-!
# `AllShortest::BFSCheck`, `AStarIterEnum` and `DFSEnum`

The remaining searches for paths: all shortest paths between two fixed nodes, and the two
enumerations that expand the best or the last state first.
-/

namespace MillenniumDB
namespace Paths

namespace AllShortest

/-- What `begin`, `next` and `reset` change. -/
structure BFSCheck where
  endObjectId : Nat
  isFirst : Bool
  visited : List SearchState
  iters : Iters
  openStates : List SearchState
  iter : Option (List Nat)
  currentTransition : Nat

namespace BFSCheck

/-- The next record of the iterator: a state that is visited already, where the transition is
added at the same distance, or a new one. -/
def checkChild (visited : List SearchState) (current : SearchState) (t : Transition) (h : Iters)
    (m : Nat) : Option SearchState × Iters :=
  let next : SearchState := ⟨t.toState, m, current.distance + 1⟩
  let e : IterTransition := ⟨current.key, t.inverse, t.typeId⟩
  match visited.find? fun s => s.key = next.key with
  | some s => (none, if s.distance = next.distance then addTransition h s.key e else h)
  | none => (some next, Function.update h next.key ⟨[e], none⟩)

/-- The loop over the transitions left, from the one with index `k`: it stops at the first
record.  The cursor behind it is left in `iter` and `current_transition`. -/
def searchRow (P : PathIndexProvider) (current : SearchState) (st : BFSCheck) :
    List Transition → Nat → List Nat → Bool × Option SearchState × BFSCheck
  | [], k, ms => (false, none, { st with iter := some ms, currentTransition := k })
  | t :: _, k, m :: ms =>
    let child := checkChild st.visited current t st.iters m
    (true, child.1, { st with
      visited := st.visited ++ child.1.toList
      iters := child.2, iter := some ms, currentTransition := k })
  | _ :: ts, k, [] => searchRow P current st ts (k + 1) (rowIter P current.nodeId ts)

/-- `current_state_has_next`: whether there was a record, and the state that it inserted. -/
def currentStateHasNext (P : PathIndexProvider) (A : RPQAutomaton) (current : SearchState)
    (st : BFSCheck) : Bool × Option SearchState × BFSCheck :=
  let row := A.fromTo current.automatonState
  match st.iter with
  | none =>
    if row = [] then (false, none, { st with currentTransition := 0 })
    else searchRow P current st row 0 (rowIter P current.nodeId row)
  | some ms => searchRow P current st (row.drop st.currentTransition) st.currentTransition ms

/-- The loop of `next`. -/
def loop (P : PathIndexProvider) (A : RPQAutomaton) :
    Nat → BFSCheck → Option (List (EdgeLabel × Nat)) × BFSCheck
  | 0, st => (none, st)
  | fuel + 1, st =>
    match st.openStates with
    | [] => (none, st)
    | current :: _ =>
      match currentStateHasNext P A current st with
      | (hasNext, found, st) =>
        let st := { st with openStates := st.openStates ++ found.toList }
        if current.automatonState = A.finalState ∧ current.nodeId = st.endObjectId then
          let moved := pathNext (current.distance + 1) st.iters current.key
          if moved.1 then
            (some (walkOf (getPath (current.distance + 1) moved.2 current.key)),
              { st with iters := moved.2 })
          else (none, { st with iters := moved.2, openStates := [] })
        else if hasNext then loop P A fuel st
        else loop P A fuel { st with openStates := st.openStates.tail, iter := none }

def next (G : QuadModel) (A : RPQAutomaton) (fuel : Nat) (st : BFSCheck) :
    Option (List (EdgeLabel × Nat)) × BFSCheck :=
  if st.isFirst then
    let st := { st with isFirst := false }
    match st.openStates with
    | [] => (none, st)
    | current :: _ =>
      if ¬ G.provider.nodeExists current.nodeId then (none, { st with openStates := [] })
      else if A.startIsFinal ∧ current.nodeId = st.endObjectId then
        (some (walkOf (getPath 1 st.iters current.key)), { st with openStates := [] })
      else loop G.provider A fuel st
  else loop G.provider A fuel st

/-- `begin`, of an operator that was just constructed. -/
def start (s endId : Nat) : BFSCheck where
  endObjectId := endId
  isFirst := true
  visited := [⟨0, s, 0⟩]
  iters := fun _ => {}
  openStates := [⟨0, s, 0⟩]
  iter := none
  currentTransition := 0

/-- `reset`, which leaves `iter` and `current_transition` as they are. -/
def reset (s endId : Nat) (st : BFSCheck) : BFSCheck := { st with
  endObjectId := endId
  isFirst := true
  visited := [⟨0, s, 0⟩]
  iters := fun _ => {}
  openStates := [⟨0, s, 0⟩] }

end BFSCheck

end AllShortest

/-- `DFSSearchState`: a state on the stack, with its own cursor. -/
structure DFSSearchState where
  objectId : Nat
  state : Nat
  currentTransition : Nat := 0
  iter : Option (List Nat) := none

/-- What `begin`, `next` and `reset` change; the top of the stack comes first. -/
structure DFSEnum where
  firstNext : Bool
  visited : List SearchState
  openStates : List DFSSearchState

/-- The entry of `visited` for a state and a node. -/
def visitedState (visited : List SearchState) (state objectId : Nat) : SearchState :=
  (findState visited (state, objectId)).getD (.root state objectId)

namespace DFSEnum

/-- `current_state_has_next`: the state that it reaches, with the cursor that it leaves. -/
def currentStateHasNext (P : PathIndexProvider) (A : RPQAutomaton) (visited : List SearchState)
    (s : DFSSearchState) : Option (SearchState × Nat × List Nat) :=
  let row := A.fromTo s.state
  let current := visitedState visited s.state s.objectId
  match s.iter with
  | none => searchRow P visited current row 0 (rowIter P s.objectId row)
  | some ms => searchRow P visited current (row.drop s.currentTransition) s.currentTransition ms

/-- The loop of `next`. -/
def loop (P : PathIndexProvider) (A : RPQAutomaton) : Nat → DFSEnum → Option SearchState × DFSEnum
  | 0, st => (none, st)
  | fuel + 1, st =>
    match st.openStates with
    | [] => (none, st)
    | s :: rest =>
      match currentStateHasNext P A st.visited s with
      | some (reached, k, ms) =>
        let st := { st with
          visited := st.visited ++ [reached]
          openStates := { objectId := reached.nodeId, state := reached.automatonState } ::
            { s with currentTransition := k, iter := some ms } :: rest }
        if reached.automatonState = A.finalState then (some reached, st) else loop P A fuel st
      | none => loop P A fuel { st with openStates := rest }

def next (G : QuadModel) (A : RPQAutomaton) (fuel : Nat) (st : DFSEnum) :
    Option SearchState × DFSEnum :=
  if st.firstNext then
    let st := { st with firstNext := false }
    match st.openStates with
    | [] => (none, st)
    | s :: _ =>
      -- the stack keeps the state of a node that does not exist
      if ¬ G.provider.nodeExists s.objectId then (none, st)
      else if A.startIsFinal then
        let reached := SearchState.root A.finalState s.objectId
        match findState st.visited reached.key with
        | some r => (some r, st)
        | none => (some reached, { st with visited := st.visited ++ [reached] })
      else loop G.provider A fuel st
  else loop G.provider A fuel st

/-- `begin`. -/
def start (s : Nat) : DFSEnum where
  firstNext := true
  visited := [.root 0 s]
  openStates := [{ objectId := s, state := 0 }]

def reset (s : Nat) (st : DFSEnum) : DFSEnum := { st with
  firstNext := true
  visited := [.root 0 s]
  openStates := [{ objectId := s, state := 0 }] }

end DFSEnum

structure PriorityIterState where
  state : Nat
  objectId : Nat
  distance : Nat
  transition : Nat := 0
  iter : Option (List Nat) := none

/-- `std::priority_queue<PriorityIterState>`.  The comparison of two states is no strict weak
order, so that nothing is said about which state is at the top.  `modifyTop` is the call of
`next` on the iterator of the top. -/
structure PriorityQueue where
  Heap : Type
  empty : Heap
  top : Heap → Option PriorityIterState
  push : PriorityIterState → Heap → Heap
  pop : Heap → Heap
  modifyTop : (PriorityIterState → PriorityIterState) → Heap → Heap

/-- What `begin`, `next` and `reset` change. -/
structure AStarIterEnum (Q : PriorityQueue) where
  isFirst : Bool
  visited : List SearchState
  openStates : Q.Heap

namespace AStarIterEnum

variable (Q : PriorityQueue)

/-- `set_iter`: the top is replaced by a copy with the next iterator.  Behind the last
transition the code reads past the end of the row; what that iterator lists is never read. -/
def setIter (P : PathIndexProvider) (A : RPQAutomaton) (heap : Q.Heap)
    (current : PriorityIterState) : Q.Heap :=
  let transition := if current.iter.isSome then current.transition + 1 else 0
  let ms := rowIter P current.objectId ((A.fromTo current.state).drop transition)
  Q.push { current with transition := transition, iter := some ms } (Q.pop heap)

/-- The loop of `current_state_has_next`, over the states that `set_iter` puts at the top. -/
def searchTop (P : PathIndexProvider) (A : RPQAutomaton) (visited : List SearchState) :
    Nat → Q.Heap → Option SearchState × Q.Heap
  | 0, heap => (none, heap)
  | fuel + 1, heap =>
    match Q.top heap with
    | none => (none, heap)
    | some current =>
      match (A.fromTo current.state)[current.transition]? with
      | none => (none, heap)
      | some t =>
        match nextChild visited (visitedState visited current.state current.objectId) t
            (current.iter.getD []) with
        | some (reached, ms) => (some reached, Q.modifyTop (fun s => { s with iter := some ms }) heap)
        | none => searchTop P A visited fuel (setIter Q P A heap current)

def currentStateHasNext (P : PathIndexProvider) (A : RPQAutomaton) (fuel : Nat)
    (visited : List SearchState) (heap : Q.Heap) : Option SearchState × Q.Heap :=
  match Q.top heap with
  | none => (none, heap)
  | some current =>
    if current.iter.isSome then searchTop Q P A visited fuel heap
    else if current.transition < (A.fromTo current.state).length then
      searchTop Q P A visited fuel (setIter Q P A heap current)
    else (none, heap)

/-- The loop of `next`. -/
def loop (P : PathIndexProvider) (A : RPQAutomaton) (limit : Nat) :
    Nat → AStarIterEnum Q → Option SearchState × AStarIterEnum Q
  | 0, st => (none, st)
  | fuel + 1, st =>
    match Q.top st.openStates with
    | none => (none, st)
    | some _ =>
      match currentStateHasNext Q P A limit st.visited st.openStates with
      | (some reached, heap) =>
        let distance := ((Q.top heap).map (·.distance)).getD 0
        let st := { st with
          visited := st.visited ++ [reached]
          openStates := Q.push ⟨reached.automatonState, reached.nodeId, distance, 0, none⟩ heap }
        if reached.automatonState = A.finalState then (some reached, st) else loop P A limit fuel st
      | (none, heap) => loop P A limit fuel { st with openStates := Q.pop heap }

def next (G : QuadModel) (A : RPQAutomaton) (fuel : Nat) (st : AStarIterEnum Q) :
    Option SearchState × AStarIterEnum Q :=
  if st.isFirst then
    let st := { st with isFirst := false }
    match Q.top st.openStates with
    | none => (none, st)
    | some current =>
      if ¬ G.provider.nodeExists current.objectId then (none, st)
      else if A.startIsFinal then
        let reached := SearchState.root A.finalState current.objectId
        match findState st.visited reached.key with
        | some r => (some r, st)
        | none => (some reached, { st with visited := st.visited ++ [reached] })
      else loop Q G.provider A fuel fuel st
  else loop Q G.provider A fuel fuel st

/-- `begin`. -/
def start (A : RPQAutomaton) (s : Nat) : AStarIterEnum Q where
  isFirst := true
  visited := [.root 0 s]
  openStates := Q.push ⟨0, s, A.distanceToFinal 0, 0, none⟩ Q.empty

def reset (A : RPQAutomaton) (s : Nat) (st : AStarIterEnum Q) : AStarIterEnum Q := { st with
  isFirst := true
  visited := [.root 0 s]
  openStates := Q.push ⟨0, s, A.distanceToFinal 0, 0, none⟩ Q.empty }

end AStarIterEnum

end Paths
end MillenniumDB
