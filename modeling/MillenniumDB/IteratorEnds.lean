import MillenniumDB.DistinctHash
import MillenniumDB.EdgePlans
import MillenniumDB.Lib.Ends
import MillenniumDB.PathResets

/-!
# Ends of the iterators

The joins call their left side again after it has reported its end.  Each operator knows its end in
its own way: a cursor that stays, a level below zero, an empty queue, a flag or a count.
-/

namespace MillenniumDB
namespace IteratorEnds

open DistinctHash (DistinctBindingHash)

/-- `BindingIdIter`. -/
abbrev BindingIter := EnvIter Binding

section

variable (L R : BindingIter)

/-- `lhs` and `original_rhs`, and whether `rhs` is the empty iterator. -/
structure JoinState where
  lhs : L.State
  originalRhs : R.State
  empty : Bool

variable {L R}

namespace JoinState

/-- `rhs->next()`. -/
def rhsNext (fuel : Nat) (st : JoinState L R) (b : Binding) : Option (Bool × JoinState L R × Binding) :=
  if st.empty then some (false, st, b)
  else (R.next fuel st.originalRhs b).map fun (r, rhs, b) => (r, { st with originalRhs := rhs }, b)

/-- `rhs->reset()`. -/
def rhsReset (fuel : Nat) (st : JoinState L R) (b : Binding) : Option (JoinState L R × Binding) :=
  if st.empty then some (st, b)
  else (R.reset fuel st.originalRhs b).map fun (rhs, b) => ({ st with originalRhs := rhs }, b)

/-- `rhs->assign_nulls()`. -/
def rhsAssignNulls (st : JoinState L R) (b : Binding) : Option Binding :=
  if st.empty then some b else R.assignNulls st.originalRhs b

/-- `begin` of both joins; the right side is begun after the first row of the left one. -/
def begin (fuel : Nat) (b : Binding) : Option (JoinState L R × Binding) := do
  let (lhs, b) ← L.begin fuel b
  let (r, lhs, b) ← L.next fuel lhs b
  let (rhs, b) ← R.begin fuel b
  some (⟨lhs, rhs, !r⟩, b)

/-- `reset` of both joins. -/
def reset (fuel : Nat) (st : JoinState L R) (b : Binding) : Option (JoinState L R × Binding) := do
  let (lhs, b) ← L.reset fuel st.lhs b
  let (r, lhs, b) ← L.next fuel lhs b
  rhsReset fuel ⟨lhs, st.originalRhs, !r⟩ b

/-- `assign_nulls` of both joins. -/
def assignNulls (st : JoinState L R) (b : Binding) : Option Binding := do
  let b ← L.assignNulls st.lhs b
  R.assignNulls st.originalRhs b

end JoinState

def IndexNestedLoopJoin.next : Nat → JoinState L R → Binding → Option (Bool × JoinState L R × Binding)
  | 0, _, _ => none
  | fuel + 1, st, b => do
    let (r, st, b) ← st.rhsNext fuel b
    if r then some (true, st, b)
    else
      let (l, lhs, b) ← L.next fuel st.lhs b
      if l then
        let (st, b) ← ({ st with lhs } : JoinState L R).rhsReset fuel b
        next fuel st b
      else some (false, { st with lhs }, b)

/-- `IndexLeftOuterJoin::next`, with `must_return_null`. -/
def IndexLeftOuterJoin.next :
    Nat → JoinState L R × Bool → Binding → Option (Bool × (JoinState L R × Bool) × Binding)
  | 0, _, _ => none
  | fuel + 1, (st, mustReturnNull), b => do
    let (r, st, b) ← st.rhsNext fuel b
    if r then some (true, (st, false), b)
    else if mustReturnNull then
      let b ← st.rhsAssignNulls b
      some (true, (st, false), b)
    else
      let (l, lhs, b) ← L.next fuel st.lhs b
      if l then
        let (st, b) ← ({ st with lhs } : JoinState L R).rhsReset fuel b
        next fuel (st, true) b
      else some (false, ({ st with lhs }, false), b)

end

def indexNestedLoopJoin (lhs rhs : BindingIter) : BindingIter where
  State := JoinState lhs rhs
  begin := JoinState.begin
  next := IndexNestedLoopJoin.next
  reset := JoinState.reset
  assignNulls := JoinState.assignNulls

def indexLeftOuterJoin (lhs rhs : BindingIter) : BindingIter where
  State := JoinState lhs rhs × Bool
  begin fuel b := (JoinState.begin fuel b).map fun (st, b) => ((st, !st.empty), b)
  next := IndexLeftOuterJoin.next
  reset fuel st b := (st.1.reset fuel b).map fun (st, b) => ((st, !st.empty), b)
  assignNulls st := st.1.assignNulls

def UnionStates : List BindingIter → Type
  | [] => Unit
  | I :: Is => I.State × UnionStates Is

namespace Union

def beginAll (fuel : Nat) : (Is : List BindingIter) → Binding → Option (UnionStates Is × Binding)
  | [], b => some ((), b)
  | I :: Is, b => do
    let (s, b) ← I.begin fuel b
    let (ss, b) ← beginAll fuel Is b
    some ((s, ss), b)

def resetAll (fuel : Nat) : (Is : List BindingIter) → UnionStates Is → Binding →
    Option (UnionStates Is × Binding)
  | [], _, b => some ((), b)
  | I :: Is, (s, ss), b => do
    let (s, b) ← I.reset fuel s b
    let (ss, b) ← resetAll fuel Is ss b
    some ((s, ss), b)

/-- `iters[current_iter]->next()`. -/
def nextAt (fuel : Nat) : (Is : List BindingIter) → Nat → UnionStates Is → Binding →
    Option (Bool × UnionStates Is × Binding)
  | [], _, _, _ => none
  | I :: _, 0, (s, ss), b => (I.next fuel s b).map fun (r, s, b) => (r, (s, ss), b)
  | _ :: Is, n + 1, (s, ss), b => (nextAt fuel Is n ss b).map fun (r, ss, b) => (r, (s, ss), b)

/-- `iters[current_iter]->assign_nulls()`. -/
def assignNullsAt : (Is : List BindingIter) → Nat → UnionStates Is → Binding → Option Binding
  | [], _, _, _ => none
  | I :: _, 0, (s, _), b => I.assignNulls s b
  | _ :: Is, n + 1, (_, ss), b => assignNullsAt Is n ss b

/-- `next`, with `current_iter`. -/
def next (Is : List BindingIter) : Nat → UnionStates Is × Nat → Binding →
    Option (Bool × (UnionStates Is × Nat) × Binding)
  | 0, _, _ => none
  | fuel + 1, (ss, currentIter), b =>
    if currentIter < Is.length then do
      let (r, ss, b) ← nextAt fuel Is currentIter ss b
      if r then some (true, (ss, currentIter), b) else next Is fuel (ss, currentIter + 1) b
    else some (false, (ss, currentIter), b)

end Union

def union (Is : List BindingIter) : BindingIter where
  State := UnionStates Is × Nat
  begin fuel b := (Union.beginAll fuel Is b).map fun (ss, b) => ((ss, 0), b)
  next := Union.next Is
  reset fuel st b := (Union.resetAll fuel Is st.1 b).map fun (ss, b) => ((ss, 0), b)
  assignNulls st := Union.assignNullsAt Is st.2 st.1

namespace DistinctIdHash

variable (I : BindingIter) (projectedVars : List Nat)
  (hash : DistinctHash.Row projectedVars.length → Nat)

def next : Nat → I.State × DistinctBindingHash projectedVars.length → Binding →
    Option (Bool × (I.State × DistinctBindingHash projectedVars.length) × Binding)
  | 0, _, _ => none
  | fuel + 1, (s, extendableTable), b => do
    let (r, s, b) ← I.next fuel s b
    if r then
      let (isIn, extendableTable) ← DistinctBindingHash.isInOrInsert hash (fun i => b (projectedVars.get i))
        extendableTable
      if isIn then next fuel (s, extendableTable) b else some (true, (s, extendableTable), b)
    else some (false, (s, extendableTable), b)

end DistinctIdHash

/-- The hash is not cleared by `reset`. -/
def distinctIdHash (I : BindingIter) (projectedVars : List Nat)
    (hash : DistinctHash.Row projectedVars.length → Nat) : BindingIter where
  State := I.State × DistinctBindingHash projectedVars.length
  begin fuel b := (I.begin fuel b).map fun (s, b) => ((s, .new projectedVars.length), b)
  next := DistinctIdHash.next I projectedVars hash
  reset fuel st b := (I.reset fuel st.1 b).map fun (s, b) => ((s, st.2), b)
  assignNulls st := I.assignNulls st.1

/-- The loop over the columns of `BptIter::next`: whether a record is in the range. -/
def within : Tuple → Tuple → Bool
  | id :: ids, max :: maxs => if id < max then true else if max < id then false else within ids maxs
  | _, _ => true

/-- The current leaf of a B+ tree, a position in it, the leaves after it, and the end of the range. -/
structure BptIter where
  currentLeaf : List Tuple
  currentPos : Nat
  nextLeaves : List (List Tuple)
  max : Tuple

namespace BptIter

/-- A record at the current position, which the iterator passes only when it is in the range. -/
def check (it : BptIter) (record : Tuple) : Option Tuple × BptIter :=
  if within record it.max then (some record, { it with currentPos := it.currentPos + 1 }) else (none, it)

/-- The loop of `next`, which goes to the next leaf at the end of the current one. -/
def nextFrom (max : Tuple) : List (List Tuple) → List Tuple → Nat → Option Tuple × BptIter
  | [], leaf, pos =>
    match leaf[pos]? with
    | some record => check ⟨leaf, pos, [], max⟩ record
    | none => (none, ⟨leaf, pos, [], max⟩)
  | nextLeaf :: leaves, leaf, pos =>
    match leaf[pos]? with
    | some record => check ⟨leaf, pos, nextLeaf :: leaves, max⟩ record
    | none => nextFrom max leaves nextLeaf 0

def next (it : BptIter) : Option Tuple × BptIter :=
  nextFrom it.max it.nextLeaves it.currentLeaf it.currentPos

end BptIter

/-- A B+ tree, by the leaf and the position that `search_leaf` finds and the leaves after it. -/
abbrev SearchLeaf := Tuple → List Tuple × Nat × List (List Tuple)

/-- `get_range`, of the ranges under a binding. -/
def getRange (searchLeaf : SearchLeaf) (ranges : List Scans.ScanRange) (b : Binding) : BptIter :=
  let found := searchLeaf (ranges.map (·.getMin b))
  ⟨found.1, found.2.1, found.2.2, ranges.map (·.getMax b)⟩

/-- `IndexScan::next`. -/
def scanNext (ranges : List Scans.ScanRange) (it : BptIter) (b : Binding) :
    Option (Bool × BptIter × Binding) :=
  match it.next with
  | (some record, it) => some (true, it, Scans.assign ranges record b)
  | (none, it) => some (false, it, b)

def indexScan (searchLeaf : SearchLeaf) (ranges : List Scans.ScanRange) : BindingIter where
  State := BptIter
  begin _ b := some (getRange searchLeaf ranges b, b)
  next _ := scanNext ranges
  reset _ _ b := some (getRange searchLeaf ranges b, b)
  assignNulls _ b := some (ranges.foldl (fun b range => range.tryAssign b 0) b)

/-- The state is `already_looked`. -/
def edgeTableLookup (table : EdgeTable) (lookup : EdgeTableLookup) : BindingIter where
  State := Bool
  begin _ b := some (false, b)
  next _ alreadyLooked b :=
    match EdgePlans.nextRow lookup table (b, alreadyLooked) with
    | (row, b, alreadyLooked) => some (row.isSome, alreadyLooked, b)
  reset _ _ b := some (false, b)
  assignNulls _ b := some
    ([lookup.edge, lookup.source, lookup.target, lookup.type].foldl (fun b id =>
      match id with
      | .var v => Function.update b v 0
      | .object _ => b) b)

/-- `ObjectEnum::next`. -/
def objectNext (varId mask maxCount currentNode : Nat) (b : Binding) : Option (Bool × Nat × Binding) :=
  if currentNode < maxCount then
    some (true, currentNode + 1, Function.update b varId (mask ||| (currentNode + 1)))
  else some (false, currentNode, b)

/-- The state is `current_node`. -/
def objectEnum (varId mask maxCount : Nat) : BindingIter where
  State := Nat
  begin _ b := some (0, b)
  next _ := objectNext varId mask maxCount
  reset _ _ b := some (0, b)
  assignNulls _ b := some (Function.update b varId 0)

/-- The virtual functions of `LeapfrogIter`. -/
structure LeapfrogIter where
  State : Type
  intersectionVars : State → List Nat
  openTerms : State → Binding → Bool × State
  up : State → State
  down : State → State
  next : State → Bool × State
  seek : State → Nat → Bool × State
  getKey : State → Nat
  beginEnumeration : State → State
  resetEnumeration : State → State
  nextEnumeration : State → Binding → Bool × State × Binding

/-- `iters_for_var` has the places of the iterators in `leapfrog_iters`. -/
structure LeapfrogState (F : LeapfrogIter) where
  iters : List F.State
  itersForVar : List (List Nat)
  level : Int

namespace LeapfrogJoin

variable {F : LeapfrogIter}

/-- The loop of `begin` that opens the terms, up to the first iterator that fails. -/
def openTerms (b : Binding) : List F.State → Bool × List F.State
  | [] => (true, [])
  | it :: its =>
    match F.openTerms it b with
    | (true, it) => ((openTerms b its).1, it :: (openTerms b its).2)
    | (false, it) => (false, it :: its)

/-- The lists of `begin`, up to the first variable that no iterator has. -/
def itersForVars (iters : List F.State) : List Nat → List (List Nat)
  | [] => []
  | v :: vars =>
    match (List.range iters.length).filter fun i =>
        iters[i]?.any fun it => (F.intersectionVars it).contains v with
    | [] => []
    | is => is :: itersForVars iters vars

/-- `iters_for_var[level]`. -/
def current (st : LeapfrogState F) : Option (List Nat) :=
  if 0 ≤ st.level then st.itersForVar[st.level.toNat]? else none

def up (st : LeapfrogState F) : Option (LeapfrogState F) :=
  (current st).map fun is =>
    { st with iters := is.foldl (fun iters i => iters.modify i F.up) st.iters, level := st.level - 1 }

/-- The insertion sort of `down`: behind the iterators whose keys are not larger. -/
def insertByKey (iters : List F.State) (sorted : List Nat) (i : Nat) : List Nat :=
  let key := fun i => (iters[i]?.map F.getKey).getD 0
  sorted.takeWhile (fun j => key j ≤ key i) ++ i :: sorted.dropWhile fun j => key j ≤ key i

/-- The part of `down` that prepares the enumeration, from the second iterator on. -/
def beginEnumerations (b : Binding) : List F.State → List F.State × Binding
  | [] => ([], b)
  | it :: its =>
    let begun := F.nextEnumeration (F.beginEnumeration it) b
    let rest := beginEnumerations begun.2.2 its
    (begun.2.1 :: rest.1, rest.2)

def down (enumerationLevel : Nat) (st : LeapfrogState F) (b : Binding) :
    Option (LeapfrogState F × Binding) :=
  let st := { st with level := st.level + 1 }
  if st.level < (enumerationLevel : Int) then
    (current st).map fun is =>
      let iters := is.foldl (fun iters i => iters.modify i F.down) st.iters
      ({ st with
        iters, itersForVar := st.itersForVar.set st.level.toNat (is.foldl (insertByKey iters) []) }, b)
  else
    match st.iters with
    | [] => none
    | it :: its =>
      let rest := beginEnumerations b its
      some ({ st with iters := F.beginEnumeration it :: rest.1 }, rest.2)

/-- `next` of the last iterator of the level. -/
def lastNext (st : LeapfrogState F) : Option (Bool × LeapfrogState F) := do
  let is ← current st
  let i ← is.getLast?
  let it ← st.iters[i]?
  let moved := F.next it
  some (moved.1, { st with iters := st.iters.set i moved.2 })

/-- The loop of `find_intersection_for_current_level`, with the least key that it ends at. -/
def seekLoop (is : List Nat) : Nat → List F.State → Nat → Nat → Nat → Option (Bool × List F.State × Nat)
  | 0, _, _, _, _ => none
  | fuel + 1, iters, p, min, max =>
    if min = max then some (true, iters, min)
    else do
      let i ← is[p]?
      let it ← iters[i]?
      let sought := F.seek it max
      let iters := iters.set i sought.2
      if sought.1 then
        let p := (p + 1) % is.length
        let j ← is[p]?
        let it' ← iters[j]?
        seekLoop is fuel iters p (F.getKey it') (F.getKey sought.2)
      else some (false, iters, min)

/-- `find_intersection_for_current_level`. -/
def findIntersection (varOrder : List Nat) (fuel : Nat) (st : LeapfrogState F) (b : Binding) :
    Option (Bool × LeapfrogState F × Binding) := do
  let is ← current st
  let first ← is.head?.bind (st.iters[·]?)
  let last ← is.getLast?.bind (st.iters[·]?)
  let (found, iters, min) ← seekLoop is fuel st.iters 0 (F.getKey first) (F.getKey last)
  if found then
    let v ← varOrder[st.level.toNat]?
    some (true, { st with iters }, Function.update b v min)
  else some (false, { st with iters }, b)

/-- The loop after a level without an intersection: the last iterator of a level above is moved. -/
def climb : Nat → LeapfrogState F → Option (Bool × LeapfrogState F)
  | 0, _ => none
  | fuel + 1, st =>
    if st.level = 0 then some (false, { st with level := -1 })
    else do
      let st ← up st
      let (r, st) ← lastNext st
      if r then some (true, st) else climb fuel st

def descend (varOrder : List Nat) (enumerationLevel : Nat) :
    Nat → LeapfrogState F → Binding → Option (Bool × LeapfrogState F × Binding)
  | 0, _, _ => none
  | fuel + 1, st, b =>
    if st.level < (enumerationLevel : Int) then do
      let (found, st, b) ← findIntersection varOrder fuel st b
      if found then
        let (st, b) ← down enumerationLevel st b
        descend varOrder enumerationLevel fuel st b
      else
        let (r, st) ← climb fuel st
        if r then descend varOrder enumerationLevel fuel st b else some (false, st, b)
    else some (true, st, b)

/-- The loop over the enumerations: those before the first that goes on begin again. -/
def enumerate (before : List F.State) : List F.State → Binding → Bool × List F.State × Binding
  | [], b => (false, before.reverse, b)
  | it :: its, b =>
    match F.nextEnumeration it b with
    | (true, it, b) =>
      let again := before.foldl (fun (st : List F.State × Binding) it =>
        let begun := F.nextEnumeration (F.resetEnumeration it) st.2
        (begun.2.1 :: st.1, begun.2.2)) ([], b)
      (true, again.1 ++ it :: its, again.2)
    | (false, it, b) => enumerate (it :: before) its b

def backtrack : Nat → LeapfrogState F → Option (LeapfrogState F)
  | 0, _ => none
  | fuel + 1, st =>
    if 0 ≤ st.level then do
      let (r, st) ← lastNext st
      if r then some st
      else
        let st ← up st
        backtrack fuel st
    else some st

def next (varOrder : List Nat) (enumerationLevel : Nat) :
    Nat → LeapfrogState F → Binding → Option (Bool × LeapfrogState F × Binding)
  | 0, _, _ => none
  | fuel + 1, st, b =>
    if 0 ≤ st.level then do
      let (r, st, b) ← descend varOrder enumerationLevel fuel st b
      if r then
        let (found, iters, b) := enumerate [] st.iters b
        if found then some (true, { st with iters }, b)
        else if st.itersForVar = [] then some (false, { st with iters, level := -1 }, b)
        else
          let st ← backtrack fuel { st with iters, level := st.level - 1 }
          next varOrder enumerationLevel fuel st b
      else some (false, st, b)
    else some (false, st, b)

end LeapfrogJoin

def leapfrogJoin (F : LeapfrogIter) (iters : List F.State) (varOrder : List Nat) (enumerationLevel : Nat) :
    BindingIter where
  State := LeapfrogState F
  begin _ b :=
    let opened := LeapfrogJoin.openTerms b iters
    let st : LeapfrogState F := ⟨opened.2, LeapfrogJoin.itersForVars iters varOrder, -1⟩
    if opened.1 then LeapfrogJoin.down enumerationLevel st b else some (st, b)
  next := LeapfrogJoin.next varOrder enumerationLevel
  reset _ st b :=
    let opened := LeapfrogJoin.openTerms b st.iters
    let st : LeapfrogState F := { st with iters := opened.2, level := -1 }
    if opened.1 then LeapfrogJoin.down enumerationLevel st b else some (st, b)
  assignNulls _ b := some (varOrder.foldl (fun b v => Function.update b v 0) b)

section

open Paths

variable (G : QuadModel) (A : RPQAutomaton)

/-- A search runs while there are open states; `body` goes once through the loop. -/
def whileOpen {σ ρ : Type} (isOpen : σ → Bool) (body : σ → Option ρ × σ) : Nat → σ → Option (Option ρ × σ)
  | 0, _ => none
  | fuel + 1, st =>
    if isOpen st then
      match body st with
      | (some r, st) => some (some r, st)
      | (none, st) => whileOpen isOpen body fuel st
    else some (none, st)

/-- `BFSIterEnum::next`, with the loop run to its end. -/
def bfsIterEnumNext (fuel : Nat) (st : IterEnum) : Option (Option SearchState × IterEnum) :=
  let loop := whileOpen (fun st : IterEnum => !st.openStates.isEmpty) (iterLoop G.provider A 1) fuel
  if st.firstNext then
    match st.openStates with
    | [] => none
    | current :: _ =>
      if ¬ G.provider.nodeExists current.nodeId ∨ A.startIsFinal then some (BFSIterEnum.next G A 0 st)
      else loop { st with firstNext := false }
  else loop st

/-- `BFSCheck::next` for one path. -/
def bfsCheckNext (endId fuel : Nat) (st : BFSCheck) : Option (Option SearchState × BFSCheck) :=
  let loop := whileOpen (fun st : BFSCheck => !st.openStates.isEmpty) (checkLoop G.provider A endId 1) fuel
  if st.isFirst then
    match st.openStates with
    | [] => none
    | current :: _ =>
      if ¬ G.provider.nodeExists current.nodeId ∨ A.startIsFinal ∧ current.nodeId = endId then
        some (BFSCheck.next G A endId 0 st)
      else loop { st with isFirst := false }
  else loop st

/-- `BFSCheck::next` for all shortest paths. -/
def allShortestCheckNext (fuel : Nat) (st : AllShortest.BFSCheck) :
    Option (Option (List (EdgeLabel × Nat)) × AllShortest.BFSCheck) :=
  let loop := whileOpen (fun st : AllShortest.BFSCheck => !st.openStates.isEmpty)
    (AllShortest.BFSCheck.loop G.provider A 1) fuel
  if st.isFirst then
    match st.openStates with
    | [] => none
    | current :: _ =>
      if ¬ G.provider.nodeExists current.nodeId ∨ A.startIsFinal ∧ current.nodeId = st.endObjectId then
        some (AllShortest.BFSCheck.next G A 0 st)
      else loop { st with isFirst := false }
  else loop st

/-- A search for all shortest paths; `dangling` when the state behind `saved_state_reached` is gone. -/
structure EnumState where
  search : AllShortest.BFSEnum
  dangling : Bool

/-- The rest of `BFSEnum::next`, from the check for a saved state on. -/
def allShortestResume (fuel : Nat) (st : EnumState) :
    Option (Option (Nat × List (EdgeLabel × Nat)) × EnumState) :=
  let loop := fun st : AllShortest.BFSEnum =>
    (whileOpen (fun st : AllShortest.BFSEnum => !st.openStates.isEmpty)
      (AllShortest.searchLoop G.provider A 1) fuel st).map fun (r, st) => (r, (⟨st, false⟩ : EnumState))
  match st.search.savedStateReached with
  | none => loop st.search
  | some s =>
    if st.dangling then none
    else
      match AllShortest.enumeration st.search s with
      | (some r, search) => some (some r, ⟨search, false⟩)
      | (none, search) => loop search

/-- `BFSEnum::next` for all shortest paths. -/
def allShortestEnumNext (fuel : Nat) (st : EnumState) :
    Option (Option (Nat × List (EdgeLabel × Nat)) × EnumState) :=
  if st.search.firstNext then
    match st.search.openStates with
    | [] => none
    | current :: _ =>
      if ¬ G.provider.nodeExists current.nodeId ∨ A.startIsFinal then
        let first := AllShortest.BFSEnum.next G A 0 st.search
        some (first.1, { st with search := first.2 })
      else allShortestResume G A fuel { st with search := { st.search with firstNext := false } }
  else allShortestResume G A fuel st

/-- `UnfixedComposite::next`; a null pointer that is used is `none`. -/
def unfixedNext (startVar : Nat) (bind : SearchState → Binding → Binding) :
    Nat → UnfixedComposite → Option (Bool × UnfixedComposite)
  | 0, _ => none
  | fuel + 1, st =>
    let found := match st.pathEnum with
      | none => some (none, none)
      | some e => (bfsIterEnumNext G A fuel e).map fun (r, e) => (r, some e)
    match found with
    | none => none
    | some (some r, e) => some (true, { st with binding := bind r st.binding, pathEnum := e })
    | some (none, e) =>
      match UnfixedComposite.nextStart G A { st with pathEnum := e } with
      | (st, none) => some (false, st)
      | (st, some []) => unfixedNext startVar bind fuel st
      | (st, some (r :: rs)) => (UnfixedComposite.enterStart startVar st r rs).bind (unfixedNext startVar bind fuel)

end

def searchIter {σ ρ : Type} (start : Binding → σ) (next : Nat → σ → Option (Option ρ × σ))
    (reset : Binding → σ → Option σ) (bind : ρ → Binding → Binding) (nulls : Binding → Binding) :
    BindingIter where
  State := σ
  begin _ b := some (start b, b)
  next fuel st b :=
    (next fuel st).map fun (found, st) => (found.isSome, st, (found.map fun r => bind r b).getD b)
  reset _ st b := (reset b st).map fun st => (st, b)
  assignNulls _ b := some (nulls b)

section

variable (G : QuadModel) (A : RPQAutomaton) (startId endId : Id) (startVar endVar pathVar : Nat)

def bindPath {ρ : Type} (setPath : ρ → Nat) (nodeId : ρ → Nat) (r : ρ) (b : Binding) : Binding :=
  Function.update (Function.update b pathVar (setPath r)) endVar (nodeId r)

def bfsIterEnum (setPath : Paths.SearchState → Nat) : BindingIter :=
  searchIter (fun b => .start (Scans.value b startId)) (bfsIterEnumNext G A)
    (fun b st => some (st.reset (Scans.value b startId))) (bindPath endVar pathVar setPath (·.nodeId))
    fun b => Function.update b endVar 0

def bfsCheck (setPath : Paths.SearchState → Nat) : BindingIter :=
  searchIter (fun b => (Scans.value b endId, Paths.BFSCheck.start (Scans.value b startId)))
    (fun fuel st => (bfsCheckNext G A st.1 fuel st.2).map fun (r, search) => (r, st.1, search))
    (fun b st => some (Scans.value b endId, st.2.reset (Scans.value b startId)))
    (fun r b => Function.update b pathVar (setPath r)) id

def allShortestCheck (setPath : List (EdgeLabel × Nat) → Nat) : BindingIter :=
  searchIter (fun b => .start (Scans.value b startId) (Scans.value b endId)) (allShortestCheckNext G A)
    (fun b st => some (st.reset (Scans.value b startId) (Scans.value b endId)))
    (fun r b => Function.update b pathVar (setPath r)) id

/-- `reset` leaves `saved_state_reached` as it is, and clears the states that it points into.  With
`idle` only the resets are looked at that find no saved state. -/
def allShortestEnum (idle : Bool) (setPath : Nat × List (EdgeLabel × Nat) → Nat) : BindingIter :=
  searchIter (fun b => ⟨.start (Scans.value b startId), false⟩) (allShortestEnumNext G A)
    (fun b st =>
      if idle ∧ st.search.savedStateReached.isSome then none
      else some ⟨st.search.reset (Scans.value b startId), st.search.savedStateReached.isSome⟩)
    (bindPath endVar pathVar setPath Prod.fst) fun b => Function.update b endVar 0

/-- There is no state when the row of the start state is read past its end. -/
def unfixedComposite (setPath : Paths.SearchState → Nat) : BindingIter where
  State := Paths.UnfixedComposite
  begin _ b := (Paths.UnfixedComposite.start G A startVar b).map fun st => (st, st.binding)
  next fuel st b :=
    (unfixedNext G A startVar (bindPath endVar pathVar setPath (·.nodeId)) fuel { st with binding := b }).map
      fun (r, st) => (r, st, st.binding)
  reset _ st b := some (st.reset G A startVar b, (st.reset G A startVar b).binding)
  assignNulls _ b := some (Function.update b endVar 0)

end

inductive Tree (idle : Bool) : BindingIter → Prop
  | indexScan (searchLeaf : SearchLeaf) (ranges : List Scans.ScanRange) : Tree idle (indexScan searchLeaf ranges)
  | edgeTableLookup (table : EdgeTable) (lookup : EdgeTableLookup) : Tree idle (edgeTableLookup table lookup)
  | objectEnum (varId mask maxCount : Nat) : Tree idle (objectEnum varId mask maxCount)
  | leapfrogJoin (F : LeapfrogIter) (iters : List F.State) (varOrder : List Nat) (enumerationLevel : Nat) :
    Tree idle (leapfrogJoin F iters varOrder enumerationLevel)
  | bfsIterEnum (G : QuadModel) (A : RPQAutomaton) (startId : Id) (endVar pathVar : Nat)
    (setPath : Paths.SearchState → Nat) : Tree idle (bfsIterEnum G A startId endVar pathVar setPath)
  | bfsCheck (G : QuadModel) (A : RPQAutomaton) (startId endId : Id) (pathVar : Nat)
    (setPath : Paths.SearchState → Nat) : Tree idle (bfsCheck G A startId endId pathVar setPath)
  | unfixedComposite (G : QuadModel) (A : RPQAutomaton) (startVar endVar pathVar : Nat)
    (setPath : Paths.SearchState → Nat) : Tree idle (unfixedComposite G A startVar endVar pathVar setPath)
  | allShortestCheck (G : QuadModel) (A : RPQAutomaton) (startId endId : Id) (pathVar : Nat)
    (setPath : List (EdgeLabel × Nat) → Nat) : Tree idle (allShortestCheck G A startId endId pathVar setPath)
  | allShortestEnum (G : QuadModel) (A : RPQAutomaton) (startId : Id) (endVar pathVar : Nat)
    (setPath : Nat × List (EdgeLabel × Nat) → Nat) :
    Tree idle (allShortestEnum G A startId endVar pathVar idle setPath)
  | union {Is : List BindingIter} (h : ∀ I ∈ Is, Tree idle I) : Tree idle (union Is)
  | indexNestedLoopJoin {L R : BindingIter} (hl : Tree idle L) (hr : Tree idle R) :
    Tree idle (indexNestedLoopJoin L R)
  | indexLeftOuterJoin {L R : BindingIter} (hl : Tree idle L) (hr : Tree idle R) :
    Tree idle (indexLeftOuterJoin L R)
  | distinctIdHash {I : BindingIter} (h : Tree idle I) (projectedVars : List Nat)
    (hash : DistinctHash.Row projectedVars.length → Nat) : Tree idle (distinctIdHash I projectedVars hash)

section

variable {L R : BindingIter} {fuel : Nat} {st st' : JoinState L R} {b b' : Binding} {r : Bool}

namespace JoinState

/-- With the empty iterator on the right, the left side is at its end. -/
structure Inv (st : JoinState L R) : Prop where
  lhs : L.Reached st.lhs
  rhs : R.Reached st.originalRhs
  empty : st.empty = true → L.StaysEnded st.lhs

def RhsEnded (st : JoinState L R) : Prop := st.empty = true ∨ R.StaysEnded st.originalRhs

def Ended (st : JoinState L R) : Prop := L.StaysEnded st.lhs ∧ st.RhsEnded

theorem Inv.rhsNext (hR : R.EndsForGood) (h : st.Inv) (hnext : st.rhsNext fuel b = some (r, st', b')) :
    st'.Inv ∧ (r = false → st'.RhsEnded) := by
  rw [JoinState.rhsNext] at hnext
  by_cases hempty : st.empty = true
  · rw [if_pos hempty, Option.some.injEq, Prod.mk.injEq, Prod.mk.injEq] at hnext
    rw [← hnext.2.1]
    exact ⟨h, fun _ => Or.inl hempty⟩
  · rw [if_neg hempty] at hnext
    obtain ⟨⟨r', rhs, b''⟩, hrhs, heq⟩ := Option.map_eq_some_iff.mp hnext
    simp only [Prod.mk.injEq] at heq
    obtain ⟨hr, hst, _⟩ := heq
    rw [← hst]
    refine ⟨⟨h.lhs, h.rhs.next hrhs, h.empty⟩, fun hfalse => Or.inr ?_⟩
    rw [hr.trans hfalse] at hrhs
    exact hR _ h.rhs _ _ _ _ hrhs

theorem Inv.rhsReset (h : st.Inv) (hreset : st.rhsReset fuel b = some (st', b')) : st'.Inv := by
  rw [JoinState.rhsReset] at hreset
  by_cases hempty : st.empty = true
  · rw [if_pos hempty, Option.some.injEq, Prod.mk.injEq] at hreset
    rw [← hreset.1]
    exact h
  · rw [if_neg hempty] at hreset
    obtain ⟨⟨rhs, b''⟩, hrhs, heq⟩ := Option.map_eq_some_iff.mp hreset
    rw [← (Prod.mk.inj heq).1]
    exact ⟨h.lhs, h.rhs.reset hrhs, h.empty⟩

theorem Inv.lhsNext (hL : L.EndsForGood) (h : st.Inv) {lhs : L.State}
    (hnext : L.next fuel st.lhs b = some (r, lhs, b')) :
    Inv { st with lhs } ∧ (r = false → L.StaysEnded lhs) := by
  refine ⟨⟨h.lhs.next hnext, h.rhs, fun hempty => ((h.empty hempty).next hnext).2.2⟩, fun hfalse => ?_⟩
  rw [hfalse] at hnext
  exact hL _ h.lhs _ _ _ _ hnext

theorem inv_begin (hL : L.EndsForGood) (h : JoinState.begin fuel b = some (st, b')) : st.Inv := by
  simp only [JoinState.begin, Option.bind_eq_bind, Option.bind_eq_some_iff] at h
  obtain ⟨⟨lhs, b₁⟩, hlhs, ⟨r, lhs', b₂⟩, hnext, ⟨rhs, b₃⟩, hrhs, heq⟩ := h
  simp only [Option.some.injEq, Prod.mk.injEq] at heq
  rw [← heq.1]
  have hreached : L.Reached lhs := .begin hlhs
  refine ⟨hreached.next hnext, .begin hrhs, fun hempty => ?_⟩
  have hfalse : r = false := by simpa using hempty
  rw [hfalse] at hnext
  exact hL _ hreached _ _ _ _ hnext

theorem Inv.reset (hL : L.EndsForGood) (h : st.Inv) (hreset : st.reset fuel b = some (st', b')) :
    st'.Inv := by
  simp only [JoinState.reset, Option.bind_eq_bind, Option.bind_eq_some_iff] at hreset
  obtain ⟨⟨lhs, b₁⟩, hlhs, ⟨r, lhs', b₂⟩, hnext, hrhs⟩ := hreset
  have hreached : L.Reached lhs := h.lhs.reset hlhs
  have hinv : Inv (L := L) (R := R) ⟨lhs', st.originalRhs, !r⟩ := by
    refine ⟨hreached.next hnext, h.rhs, fun hempty => ?_⟩
    have hfalse : r = false := by simpa using hempty
    rw [hfalse] at hnext
    exact hL _ hreached _ _ _ _ hnext
  exact hinv.rhsReset hrhs

theorem RhsEnded.rhsNext (h : st.RhsEnded) (hnext : st.rhsNext fuel b = some (r, st', b')) :
    r = false ∧ b' = b ∧ st'.RhsEnded ∧ st'.lhs = st.lhs := by
  rw [JoinState.rhsNext] at hnext
  by_cases hempty : st.empty = true
  · rw [if_pos hempty, Option.some.injEq, Prod.mk.injEq, Prod.mk.injEq] at hnext
    obtain ⟨hr, hst, hb⟩ := hnext
    exact ⟨hr.symm, hb.symm, hst ▸ h, hst ▸ rfl⟩
  · rw [if_neg hempty] at hnext
    obtain ⟨⟨r', rhs, b''⟩, hrhs, heq⟩ := Option.map_eq_some_iff.mp hnext
    simp only [Prod.mk.injEq] at heq
    obtain ⟨hr, hst, hb⟩ := heq
    obtain ⟨hfalse, hsame, hended⟩ := (h.resolve_left hempty).next hrhs
    rw [← hst, ← hr, ← hb]
    exact ⟨hfalse, hsame, Or.inr hended, rfl⟩

theorem RhsEnded.returns (h : st.RhsEnded) (b : Binding) :
    ∃ fuel, ∀ more ≥ fuel, ∃ st', st.rhsNext more b = some (false, st', b) := by
  by_cases hempty : st.empty = true
  · exact ⟨0, fun more _ => ⟨st, by rw [JoinState.rhsNext, if_pos hempty]⟩⟩
  · obtain ⟨fuel, hfuel⟩ := EnvIter.silent_staysEnded.returns _ (h.resolve_left hempty) b
    refine ⟨fuel, fun more hmore => ?_⟩
    obtain ⟨rhs, hrhs⟩ := hfuel more hmore
    exact ⟨{ st with originalRhs := rhs }, by rw [JoinState.rhsNext, if_neg hempty, hrhs, Option.map_some]⟩

end JoinState

/-- One `next` of a nested loop join, by induction over its loop. -/
theorem indexNestedLoopJoin_next (hL : L.EndsForGood) (hR : R.EndsForGood) (h : st.Inv)
    (hnext : IndexNestedLoopJoin.next fuel st b = some (r, st', b')) :
    st'.Inv ∧ (r = false → st'.Ended) := by
  induction fuel generalizing st b with
  | zero => cases hnext
  | succ fuel ih =>
    simp only [IndexNestedLoopJoin.next, Option.bind_eq_bind, Option.bind_eq_some_iff] at hnext
    obtain ⟨⟨r₁, st₁, b₁⟩, hrhs, hnext⟩ := hnext
    obtain ⟨hinv, hended⟩ := h.rhsNext hR hrhs
    cases r₁ with
    | true =>
      simp only [if_true, Option.some.injEq, Prod.mk.injEq] at hnext
      rw [← hnext.2.1, ← hnext.1]
      exact ⟨hinv, fun hfalse => by cases hfalse⟩
    | false =>
      simp only [Bool.false_eq_true, if_false, Option.bind_eq_some_iff] at hnext
      obtain ⟨⟨l, lhs, b₂⟩, hlhs, hnext⟩ := hnext
      obtain ⟨hinv', hlended⟩ := hinv.lhsNext hL hlhs
      cases l with
      | true =>
        simp only [if_true, Option.bind_eq_some_iff] at hnext
        obtain ⟨⟨st₂, b₃⟩, hreset, hnext⟩ := hnext
        exact ih (hinv'.rhsReset hreset) hnext
      | false =>
        simp only [Bool.false_eq_true, if_false, Option.some.injEq, Prod.mk.injEq] at hnext
        rw [← hnext.2.1]
        exact ⟨hinv', fun _ => ⟨hlended rfl, hended rfl⟩⟩

theorem indexNestedLoopJoin_returns (h : st.Ended) (b : Binding) :
    ∃ fuel, ∀ more ≥ fuel, ∃ st', IndexNestedLoopJoin.next more st b = some (false, st', b) := by
  obtain ⟨fuel, hfuel⟩ := h.2.returns b
  obtain ⟨fuel', hfuel'⟩ := EnvIter.silent_staysEnded.returns _ h.1 b
  refine ⟨max fuel fuel' + 1, fun more hmore => ?_⟩
  obtain ⟨more, rfl⟩ : ∃ n, more = n + 1 := ⟨more - 1, by omega⟩
  obtain ⟨st', hrhs⟩ := hfuel more (by omega)
  obtain ⟨lhs, hlhs⟩ := hfuel' more (by omega)
  have hsame := (h.2.rhsNext hrhs).2.2.2
  refine ⟨{ st' with lhs }, ?_⟩
  simp only [IndexNestedLoopJoin.next, hrhs, hsame, hlhs, Option.bind_eq_bind, Option.bind_some,
    Bool.false_eq_true, if_false]

theorem indexNestedLoopJoin_ended (h : st.Ended)
    (hnext : IndexNestedLoopJoin.next fuel st b = some (r, st', b')) :
    r = false ∧ b' = b ∧ st'.Ended := by
  cases fuel with
  | zero => cases hnext
  | succ fuel =>
    simp only [IndexNestedLoopJoin.next, Option.bind_eq_bind, Option.bind_eq_some_iff] at hnext
    obtain ⟨⟨r₁, st₁, b₁⟩, hrhs, hnext⟩ := hnext
    obtain ⟨hfalse, hb, hended, hsame⟩ := h.2.rhsNext hrhs
    simp only [hfalse, Bool.false_eq_true, if_false, Option.bind_eq_some_iff] at hnext
    obtain ⟨⟨l, lhs, b₂⟩, hlhs, hnext⟩ := hnext
    rw [hsame] at hlhs
    obtain ⟨hlfalse, hb', hlended⟩ := h.1.next hlhs
    simp only [hlfalse, Bool.false_eq_true, if_false, Option.some.injEq, Prod.mk.injEq] at hnext
    obtain ⟨hr, hst, hb''⟩ := hnext
    rw [← hr, ← hst, ← hb'']
    exact ⟨rfl, hb'.trans hb, hlended, hended⟩

theorem indexNestedLoopJoin_endsForGood (hL : L.EndsForGood) (hR : R.EndsForGood) :
    (indexNestedLoopJoin L R).EndsForGood := by
  apply EnvIter.endsForGood_of JoinState.Inv JoinState.Ended
  · intro fuel b st b' h
    exact JoinState.inv_begin hL h
  · intro st h fuel b r st' b' hnext
    exact indexNestedLoopJoin_next hL hR h hnext
  · intro st h fuel b st' b' hreset
    exact h.reset hL hreset
  · exact ⟨fun st h b => indexNestedLoopJoin_returns h b,
      fun st h fuel b r st' b' hnext => indexNestedLoopJoin_ended h hnext⟩

/-- One `next` of a left outer join, by induction over its loop. -/
theorem indexLeftOuterJoin_next (hL : L.EndsForGood) (hR : R.EndsForGood) {flag flag' : Bool} (h : st.Inv)
    (hnext : IndexLeftOuterJoin.next fuel (st, flag) b = some (r, (st', flag'), b')) :
    st'.Inv ∧ (r = false → st'.Ended ∧ flag' = false) := by
  induction fuel generalizing st b flag with
  | zero => cases hnext
  | succ fuel ih =>
    simp only [IndexLeftOuterJoin.next, Option.bind_eq_bind, Option.bind_eq_some_iff] at hnext
    obtain ⟨⟨r₁, st₁, b₁⟩, hrhs, hnext⟩ := hnext
    obtain ⟨hinv, hended⟩ := h.rhsNext hR hrhs
    cases r₁ with
    | true =>
      simp only [if_true, Option.some.injEq, Prod.mk.injEq] at hnext
      rw [← hnext.2.1.1, ← hnext.1]
      exact ⟨hinv, fun hfalse => by cases hfalse⟩
    | false =>
      cases flag with
      | true =>
        simp only [Bool.false_eq_true, if_false, if_true, Option.bind_eq_some_iff] at hnext
        obtain ⟨b₂, _, hnext⟩ := hnext
        simp only [Option.some.injEq, Prod.mk.injEq] at hnext
        rw [← hnext.2.1.1, ← hnext.1]
        exact ⟨hinv, fun hfalse => by cases hfalse⟩
      | false =>
        simp only [Bool.false_eq_true, if_false, Option.bind_eq_some_iff] at hnext
        obtain ⟨⟨l, lhs, b₂⟩, hlhs, hnext⟩ := hnext
        obtain ⟨hinv', hlended⟩ := hinv.lhsNext hL hlhs
        cases l with
        | true =>
          simp only [if_true, Option.bind_eq_some_iff] at hnext
          obtain ⟨⟨st₂, b₃⟩, hreset, hnext⟩ := hnext
          exact ih (hinv'.rhsReset hreset) hnext
        | false =>
          simp only [Bool.false_eq_true, if_false, Option.some.injEq, Prod.mk.injEq] at hnext
          rw [← hnext.2.1.1]
          exact ⟨hinv', fun _ => ⟨⟨hlended rfl, hended rfl⟩, hnext.2.1.2.symm⟩⟩

theorem indexLeftOuterJoin_returns (h : st.Ended) (b : Binding) :
    ∃ fuel, ∀ more ≥ fuel, ∃ st', IndexLeftOuterJoin.next more (st, false) b = some (false, st', b) := by
  obtain ⟨fuel, hfuel⟩ := h.2.returns b
  obtain ⟨fuel', hfuel'⟩ := EnvIter.silent_staysEnded.returns _ h.1 b
  refine ⟨max fuel fuel' + 1, fun more hmore => ?_⟩
  obtain ⟨more, rfl⟩ : ∃ n, more = n + 1 := ⟨more - 1, by omega⟩
  obtain ⟨st', hrhs⟩ := hfuel more (by omega)
  obtain ⟨lhs, hlhs⟩ := hfuel' more (by omega)
  have hsame := (h.2.rhsNext hrhs).2.2.2
  refine ⟨({ st' with lhs }, false), ?_⟩
  simp only [IndexLeftOuterJoin.next, hrhs, hsame, hlhs, Option.bind_eq_bind, Option.bind_some,
    Bool.false_eq_true, if_false]

theorem indexLeftOuterJoin_ended {flag : Bool} (h : st.Ended)
    (hnext : IndexLeftOuterJoin.next fuel (st, false) b = some (r, (st', flag), b')) :
    r = false ∧ b' = b ∧ st'.Ended ∧ flag = false := by
  cases fuel with
  | zero => cases hnext
  | succ fuel =>
    simp only [IndexLeftOuterJoin.next, Option.bind_eq_bind, Option.bind_eq_some_iff] at hnext
    obtain ⟨⟨r₁, st₁, b₁⟩, hrhs, hnext⟩ := hnext
    obtain ⟨hfalse, hb, hended, hsame⟩ := h.2.rhsNext hrhs
    simp only [hfalse, Bool.false_eq_true, if_false, Option.bind_eq_some_iff] at hnext
    obtain ⟨⟨l, lhs, b₂⟩, hlhs, hnext⟩ := hnext
    rw [hsame] at hlhs
    obtain ⟨hlfalse, hb', hlended⟩ := h.1.next hlhs
    simp only [hlfalse, Bool.false_eq_true, if_false, Option.some.injEq, Prod.mk.injEq] at hnext
    obtain ⟨hr, ⟨hst, hflag⟩, hb''⟩ := hnext
    rw [← hr, ← hst, ← hb'', ← hflag]
    exact ⟨rfl, hb'.trans hb, ⟨hlended, hended⟩, rfl⟩

theorem indexLeftOuterJoin_endsForGood (hL : L.EndsForGood) (hR : R.EndsForGood) :
    (indexLeftOuterJoin L R).EndsForGood := by
  apply EnvIter.endsForGood_of (fun st : JoinState L R × Bool => st.1.Inv)
    fun st : JoinState L R × Bool => st.1.Ended ∧ st.2 = false
  · intro fuel b st b' h
    obtain ⟨⟨st₁, b₁⟩, hbegin, heq⟩ := Option.map_eq_some_iff.mp h
    rw [← (Prod.mk.inj heq).1]
    exact JoinState.inv_begin hL hbegin
  · intro st h fuel b r st' b' hnext
    exact indexLeftOuterJoin_next hL hR h hnext
  · intro st h fuel b st' b' hreset
    obtain ⟨⟨st₁, b₁⟩, hst, heq⟩ := Option.map_eq_some_iff.mp hreset
    rw [← (Prod.mk.inj heq).1]
    exact JoinState.Inv.reset hL h hst
  · constructor
    · intro st h b
      obtain ⟨join, flag⟩ := st
      obtain ⟨hended, hflag⟩ := h
      obtain rfl : flag = false := hflag
      exact indexLeftOuterJoin_returns hended b
    · intro st h fuel b r st' b' hnext
      obtain ⟨join, flag⟩ := st
      obtain ⟨hended, hflag⟩ := h
      obtain rfl : flag = false := hflag
      exact indexLeftOuterJoin_ended hended hnext

end

section

variable {fuel : Nat} {b b' : Binding} {r : Bool}

theorem union_next {Is : List BindingIter} {ss ss' : UnionStates Is} {k k' : Nat}
    (h : Union.next Is fuel (ss, k) b = some (false, (ss', k'), b')) : Is.length ≤ k' := by
  induction fuel generalizing ss k b with
  | zero => cases h
  | succ fuel ih =>
    rw [Union.next] at h
    by_cases hlt : k < Is.length
    · rw [if_pos hlt, Option.bind_eq_bind, Option.bind_eq_some_iff] at h
      obtain ⟨⟨r, ss₁, b₁⟩, _, h⟩ := h
      cases r with
      | true => simp at h
      | false => exact ih h
    · simp only [if_neg hlt, Option.some.injEq, Prod.mk.injEq] at h
      omega

theorem union_eq {Is : List BindingIter} {k : Nat} (h : Is.length ≤ k) (ss : UnionStates Is) (b : Binding)
    (fuel : Nat) : Union.next Is (fuel + 1) (ss, k) b = some (false, (ss, k), b) := by
  rw [Union.next, if_neg (not_lt.mpr h)]

theorem union_endsForGood (Is : List BindingIter) : (union Is).EndsForGood := by
  apply EnvIter.endsForGood_of_still fun st : UnionStates Is × Nat => Is.length ≤ st.2
  · intro st _ fuel b st' b' hnext
    exact union_next hnext
  · intro st h fuel b
    exact union_eq h st.1 b fuel
  · intro st _ b r hnext
    cases hnext

/-- One `next` without repetitions, by induction over its loop. -/
theorem distinctIdHash_next {I : BindingIter} (hI : I.EndsForGood) {projectedVars : List Nat}
    {hash : DistinctHash.Row projectedVars.length → Nat}
    {st st' : I.State × DistinctBindingHash projectedVars.length} (h : I.Reached st.1)
    (hnext : DistinctIdHash.next I projectedVars hash fuel st b = some (r, st', b')) :
    I.Reached st'.1 ∧ (r = false → I.StaysEnded st'.1) := by
  induction fuel generalizing st b with
  | zero => cases hnext
  | succ fuel ih =>
    obtain ⟨s, t⟩ := st
    simp only [DistinctIdHash.next, Option.bind_eq_bind, Option.bind_eq_some_iff] at hnext
    obtain ⟨⟨r₁, s₁, b₁⟩, hs, hnext⟩ := hnext
    have hs₁ : I.Reached s₁ := h.next hs
    cases r₁ with
    | false =>
      simp only [Bool.false_eq_true, if_false, Option.some.injEq, Prod.mk.injEq] at hnext
      rw [← hnext.2.1]
      exact ⟨hs₁, fun _ => hI _ h _ _ _ _ hs⟩
    | true =>
      simp only [if_true, Option.bind_eq_some_iff] at hnext
      obtain ⟨⟨isIn, t₁⟩, _, hnext⟩ := hnext
      cases isIn with
      | true => exact ih hs₁ hnext
      | false =>
        simp only [Bool.false_eq_true, if_false, Option.some.injEq, Prod.mk.injEq] at hnext
        rw [← hnext.2.1, ← hnext.1]
        exact ⟨hs₁, fun hfalse => by cases hfalse⟩

theorem distinctIdHash_returns {I : BindingIter} {projectedVars : List Nat}
    {hash : DistinctHash.Row projectedVars.length → Nat} {s : I.State} (h : I.StaysEnded s)
    (t : DistinctBindingHash projectedVars.length) (b : Binding) :
    ∃ fuel, ∀ more ≥ fuel, ∃ st', DistinctIdHash.next I projectedVars hash more (s, t) b =
      some (false, st', b) := by
  obtain ⟨fuel, hfuel⟩ := EnvIter.silent_staysEnded.returns _ h b
  refine ⟨fuel + 1, fun more hmore => ?_⟩
  obtain ⟨more, rfl⟩ : ∃ n, more = n + 1 := ⟨more - 1, by omega⟩
  obtain ⟨s', hs⟩ := hfuel more (by omega)
  refine ⟨(s', t), ?_⟩
  simp only [DistinctIdHash.next, hs, Option.bind_eq_bind, Option.bind_some, Bool.false_eq_true, if_false]

theorem distinctIdHash_ended {I : BindingIter} {projectedVars : List Nat}
    {hash : DistinctHash.Row projectedVars.length → Nat} {s : I.State} (h : I.StaysEnded s)
    {t : DistinctBindingHash projectedVars.length}
    {st' : I.State × DistinctBindingHash projectedVars.length}
    (hnext : DistinctIdHash.next I projectedVars hash fuel (s, t) b = some (r, st', b')) :
    r = false ∧ b' = b ∧ I.StaysEnded st'.1 := by
  cases fuel with
  | zero => cases hnext
  | succ fuel =>
    simp only [DistinctIdHash.next, Option.bind_eq_bind, Option.bind_eq_some_iff] at hnext
    obtain ⟨⟨r₁, s₁, b₁⟩, hs, hnext⟩ := hnext
    obtain ⟨hfalse, hb, hended⟩ := h.next hs
    simp only [hfalse, Bool.false_eq_true, if_false, Option.some.injEq, Prod.mk.injEq] at hnext
    obtain ⟨hr, hst, hb'⟩ := hnext
    rw [← hr, ← hst, ← hb']
    exact ⟨rfl, hb, hended⟩

theorem distinctIdHash_endsForGood {I : BindingIter} (hI : I.EndsForGood) (projectedVars : List Nat)
    (hash : DistinctHash.Row projectedVars.length → Nat) :
    (distinctIdHash I projectedVars hash).EndsForGood := by
  apply EnvIter.endsForGood_of (fun st : I.State × DistinctBindingHash projectedVars.length => I.Reached st.1)
    fun st : I.State × DistinctBindingHash projectedVars.length => I.StaysEnded st.1
  · intro fuel b st b' h
    obtain ⟨⟨s, b₁⟩, hs, heq⟩ := Option.map_eq_some_iff.mp h
    rw [← (Prod.mk.inj heq).1]
    exact .begin hs
  · intro st h fuel b r st' b' hnext
    exact distinctIdHash_next hI h hnext
  · intro st h fuel b st' b' hreset
    obtain ⟨⟨s, b₁⟩, hs, heq⟩ := Option.map_eq_some_iff.mp hreset
    rw [← (Prod.mk.inj heq).1]
    exact h.reset hs
  · exact ⟨fun st h b => distinctIdHash_returns h st.2 b,
      fun st h fuel b r st' b' hnext => distinctIdHash_ended h hnext⟩

theorem BptIter.nextFrom_none {max : Tuple} {leaves : List (List Tuple)} {leaf : List Tuple} {pos : Nat}
    {it : BptIter} (h : BptIter.nextFrom max leaves leaf pos = (none, it)) : it.next = (none, it) := by
  have hcheck : ∀ {it₀ : BptIter} {record : Tuple}, it₀.currentLeaf[it₀.currentPos]? = some record →
      it₀.check record = (none, it) → it.next = (none, it) := by
    intro it₀ record hrecord hnone
    have hnone' := hnone
    rw [BptIter.check] at hnone'
    split_ifs at hnone' with hwithin
    · cases (Prod.mk.inj hnone').1
    · have hit : it₀ = it := (Prod.mk.inj hnone').2
      subst hit
      rw [BptIter.next]
      cases hleaves : it₀.nextLeaves <;> simp only [BptIter.nextFrom, hrecord, ← hleaves, hnone]
  induction leaves generalizing leaf pos with
  | nil =>
    rw [BptIter.nextFrom] at h
    cases hrecord : leaf[pos]? with
    | some record =>
      rw [hrecord] at h
      exact hcheck hrecord h
    | none =>
      rw [hrecord] at h
      rw [← (Prod.mk.inj h).2, BptIter.next]
      simp only [BptIter.nextFrom, hrecord]
  | cons nextLeaf leaves ih =>
    rw [BptIter.nextFrom] at h
    cases hrecord : leaf[pos]? with
    | some record =>
      rw [hrecord] at h
      exact hcheck hrecord h
    | none =>
      rw [hrecord] at h
      exact ih h

theorem scanNext_false {ranges : List Scans.ScanRange} {it it' : BptIter}
    (h : scanNext ranges it b = some (false, it', b')) : it'.next = (none, it') := by
  rw [scanNext] at h
  obtain ⟨found, hnext⟩ : ∃ found, BptIter.next it = found := ⟨_, rfl⟩
  obtain ⟨record, it₁⟩ := found
  rw [hnext] at h
  cases record with
  | some record => simp at h
  | none =>
    simp only [Option.some.injEq, Prod.mk.injEq] at h
    rw [← h.2.1]
    exact BptIter.nextFrom_none hnext

theorem objectNext_false {varId mask maxCount n n' : Nat}
    (h : objectNext varId mask maxCount n b = some (false, n', b')) : maxCount ≤ n' := by
  rw [objectNext] at h
  split_ifs at h with hlt
  · simp at h
  · simp only [Option.some.injEq, Prod.mk.injEq] at h
    omega

theorem indexScan_endsForGood (searchLeaf : SearchLeaf) (ranges : List Scans.ScanRange) :
    (indexScan searchLeaf ranges).EndsForGood := by
  have hstill : ∀ (it : BptIter) (fuel : Nat) (b : Binding), it.next = (none, it) →
      scanNext ranges it b = some (false, it, b) := by
    intro it fuel b h
    rw [scanNext, h]
  apply EnvIter.endsForGood_of_still fun it : BptIter => it.next = (none, it)
  · intro it _ fuel b it' b' hnext
    exact scanNext_false hnext
  · intro it h fuel b
    exact hstill it fuel b h
  · intro it h b r hnext
    exact Option.some.inj (hnext.symm.trans (hstill it 0 b h))

/-- Every call of `next` leaves the flag. -/
theorem nextRow_looked (lookup : EdgeTableLookup) (table : EdgeTable) (st : Binding × Bool) :
    (EdgePlans.nextRow lookup table st).2.2 = true := by
  rw [EdgePlans.nextRow]
  by_cases hlooked : st.2 = true
  · rw [if_pos hlooked]
    exact hlooked
  · rw [if_neg hlooked]
    cases lookup.next table st.1 with
    | error failure => rfl
    | ok row =>
      cases row with
      | some b => rfl
      | none =>
        cases table.get ((ObjectId.valueMask &&& lookup.edgeAssignation st.1) - 1) with
        | none => rfl
        | some record =>
          simp only
          split_ifs <;> rfl

theorem edgeTableLookup_endsForGood (table : EdgeTable) (lookup : EdgeTableLookup) :
    (edgeTableLookup table lookup).EndsForGood := by
  apply EnvIter.endsForGood_of_still fun looked : Bool => looked = true
  · intro looked _ fuel b looked' b' hnext
    have hlooked := nextRow_looked lookup table (b, looked)
    have hrest := (Prod.mk.inj (Option.some.inj hnext)).2
    exact (Prod.mk.inj hrest).1 ▸ hlooked
  · intro looked h fuel b
    obtain rfl : looked = true := h
    rfl
  · intro looked h b r hnext
    obtain rfl : looked = true := h
    exact (Option.some.inj hnext).symm

theorem objectEnum_endsForGood (varId mask maxCount : Nat) :
    (objectEnum varId mask maxCount).EndsForGood := by
  have hstill : ∀ (n : Nat) (b : Binding), maxCount ≤ n →
      objectNext varId mask maxCount n b = some (false, n, b) := by
    intro n b h
    rw [objectNext, if_neg (not_lt.mpr h)]
  apply EnvIter.endsForGood_of_still fun n : Nat => maxCount ≤ n
  · intro n _ fuel b n' b' hnext
    exact objectNext_false hnext
  · intro n h fuel b
    exact hstill n b h
  · intro n h b r hnext
    exact Option.some.inj (hnext.symm.trans (hstill n b h))

end

namespace LeapfrogJoin

variable {F : LeapfrogIter} {varOrder : List Nat} {enumerationLevel fuel : Nat} {st st' : LeapfrogState F}
  {b b' : Binding}

theorem climb_false (h : climb fuel st = some (false, st')) : st'.level < 0 := by
  induction fuel generalizing st with
  | zero => cases h
  | succ fuel ih =>
    rw [climb] at h
    by_cases hzero : st.level = 0
    · rw [if_pos hzero, Option.some.injEq, Prod.mk.injEq] at h
      rw [← h.2]
      exact Int.negSucc_lt_zero 0
    · simp only [if_neg hzero, Option.bind_eq_bind, Option.bind_eq_some_iff] at h
      obtain ⟨st₁, _, ⟨r, st₂⟩, _, h⟩ := h
      cases r with
      | true => simp at h
      | false => exact ih h

theorem descend_false (h : descend varOrder enumerationLevel fuel st b = some (false, st', b')) :
    st'.level < 0 := by
  induction fuel generalizing st b with
  | zero => cases h
  | succ fuel ih =>
    rw [descend] at h
    split_ifs at h with hlevel
    · simp only [Option.bind_eq_bind, Option.bind_eq_some_iff] at h
      obtain ⟨⟨found, st₁, b₁⟩, _, h⟩ := h
      cases found with
      | true =>
        simp only [if_true, Option.bind_eq_some_iff] at h
        obtain ⟨⟨st₂, b₂⟩, _, h⟩ := h
        exact ih h
      | false =>
        simp only [Bool.false_eq_true, if_false, Option.bind_eq_some_iff] at h
        obtain ⟨⟨r, st₂⟩, hclimb, h⟩ := h
        cases r with
        | true => exact ih h
        | false =>
          simp only [Bool.false_eq_true, if_false, Option.some.injEq, Prod.mk.injEq] at h
          rw [← h.2.1]
          exact climb_false hclimb
    · simp at h

theorem next_false (h : next varOrder enumerationLevel fuel st b = some (false, st', b')) :
    st'.level < 0 := by
  induction fuel generalizing st b with
  | zero => cases h
  | succ fuel ih =>
    rw [next] at h
    split_ifs at h with hlevel
    · simp only [Option.bind_eq_bind, Option.bind_eq_some_iff] at h
      obtain ⟨⟨r, st₁, b₁⟩, hdescend, h⟩ := h
      cases r with
      | false =>
        simp only [Bool.false_eq_true, if_false, Option.some.injEq, Prod.mk.injEq] at h
        rw [← h.2.1]
        exact descend_false hdescend
      | true =>
        simp only [if_true] at h
        split_ifs at h with hfound hvars
        · simp at h
        · simp only [Option.some.injEq, Prod.mk.injEq] at h
          rw [← h.2.1]
          exact Int.negSucc_lt_zero 0
        · obtain ⟨st₂, _, h⟩ := Option.bind_eq_some_iff.mp h
          exact ih h
    · simp only [Option.some.injEq, Prod.mk.injEq] at h
      rw [← h.2.1]
      omega

end LeapfrogJoin

theorem leapfrogJoin_endsForGood (F : LeapfrogIter) (iters : List F.State) (varOrder : List Nat)
    (enumerationLevel : Nat) : (leapfrogJoin F iters varOrder enumerationLevel).EndsForGood := by
  have hstill : ∀ (st : LeapfrogState F) (fuel : Nat) (b : Binding), st.level < 0 →
      LeapfrogJoin.next varOrder enumerationLevel (fuel + 1) st b = some (false, st, b) := by
    intro st fuel b h
    rw [LeapfrogJoin.next, if_neg (not_le.mpr h)]
  apply EnvIter.endsForGood_of_still fun st : LeapfrogState F => st.level < 0
  · intro st _ fuel b st' b' hnext
    exact LeapfrogJoin.next_false hnext
  · intro st h fuel b
    exact hstill st fuel b h
  · intro st _ b r hnext
    cases hnext

section

variable {σ ρ : Type} {isOpen : σ → Bool} {body : σ → Option ρ × σ} {fuel : Nat} {st st' : σ}

theorem whileOpen_none (P : σ → Prop) (hbody : ∀ st st', P st → body st = (none, st') → P st') (hst : P st)
    (h : whileOpen isOpen body fuel st = some (none, st')) : P st' ∧ isOpen st' = false := by
  induction fuel generalizing st with
  | zero => cases h
  | succ fuel ih =>
    rw [whileOpen] at h
    split_ifs at h with hopen
    · obtain ⟨found, hfound⟩ : ∃ found, body st = found := ⟨_, rfl⟩
      obtain ⟨result, st₁⟩ := found
      rw [hfound] at h
      cases result with
      | some r => simp at h
      | none => exact ih (hbody st st₁ hst hfound) h
    · simp only [Option.some.injEq, Prod.mk.injEq, true_and] at h
      rw [← h]
      exact ⟨hst, by simpa using hopen⟩

theorem whileOpen_some (P Q : σ → Prop) (hbody : ∀ st st', P st → body st = (none, st') → P st')
    (hfound : ∀ st r st', P st → body st = (some r, st') → Q st') (hst : P st) {r : ρ}
    (h : whileOpen isOpen body fuel st = some (some r, st')) : Q st' := by
  induction fuel generalizing st with
  | zero => cases h
  | succ fuel ih =>
    rw [whileOpen] at h
    split_ifs at h with hopen
    · obtain ⟨found, hstep⟩ : ∃ found, body st = found := ⟨_, rfl⟩
      obtain ⟨result, st₁⟩ := found
      rw [hstep] at h
      cases result with
      | some r' =>
        simp only [Option.some.injEq, Prod.mk.injEq] at h
        rw [← h.2]
        exact hfound st r' st₁ hst hstep
      | none => exact ih (hbody st st₁ hst hstep) h
    · simp at h

theorem whileOpen_ends (P : σ → Prop) (hbody : ∀ st, P st → P (body st).2) (hst : P st)
    {r : Option ρ} (h : whileOpen isOpen body fuel st = some (r, st')) :
    P st' ∧ (r = none → isOpen st' = false) := by
  have hkept : ∀ st r st', P st → body st = (r, st') → P st' := by
    intro st r st' hst hstep
    have hsecond : (body st).2 = st' := by rw [hstep]
    exact hsecond ▸ hbody st hst
  cases r with
  | none =>
    obtain ⟨hP, hclosed⟩ := whileOpen_none P (fun st st' => hkept st none st') hst h
    exact ⟨hP, fun _ => hclosed⟩
  | some r =>
    refine ⟨?_, fun hnone => by cases hnone⟩
    exact whileOpen_some P P (fun st st' => hkept st none st') (fun st r st' => hkept st (some r) st') hst h

theorem whileOpen_of_not (h : isOpen st = false) (fuel : Nat) :
    whileOpen isOpen body (fuel + 1) st = some (none, st) := by
  rw [whileOpen, h, if_neg Bool.false_ne_true]

theorem searchIter_endsForGood {start : Binding → σ} {next : Nat → σ → Option (Option ρ × σ)}
    {reset : Binding → σ → Option σ} (bind : ρ → Binding → Binding) (nulls : Binding → Binding)
    (Inv E : σ → Prop) (hstart : ∀ b, Inv (start b))
    (hnext : ∀ fuel st r st', Inv st → next fuel st = some (r, st') → Inv st' ∧ (r = none → E st'))
    (hreset : ∀ b st st', Inv st → reset b st = some st' → Inv st')
    (hstill : ∀ st, E st → ∀ fuel, next (fuel + 1) st = some (none, st))
    (hzero : ∀ st, E st → ∀ r, next 0 st = some r → r = (none, st)) :
    (searchIter start next reset bind nulls).EndsForGood := by
  have hstep : ∀ {fuel : Nat} {st st' : σ} {b b' : Binding} {r : Bool},
      (searchIter start next reset bind nulls).next fuel st b = some (r, st', b') →
        ∃ found, next fuel st = some (found, st') ∧ r = found.isSome := by
    intro fuel st st' b b' r h
    obtain ⟨⟨found, st₁⟩, hfound, heq⟩ := Option.map_eq_some_iff.mp h
    obtain ⟨hr, hrest⟩ := Prod.mk.inj heq
    rw [← (Prod.mk.inj hrest).1]
    exact ⟨found, hfound, hr.symm⟩
  apply EnvIter.endsForGood_of_still E
  · intro st hst fuel b st' b' h
    have hinv : Inv st := by
      apply hst.invariant Inv
      · intro fuel b s b' h
        rw [← (Prod.mk.inj (Option.some.inj h)).1]
        exact hstart b
      · intro s hs fuel b r s' b' h
        obtain ⟨found, hfound, _⟩ := hstep h
        exact (hnext fuel s found s' hs hfound).1
      · intro s hs fuel b s' b' h
        obtain ⟨s₁, hs₁, heq⟩ := Option.map_eq_some_iff.mp h
        rw [← (Prod.mk.inj heq).1]
        exact hreset b s s₁ hs hs₁
    obtain ⟨found, hfound, hr⟩ := hstep h
    exact (hnext fuel st found st' hinv hfound).2 (by simpa using hr.symm)
  · intro st h fuel b
    show (next (fuel + 1) st).map _ = _
    rw [hstill st h fuel]
    rfl
  · intro st h b r hr
    obtain ⟨⟨found, st₁⟩, hfound, heq⟩ := Option.map_eq_some_iff.mp hr
    have hnone := hzero st h _ hfound
    rw [hnone] at heq
    exact heq.symm

end

section

open Paths

variable {G : QuadModel} {A : RPQAutomaton} {fuel : Nat}

def OnlyStart {S : Type} (first : Bool) (openStates : List S) : Prop :=
  first = true → ∃ current, openStates = [current]

theorem isEmpty_of_not {S : Type} {openStates : List S} (h : (!openStates.isEmpty) = false) :
    openStates = [] := by
  simpa using h

theorem whileOpen_firstOver {σ ρ τ : Type} {isFirst : σ → Bool} {openStates : σ → List τ}
    {body : σ → Option ρ × σ} {st st' : σ} {r : Option ρ}
    (hbody : ∀ st, isFirst (body st).2 = isFirst st) (hfirst : isFirst st = false)
    (h : whileOpen (fun st => !(openStates st).isEmpty) body fuel st = some (r, st')) :
    isFirst st' = false ∧ (r = none → openStates st' = []) := by
  obtain ⟨hfirst', hclosed⟩ := whileOpen_ends (fun st => isFirst st = false)
    (fun st hst => (hbody st).trans hst) hfirst h
  exact ⟨hfirst', fun hnone => isEmpty_of_not (hclosed hnone)⟩

theorem iterLoop_firstNext (P : PathIndexProvider) (st : IterEnum) :
    (iterLoop P A 1 st).2.firstNext = st.firstNext := by
  cases hopen : st.openStates with
  | nil => simp only [iterLoop, hopen]
  | cons current rest =>
    cases hnext : currentStateHasNext P A st current with
    | none => simp only [iterLoop, hopen, hnext]
    | some found =>
      simp only [iterLoop, hopen, hnext]
      split_ifs <;> rfl

theorem bfsIterEnumNext_spec {st st' : IterEnum} {r : Option SearchState}
    (hst : OnlyStart st.firstNext st.openStates) (h : bfsIterEnumNext G A fuel st = some (r, st')) :
    st'.firstNext = false ∧ (r = none → st'.openStates = []) := by
  rw [bfsIterEnumNext] at h
  cases hfirst : st.firstNext with
  | false =>
    rw [if_neg (by rw [hfirst]; exact Bool.false_ne_true)] at h
    exact whileOpen_firstOver (iterLoop_firstNext G.provider) hfirst h
  | true =>
    obtain ⟨current, hopen⟩ := hst hfirst
    simp only [hfirst, hopen, if_true] at h
    split_ifs at h with hearly
    · rw [Option.some.injEq, BFSIterEnum.next] at h
      simp only [hfirst, hopen, if_true] at h
      by_cases hnode : G.provider.nodeExists current.nodeId = true
      · have hfinal := hearly.resolve_left (not_not.mpr hnode)
        simp only [hnode, not_true_eq_false, if_false, hfinal, if_true] at h
        cases hfound : findState st.visited (SearchState.root A.finalState current.nodeId).key with
        | some s =>
          rw [hfound] at h
          obtain ⟨hr, hst'⟩ := Prod.mk.inj h
          rw [← hst', ← hr]
          exact ⟨rfl, fun hnone => by cases hnone⟩
        | none =>
          rw [hfound] at h
          obtain ⟨hr, hst'⟩ := Prod.mk.inj h
          rw [← hst', ← hr]
          exact ⟨rfl, fun hnone => by cases hnone⟩
      · rw [if_pos hnode] at h
        rw [← (Prod.mk.inj h).2]
        exact ⟨rfl, fun _ => rfl⟩
    · exact whileOpen_firstOver (iterLoop_firstNext G.provider) rfl h

theorem bfsIterEnumNext_still {st : IterEnum} (hfirst : st.firstNext = false) (hopen : st.openStates = [])
    (fuel : Nat) : bfsIterEnumNext G A (fuel + 1) st = some (none, st) := by
  rw [bfsIterEnumNext, if_neg (by rw [hfirst]; exact Bool.false_ne_true)]
  exact whileOpen_of_not (by rw [hopen]; rfl) fuel

theorem bfsIterEnumNext_zero {st : IterEnum} (hfirst : st.firstNext = false) :
    bfsIterEnumNext G A 0 st = none := by
  rw [bfsIterEnumNext, if_neg (by rw [hfirst]; exact Bool.false_ne_true)]
  rfl

theorem bfsIterEnum_endsForGood (startId : Id) (endVar pathVar : Nat) (setPath : SearchState → Nat) :
    (bfsIterEnum G A startId endVar pathVar setPath).EndsForGood := by
  apply searchIter_endsForGood _ _ (fun st : IterEnum => OnlyStart st.firstNext st.openStates)
    fun st : IterEnum => st.firstNext = false ∧ st.openStates = []
  · intro b _
    exact ⟨_, rfl⟩
  · intro fuel st r st' hst h
    obtain ⟨hfirst, hopen⟩ := bfsIterEnumNext_spec hst h
    exact ⟨fun htrue => absurd (hfirst.symm.trans htrue) Bool.false_ne_true, fun hnone => ⟨hfirst, hopen hnone⟩⟩
  · intro b st st' _ h _
    rw [← Option.some.inj h]
    exact ⟨_, rfl⟩
  · intro st h fuel
    exact bfsIterEnumNext_still h.1 h.2 fuel
  · intro st h r hr
    rw [bfsIterEnumNext_zero h.1] at hr
    cases hr

theorem checkLoop_isFirst (P : PathIndexProvider) (endId : Nat) (st : BFSCheck) :
    (checkLoop P A endId 1 st).2.isFirst = st.isFirst := by
  cases hopen : st.openStates with
  | nil => simp only [checkLoop, hopen]
  | cons current rest =>
    obtain ⟨found, hfound⟩ : ∃ found, checkRow P A.finalState endId current (st.visited, st.openStates)
      (A.fromTo current.automatonState) = found := ⟨_, rfl⟩
    obtain ⟨r, sets⟩ := found
    rw [hopen] at hfound
    cases r with
    | none => simp only [checkLoop, hopen, hfound]
    | some s => simp only [checkLoop, hopen, hfound]

theorem bfsCheckNext_spec {endId : Nat} {st st' : BFSCheck} {r : Option SearchState}
    (hst : OnlyStart st.isFirst st.openStates) (h : bfsCheckNext G A endId fuel st = some (r, st')) :
    st'.isFirst = false ∧ (r = none → st'.openStates = []) := by
  rw [bfsCheckNext] at h
  cases hfirst : st.isFirst with
  | false =>
    rw [if_neg (by rw [hfirst]; exact Bool.false_ne_true)] at h
    exact whileOpen_firstOver (checkLoop_isFirst G.provider endId) hfirst h
  | true =>
    obtain ⟨current, hopen⟩ := hst hfirst
    simp only [hfirst, hopen, if_true] at h
    split_ifs at h with hearly
    · rw [Option.some.injEq, BFSCheck.next] at h
      simp only [hfirst, hopen, if_true] at h
      by_cases hnode : G.provider.nodeExists current.nodeId = true
      · have hfinal := hearly.resolve_left (not_not.mpr hnode)
        rw [if_neg (not_not.mpr hnode), if_pos hfinal] at h
        rw [← (Prod.mk.inj h).2]
        exact ⟨rfl, fun _ => rfl⟩
      · rw [if_pos hnode] at h
        rw [← (Prod.mk.inj h).2]
        exact ⟨rfl, fun _ => rfl⟩
    · exact whileOpen_firstOver (checkLoop_isFirst G.provider endId) rfl h

theorem bfsCheckNext_still {endId : Nat} {st : BFSCheck} (hfirst : st.isFirst = false)
    (hopen : st.openStates = []) (fuel : Nat) : bfsCheckNext G A endId (fuel + 1) st = some (none, st) := by
  rw [bfsCheckNext, if_neg (by rw [hfirst]; exact Bool.false_ne_true)]
  exact whileOpen_of_not (by rw [hopen]; rfl) fuel

theorem bfsCheck_endsForGood (startId endId : Id) (pathVar : Nat) (setPath : SearchState → Nat) :
    (bfsCheck G A startId endId pathVar setPath).EndsForGood := by
  have hnext : ∀ {fuel : Nat} {st st' : Nat × BFSCheck} {r : Option SearchState},
      (bfsCheckNext G A st.1 fuel st.2).map (fun (r, search) => (r, st.1, search)) = some (r, st') →
        bfsCheckNext G A st.1 fuel st.2 = some (r, st'.2) ∧ st'.1 = st.1 := by
    intro fuel st st' r h
    obtain ⟨⟨r₁, search⟩, hsearch, heq⟩ := Option.map_eq_some_iff.mp h
    simp only [Prod.mk.injEq] at heq
    rw [← heq.1, ← heq.2]
    exact ⟨hsearch, rfl⟩
  apply searchIter_endsForGood _ _ (fun st : Nat × BFSCheck => OnlyStart st.2.isFirst st.2.openStates)
    fun st : Nat × BFSCheck => st.2.isFirst = false ∧ st.2.openStates = []
  · intro b _
    exact ⟨_, rfl⟩
  · intro fuel st r st' hst h
    obtain ⟨hfirst, hopen⟩ := bfsCheckNext_spec hst (hnext h).1
    exact ⟨fun htrue => absurd (hfirst.symm.trans htrue) Bool.false_ne_true, fun hnone => ⟨hfirst, hopen hnone⟩⟩
  · intro b st st' _ h _
    rw [← Option.some.inj h]
    exact ⟨_, rfl⟩
  · intro st h fuel
    rw [bfsCheckNext_still h.1 h.2, Option.map_some]
  · intro st h r hr
    rw [bfsCheckNext, if_neg (by rw [h.1]; exact Bool.false_ne_true)] at hr
    cases hr

theorem searchRow_isFirst (P : PathIndexProvider) (current : AllShortest.SearchState)
    (st : AllShortest.BFSCheck) (ts : List Transition) (k : Nat) (ms : List Nat) :
    (AllShortest.BFSCheck.searchRow P current st ts k ms).2.2.isFirst = st.isFirst := by
  induction ts generalizing k ms with
  | nil => rfl
  | cons t ts ih =>
    cases ms with
    | cons m ms => rfl
    | nil => exact ih (k + 1) _

theorem currentStateHasNext_isFirst (P : PathIndexProvider) (current : AllShortest.SearchState)
    (st : AllShortest.BFSCheck) :
    (AllShortest.BFSCheck.currentStateHasNext P A current st).2.2.isFirst = st.isFirst := by
  rw [AllShortest.BFSCheck.currentStateHasNext]
  cases st.iter with
  | none =>
    simp only
    split_ifs
    · rfl
    · exact searchRow_isFirst P current st _ _ _
  | some ms => exact searchRow_isFirst P current st _ _ _

theorem loop_isFirst (P : PathIndexProvider) (st : AllShortest.BFSCheck) :
    (AllShortest.BFSCheck.loop P A 1 st).2.isFirst = st.isFirst := by
  cases hopen : st.openStates with
  | nil => simp only [AllShortest.BFSCheck.loop, hopen]
  | cons current rest =>
    have hsame := currentStateHasNext_isFirst (A := A) P current st
    obtain ⟨found, hfound⟩ : ∃ found, AllShortest.BFSCheck.currentStateHasNext P A current st = found :=
      ⟨_, rfl⟩
    obtain ⟨hasNext, reached, st₁⟩ := found
    rw [hfound] at hsame
    simp only [AllShortest.BFSCheck.loop, hopen, hfound]
    split_ifs <;> exact hsame

theorem allShortestCheckNext_spec {st st' : AllShortest.BFSCheck} {r : Option (List (EdgeLabel × Nat))}
    (hst : OnlyStart st.isFirst st.openStates) (h : allShortestCheckNext G A fuel st = some (r, st')) :
    st'.isFirst = false ∧ (r = none → st'.openStates = []) := by
  rw [allShortestCheckNext] at h
  cases hfirst : st.isFirst with
  | false =>
    rw [if_neg (by rw [hfirst]; exact Bool.false_ne_true)] at h
    exact whileOpen_firstOver (loop_isFirst G.provider) hfirst h
  | true =>
    obtain ⟨current, hopen⟩ := hst hfirst
    simp only [hfirst, hopen, if_true] at h
    split_ifs at h with hearly
    · rw [Option.some.injEq, AllShortest.BFSCheck.next] at h
      simp only [hfirst, hopen, if_true] at h
      by_cases hnode : G.provider.nodeExists current.nodeId = true
      · have hfinal := hearly.resolve_left (not_not.mpr hnode)
        rw [if_neg (not_not.mpr hnode), if_pos hfinal] at h
        rw [← (Prod.mk.inj h).2]
        exact ⟨rfl, fun _ => rfl⟩
      · rw [if_pos hnode] at h
        rw [← (Prod.mk.inj h).2]
        exact ⟨rfl, fun _ => rfl⟩
    · exact whileOpen_firstOver (loop_isFirst G.provider) rfl h

theorem allShortestCheck_endsForGood (startId endId : Id) (pathVar : Nat)
    (setPath : List (EdgeLabel × Nat) → Nat) :
    (allShortestCheck G A startId endId pathVar setPath).EndsForGood := by
  apply searchIter_endsForGood _ _ (fun st : AllShortest.BFSCheck => OnlyStart st.isFirst st.openStates)
    fun st : AllShortest.BFSCheck => st.isFirst = false ∧ st.openStates = []
  · intro b _
    exact ⟨_, rfl⟩
  · intro fuel st r st' hst h
    obtain ⟨hfirst, hopen⟩ := allShortestCheckNext_spec hst h
    exact ⟨fun htrue => absurd (hfirst.symm.trans htrue) Bool.false_ne_true, fun hnone => ⟨hfirst, hopen hnone⟩⟩
  · intro b st st' _ h _
    rw [← Option.some.inj h]
    exact ⟨_, rfl⟩
  · intro st h fuel
    rw [allShortestCheckNext, if_neg (by rw [h.1]; exact Bool.false_ne_true)]
    exact whileOpen_of_not (by rw [h.2]; rfl) fuel
  · intro st h r hr
    rw [allShortestCheckNext, if_neg (by rw [h.1]; exact Bool.false_ne_true)] at hr
    cases hr

theorem enumeration_spec (st : AllShortest.BFSEnum) (s : AllShortest.SearchState) :
    (AllShortest.enumeration st s).2.firstNext = st.firstNext ∧
      ((AllShortest.enumeration st s).1 = none → (AllShortest.enumeration st s).2.savedStateReached = none) := by
  rw [AllShortest.enumeration]
  split_ifs
  · exact ⟨rfl, fun hnone => by cases hnone⟩
  · exact ⟨rfl, fun _ => rfl⟩

theorem searchLoop_spec (P : PathIndexProvider) {st : AllShortest.BFSEnum}
    (hsaved : st.savedStateReached = none) :
    (AllShortest.searchLoop P A 1 st).2.firstNext = st.firstNext ∧
      ((AllShortest.searchLoop P A 1 st).1 = none →
        (AllShortest.searchLoop P A 1 st).2.savedStateReached = none) := by
  have henum : ∀ (st₁ : AllShortest.BFSEnum) (s : AllShortest.SearchState),
      st₁.firstNext = st.firstNext →
        (match AllShortest.enumeration st₁ s with
          | (some result, st₂) => (some result, st₂)
          | (none, st₂) => AllShortest.searchLoop P A 0 st₂).2.firstNext = st.firstNext ∧
        ((match AllShortest.enumeration st₁ s with
          | (some result, st₂) => (some result, st₂)
          | (none, st₂) => AllShortest.searchLoop P A 0 st₂).1 = none →
        (match AllShortest.enumeration st₁ s with
          | (some result, st₂) => (some result, st₂)
          | (none, st₂) => AllShortest.searchLoop P A 0 st₂).2.savedStateReached = none) := by
    intro st₁ s hfirst
    obtain ⟨hsame, hnone⟩ := enumeration_spec st₁ s
    obtain ⟨found, hfound⟩ : ∃ found, AllShortest.enumeration st₁ s = found := ⟨_, rfl⟩
    obtain ⟨result, st₂⟩ := found
    rw [hfound] at hsame hnone ⊢
    cases result with
    | some result => exact ⟨hsame.trans hfirst, fun h => by cases h⟩
    | none => exact ⟨hsame.trans hfirst, fun _ => hnone rfl⟩
  cases hopen : st.openStates with
  | nil =>
    simp only [AllShortest.searchLoop, hopen]
    exact ⟨trivial, fun _ => hsaved⟩
  | cons current rest =>
    obtain ⟨found, hfound⟩ : ∃ found, AllShortest.currentStateHasNext P A st current = found := ⟨_, rfl⟩
    obtain ⟨reached, h, k, ms⟩ := found
    cases reached with
    | none =>
      simp only [AllShortest.searchLoop, hopen, hfound]
      exact ⟨trivial, fun _ => hsaved⟩
    | some reached =>
      cases reached with
      | tied s =>
        simp only [AllShortest.searchLoop, hopen, hfound]
        exact henum _ s rfl
      | new s =>
        simp only [AllShortest.searchLoop, hopen, hfound]
        split_ifs with hfinal
        · exact henum _ s rfl
        · exact ⟨rfl, fun _ => hsaved⟩

theorem allShortestResume_spec {st st' : EnumState} {r : Option (Nat × List (EdgeLabel × Nat))}
    (hfirst : st.search.firstNext = false) (h : allShortestResume G A fuel st = some (r, st')) :
    st'.search.firstNext = false ∧ st'.dangling = false ∧
      (r = none → st'.search.openStates = [] ∧ st'.search.savedStateReached = none) := by
  have hloop : ∀ {search : AllShortest.BFSEnum}, search.firstNext = false → search.savedStateReached = none →
      (whileOpen (fun st : AllShortest.BFSEnum => !st.openStates.isEmpty)
        (AllShortest.searchLoop G.provider A 1) fuel search).map
          (fun (r, st) => (r, (⟨st, false⟩ : EnumState))) = some (r, st') →
        st'.search.firstNext = false ∧ st'.dangling = false ∧
          (r = none → st'.search.openStates = [] ∧ st'.search.savedStateReached = none) := by
    intro search hfirst hsaved h
    obtain ⟨⟨r₁, search₁⟩, hwhile, heq⟩ := Option.map_eq_some_iff.mp h
    obtain ⟨hr, hst⟩ := Prod.mk.inj heq
    rw [← hst]
    -- a saved state is left by the loop only with a result
    have hnone : ∀ st st', st.firstNext = false ∧ st.savedStateReached = none →
        AllShortest.searchLoop G.provider A 1 st = (none, st') →
          st'.firstNext = false ∧ st'.savedStateReached = none := by
      intro st st' ⟨hst, hsaved⟩ hstep
      obtain ⟨hsame, hleft⟩ := searchLoop_spec (A := A) G.provider hsaved
      rw [hstep] at hsame hleft
      exact ⟨hsame.trans hst, hleft rfl⟩
    have hsome : ∀ st r st', st.firstNext = false ∧ st.savedStateReached = none →
        AllShortest.searchLoop G.provider A 1 st = (some r, st') → st'.firstNext = false := by
      intro st r st' ⟨hst, hsaved⟩ hstep
      have hsame := (searchLoop_spec (A := A) G.provider hsaved).1
      rw [hstep] at hsame
      exact hsame.trans hst
    cases r₁ with
    | none =>
      obtain ⟨⟨hfirst', hsaved'⟩, hclosed⟩ := whileOpen_none _ hnone ⟨hfirst, hsaved⟩ hwhile
      exact ⟨hfirst', rfl, fun _ => ⟨isEmpty_of_not hclosed, hsaved'⟩⟩
    | some result =>
      have hfirst' := whileOpen_some _ (fun st : AllShortest.BFSEnum => st.firstNext = false) hnone hsome
        ⟨hfirst, hsaved⟩ hwhile
      exact ⟨hfirst', rfl, fun hno => by rw [← hr] at hno; cases hno⟩
  rw [allShortestResume] at h
  cases hsaved : st.search.savedStateReached with
  | none =>
    rw [hsaved] at h
    exact hloop hfirst hsaved h
  | some s =>
    simp only [hsaved] at h
    split_ifs at h
    obtain ⟨hsame, hleft⟩ := enumeration_spec st.search s
    obtain ⟨found, hfound⟩ : ∃ found, AllShortest.enumeration st.search s = found := ⟨_, rfl⟩
    obtain ⟨result, search⟩ := found
    rw [hfound] at h hsame hleft
    cases result with
    | none => exact hloop (hsame.trans hfirst) (hleft rfl) h
    | some result =>
      obtain ⟨hr, hst⟩ := Prod.mk.inj (Option.some.inj h)
      rw [← hst]
      exact ⟨hsame.trans hfirst, rfl, fun hno => by rw [← hr] at hno; cases hno⟩

/-- What holds of a search that is only reset without a saved state. -/
structure EnumState.Inv (st : EnumState) : Prop where
  dangling : st.dangling = false
  start : OnlyStart st.search.firstNext st.search.openStates
  saved : st.search.firstNext = true → st.search.savedStateReached = none

structure EnumState.Ended (st : EnumState) : Prop where
  dangling : st.dangling = false
  firstNext : st.search.firstNext = false
  openStates : st.search.openStates = []
  saved : st.search.savedStateReached = none

theorem allShortestEnumNext_spec {st st' : EnumState} {r : Option (Nat × List (EdgeLabel × Nat))}
    (hst : st.Inv) (h : allShortestEnumNext G A fuel st = some (r, st')) :
    st'.Inv ∧ (r = none → st'.Ended) := by
  have hnotfirst : ∀ {st : EnumState}, st.search.firstNext = false →
      allShortestResume G A fuel st = some (r, st') → st'.Inv ∧ (r = none → st'.Ended) := by
    intro st hfirst h
    obtain ⟨hfirst', hdangling, hended⟩ := allShortestResume_spec hfirst h
    have hno : ¬ st'.search.firstNext = true := by
      rw [hfirst']
      exact Bool.false_ne_true
    exact ⟨⟨hdangling, fun htrue => absurd htrue hno, fun htrue => absurd htrue hno⟩,
      fun hnone => ⟨hdangling, hfirst', (hended hnone).1, (hended hnone).2⟩⟩
  rw [allShortestEnumNext] at h
  cases hfirst : st.search.firstNext with
  | false =>
    rw [if_neg (by rw [hfirst]; exact Bool.false_ne_true)] at h
    exact hnotfirst hfirst h
  | true =>
    obtain ⟨current, hopen⟩ := hst.start hfirst
    have hsaved := hst.saved hfirst
    simp only [hfirst, hopen, if_true] at h
    split_ifs at h with hearly
    · rw [Option.some.injEq, AllShortest.BFSEnum.next] at h
      simp only [hfirst, hopen, if_true] at h
      have hdone : ∀ {search : AllShortest.BFSEnum}, search.firstNext = false → st' = { st with search } →
          st'.Inv := by
        intro search hno heq
        have hno : ¬ search.firstNext = true := by
          rw [hno]
          exact Bool.false_ne_true
        rw [heq]
        exact ⟨hst.dangling, fun htrue => absurd htrue hno, fun htrue => absurd htrue hno⟩
      by_cases hnode : G.provider.nodeExists current.nodeId = true
      · have hfinal := hearly.resolve_left (not_not.mpr hnode)
        rw [if_neg (not_not.mpr hnode), if_pos hfinal] at h
        cases hfound : st.search.visited.find?
          (fun s => s.key = AllShortest.SearchState.key ⟨A.finalState, current.nodeId, 0⟩) with
        | some s =>
          rw [hfound] at h
          obtain ⟨hr, hst'⟩ := Prod.mk.inj h
          exact ⟨hdone rfl hst'.symm, fun hno => by rw [← hr] at hno; cases hno⟩
        | none =>
          rw [hfound] at h
          obtain ⟨hr, hst'⟩ := Prod.mk.inj h
          exact ⟨hdone rfl hst'.symm, fun hno => by rw [← hr] at hno; cases hno⟩
      · rw [if_pos hnode] at h
        obtain ⟨hr, hst'⟩ := Prod.mk.inj h
        refine ⟨hdone rfl hst'.symm, fun _ => ?_⟩
        rw [← hst']
        exact ⟨hst.dangling, rfl, rfl, hsaved⟩
    · exact hnotfirst rfl h

theorem allShortestEnumNext_still {st : EnumState} (h : st.Ended) (fuel : Nat) :
    allShortestEnumNext G A (fuel + 1) st = some (none, st) := by
  have hclosed : (!st.search.openStates.isEmpty) = false := by
    rw [h.openStates]
    rfl
  have hdangling := h.dangling
  rw [allShortestEnumNext, if_neg (by rw [h.firstNext]; exact Bool.false_ne_true), allShortestResume, h.saved]
  obtain ⟨search, dangling⟩ := st
  obtain rfl : dangling = false := hdangling
  simp only [whileOpen, hclosed, Bool.false_eq_true, if_false, Option.map_some]

theorem allShortestEnum_endsForGood (startId : Id) (endVar pathVar : Nat)
    (setPath : Nat × List (EdgeLabel × Nat) → Nat) :
    (allShortestEnum G A startId endVar pathVar true setPath).EndsForGood := by
  apply searchIter_endsForGood _ _ EnumState.Inv EnumState.Ended
  · intro b
    exact ⟨rfl, fun _ => ⟨_, rfl⟩, fun _ => rfl⟩
  · intro fuel st r st' hst h
    exact allShortestEnumNext_spec hst h
  · intro b st st' _ h
    split_ifs at h with hidle
    have hsaved : st.search.savedStateReached = none := by
      rw [not_and] at hidle
      simpa using hidle rfl
    rw [← Option.some.inj h]
    exact ⟨by rw [hsaved]; rfl, fun _ => ⟨_, rfl⟩, fun _ => hsaved⟩
  · intro st h fuel
    exact allShortestEnumNext_still h fuel
  · intro st h r hr
    rw [allShortestEnumNext, if_neg (by rw [h.firstNext]; exact Bool.false_ne_true), allShortestResume,
      h.saved] at hr
    cases hr

namespace UnfixedComposite

variable {startVar : Nat} {bind : SearchState → Binding → Binding} {st st' : UnfixedComposite} {r : Bool}

/-- A path enumeration that was not called yet has the start alone. -/
def Inv (st : UnfixedComposite) : Prop := ∀ e ∈ st.pathEnum, OnlyStart e.firstNext e.openStates

def EnumEnded (st : UnfixedComposite) : Prop := ∀ e ∈ st.pathEnum, e.firstNext = false ∧ e.openStates = []

structure Ended (A : RPQAutomaton) (st : UnfixedComposite) : Prop where
  startIter : st.startIter = []
  transitions : (A.fromTo 0)[st.currentStartTransition]? = none
  pathEnum : EnumEnded st

theorem onlyStart_start (n : Nat) : ∀ e ∈ some (IterEnum.start n), OnlyStart e.firstNext e.openStates := by
  intro e he _
  rw [← Option.some.inj (Option.mem_def.mp he)]
  exact ⟨_, rfl⟩

theorem inv_start {b : Binding} (h : UnfixedComposite.start G A startVar b = some st) : Inv st := by
  obtain ⟨t, _, hst⟩ := Option.map_eq_some_iff.mp h
  rw [← hst]
  cases G.typeRange t.typeId with
  | nil => exact fun e he => nomatch he
  | cons record records => exact onlyStart_start record.2.1

theorem inv_reset (b : Binding) : Inv (st.reset G A startVar b) := by
  rw [UnfixedComposite.reset]
  split
  · intro e he
    cases he
  · exact onlyStart_start _

theorem inv_of_enumEnded (h : EnumEnded st) : Inv st := by
  intro e he hfirst
  exact absurd ((h e he).1.symm.trans hfirst) Bool.false_ne_true

theorem nextStart_pathEnum : (UnfixedComposite.nextStart G A st).1.pathEnum = st.pathEnum := by
  rw [UnfixedComposite.nextStart]
  split <;> rfl

theorem nextStart_none (h : UnfixedComposite.nextStart G A st = (st', none)) :
    st'.startIter = [] ∧ (A.fromTo 0)[st'.currentStartTransition]? = none := by
  rw [UnfixedComposite.nextStart] at h
  split at h
  · simp at h
  · obtain ⟨hst, hnone⟩ := Prod.mk.inj h
    rw [← hst]
    exact ⟨rfl, Option.map_eq_none_iff.mp hnone⟩

theorem nextStart_of_ended (h : Ended A st) :
    UnfixedComposite.nextStart G A st = (UnfixedComposite.nextTransition st, none) := by
  have hend : (A.fromTo 0)[st.currentStartTransition + 1]? = none := by
    have hle := List.getElem?_eq_none_iff.mp h.transitions
    exact List.getElem?_eq_none_iff.mpr (by omega)
  rw [UnfixedComposite.nextStart, h.startIter, hend]
  rfl

theorem Ended.nextTransition (h : Ended A st) : Ended A (UnfixedComposite.nextTransition st) := by
  refine ⟨rfl, ?_, h.pathEnum⟩
  have hle := List.getElem?_eq_none_iff.mp h.transitions
  apply List.getElem?_eq_none_iff.mpr
  simp only [UnfixedComposite.nextTransition]
  omega

theorem inv_enterStart {record : Record4} {records : List Record4} (h : EnumEnded st)
    (henter : UnfixedComposite.enterStart startVar st record records = some st') : Inv st' := by
  rw [UnfixedComposite.enterStart] at henter
  split_ifs at henter with hvisited
  · rw [← Option.some.inj henter]
    exact inv_of_enumEnded h
  · obtain ⟨e, _, hst⟩ := Option.map_eq_some_iff.mp henter
    rw [← hst]
    exact onlyStart_start record.2.1

/-- One `next`, by induction over its loop. -/
theorem unfixedNext_spec (h : Inv st) (hnext : unfixedNext G A startVar bind fuel st = some (r, st')) :
    Inv st' ∧ (r = false → Ended A st') := by
  induction fuel generalizing st with
  | zero => cases hnext
  | succ fuel ih =>
    -- what the rest of the loop does after a path enumeration at its end
    have hrest : ∀ {st : UnfixedComposite}, EnumEnded st →
        (match UnfixedComposite.nextStart G A st with
          | (st, none) => some (false, st)
          | (st, some []) => unfixedNext G A startVar bind fuel st
          | (st, some (r :: rs)) =>
            (UnfixedComposite.enterStart startVar st r rs).bind (unfixedNext G A startVar bind fuel)) =
          some (r, st') → Inv st' ∧ (r = false → Ended A st') := by
      intro st hended hmatch
      obtain ⟨found, hfound⟩ : ∃ found, UnfixedComposite.nextStart G A st = found := ⟨_, rfl⟩
      obtain ⟨st₁, records⟩ := found
      have hended₁ : EnumEnded st₁ := by
        have hsame : (UnfixedComposite.nextStart G A st).1.pathEnum = st.pathEnum := nextStart_pathEnum
        rw [hfound] at hsame
        rw [EnumEnded, hsame]
        exact hended
      rw [hfound] at hmatch
      match records with
      | none =>
        obtain ⟨_, hst⟩ := Prod.mk.inj (Option.some.inj hmatch)
        rw [← hst]
        obtain ⟨hiter, htransitions⟩ := nextStart_none hfound
        exact ⟨inv_of_enumEnded hended₁, fun _ => ⟨hiter, htransitions, hended₁⟩⟩
      | some [] => exact ih (inv_of_enumEnded hended₁) hmatch
      | some (record :: records) =>
        obtain ⟨st₂, henter, hloop⟩ := Option.bind_eq_some_iff.mp hmatch
        exact ih (inv_enterStart hended₁ henter) hloop
    rw [unfixedNext] at hnext
    cases henum : st.pathEnum with
    | none =>
      simp only [henum] at hnext
      exact hrest (fun e he => by cases he) hnext
    | some e =>
      simp only [henum] at hnext
      cases hfound : bfsIterEnumNext G A fuel e with
      | none =>
        rw [hfound] at hnext
        cases hnext
      | some found =>
        obtain ⟨result, e'⟩ := found
        obtain ⟨hfirst, hopen⟩ := bfsIterEnumNext_spec (h e henum) hfound
        simp only [hfound, Option.map_some] at hnext
        cases result with
        | some result =>
          obtain ⟨hr, hst⟩ := Prod.mk.inj (Option.some.inj hnext)
          rw [← hst, ← hr]
          refine ⟨fun e he htrue => ?_, fun hfalse => by cases hfalse⟩
          rw [← Option.some.inj he, hfirst] at htrue
          cases htrue
        | none =>
          refine hrest (fun e he => ?_) hnext
          rw [← Option.some.inj he]
          exact ⟨hfirst, hopen rfl⟩

theorem unfixedNext_of_ended (h : Ended A st) (fuel : Nat) :
    unfixedNext G A startVar bind (fuel + 2) st = some (false, UnfixedComposite.nextTransition st) := by
  have hnext := nextStart_of_ended (G := G) h
  rw [unfixedNext]
  cases henum : st.pathEnum with
  | none => simp only [← henum, hnext]
  | some e =>
    obtain ⟨hfirst, hopen⟩ := h.pathEnum e henum
    simp only [bfsIterEnumNext_still hfirst hopen, Option.map_some, ← henum, hnext]

theorem unfixedNext_ended (h : Ended A st)
    (hnext : unfixedNext G A startVar bind fuel st = some (r, st')) :
    r = false ∧ st' = UnfixedComposite.nextTransition st := by
  have hsame : (r, st') = (false, UnfixedComposite.nextTransition st) := by
    match fuel with
    | 0 => cases hnext
    | fuel + 2 => exact Option.some.inj (hnext.symm.trans (unfixedNext_of_ended h fuel))
    | 1 =>
      have hstart := nextStart_of_ended (G := G) h
      rw [unfixedNext] at hnext
      cases henum : st.pathEnum with
      | none =>
        simp only [henum] at hnext
        simp only [← henum, hstart] at hnext
        exact (Option.some.inj hnext).symm
      | some e =>
        simp only [henum, bfsIterEnumNext_zero (h.pathEnum e henum).1, Option.map_none] at hnext
        cases hnext
  exact Prod.mk.inj hsame

end UnfixedComposite

theorem unfixedComposite_endsForGood (startVar endVar pathVar : Nat) (setPath : SearchState → Nat) :
    (unfixedComposite G A startVar endVar pathVar setPath).EndsForGood := by
  apply EnvIter.endsForGood_of UnfixedComposite.Inv (UnfixedComposite.Ended A)
  · intro fuel b st b' h
    obtain ⟨st₁, hstart, heq⟩ := Option.map_eq_some_iff.mp h
    rw [← (Prod.mk.inj heq).1]
    exact UnfixedComposite.inv_start hstart
  · intro st h fuel b r st' b' hnext
    obtain ⟨⟨r₁, st₁⟩, hstep, heq⟩ := Option.map_eq_some_iff.mp hnext
    obtain ⟨hr, hrest⟩ := Prod.mk.inj heq
    rw [← (Prod.mk.inj hrest).1, ← hr]
    have hinv : UnfixedComposite.Inv ({ st with binding := b } : Paths.UnfixedComposite) := h
    exact UnfixedComposite.unfixedNext_spec hinv hstep
  · intro st _ fuel b st' b' hreset
    rw [← (Prod.mk.inj (Option.some.inj hreset)).1]
    exact UnfixedComposite.inv_reset b
  · constructor
    · intro st h b
      refine ⟨2, fun more hmore => ?_⟩
      obtain ⟨fuel, rfl⟩ : ∃ n, more = n + 2 := ⟨more - 2, by omega⟩
      have hended : UnfixedComposite.Ended A ({ st with binding := b } : Paths.UnfixedComposite) :=
        ⟨h.startIter, h.transitions, h.pathEnum⟩
      exact ⟨_, by
        simp only [unfixedComposite, UnfixedComposite.unfixedNext_of_ended hended fuel, Option.map_some]
        rfl⟩
    · intro st h fuel b r st' b' hnext
      have hended : UnfixedComposite.Ended A ({ st with binding := b } : Paths.UnfixedComposite) :=
        ⟨h.startIter, h.transitions, h.pathEnum⟩
      obtain ⟨⟨r₁, st₁⟩, hstep, heq⟩ := Option.map_eq_some_iff.mp hnext
      obtain ⟨hr, hrest⟩ := Prod.mk.inj heq
      obtain ⟨hfalse, hst⟩ := UnfixedComposite.unfixedNext_ended hended hstep
      rw [← (Prod.mk.inj hrest).1, ← (Prod.mk.inj hrest).2, ← hr, hst]
      exact ⟨hfalse, rfl, hended.nextTransition⟩

end

/-- The end that a tree reports is for good, by induction over the tree, in every run whose searches
for all shortest paths are not reset at a saved state. -/
theorem endsForGood_of_tree {I : BindingIter} (h : Tree true I) : I.EndsForGood := by
  induction h with
  | indexScan searchLeaf ranges => exact indexScan_endsForGood searchLeaf ranges
  | edgeTableLookup table lookup => exact edgeTableLookup_endsForGood table lookup
  | objectEnum varId mask maxCount => exact objectEnum_endsForGood varId mask maxCount
  | leapfrogJoin F iters varOrder enumerationLevel =>
    exact leapfrogJoin_endsForGood F iters varOrder enumerationLevel
  | bfsIterEnum G A startId endVar pathVar setPath =>
    exact bfsIterEnum_endsForGood startId endVar pathVar setPath
  | bfsCheck G A startId endId pathVar setPath => exact bfsCheck_endsForGood startId endId pathVar setPath
  | unfixedComposite G A startVar endVar pathVar setPath =>
    exact unfixedComposite_endsForGood startVar endVar pathVar setPath
  | allShortestCheck G A startId endId pathVar setPath =>
    exact allShortestCheck_endsForGood startId endId pathVar setPath
  | allShortestEnum G A startId endVar pathVar setPath =>
    exact allShortestEnum_endsForGood startId endVar pathVar setPath
  | @union Is _ _ => exact union_endsForGood Is
  | indexNestedLoopJoin _ _ ihl ihr => exact indexNestedLoopJoin_endsForGood ihl ihr
  | indexLeftOuterJoin _ _ ihl ihr => exact indexLeftOuterJoin_endsForGood ihl ihr
  | distinctIdHash _ projectedVars hash ih => exact distinctIdHash_endsForGood ih projectedVars hash

/-- Paths over the edge of `loopAndEdge`, with a node beside each. -/
theorem path_join_endsForGood : (indexLeftOuterJoin
    (allShortestEnum Paths.loopAndEdge Paths.plusAutomaton (.var 0) 1 2 true fun _ => 0)
    (objectEnum 3 0 2)).EndsForGood :=
  endsForGood_of_tree (.indexLeftOuterJoin
    (.allShortestEnum Paths.loopAndEdge Paths.plusAutomaton (.var 0) 1 2 fun _ => 0) (.objectEnum 3 0 2))

theorem allShortestEnumNext_dangling {G : QuadModel} {A : RPQAutomaton} {st : EnumState}
    (hfirst : st.search.firstNext = false) (hsaved : st.search.savedStateReached.isSome)
    (hdangling : st.dangling = true) (fuel : Nat) : allShortestEnumNext G A fuel st = none := by
  obtain ⟨s, hs⟩ := Option.isSome_iff_exists.mp hsaved
  rw [allShortestEnumNext, if_neg (by rw [hfirst]; exact Bool.false_ne_true), allShortestResume, hs]
  simp only [hdangling, if_true]

/-- The search from node 0 has a saved state when it is reset for 7, which is no node: the end that it
then reports is not its last word. -/
theorem not_endsForGood : ¬ ∀ I, Tree false I → I.EndsForGood := by
  intro h
  have hends := h _ (.allShortestEnum Paths.loopAndEdge Paths.plusAutomaton (.var 0) 1 2 fun _ => 0)
  have hbegin : (allShortestEnum Paths.loopAndEdge Paths.plusAutomaton (.var 0) 1 2 false fun _ => 0).begin 0
      (fun _ => 0) = some (⟨.start 0, false⟩, fun _ => 0) := rfl
  obtain ⟨st, b, hnext, hsaved⟩ : ∃ st b,
      (allShortestEnum Paths.loopAndEdge Paths.plusAutomaton (.var 0) 1 2 false fun _ => 0).next 9
        ⟨.start 0, false⟩ (fun _ => 0) = some (true, st, b) ∧ st.search.savedStateReached.isSome :=
    ⟨_, _, rfl, rfl⟩
  have hreset : (allShortestEnum Paths.loopAndEdge Paths.plusAutomaton (.var 0) 1 2 false fun _ => 0).reset 0
      st (fun _ => 7) = some (⟨st.search.reset 7, true⟩, fun _ => 7) := by
    simp only [allShortestEnum, searchIter, hsaved]
    rfl
  obtain ⟨ended, hended⟩ : ∃ ended : EnumState,
      ended = ⟨{ st.search.reset 7 with firstNext := false, openStates := [] }, true⟩ := ⟨_, rfl⟩
  have hfalse : (allShortestEnum Paths.loopAndEdge Paths.plusAutomaton (.var 0) 1 2 false fun _ => 0).next 0
      ⟨st.search.reset 7, true⟩ (fun _ => 7) = some (false, ended, fun _ => 7) := by
    rw [hended]
    rfl
  -- no later call returns
  have hnone : ∀ fuel, allShortestEnumNext Paths.loopAndEdge Paths.plusAutomaton fuel ended = none := by
    intro fuel
    apply allShortestEnumNext_dangling <;> rw [hended]
    exact hsaved
  obtain ⟨E, hE, hstays⟩ := hends _ (.reset (.next (.begin hbegin) hnext) hreset) _ _ _ _ hfalse
  obtain ⟨fuel, hfuel⟩ := hE.returns _ hstays fun _ => 7
  obtain ⟨st', hst'⟩ := hfuel fuel (le_refl fuel)
  have hcalled := congrArg (Option.map fun (found, st) => (found.isSome, st, (found.map fun r =>
    bindPath 1 2 (fun _ => 0) Prod.fst r fun _ => 7).getD fun _ => 7)) (hnone fuel)
  exact absurd (hcalled.symm.trans hst') (by simp)

end IteratorEnds
end MillenniumDB
