import MillenniumDB.BfsSimpleEnum
import MillenniumDB.Lib.Restarts
import MillenniumDB.PathPlan
import MillenniumDB.PathSearches

/-!
# Resets of the path operators

A nested-loop join resets the operator of a path for each row of its left side.  Six of the
nine operators begin again with everything that `next` reads.  `AllShortest::BFSCheck` keeps
the iterator of the expansion in which it stopped, `AllShortest::BFSEnum` the state that it
was enumerating, and `UnfixedComposite` the start nodes that it has run through.
-/

namespace MillenniumDB
namespace Paths

def BFSCheck.reset (s : Nat) (st : BFSCheck) : BFSCheck := { st with
  isFirst := true
  visited := [.root 0 s]
  openStates := [.root 0 s] }

def SimpleEnum.reset (s : Nat) (st : SimpleEnum) : SimpleEnum := { st with
  isFirst := true
  visited := [.root 0 s]
  openStates := [.root 0 s] }

/-- `reset` of `BFSIterEnum` and of `BFSIterEnum2`, which leaves `current_transition` as it is. -/
def IterEnum.reset (s : Nat) (st : IterEnum) : IterEnum := { st with
  firstNext := true
  visited := [.root 0 s]
  openStates := [.root 0 s]
  iter := none }

/-- `BFSEnum::reset`, which leaves `current_transition` and `saved_state_reached` as they are. -/
def AllShortest.BFSEnum.reset (s : Nat) (st : BFSEnum) : BFSEnum := { st with
  firstNext := true
  visited := [⟨0, s, 0⟩]
  iters := fun _ => {}
  openStates := [⟨0, s, 0⟩]
  iter := none }

/-- `UnfixedComposite::reset`, which leaves `visited` as it is. -/
def UnfixedComposite.reset (G : QuadModel) (A : RPQAutomaton) (startVar : Nat) (b : Binding)
    (st : UnfixedComposite) : UnfixedComposite :=
  let st := { st with binding := b, currentStartTransition := 0 }
  match ((A.fromTo 0)[0]?.map fun t => G.typeRange t.typeId).getD [] with
  | [] => { st with startIter := [], currentStartRecord := none, pathEnum := none }
  | r :: rs => { st with
      binding := Function.update b startVar r.2.1
      startIter := rs, currentStartRecord := some r, pathEnum := some (.start r.2.1) }

section

variable (G : QuadModel) (P : PathIndexProvider) (A : RPQAutomaton) (fuel : Nat) (startId endId : Id)

def bfsCheck : Operator Binding (Nat × BFSCheck) (Option SearchState) where
  start b := (endId.value b, .start (startId.value b))
  next st := ((BFSCheck.next G A st.1 fuel st.2).1, st.1, (BFSCheck.next G A st.1 fuel st.2).2)
  reset b st := (endId.value b, st.2.reset (startId.value b))

def bfsSimpleEnum : Operator Binding SimpleEnum (Option SearchState) where
  start b := .start (startId.value b)
  next := BFSSimpleEnum.next G A fuel
  reset b := SimpleEnum.reset (startId.value b)

def bfsIterEnum : Operator Binding IterEnum (Option SearchState) where
  start b := .start (startId.value b)
  next := BFSIterEnum.next G A fuel
  reset b := IterEnum.reset (startId.value b)

def bfsIterEnum2 : Operator Binding IterEnum (Option SearchState) where
  start b := .start (startId.value b)
  next := BFSIterEnum2.next P A fuel
  reset b := IterEnum.reset (startId.value b)

def aStarIterEnum (Q : PriorityQueue) : Operator Binding (AStarIterEnum Q) (Option SearchState) where
  start b := AStarIterEnum.start Q A (startId.value b)
  next := AStarIterEnum.next Q G A fuel
  reset b := AStarIterEnum.reset Q A (startId.value b)

def dfsEnum : Operator Binding DFSEnum (Option SearchState) where
  start b := .start (startId.value b)
  next := DFSEnum.next G A fuel
  reset b := DFSEnum.reset (startId.value b)

def allShortestCheck :
    Operator Binding AllShortest.BFSCheck (Option (List (EdgeLabel × Nat))) where
  start b := .start (startId.value b) (endId.value b)
  next := AllShortest.BFSCheck.next G A fuel
  reset b := AllShortest.BFSCheck.reset (startId.value b) (endId.value b)

def allShortestEnum :
    Operator Binding AllShortest.BFSEnum (Option (Nat × List (EdgeLabel × Nat))) where
  start b := .start (startId.value b)
  next := AllShortest.BFSEnum.next G A fuel
  reset b := AllShortest.BFSEnum.reset (startId.value b)

/-- Without a state the process has ended, and a reset does not bring it back. -/
def unfixedComposite (startVar endVar : Nat) :
    Operator Binding (Option UnfixedComposite) (Option (Option PathRow)) where
  start b := UnfixedComposite.start G A startVar b
  next := UnfixedComposite.next G A startVar endVar fuel
  reset b st := st.map (UnfixedComposite.reset G A startVar b)

end

section

variable {G : QuadModel} {P : PathIndexProvider} {A : RPQAutomaton} {fuel : Nat}

/-- Two states of a suspended search that differ at most in a cursor without an iterator. -/
def IterEnum.SameSearch (st st' : IterEnum) : Prop :=
  st' = st ∨ st.iter = none ∧ ∃ k, st' = { st with currentTransition := k }

theorem iterLoop_sameSearch {st st' : IterEnum} (h : st.SameSearch st') :
    (iterLoop P A fuel st).1 = (iterLoop P A fuel st').1 ∧
      (iterLoop P A fuel st).2.SameSearch (iterLoop P A fuel st').2 := by
  rcases h with rfl | ⟨hiter, k, rfl⟩
  · exact ⟨rfl, .inl rfl⟩
  induction fuel generalizing st with
  | zero => exact ⟨rfl, .inr ⟨hiter, k, rfl⟩⟩
  | succ fuel ih =>
    obtain ⟨firstNext, visited, openStates, iter, c⟩ := st
    obtain rfl : iter = none := hiter
    cases openStates with
    | nil => exact ⟨rfl, .inr ⟨rfl, k, rfl⟩⟩
    | cons current rest =>
      have hnext : currentStateHasNext P A ⟨firstNext, visited, current :: rest, none, k⟩ current =
          currentStateHasNext P A ⟨firstNext, visited, current :: rest, none, c⟩ current := rfl
      simp only [iterLoop, hnext]
      cases currentStateHasNext P A ⟨firstNext, visited, current :: rest, none, c⟩ current with
      | none => exact ih rfl
      | some found => exact ⟨rfl, .inl rfl⟩

theorem BFSIterEnum.next_sameSearch {st st' : IterEnum} (h : st.SameSearch st') :
    (BFSIterEnum.next G A fuel st).1 = (BFSIterEnum.next G A fuel st').1 ∧
      (BFSIterEnum.next G A fuel st).2.SameSearch (BFSIterEnum.next G A fuel st').2 := by
  rcases h with rfl | ⟨hiter, k, rfl⟩
  · exact ⟨rfl, .inl rfl⟩
  have hcursor : ∀ st : IterEnum, st.iter = none →
      st.SameSearch { st with currentTransition := k } := fun st hst => .inr ⟨hst, k, rfl⟩
  obtain ⟨firstNext, visited, openStates, iter, c⟩ := st
  obtain rfl : iter = none := hiter
  unfold BFSIterEnum.next
  cases firstNext with
  | false => exact iterLoop_sameSearch (hcursor _ rfl)
  | true =>
    cases openStates with
    | nil => exact ⟨rfl, hcursor _ rfl⟩
    | cons current rest =>
      simp only [if_true]
      split_ifs with hnode hfinal
      · cases findState visited (SearchState.root A.finalState current.nodeId).key with
        | none => exact ⟨rfl, hcursor _ rfl⟩
        | some s => exact ⟨rfl, hcursor _ rfl⟩
      · exact iterLoop_sameSearch (hcursor _ rfl)
      · exact ⟨rfl, hcursor _ rfl⟩

theorem BFSIterEnum2.next_sameSearch {st st' : IterEnum} (h : st.SameSearch st') :
    (BFSIterEnum2.next P A fuel st).1 = (BFSIterEnum2.next P A fuel st').1 ∧
      (BFSIterEnum2.next P A fuel st).2.SameSearch (BFSIterEnum2.next P A fuel st').2 := by
  rcases h with rfl | ⟨hiter, k, rfl⟩
  · exact ⟨rfl, .inl rfl⟩
  have hcursor : ∀ st : IterEnum, st.iter = none →
      st.SameSearch { st with currentTransition := k } := fun st hst => .inr ⟨hst, k, rfl⟩
  obtain ⟨firstNext, visited, openStates, iter, c⟩ := st
  obtain rfl : iter = none := hiter
  unfold BFSIterEnum2.next
  cases firstNext with
  | false => exact iterLoop_sameSearch (hcursor _ rfl)
  | true =>
    cases openStates with
    | nil => exact ⟨rfl, hcursor _ rfl⟩
    | cons current rest =>
      simp only [if_true]
      split_ifs with hnode hfinal
      · exact ⟨rfl, hcursor _ rfl⟩
      · exact iterLoop_sameSearch (hcursor _ rfl)
      · exact ⟨rfl, hcursor _ rfl⟩

end

namespace AllShortest

variable {G : QuadModel} {P : PathIndexProvider} {A : RPQAutomaton} {fuel : Nat}

def BFSEnum.SameSearch (st st' : BFSEnum) : Prop :=
  st' = st ∨ st.iter = none ∧ ∃ k, st' = { st with currentTransition := k }

theorem searchLoop_sameSearch {st st' : BFSEnum} (h : st.SameSearch st') :
    (searchLoop P A fuel st).1 = (searchLoop P A fuel st').1 ∧
      (searchLoop P A fuel st).2.SameSearch (searchLoop P A fuel st').2 := by
  rcases h with rfl | ⟨hiter, k, rfl⟩
  · exact ⟨rfl, .inl rfl⟩
  induction fuel generalizing st with
  | zero => exact ⟨rfl, .inr ⟨hiter, k, rfl⟩⟩
  | succ fuel ih =>
    obtain ⟨firstNext, visited, iters, openStates, iter, c, saved⟩ := st
    obtain rfl : iter = none := hiter
    cases openStates with
    | nil => exact ⟨rfl, .inr ⟨rfl, k, rfl⟩⟩
    | cons current rest =>
      have hnext : currentStateHasNext P A
            ⟨firstNext, visited, iters, current :: rest, none, k, saved⟩ current =
          currentStateHasNext P A
            ⟨firstNext, visited, iters, current :: rest, none, c, saved⟩ current := rfl
      simp only [searchLoop, hnext]
      -- an expansion that stops sets the cursor, and one that ends has no iterator
      obtain ⟨found, h, j, ms⟩ := currentStateHasNext P A
        ⟨firstNext, visited, iters, current :: rest, none, c, saved⟩ current
      cases found with
      | none => exact ih rfl
      | some r => cases r <;> exact ⟨rfl, .inl rfl⟩

theorem BFSEnum.resume_sameSearch {st st' : BFSEnum} (h : st.SameSearch st') :
    (st.resume P A fuel).1 = (st'.resume P A fuel).1 ∧
      (st.resume P A fuel).2.SameSearch (st'.resume P A fuel).2 := by
  rcases h with rfl | ⟨hiter, k, rfl⟩
  · exact ⟨rfl, .inl rfl⟩
  have hcursor : ∀ st : BFSEnum, st.iter = none →
      st.SameSearch { st with currentTransition := k } := fun st hst => .inr ⟨hst, k, rfl⟩
  obtain ⟨firstNext, visited, iters, openStates, iter, c, saved⟩ := st
  obtain rfl : iter = none := hiter
  cases saved with
  | none => exact searchLoop_sameSearch (hcursor _ rfl)
  | some s =>
    simp only [BFSEnum.resume, enumeration]
    obtain ⟨moved, iters'⟩ := pathNext (s.distance + 1) iters s.key
    cases moved with
    | true => exact ⟨rfl, hcursor _ rfl⟩
    | false => exact searchLoop_sameSearch (hcursor _ rfl)

theorem BFSEnum.next_sameSearch {st st' : BFSEnum} (h : st.SameSearch st') :
    (BFSEnum.next G A fuel st).1 = (BFSEnum.next G A fuel st').1 ∧
      (BFSEnum.next G A fuel st).2.SameSearch (BFSEnum.next G A fuel st').2 := by
  rcases h with rfl | ⟨hiter, k, rfl⟩
  · exact ⟨rfl, .inl rfl⟩
  have hcursor : ∀ st : BFSEnum, st.iter = none →
      st.SameSearch { st with currentTransition := k } := fun st hst => .inr ⟨hst, k, rfl⟩
  obtain ⟨firstNext, visited, iters, openStates, iter, c, saved⟩ := st
  obtain rfl : iter = none := hiter
  unfold BFSEnum.next
  cases firstNext with
  | false => exact resume_sameSearch (hcursor _ rfl)
  | true =>
    cases openStates with
    | nil => exact ⟨rfl, hcursor _ rfl⟩
    | cons current rest =>
      simp only [if_true]
      split_ifs with hnode hfinal
      · cases visited.find? fun s => s.key = SearchState.key ⟨A.finalState, current.nodeId, 0⟩ with
        | none => exact ⟨rfl, hcursor _ rfl⟩
        | some s => exact ⟨rfl, hcursor _ rfl⟩
      · exact resume_sameSearch (hcursor _ rfl)
      · exact ⟨rfl, hcursor _ rfl⟩

namespace BFSCheck

def SameSearch (st st' : BFSCheck) : Prop :=
  st' = st ∨ st.iter = none ∧ ∃ k, st' = { st with currentTransition := k }

theorem searchRow_cursor (current : SearchState) (st : BFSCheck) (k : Nat) (ts : List Transition)
    (j : Nat) (ms : List Nat) : searchRow P current { st with currentTransition := k } ts j ms =
      searchRow P current st ts j ms := by
  induction ts generalizing j ms with
  | nil => rfl
  | cons t ts ih =>
    cases ms with
    | nil => exact ih (j + 1) _
    | cons m ms => rfl

theorem loop_sameSearch {st st' : BFSCheck} (h : st.SameSearch st') :
    (loop P A fuel st).1 = (loop P A fuel st').1 ∧
      (loop P A fuel st).2.SameSearch (loop P A fuel st').2 := by
  rcases h with rfl | ⟨hiter, k, rfl⟩
  · exact ⟨rfl, .inl rfl⟩
  cases fuel with
  | zero => exact ⟨rfl, .inr ⟨hiter, k, rfl⟩⟩
  | succ fuel =>
    obtain ⟨endId, isFirst, visited, iters, openStates, iter, c⟩ := st
    obtain rfl : iter = none := hiter
    cases openStates with
    | nil => exact ⟨rfl, .inr ⟨rfl, k, rfl⟩⟩
    | cons current rest =>
      have hnext : currentStateHasNext P A current
            ⟨endId, isFirst, visited, iters, current :: rest, none, k⟩ =
          currentStateHasNext P A current
            ⟨endId, isFirst, visited, iters, current :: rest, none, c⟩ := by
        unfold currentStateHasNext
        dsimp only
        split_ifs
        · rfl
        · exact searchRow_cursor current
            ⟨endId, isFirst, visited, iters, current :: rest, none, c⟩ k _ _ _
      simp only [loop, hnext]
      exact ⟨trivial, .inl rfl⟩

theorem next_sameSearch {st st' : BFSCheck} (h : st.SameSearch st') :
    (next G A fuel st).1 = (next G A fuel st').1 ∧
      (next G A fuel st).2.SameSearch (next G A fuel st').2 := by
  rcases h with rfl | ⟨hiter, k, rfl⟩
  · exact ⟨rfl, .inl rfl⟩
  have hcursor : ∀ st : BFSCheck, st.iter = none →
      st.SameSearch { st with currentTransition := k } := fun st hst => .inr ⟨hst, k, rfl⟩
  obtain ⟨endId, isFirst, visited, iters, openStates, iter, c⟩ := st
  obtain rfl : iter = none := hiter
  unfold next
  cases isFirst with
  | false => exact loop_sameSearch (hcursor _ rfl)
  | true =>
    cases openStates with
    | nil => exact ⟨rfl, hcursor _ rfl⟩
    | cons current rest =>
      simp only [if_true]
      split_ifs with hnode hfinal
      · exact ⟨rfl, hcursor _ rfl⟩
      · exact loop_sameSearch (hcursor _ rfl)
      · exact ⟨rfl, hcursor _ rfl⟩

end BFSCheck

end AllShortest

namespace UnfixedComposite

/-- The start node that `begin` and `reset` take. -/
def firstStart (G : QuadModel) (A : RPQAutomaton) : Option Nat :=
  (((A.fromTo 0)[0]?.map fun t => G.typeRange t.typeId).getD []).head?.map (·.2.1)

structure VisitedStarts (G : QuadModel) (A : RPQAutomaton) (st : UnfixedComposite) : Prop where
  row : ((A.fromTo 0)[0]?).isSome
  nodup : st.visited.Nodup
  first_mem : ∀ n, firstStart G A = some n → n ∈ st.visited

section

variable {G : QuadModel} {A : RPQAutomaton} {startVar endVar limit fuel : Nat} {b : Binding}
  {st st' : UnfixedComposite}

theorem visitedStarts_start (h : start G A startVar b = some st) : VisitedStarts G A st := by
  unfold start at h
  cases ht : (A.fromTo 0)[0]? with
  | none => simp [ht] at h
  | some t =>
    rw [ht, Option.map_some, Option.some.injEq] at h
    cases hrange : G.typeRange t.typeId with
    | nil =>
      rw [hrange] at h
      subst h
      exact ⟨by simp [ht], List.nodup_nil, by simp [firstStart, ht, hrange]⟩
    | cons r rs =>
      rw [hrange] at h
      subst h
      exact ⟨by simp [ht], List.nodup_singleton _, by simp [firstStart, ht, hrange]⟩

theorem visited_nextStart (G : QuadModel) (A : RPQAutomaton) (st : UnfixedComposite) :
    (nextStart G A st).1.visited = st.visited := by
  unfold nextStart
  split <;> rfl

theorem VisitedStarts.enterStart {r : Record4} {rs : List Record4} (h : VisitedStarts G A st)
    (hst' : enterStart startVar st r rs = some st') : VisitedStarts G A st' := by
  unfold UnfixedComposite.enterStart at hst'
  dsimp only at hst'
  split_ifs at hst' with hvisited
  · cases hst'
    exact ⟨h.row, h.nodup, h.first_mem⟩
  · obtain ⟨_, _, rfl⟩ := Option.map_eq_some_iff.mp hst'
    exact ⟨h.row, List.nodup_cons.mpr ⟨hvisited, h.nodup⟩,
      fun n hn => List.mem_cons_of_mem _ (h.first_mem n hn)⟩

theorem VisitedStarts.loop (h : VisitedStarts G A st)
    (hst' : (loop G A startVar endVar limit fuel st).2 = some st') : VisitedStarts G A st' := by
  induction fuel generalizing st with
  | zero =>
    cases hst'
    exact h
  | succ fuel ih =>
    unfold UnfixedComposite.loop at hst'
    revert hst'
    rcases enumNext G A limit st.pathEnum with ⟨_ | r, e⟩ <;> dsimp only
    · have hkept : VisitedStarts G A (nextStart G A { st with pathEnum := e }).1 := by
        have hvisited := visited_nextStart G A { st with pathEnum := e }
        refine ⟨h.row, ?_, ?_⟩
        · rw [hvisited]
          exact h.nodup
        · rw [hvisited]
          exact h.first_mem
      revert hkept
      rcases nextStart G A { st with pathEnum := e } with ⟨next, _ | _ | ⟨r, rs⟩⟩ <;> dsimp only
      · intro hkept hst'
        cases hst'
        exact hkept
      · intro hkept hst'
        exact ih hkept hst'
      · intro hkept hst'
        cases henter : UnfixedComposite.enterStart startVar next r rs with
        | none => simp [henter] at hst'
        | some entered =>
          rw [henter] at hst'
          exact ih (hkept.enterStart henter) hst'
    · intro hst'
      cases hst'
      exact ⟨h.row, h.nodup, h.first_mem⟩

theorem VisitedStarts.reset (h : VisitedStarts G A st) :
    VisitedStarts G A (UnfixedComposite.reset G A startVar b st) := by
  have hvisited : (UnfixedComposite.reset G A startVar b st).visited = st.visited := by
    unfold UnfixedComposite.reset
    dsimp only
    split <;> rfl
  exact ⟨h.row, hvisited ▸ h.nodup, hvisited ▸ h.first_mem⟩

theorem VisitedStarts.reset_eq_start (h : VisitedStarts G A st)
    (honly : ∀ n ∈ st.visited, firstStart G A = some n) :
    some (UnfixedComposite.reset G A startVar b st) = start G A startVar b := by
  obtain ⟨t, ht⟩ := Option.isSome_iff_exists.mp h.row
  cases hrange : G.typeRange t.typeId with
  | nil =>
    have hnone : firstStart G A = none := by simp [firstStart, ht, hrange]
    have hvisited : st.visited = [] := by
      rw [List.eq_nil_iff_forall_not_mem]
      intro n hn
      simpa [hnone] using honly n hn
    simp [UnfixedComposite.reset, start, ht, hrange, hvisited]
  | cons r rs =>
    have hfirst : firstStart G A = some r.2.1 := by simp [firstStart, ht, hrange]
    have hvisited : st.visited = [r.2.1] := by
      have hall : ∀ n ∈ st.visited, n = r.2.1 := by
        intro n hn
        simpa [hfirst, eq_comm] using honly n hn
      have hle : st.visited.length ≤ 1 := by
        have hsubset : st.visited ⊆ [r.2.1] := fun n hn => List.mem_singleton.mpr (hall n hn)
        exact (h.nodup.subperm hsubset).length_le
      have hmem := h.first_mem _ hfirst
      obtain ⟨a, ha⟩ := List.length_eq_one_iff.mp
        (Nat.le_antisymm hle (List.length_pos_of_mem hmem))
      rw [ha] at hmem ⊢
      rw [List.mem_singleton.mp hmem]
    simp [UnfixedComposite.reset, start, ht, hrange, hvisited]

end

def AtFirstStart (G : QuadModel) (A : RPQAutomaton) (st : Option UnfixedComposite) : Prop :=
  ∃ st', st = some st' ∧ ∀ n ∈ st'.visited, firstStart G A = some n

theorem resetsAfresh (G : QuadModel) (A : RPQAutomaton) (fuel startVar endVar : Nat) :
    (unfixedComposite G A fuel startVar endVar).ResetsAfresh fun _ st => AtFirstStart G A st := by
  refine .of_eq fun b st hreached ⟨st', hst', honly⟩ => ?_
  subst hst'
  have hvisited := hreached.invariant (fun st => ∀ st', st = some st' → VisitedStarts G A st')
    (fun b st' h => visitedStarts_start h) ?_ ?_ st' rfl
  · exact hvisited.reset_eq_start honly
  · intro st ih st' hst'
    cases st with
    | none => simp [unfixedComposite, next] at hst'
    | some st => exact (ih st rfl).loop hst'
  · intro b st ih _ st' hst'
    obtain ⟨st, rfl, rfl⟩ := Option.map_eq_some_iff.mp hst'
    exact (ih st rfl).reset

end UnfixedComposite

/-- A reset in any state leaves nothing of the calls before it; the three conditions say in
which states `AllShortest::BFSCheck`, `AllShortest::BFSEnum` and `UnfixedComposite` are reset. -/
structure OperatorsReset (G : QuadModel) (P : PathIndexProvider) (A : RPQAutomaton)
    (Q : PriorityQueue) (fuel : Nat) (startId endId : Id) (startVar endVar : Nat)
    (checkOk : AllShortest.BFSCheck → Prop) (enumOk : AllShortest.BFSEnum → Prop)
    (compositeOk : Option UnfixedComposite → Prop) : Prop where
  check : (bfsCheck G A fuel startId endId).ResetsAfresh fun _ _ => True
  simpleEnum : (bfsSimpleEnum G A fuel startId).ResetsAfresh fun _ _ => True
  iterEnum : (bfsIterEnum G A fuel startId).ResetsAfresh fun _ _ => True
  iterEnum2 : (bfsIterEnum2 P A fuel startId).ResetsAfresh fun _ _ => True
  aStar : (aStarIterEnum G A fuel startId Q).ResetsAfresh fun _ _ => True
  depthFirst : (dfsEnum G A fuel startId).ResetsAfresh fun _ _ => True
  checkAll : (allShortestCheck G A fuel startId endId).ResetsAfresh fun _ st => checkOk st
  enumAll : (allShortestEnum G A fuel startId).ResetsAfresh fun _ st => enumOk st
  composite : (unfixedComposite G A fuel startVar endVar).ResetsAfresh fun _ st => compositeOk st

/-- In every run of calls and resets the results after a reset are those after `begin`, when
`AllShortest::BFSCheck` is never reset inside an expansion, `AllShortest::BFSEnum` never inside
an enumeration, and `UnfixedComposite` never behind its first start node. -/
theorem operatorsReset (G : QuadModel) (P : PathIndexProvider) (A : RPQAutomaton)
    (Q : PriorityQueue) (fuel : Nat) (startId endId : Id) (startVar endVar : Nat) :
    OperatorsReset G P A Q fuel startId endId startVar endVar (fun st => st.iter = none)
      (fun st => st.savedStateReached = none) (UnfixedComposite.AtFirstStart G A) where
  check := .of_eq fun _ _ _ _ => rfl
  simpleEnum := .of_eq fun _ _ _ _ => rfl
  iterEnum := .of_rel IterEnum.SameSearch (fun _ _ h => BFSIterEnum.next_sameSearch h)
    fun _ _ _ _ => .inr ⟨rfl, 0, rfl⟩
  iterEnum2 := .of_rel IterEnum.SameSearch (fun _ _ h => BFSIterEnum2.next_sameSearch h)
    fun _ _ _ _ => .inr ⟨rfl, 0, rfl⟩
  aStar := .of_eq fun _ _ _ _ => rfl
  depthFirst := .of_eq fun _ _ _ _ => rfl
  checkAll := by
    refine .of_rel AllShortest.BFSCheck.SameSearch
      (fun _ _ h => AllShortest.BFSCheck.next_sameSearch h) fun b st _ hiter => ?_
    exact .inr ⟨hiter, 0, by simp [allShortestCheck, AllShortest.BFSCheck.reset,
      AllShortest.BFSCheck.start, hiter]⟩
  enumAll := by
    refine .of_rel AllShortest.BFSEnum.SameSearch
      (fun _ _ h => AllShortest.BFSEnum.next_sameSearch h) fun b st _ hsaved => ?_
    exact .inr ⟨rfl, 0, by simp [allShortestEnum, AllShortest.BFSEnum.reset,
      AllShortest.BFSEnum.start, hsaved]⟩
  composite := UnfixedComposite.resetsAfresh G A fuel startVar endVar

/-- The automaton of `:b+`, for the type 1. -/
def plusAutomaton : RPQAutomaton where
  totalStates := 2
  finalState := 1
  rows := 2
  fromTo := fun i => if i = 0 then [⟨0, 1, "b", false, 1⟩] else if i = 1 then [⟨1, 1, "b", false, 1⟩]
    else []

/-- Two calls, a reset and two calls more. -/
def calledTwice {E S R : Type} (O : Operator E S R) (e : E) : S :=
  (O.next (O.next (O.reset e (O.next (O.next (O.start e)).2).2)).2).2

theorem results_calledTwice {E S R : Type} {O : Operator E S R} {Ok : E → S → Prop}
    (h : O.ResetsAfresh Ok) {e : E} (hfirst : Ok e (O.next (O.next (O.start e)).2).2)
    (hsecond : Ok e (calledTwice O e)) (n : Nat) :
    O.results n (O.reset e (calledTwice O e)) = O.results n (O.start e) :=
  h _ (.next (.next (.reset (.next (.next (.start e))) hfirst))) e hsecond n

/-- The three operators with conditions are reset twice, behind calls that leave no expansion and no
enumeration open. -/
theorem operatorsReset_twice :
    let check := allShortestCheck loopAndEdge plusAutomaton 9 (.objectId 0) (.objectId 0)
    let enum := allShortestEnum loopAndEdge plusAutomaton 9 (.objectId 0)
    let composite := unfixedComposite loopAndEdge plusAutomaton 9 0 1
    check.results 3 (check.reset (fun _ => 0) (calledTwice check fun _ => 0)) =
        check.results 3 (check.start fun _ => 0) ∧
      enum.results 3 (enum.reset (fun _ => 0) (calledTwice enum fun _ => 0)) =
        enum.results 3 (enum.start fun _ => 0) ∧
      composite.results 3 (composite.reset (fun _ => 0) (calledTwice composite fun _ => 0)) =
        composite.results 3 (composite.start fun _ => 0) := by
  have h := operatorsReset loopAndEdge loopAndEdge.provider plusAutomaton
    ⟨List PriorityIterState, [], List.head?, List.cons, List.tail, fun f l => l.modifyHead f⟩
    9 (.objectId 0) (.objectId 0) 0 1
  refine ⟨results_calledTwice h.checkAll (by decide) (by decide) 3,
    results_calledTwice h.enumAll (by decide) (by decide) 3,
    results_calledTwice h.composite ⟨_, rfl, ?_⟩ ⟨_, rfl, ?_⟩ 3⟩
  · decide
  · decide

/-- From node 0 to node 1 of `loopAndEdge`: after the path and the end of the results the
iterator over the edges of node 1 is kept, and the search that is reset skips the start. -/
theorem not_operatorsReset : ¬ ∀ G P A Q fuel startId endId startVar endVar,
    OperatorsReset G P A Q fuel startId endId startVar endVar (fun _ => True) (fun _ => True)
      fun _ => True := by
  intro h
  have hreset := (h loopAndEdge loopAndEdge.provider plusAutomaton
    ⟨List PriorityIterState, [], List.head?, List.cons, List.tail, fun f l => l.modifyHead f⟩
    9 (.objectId 0) (.objectId 1) 0 1).checkAll
  have hreached : (allShortestCheck loopAndEdge plusAutomaton 9 (.objectId 0) (.objectId 1)).Reached
      (fun _ _ => True) _ := .next (.next (.start fun _ => 0))
  exact absurd (hreset _ hreached (fun _ => 0) trivial 1) (by decide)

end Paths
end MillenniumDB
