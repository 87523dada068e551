import Mathlib.Data.List.Sort
import Mathlib.Data.Multiset.AddSub
import MillenniumDB.Lib.FallibleIterators
import MillenniumDB.PathSearches

/-!
# What `AStarIterEnum` reads

`set_iter` is called after the last transition of a row too, and then reads behind the end of the
row.  Here a call that would do that, or that would use an iterator that is not there, has no
result.  A state with transitions leaves the queue only after such a read, and so no run from a
start state with transitions comes to its end.
-/

namespace MillenniumDB
namespace Paths

/-- What the operations of a `std::priority_queue` do to the elements of the queue; which of them
is at the top is left open, since the comparison is no strict weak order. -/
structure PriorityQueue.Elements (Q : PriorityQueue) where
  elems : Q.Heap → Multiset PriorityIterState
  elems_empty : elems Q.empty = 0
  top_eq_none : ∀ {heap}, Q.top heap = none → elems heap = 0
  elems_push : ∀ x heap, elems (Q.push x heap) = x ::ₘ elems heap
  elems_top : ∀ {heap x}, Q.top heap = some x → elems heap = x ::ₘ elems (Q.pop heap)
  elems_modifyTop : ∀ {heap x} (f : PriorityIterState → PriorityIterState),
    Q.top heap = some x → elems (Q.modifyTop f heap) = f x ::ₘ elems (Q.pop heap)

namespace AStarIterEnum

section rows

variable (Q : PriorityQueue)

/-- `set_iter`, when the transition that it reads is in the row. -/
def setIterIn (P : PathIndexProvider) (A : RPQAutomaton) (heap : Q.Heap)
    (current : PriorityIterState) : Option Q.Heap :=
  let transition := if current.iter.isSome then current.transition + 1 else 0
  if transition < (A.fromTo current.state).length then some (setIter Q P A heap current) else none

/-- The loop of `current_state_has_next`. -/
def searchTopIn (P : PathIndexProvider) (A : RPQAutomaton) (visited : List SearchState) :
    Nat → Q.Heap → Option (Option SearchState × Q.Heap)
  | 0, _ => none
  | fuel + 1, heap =>
    match Q.top heap with
    | none => none
    | some current =>
      match (A.fromTo current.state)[current.transition]?, current.iter with
      | none, _ => some (none, heap)
      -- `next` of an iterator that is not there
      | some _, none => none
      | some t, some ms =>
        match nextChild visited (visitedState visited current.state current.objectId) t ms with
        | some (reached, ms) =>
          some (some reached, Q.modifyTop (fun s => { s with iter := some ms }) heap)
        | none =>
          -- the transition is still in the row, but the one behind it need not be
          match setIterIn Q P A heap current with
          | none => none
          | some heap => searchTopIn P A visited fuel heap

/-- `current_state_has_next`. -/
def currentStateHasNextIn (P : PathIndexProvider) (A : RPQAutomaton) (fuel : Nat)
    (visited : List SearchState) (heap : Q.Heap) : Option (Option SearchState × Q.Heap) :=
  match Q.top heap with
  | none => none
  | some current =>
    if current.iter.isSome then searchTopIn Q P A visited fuel heap
    else if current.transition < (A.fromTo current.state).length then
      match setIterIn Q P A heap current with
      | none => none
      | some heap => searchTopIn Q P A visited fuel heap
    else some (none, heap)

/-- The loop of `next`. -/
def loopIn (P : PathIndexProvider) (A : RPQAutomaton) (limit : Nat) :
    Nat → AStarIterEnum Q → Option (Option SearchState × AStarIterEnum Q)
  | 0, _ => none
  | fuel + 1, st =>
    match Q.top st.openStates with
    | none => some (none, st)
    | some _ =>
      match currentStateHasNextIn Q P A limit st.visited st.openStates with
      | none => none
      | some (some reached, heap) =>
        let distance := ((Q.top heap).map (·.distance)).getD 0
        let st := { st with
          visited := st.visited ++ [reached]
          openStates := Q.push ⟨reached.automatonState, reached.nodeId, distance, 0, none⟩ heap }
        if reached.automatonState = A.finalState then some (some reached, st)
        else loopIn P A limit fuel st
      | some (none, heap) => loopIn P A limit fuel { st with openStates := Q.pop heap }

/-- `AStarIterEnum::next`, when it reads no transition outside a row. -/
def nextIn (G : QuadModel) (A : RPQAutomaton) (fuel : Nat) (st : AStarIterEnum Q) :
    Option (Option SearchState × AStarIterEnum Q) :=
  if st.isFirst then
    let st := { st with isFirst := false }
    match Q.top st.openStates with
    | none => none
    | some current =>
      if ¬ G.provider.nodeExists current.objectId then some (none, st)
      else if A.startIsFinal then
        let reached := SearchState.root A.finalState current.objectId
        match findState st.visited reached.key with
        | some r => some (some r, st)
        | none => some (some reached, { st with visited := st.visited ++ [reached] })
      else loopIn Q G.provider A fuel fuel st
  else loopIn Q G.provider A fuel fuel st

end rows

variable {Q : PriorityQueue} {G : QuadModel} {P : PathIndexProvider} {A : RPQAutomaton}
  {visited : List SearchState} {heap heap' : Q.Heap} {current : PriorityIterState}
  {st st' : AStarIterEnum Q} {r : Option SearchState} {fuel limit s : Nat}

def OnRow (A : RPQAutomaton) (x : PriorityIterState) : Prop :=
  (x.iter = none ∧ x.transition = 0) ∨
    (x.iter ≠ none ∧ x.transition < (A.fromTo x.state).length)

variable {c : Q.Elements} {x : PriorityIterState}

structure Busy (c : Q.Elements) (A : RPQAutomaton) (heap : Q.Heap) : Prop where
  onRow : ∀ x ∈ c.elems heap, OnRow A x
  hasRow : ∃ x ∈ c.elems heap, A.fromTo x.state ≠ []

theorem Busy.top (hb : Busy c A heap) (htop : Q.top heap = some x) : OnRow A x := by
  apply hb.onRow
  rw [c.elems_top htop]
  exact Multiset.mem_cons_self x _

theorem Busy.replaceTop (hb : Busy c A heap) (htop : Q.top heap = some current)
    (hstate : x.state = current.state) (hx : OnRow A x)
    (helems : c.elems heap' = x ::ₘ c.elems (Q.pop heap)) : Busy c A heap' := by
  have hall := c.elems_top htop
  constructor
  · intro y hy
    rw [helems, Multiset.mem_cons] at hy
    rcases hy with rfl | hy
    · exact hx
    · apply hb.onRow
      rw [hall]
      exact Multiset.mem_cons_of_mem hy
  · obtain ⟨y, hy, hrow⟩ := hb.hasRow
    rw [hall, Multiset.mem_cons] at hy
    rw [helems]
    rcases hy with rfl | hy
    · exact ⟨x, Multiset.mem_cons_self x _, by rwa [hstate]⟩
    · exact ⟨y, Multiset.mem_cons_of_mem hy, hrow⟩

theorem Busy.setIterIn (hb : Busy c A heap) (htop : Q.top heap = some current)
    (h : setIterIn Q P A heap current = some heap') : Busy c A heap' := by
  unfold AStarIterEnum.setIterIn at h
  by_cases hlt : (if current.iter.isSome then current.transition + 1 else 0) <
      (A.fromTo current.state).length
  · rw [if_pos hlt] at h
    rw [← Option.some.inj h]
    have helems := c.elems_push { current with
      transition := if current.iter.isSome then current.transition + 1 else 0
      iter := some (rowIter P current.objectId ((A.fromTo current.state).drop
        (if current.iter.isSome then current.transition + 1 else 0))) } (Q.pop heap)
    refine hb.replaceTop htop ?_ (Or.inr ⟨?_, hlt⟩) helems
    · rfl
    · exact Option.some_ne_none _
  · rw [if_neg hlt] at h
    cases h

theorem Busy.searchTopIn (hb : Busy c A heap)
    (h : searchTopIn Q P A visited fuel heap = some (r, heap')) :
    Busy c A heap' ∧ (r = none → ∃ x, Q.top heap' = some x ∧ A.fromTo x.state = []) := by
  -- every round has an iterator on its row, and so the row only ends when it is empty
  induction fuel generalizing heap with
  | zero => cases h
  | succ fuel ih =>
    rw [AStarIterEnum.searchTopIn] at h
    cases htop : Q.top heap with
    | none => simp only [htop] at h; cases h
    | some current =>
      simp only [htop] at h
      have hon := hb.top htop
      cases hrow : (A.fromTo current.state)[current.transition]? with
      | none =>
        simp only [hrow] at h
        obtain ⟨rfl, rfl⟩ := Prod.mk.inj (Option.some.inj h)
        have hle := List.getElem?_eq_none_iff.mp hrow
        refine ⟨hb, fun _ => ⟨current, htop, ?_⟩⟩
        rcases hon with ⟨-, hzero⟩ | ⟨-, hlt⟩
        · exact List.eq_nil_of_length_eq_zero (by omega)
        · omega
      | some t =>
        obtain ⟨hlt, -⟩ := List.getElem?_eq_some_iff.mp hrow
        cases hiter : current.iter with
        | none => simp only [hrow, hiter] at h; cases h
        | some ms =>
          simp only [hrow, hiter] at h
          cases hchild : nextChild visited
              (visitedState visited current.state current.objectId) t ms with
          | some child =>
            simp only [hchild] at h
            obtain ⟨rfl, rfl⟩ := Prod.mk.inj (Option.some.inj h)
            have helems := c.elems_modifyTop (fun s => { s with iter := some child.2 }) htop
            have hon' : OnRow A { current with iter := some child.2 } :=
              Or.inr ⟨Option.some_ne_none _, hlt⟩
            refine ⟨hb.replaceTop htop ?_ hon' helems, fun hnone => ?_⟩
            · rfl
            · cases hnone
          | none =>
            simp only [hchild] at h
            cases hset : AStarIterEnum.setIterIn Q P A heap current with
            | none => simp only [hset] at h; cases h
            | some heap₁ =>
              simp only [hset] at h
              exact ih (hb.setIterIn htop hset) h

theorem Busy.currentStateHasNextIn (hb : Busy c A heap)
    (h : currentStateHasNextIn Q P A fuel visited heap = some (r, heap')) :
    Busy c A heap' ∧ (r = none → ∃ x, Q.top heap' = some x ∧ A.fromTo x.state = []) := by
  unfold AStarIterEnum.currentStateHasNextIn at h
  cases htop : Q.top heap with
  | none => simp only [htop] at h; cases h
  | some current =>
    simp only [htop] at h
    by_cases hiter : current.iter.isSome
    · rw [if_pos hiter] at h
      exact hb.searchTopIn h
    · rw [if_neg hiter] at h
      by_cases hlt : current.transition < (A.fromTo current.state).length
      · rw [if_pos hlt] at h
        cases hset : AStarIterEnum.setIterIn Q P A heap current with
        | none => simp only [hset] at h; cases h
        | some heap₁ =>
          simp only [hset] at h
          exact (hb.setIterIn htop hset).searchTopIn h
      · rw [if_neg hlt] at h
        obtain ⟨rfl, rfl⟩ := Prod.mk.inj (Option.some.inj h)
        refine ⟨hb, fun _ => ⟨current, htop, ?_⟩⟩
        rcases hb.top htop with ⟨-, hzero⟩ | ⟨hsome, -⟩
        · exact List.eq_nil_of_length_eq_zero (by omega)
        · exact absurd (Option.isSome_iff_ne_none.mpr hsome) hiter

theorem Busy.pop (hb : Busy c A heap) (htop : Q.top heap = some x) (hnil : A.fromTo x.state = []) :
    Busy c A (Q.pop heap) := by
  have hall := c.elems_top htop
  constructor
  · intro y hy
    apply hb.onRow
    rw [hall]
    exact Multiset.mem_cons_of_mem hy
  · obtain ⟨y, hy, hrow⟩ := hb.hasRow
    rw [hall, Multiset.mem_cons] at hy
    rcases hy with rfl | hy
    · exact absurd hnil hrow
    · exact ⟨y, hy, hrow⟩

theorem Busy.push (hb : Busy c A heap) (hx : OnRow A x) : Busy c A (Q.push x heap) := by
  have hall := c.elems_push x heap
  constructor
  · intro y hy
    rw [hall, Multiset.mem_cons] at hy
    rcases hy with rfl | hy
    · exact hx
    · exact hb.onRow y hy
  · obtain ⟨y, hy, hrow⟩ := hb.hasRow
    rw [hall]
    exact ⟨y, Multiset.mem_cons_of_mem hy, hrow⟩

theorem Busy.loopIn (hb : Busy c A st.openStates) (h : loopIn Q P A limit fuel st = some (r, st')) :
    r ≠ none ∧ Busy c A st'.openStates ∧ st'.isFirst = st.isFirst := by
  induction fuel generalizing st with
  | zero => cases h
  | succ fuel ih =>
    rw [AStarIterEnum.loopIn] at h
    cases htop : Q.top st.openStates with
    | none =>
      obtain ⟨y, hy, -⟩ := hb.hasRow
      rw [c.top_eq_none htop] at hy
      exact absurd hy (Multiset.notMem_zero y)
    | some current =>
      simp only [htop] at h
      cases hnext : AStarIterEnum.currentStateHasNextIn Q P A limit st.visited st.openStates with
      | none => simp only [hnext] at h; cases h
      | some found =>
        obtain ⟨reached, heap⟩ := found
        obtain ⟨hb', hnil⟩ := hb.currentStateHasNextIn hnext
        simp only [hnext] at h
        cases reached with
        | none =>
          obtain ⟨x, htop', hrow⟩ := hnil rfl
          have hpopped : Busy c A ({ st with openStates := Q.pop heap } : AStarIterEnum Q).openStates :=
            hb'.pop htop' hrow
          have hrest := ih hpopped h
          exact hrest
        | some reached =>
          have hpushed := hb'.push (x := ⟨reached.automatonState, reached.nodeId,
            ((Q.top heap).map (·.distance)).getD 0, 0, none⟩) (Or.inl ⟨rfl, rfl⟩)
          dsimp only at h
          split_ifs at h
          · obtain ⟨rfl, rfl⟩ := Prod.mk.inj (Option.some.inj h)
            exact ⟨Option.some_ne_none _, hpushed, rfl⟩
          · have hpushed' : Busy c A ({ st with
              visited := st.visited ++ [reached]
              openStates := Q.push ⟨reached.automatonState, reached.nodeId,
                ((Q.top heap).map (·.distance)).getD 0, 0, none⟩ heap } : AStarIterEnum Q).openStates :=
              hpushed
            have hrest := ih hpushed' h
            exact hrest

structure Running (c : Q.Elements) (A : RPQAutomaton) (s : Nat) (st : AStarIterEnum Q) : Prop where
  busy : Busy c A st.openStates
  first : st.isFirst → ∀ x, Q.top st.openStates = some x → x.objectId = s

theorem Running.nextIn (hr : Running c A s st) (hs : s ∈ G.nodes)
    (h : nextIn Q G A fuel st = some (r, st')) : r ≠ none ∧ Running c A s st' := by
  have hloop : ∀ {st : AStarIterEnum Q}, Busy c A st.openStates → st.isFirst = false →
      AStarIterEnum.loopIn Q G.provider A fuel fuel st = some (r, st') →
      r ≠ none ∧ Running c A s st' := by
    intro st hb hfirst h
    obtain ⟨hne, hb', hsame⟩ := hb.loopIn h
    refine ⟨hne, hb', fun htrue => ?_⟩
    rw [hsame, hfirst] at htrue
    exact absurd htrue Bool.false_ne_true
  unfold AStarIterEnum.nextIn at h
  by_cases hfirst : st.isFirst
  · rw [if_pos hfirst] at h
    dsimp only at h
    cases htop : Q.top st.openStates with
    | none => simp only [htop] at h; cases h
    | some current =>
      have hexists : G.provider.nodeExists current.objectId = true := by
        rw [hr.first hfirst current htop]
        exact G.serves_provider.nodeExists_of_mem hs
      simp only [htop, hexists, not_true_eq_false, if_false] at h
      by_cases hfinal : A.startIsFinal
      · rw [if_pos hfinal] at h
        cases hfound : findState st.visited
            (SearchState.root A.finalState current.objectId).key with
        | none =>
          simp only [hfound] at h
          obtain ⟨rfl, rfl⟩ := Prod.mk.inj (Option.some.inj h)
          exact ⟨Option.some_ne_none _, hr.busy, fun htrue => absurd htrue Bool.false_ne_true⟩
        | some r' =>
          simp only [hfound] at h
          obtain ⟨rfl, rfl⟩ := Prod.mk.inj (Option.some.inj h)
          exact ⟨Option.some_ne_none _, hr.busy, fun htrue => absurd htrue Bool.false_ne_true⟩
      · rw [if_neg hfinal] at h
        have hb : Busy c A ({ st with isFirst := false } : AStarIterEnum Q).openStates := hr.busy
        exact hloop hb rfl h
  · rw [if_neg hfirst] at h
    exact hloop hr.busy (by simpa using hfirst) h

/-- The state that `begin` queues. -/
def startState (A : RPQAutomaton) (s : Nat) : PriorityIterState := ⟨0, s, A.distanceToFinal 0, 0, none⟩

theorem elems_start (c : Q.Elements) (A : RPQAutomaton) (s : Nat) :
    c.elems (start Q A s).openStates = {startState A s} := by
  rw [← Multiset.cons_zero, ← c.elems_empty]
  exact c.elems_push _ _

/-- The state of `begin` is alone in the queue. -/
theorem start_alone (c : Q.Elements) (A : RPQAutomaton) (s : Nat) :
    Q.top (start Q A s).openStates = some (startState A s) ∧
      Q.top (Q.pop (start Q A s).openStates) = none := by
  have helems := elems_start c A s
  cases htop : Q.top (start Q A s).openStates with
  | none =>
    rw [c.top_eq_none htop] at helems
    exact absurd helems.symm (Multiset.singleton_ne_zero _)
  | some x =>
    rw [c.elems_top htop] at helems
    obtain ⟨hx, hpop⟩ := Multiset.singleton_eq_cons_iff _ |>.mp helems.symm
    rw [hx]
    refine ⟨rfl, ?_⟩
    cases hnext : Q.top (Q.pop (start Q A s).openStates) with
    | none => rfl
    | some y =>
      rw [c.elems_top hnext] at hpop
      exact absurd hpop (Multiset.cons_ne_zero)

theorem running_start (c : Q.Elements) (s : Nat) (hrow : A.fromTo 0 ≠ []) :
    Running c A s (start Q A s) := by
  have helems := elems_start c A s
  refine ⟨⟨?_, startState A s, ?_, hrow⟩, fun _ x hx => ?_⟩
  · intro x hx
    rw [helems, Multiset.mem_singleton] at hx
    rw [hx]
    exact Or.inl ⟨rfl, rfl⟩
  · rw [helems]
    exact Multiset.mem_singleton_self _
  · rw [(start_alone c A s).1] at hx
    rw [← Option.some.inj hx]
    rfl

theorem loopIn_of_no_row (c : Q.Elements) (hrow : A.fromTo 0 = []) (limit fuel : Nat)
    (hopen : st.openStates = (start Q A s).openStates) :
    ∃ st', loopIn Q P A limit (fuel + 2) st = some (none, st') := by
  obtain ⟨htop, hpop⟩ := start_alone c A s
  have hnext : currentStateHasNextIn Q P A limit st.visited st.openStates =
      some (none, st.openStates) := by
    unfold currentStateHasNextIn
    simp [hopen, htop, startState, hrow]
  rw [← hopen] at htop hpop
  simp [loopIn, htop, hnext, hpop]

/-- Some number of steps is enough for a run to its end that reads no transition outside a row and
returns the nodes that `BFSIterEnum` returns, each once and with a shortest path. -/
def EnumeratesLikeBFS (Q : PriorityQueue) (G : QuadModel) (A : RPQAutomaton) (s : Nat) : Prop :=
  ∃ fuel results, Exhausts (nextIn Q G A fuel) (start Q A s) results ∧
    (results.map SearchState.nodeId).Nodup ∧ (∀ r ∈ results, ShortestWalk G A s r) ∧
    ∀ limit, searchFuel G A ≤ limit → ∃ enumerated,
      Yields (BFSIterEnum.next G A limit) (.start s) enumerated ∧
      ∀ m, m ∈ results.map SearchState.nodeId ↔ m ∈ enumerated.map SearchState.nodeId

theorem enumeratesLikeBFS_of_not_mem (c : Q.Elements) (hs : s ∉ G.nodes) :
    EnumeratesLikeBFS Q G A s := by
  have hfirst : nextIn Q G A 0 (start Q A s) =
      some (none, { start Q A s with isFirst := false }) := by
    have hexists : G.provider.nodeExists (startState A s).objectId = false := by
      simpa [QuadModel.provider, startState] using hs
    unfold nextIn
    simp only [show (start Q A s).isFirst = true from rfl, if_true, (start_alone c A s).1, hexists]
    rfl
  exact ⟨0, [], .done hfirst, List.nodup_nil, by simp, fun limit _ =>
    ⟨[], BFSIterEnum.yields_nil hs, fun _ => Iff.rfl⟩⟩

theorem enumeratesLikeBFS_of_no_row (c : Q.Elements) (hs : s ∈ G.nodes) (hrow : A.fromTo 0 = []) :
    EnumeratesLikeBFS Q G A s := by
  have hexists : G.provider.nodeExists s = true := G.serves_provider.nodeExists_of_mem hs
  have hsteps : productSteps G.provider A (0, s) = [] := by
    simp [productSteps, hrow]
  have hsearch : ProductSearch G.provider A (insert (0, s) (marked A s)) (.root 0 s)
      (productSteps G.provider A (0, s)) [] [] := by
    rw [hsteps]
    exact .stop
  have henum : ∀ limit, searchFuel G A ≤ limit →
      Yields (BFSIterEnum.next G A limit) (.start s) (emptyWalk A A.finalState s) := by
    intro limit hlimit
    unfold searchFuel at hlimit
    have hbound : 2 * ([] : List SearchState).length + 1 ≤ limit := by
      rw [List.length_nil]
      omega
    simpa using BFSIterEnum.yields_next hs hsearch hbound
  have hopen : ∀ limit, searchFuel G A ≤ limit → ∃ enumerated,
      Yields (BFSIterEnum.next G A limit) (.start s) enumerated ∧
      ∀ m, m ∈ (emptyWalk A A.finalState s).map SearchState.nodeId ↔
        m ∈ enumerated.map SearchState.nodeId :=
    fun limit hlimit => ⟨_, henum limit hlimit, fun _ => Iff.rfl⟩
  have hnodup : ((emptyWalk A A.finalState s).map SearchState.nodeId).Nodup := by
    unfold emptyWalk
    split_ifs <;> simp
  have hshortest : ∀ r ∈ emptyWalk A A.finalState s, ShortestWalk G A s r := by
    intro r hr
    obtain ⟨hfinal, rfl⟩ := mem_emptyWalk.mp hr
    exact ⟨rfl, trivial, .inl ⟨rfl, hfinal⟩, fun _ _ _ => Nat.zero_le _⟩
  refine ⟨2, emptyWalk A A.finalState s, ?_, hnodup, hshortest, hopen⟩
  have htop := (start_alone c A s).1
  have hlater : ∀ st : AStarIterEnum Q, st.isFirst = false →
      st.openStates = (start Q A s).openStates → Exhausts (nextIn Q G A 2) st [] := by
    intro st hfirst hsame
    obtain ⟨st', hloop⟩ := loopIn_of_no_row (P := G.provider) c hrow 2 0 hsame
    have hcall : nextIn Q G A 2 st = some (none, st') := by
      rw [nextIn, if_neg (by rw [hfirst]; exact Bool.false_ne_true)]
      exact hloop
    exact .done hcall
  have hobject : (startState A s).objectId = s := rfl
  have hvisited : (start Q A s).visited = [.root 0 s] := rfl
  have hexists' : G.provider.nodeExists (startState A s).objectId = true := hexists
  by_cases hfinal : A.startIsFinal
  · rw [emptyWalk, if_pos hfinal]
    cases hfound : findState [SearchState.root 0 s] (SearchState.root A.finalState s).key with
    | none =>
      have hcall : nextIn Q G A 2 (start Q A s) = some (some (.root A.finalState s),
          { start Q A s with
            isFirst := false, visited := [.root 0 s] ++ [.root A.finalState s] }) := by
        unfold nextIn
        simp only [show (start Q A s).isFirst = true from rfl, if_true, htop, hobject, hexists, hfinal,
          not_true_eq_false, if_false, hvisited, hfound]
      exact .result hcall (hlater _ rfl rfl)
    | some r =>
      obtain ⟨hzero, rfl⟩ : A.finalState = 0 ∧ .root 0 s = r := by
        simpa [findState, SearchState.key, SearchState.automatonState, SearchState.nodeId,
          eq_comm] using hfound
      have hcall : nextIn Q G A 2 (start Q A s) =
          some (some (.root 0 s), { start Q A s with isFirst := false }) := by
        unfold nextIn
        simp only [show (start Q A s).isFirst = true from rfl, if_true, htop, hobject, hexists, hfinal,
          not_true_eq_false, if_false, hvisited, hfound]
      rw [hzero]
      exact .result hcall (hlater _ rfl rfl)
  · rw [emptyWalk, if_neg hfinal]
    obtain ⟨st', hloop⟩ := loopIn_of_no_row (P := G.provider) c hrow 2 0
      (show ({ start Q A s with isFirst := false } : AStarIterEnum Q).openStates =
        (start Q A s).openStates from rfl)
    have hcall : nextIn Q G A 2 (start Q A s) = some (none, st') := by
      unfold nextIn
      simp only [show (start Q A s).isFirst = true from rfl, if_true, htop, hexists', hfinal,
        not_true_eq_false, if_false, Bool.false_eq_true]
      exact hloop
    exact .done hcall

/-- `AStarIterEnum` is right exactly when it has nothing to search: the start node does not exist,
or no transition leaves the start state. -/
theorem enumeratesLikeBFS_iff (Q : PriorityQueue) (c : Q.Elements) (G : QuadModel) (A : RPQAutomaton)
    (s : Nat) : EnumeratesLikeBFS Q G A s ↔ s ∉ G.nodes ∨ A.fromTo 0 = [] := by
  constructor
  · intro ⟨fuel, results, hrun, _⟩
    by_contra hnot
    rw [not_or, not_not] at hnot
    obtain ⟨hs, hrow⟩ := hnot
    have hstep : ∀ st r st', Running c A s st → nextIn Q G A fuel st = some (r, st') →
        r ≠ none ∧ Running c A s st' := fun _ _ _ hr h => hr.nextIn hs h
    exact hrun.false_of_invariant _ hstep (running_start c s hrow)
  · intro h
    by_cases hs : s ∈ G.nodes
    · exact enumeratesLikeBFS_of_no_row c hs (h.resolve_left (not_not.mpr hs))
    · exact enumeratesLikeBFS_of_not_mem c hs

end AStarIterEnum

/-- `PriorityIterState::operator<`. -/
def PriorityIterState.lt (x y : PriorityIterState) : Bool :=
  if x.distance = y.distance then !(x.iter.isSome && y.iter.isNone)
  else decide (x.distance > y.distance)

/-- The queue as a list, where a state goes in front of the first one that is below it. -/
def listQueue : PriorityQueue where
  Heap := List PriorityIterState
  empty := []
  top := List.head?
  push x heap := heap.orderedInsert (fun x y => y.lt x) x
  pop := List.tail
  modifyTop := List.modifyHead

def listQueueElements : listQueue.Elements where
  elems := Multiset.ofList
  elems_empty := rfl
  top_eq_none := by
    intro heap htop
    rw [List.head?_eq_none_iff.mp htop]
    rfl
  elems_push x heap := Multiset.coe_eq_coe.mpr (List.perm_orderedInsert _ x heap)
  elems_top := by
    intro heap x htop
    obtain ⟨tail, rfl⟩ := List.head?_eq_some_iff.mp htop
    rfl
  elems_modifyTop := by
    intro heap x f htop
    obtain ⟨tail, rfl⟩ := List.head?_eq_some_iff.mp htop
    rfl

namespace AStarIterEnum

theorem enumeratesLikeBFS_loopAndEdge : EnumeratesLikeBFS listQueue loopAndEdge finalAlone 0 ↔
    0 ∉ loopAndEdge.nodes ∨ finalAlone.fromTo 0 = [] :=
  enumeratesLikeBFS_iff listQueue listQueueElements loopAndEdge finalAlone 0

/-- One edge to search is enough for the read behind the row. -/
theorem not_enumeratesLikeBFS : ¬ ∀ G A s, EnumeratesLikeBFS listQueue G A s := by
  intro h
  obtain ⟨fuel, results, hrun, _⟩ := h loopAndEdge finalAlone 0
  have hs : 0 ∈ loopAndEdge.nodes := by decide
  have hrow : finalAlone.fromTo 0 ≠ [] := by decide
  have hstep : ∀ st r st', Running listQueueElements finalAlone 0 st →
      nextIn listQueue loopAndEdge finalAlone fuel st = some (r, st') →
      r ≠ none ∧ Running listQueueElements finalAlone 0 st' := fun _ _ _ hr h => hr.nextIn hs h
  exact hrun.false_of_invariant _ hstep (running_start listQueueElements 0 hrow)

end AStarIterEnum
end Paths
end MillenniumDB
