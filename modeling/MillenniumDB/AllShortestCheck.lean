import MillenniumDB.AllShortestResults
import MillenniumDB.PathSearches

/-!
# All shortest paths to an end node

`AllShortest::BFSCheck` expands its queue record by record until the final state at the end node
is at the front.  Every transition to that state is recorded by then, because the queue holds the
states in the order of their distances, and so the paths that it enumerates are all the walks of
the product to it.
-/

namespace MillenniumDB
namespace Paths
namespace AllShortest

/-- What `BFSCheck` shares with `BFSEnum`. -/
def BFSCheck.search (st : BFSCheck) : BFSEnum where
  firstNext := false
  visited := st.visited
  iters := st.iters
  openStates := st.openStates
  iter := st.iter
  currentTransition := st.currentTransition
  savedStateReached := none

/-- The rounds of the loop that some states need: one for each step out of them, and one to leave
the queue. -/
def rounds (P : PathIndexProvider) (A : RPQAutomaton) (states : List SearchState) : Nat :=
  (states.map fun r => (productSteps P A r.key).length + 1).sum

section

variable {P : PathIndexProvider} {A : RPQAutomaton} {D : Nat × Nat → Nat} {h h' : Iters}
  {past future : List Event} {found done rest out : List SearchState} {current : SearchState}
  {st st' : BFSCheck} {ts row : List Transition} {ms : List Nat} {k n fuel : Nat}
  {u v : Nat × Nat} {x : EdgeLabel × Nat × Nat} {xs : List (EdgeLabel × Nat × Nat)}

/-- What `current_state_has_next` does with the first of the steps left: it is recorded when it
leads to a visited state at its distance, and it inserts a state that is new. -/
structure Records (D : Nat × Nat → Nat) (current : SearchState) (x : EdgeLabel × Nat × Nat)
    (st : BFSCheck) (inserted : Option SearchState) (st' : BFSCheck) : Prop where
  visited : st'.visited = st.visited ++ inserted.toList
  same : st'.endObjectId = st.endObjectId ∧ st'.isFirst = st.isFirst ∧
    st'.openStates = st.openStates
  reached : (x.2 ∈ keys st.visited ∧ inserted = none ∧
      st'.iters = if D x.2 = D current.key + 1 then
        addTransition st.iters x.2 ⟨current.key, x.1.2, x.1.1⟩ else st.iters) ∨
    (x.2 ∉ keys st.visited ∧ inserted = some (current.extend x) ∧
      st'.iters = Function.update st.iters x.2 ⟨[⟨current.key, x.1.2, x.1.1⟩], none⟩)

theorem checkChild_spec (hdist : ∀ s ∈ st.visited, s.distance = D s.key)
    (hcurrent : current ∈ st.visited) (t : Transition) (m : Nat) (k : Nat) (ms : List Nat) :
    Records D current ((t.typeId, t.inverse), (t.toState, m)) st
      (BFSCheck.checkChild st.visited current t st.iters m).1
      { st with
        visited := st.visited ++ (BFSCheck.checkChild st.visited current t st.iters m).1.toList
        iters := (BFSCheck.checkChild st.visited current t st.iters m).2
        iter := some ms, currentTransition := k } := by
  refine ⟨rfl, ⟨rfl, rfl, rfl⟩, ?_⟩
  unfold BFSCheck.checkChild
  cases hfind : st.visited.find? fun s =>
      s.key = SearchState.key ⟨t.toState, m, current.distance + 1⟩ with
  | none =>
    apply Or.inr
    refine ⟨?_, by simp only [hfind]; rfl, by simp only [hfind]; rfl⟩
    intro ⟨s, hs, hkey⟩
    exact List.find?_eq_none.mp hfind s hs (decide_eq_true hkey)
  | some s =>
    have hmem := List.mem_of_find?_eq_some hfind
    have hfound := List.find?_some hfind
    have hkey : s.key = (t.toState, m) := of_decide_eq_true hfound
    apply Or.inl
    refine ⟨⟨s, hmem, hkey⟩, by simp only [hfind], ?_⟩
    simp only [hfind]
    rw [hdist s hmem, hdist current hcurrent, hkey]

theorem searchRow_records (hdist : ∀ s ∈ st.visited, s.distance = D s.key)
    (hcurrent : current ∈ st.visited) (hrow : ts = row.drop k) {hasNext : Bool}
    {inserted : Option SearchState}
    (hresult : BFSCheck.searchRow P current st ts k ms = (hasNext, inserted, st')) :
    (hasNext = false ∧ inserted = none ∧ pendingSteps P current.nodeId ts ms = [] ∧
        ∃ k' ms', row.drop k' = [] ∧ st' = { st with iter := some ms', currentTransition := k' }) ∨
      (hasNext = true ∧ ∃ x ms', st'.iter = some ms' ∧ pendingSteps P current.nodeId ts ms =
        x :: pendingSteps P current.nodeId (row.drop st'.currentTransition) ms' ∧
          Records D current x st inserted st') := by
  induction ts generalizing k ms with
  | nil =>
    rw [BFSCheck.searchRow] at hresult
    obtain ⟨rfl, rfl, rfl⟩ := by simpa only [Prod.mk.injEq] using hresult
    exact Or.inl ⟨rfl, rfl, rfl, k, ms, hrow.symm, rfl⟩
  | cons t ts ih =>
    cases ms with
    | nil =>
      rw [BFSCheck.searchRow] at hresult
      have hdrop : ts = row.drop (k + 1) := by
        rw [← List.drop_drop, ← hrow, List.drop_one, List.tail_cons]
      have hpending : pendingSteps P current.nodeId (t :: ts) [] =
          pendingSteps P current.nodeId ts (rowIter P current.nodeId ts) := by
        rw [pendingSteps_rowIter]
        rfl
      rw [hpending]
      exact ih hdrop hresult
    | cons m ms =>
      rw [BFSCheck.searchRow] at hresult
      obtain ⟨rfl, rfl, rfl⟩ := by simpa only [Prod.mk.injEq] using hresult
      refine Or.inr ⟨rfl, ((t.typeId, t.inverse), (t.toState, m)), ms, rfl, ?_,
        checkChild_spec hdist hcurrent t m k ms⟩
      rw [← hrow]
      rfl

theorem pending_none (hiter : st.iter = none) :
    st.search.pending P A current = productSteps P A current.key := by
  have hsearch : st.search.iter = none := hiter
  simp only [BFSEnum.pending, hsearch]

theorem pending_some (hiter : st.iter = some ms) : st.search.pending P A current =
    pendingSteps P current.nodeId ((A.fromTo current.automatonState).drop st.currentTransition) ms := by
  have hsearch : st.search.iter = some ms := hiter
  simp only [BFSEnum.pending, hsearch]
  rfl

theorem currentStateHasNext_records (hdist : ∀ s ∈ st.visited, s.distance = D s.key)
    (hcurrent : current ∈ st.visited) {hasNext : Bool} {inserted : Option SearchState}
    (hresult : BFSCheck.currentStateHasNext P A current st = (hasNext, inserted, st')) :
    (hasNext = false ∧ inserted = none ∧ st.search.pending P A current = [] ∧
        st'.search.pending P A current = [] ∧
        ∃ k' i', st' = { st with iter := i', currentTransition := k' }) ∨
      (hasNext = true ∧ ∃ x, st.search.pending P A current = x :: st'.search.pending P A current ∧
        Records D current x st inserted st') := by
  have hsearched : ∀ {ts k ms}, ts = (A.fromTo current.automatonState).drop k →
      BFSCheck.searchRow P current st ts k ms = (hasNext, inserted, st') →
      st.search.pending P A current = pendingSteps P current.nodeId ts ms →
      (hasNext = false ∧ inserted = none ∧ st.search.pending P A current = [] ∧
          st'.search.pending P A current = [] ∧
          ∃ k' i', st' = { st with iter := i', currentTransition := k' }) ∨
        (hasNext = true ∧ ∃ x, st.search.pending P A current = x :: st'.search.pending P A current ∧
          Records D current x st inserted st') := by
    intro ts k ms hrow hresult hpending
    rcases searchRow_records hdist hcurrent hrow hresult with
      ⟨hfalse, hnone, hnil, k', ms', hend, rfl⟩ | ⟨htrue, x, ms', hiter, hsteps, hrecords⟩
    · refine Or.inl ⟨hfalse, hnone, hpending.trans hnil, ?_, k', some ms', rfl⟩
      rw [pending_some rfl, hend]
      rfl
    · refine Or.inr ⟨htrue, x, ?_, hrecords⟩
      rw [pending_some hiter, hpending, hsteps]
  unfold BFSCheck.currentStateHasNext at hresult
  cases hiter : st.iter with
  | none =>
    rw [hiter] at hresult
    dsimp only at hresult
    by_cases hnil : A.fromTo current.automatonState = []
    · rw [if_pos hnil] at hresult
      obtain ⟨rfl, rfl, rfl⟩ := by simpa only [Prod.mk.injEq] using hresult
      have hsteps : productSteps P A current.key = [] := by
        show (A.fromTo current.automatonState).flatMap _ = []
        rw [hnil, List.flatMap_nil]
      refine Or.inl ⟨rfl, rfl, (pending_none hiter).trans hsteps, ?_, 0, none, rfl⟩
      rw [pending_none rfl, hsteps]
    · rw [if_neg hnil] at hresult
      apply hsearched List.drop_zero.symm hresult
      rw [pending_none hiter, pendingSteps_rowIter]
      rfl
  | some ms =>
    rw [hiter] at hresult
    exact hsearched rfl hresult (pending_some hiter)

/-- A search in progress, among the states `found` in all: `done` have left the queue. -/
structure Checking (P : PathIndexProvider) (A : RPQAutomaton) (D : Nat × Nat → Nat)
    (found : List SearchState) (st : BFSCheck) (done : List SearchState) (past future : List Event)
    (out : List SearchState) : Prop where
  searching : Searching P A D st.search past future out
  split : found = done ++ (st.openStates ++ out)
  events : expansions P A D found = past ++ future

theorem Checking.ahead (hc : Checking P A D found st done past future out)
    (hopen : st.openStates = current :: rest) :
    DistanceSearch P A (keys st.visited) current (st.search.pending P A current) rest out ∧
      future = tight D current.key (st.search.pending P A current) ++ expansions P A D (rest ++ out) := by
  have hahead := hc.searching.ahead
  rw [show st.search.openStates = current :: rest from hopen] at hahead
  exact hahead

theorem Checking.mem_visited (hc : Checking P A D found st done past future out)
    (hopen : st.openStates = current :: rest) : current ∈ st.visited := by
  apply hc.searching.queued
  rw [show st.search.openStates = current :: rest from hopen]
  exact List.mem_cons_self

theorem forall_mem_visited {s : SearchState} (hc : Checking P A D found st done past future out)
    (hs : s ∈ st.openStates) : s ∈ st.visited := hc.searching.queued s hs

theorem Checking.exhausted (hc : Checking P A D found st done past future out)
    (hopen : st.openStates = current :: rest) (hnil : st.search.pending P A current = [])
    {k' : Nat} {i' : Option (List Nat)}
    (hnil' : (BFSCheck.search { st with iter := i', currentTransition := k' }).pending P A current =
      []) :
    Checking P A D found { st with iter := i', currentTransition := k' } done past future out := by
  obtain ⟨hsearch, hfuture⟩ := hc.ahead hopen
  refine ⟨⟨rfl, hc.searching.recorded, hc.searching.queued, hc.searching.found, ?_⟩, hc.split, hc.events⟩
  rw [show (BFSCheck.search { st with iter := i', currentTransition := k' }).openStates =
    current :: rest from hopen]
  rw [hnil, ← hnil'] at hsearch hfuture
  exact ⟨hsearch, hfuture⟩

theorem Checking.pop (hc : Checking P A D found st done past future out)
    (hopen : st.openStates = current :: rest) (hnil : st.search.pending P A current = []) :
    Checking P A D found { st with openStates := rest, iter := none } (done ++ [current]) past future
      out := by
  obtain ⟨hsearch, hfuture⟩ := hc.ahead hopen
  rw [hnil] at hsearch hfuture
  have hqueued : ∀ s ∈ rest, s ∈ st.visited := fun s hs =>
    forall_mem_visited hc (hopen ▸ List.mem_cons_of_mem current hs)
  refine ⟨⟨rfl, hc.searching.recorded, hqueued, hc.searching.found, ?_⟩, ?_, hc.events⟩
  · cases rest with
    | nil =>
      obtain rfl := hsearch.stop_inv
      exact ⟨rfl, hfuture⟩
    | cons current' rest' => exact ⟨hsearch.pop_inv, hfuture⟩
  · rw [hc.split, hopen]
    simp

/-- A record takes one step of the state at the front, and leaves the iterators up to its level
as they are. -/
theorem Checking.take (hc : Checking P A D found st done past future out)
    (hopen : st.openStates = current :: rest) {inserted : Option SearchState}
    (hpending : st.search.pending P A current = x :: st'.search.pending P A current)
    (hr : Records D current x st inserted st') :
    ∃ rest' out' past' future', rest' ++ out' = rest ++ out ∧
      st'.openStates ++ inserted.toList = current :: rest' ∧
      Checking P A D found { st' with openStates := st'.openStates ++ inserted.toList } done past'
        future' out' ∧
      (∀ u, D u ≤ D current.key → st'.iters u = st.iters u) ∧ (Idle st.iters → Idle st'.iters) := by
  obtain ⟨hsearch, hfuture⟩ := hc.ahead hopen
  have hmem := hc.mem_visited hopen
  have hcurrent : current.key ∈ keys st.visited := ⟨current, hmem, rfl⟩
  have hdist := hc.searching.recorded.distances current hmem
  rw [hpending] at hsearch hfuture
  obtain ⟨-, -, hqueue⟩ := hr.same
  rcases hr.reached with ⟨hvisited, rfl, hiters⟩ | ⟨hnew, rfl, hiters⟩
  · -- a visited state, to which the step is recorded when it is one level further
    have hvis : st'.visited = st.visited := by rw [hr.visited, Option.toList_none, List.append_nil]
    have hskip := (Search.skip_iff hvisited).mp hsearch
    refine ⟨rest, out, ?_⟩
    have hstate : st'.openStates ++ (none : Option SearchState).toList = current :: rest := by
      rw [Option.toList_none, List.append_nil, hqueue, hopen]
    have hchecking : ∀ past', Recorded D st.visited st'.iters past' →
        expansions P A D found = past' ++ (tight D current.key (st'.search.pending P A current) ++
          expansions P A D (rest ++ out)) →
        Checking P A D found { st' with openStates := st'.openStates ++ (none : Option SearchState).toList }
          done past' (tight D current.key (st'.search.pending P A current) ++
            expansions P A D (rest ++ out)) out := by
      intro past' hrecorded hevents
      refine ⟨⟨rfl, ?_, ?_, hc.searching.found, ?_⟩, ?_, hevents⟩
      · show Recorded D st'.visited st'.iters past'
        rw [hvis]
        exact hrecorded
      · show ∀ s ∈ st'.openStates ++ (none : Option SearchState).toList, s ∈ st'.visited
        rw [hstate, ← hopen, hvis]
        exact fun s hs => forall_mem_visited hc hs
      · rw [show (BFSCheck.search { st' with openStates := st'.openStates ++
          (none : Option SearchState).toList }).openStates = current :: rest from hstate]
        refine ⟨?_, rfl⟩
        show DistanceSearch P A (keys st'.visited) _ _ _ _
        rw [hvis]
        exact hskip
      · show found = done ++ ((st'.openStates ++ (none : Option SearchState).toList) ++ out)
        rw [hstate, ← hopen]
        exact hc.split
    by_cases htie : D x.2 = D current.key + 1
    · rw [if_pos htie] at hiters
      rw [tight_cons_of_eq htie] at hfuture
      refine ⟨past ++ [(current.key, x)], _, rfl, hstate, hchecking _ ?_ ?_, ?_, ?_⟩
      · rw [hiters]
        exact hc.searching.recorded.tie hcurrent hvisited htie
      · rw [hc.events, hfuture]
        simp
      · intro u hu
        rw [hiters, addTransition, Function.update_of_ne]
        rintro rfl
        omega
      · intro hidle
        rw [hiters]
        exact hidle.addTransition
    · rw [if_neg htie] at hiters
      rw [tight_cons_of_ne htie] at hfuture
      refine ⟨past, _, rfl, hstate, hchecking _ ?_ ?_, ?_, ?_⟩
      · rw [hiters]
        exact hc.searching.recorded
      · rw [hc.events, hfuture]
      · exact fun u _ => by rw [hiters]
      · exact fun hidle => by rwa [hiters]
  · obtain ⟨out', rfl, htake⟩ := hsearch.take_inv hnew
    have hD : D x.2 = D current.key + 1 := by
      have hfound := hc.searching.found (current.extend x) List.mem_cons_self
      rw [SearchState.distance_extend, SearchState.key_extend] at hfound
      omega
    rw [tight_cons_of_eq hD] at hfuture
    have hstate : st'.openStates ++ (some (current.extend x)).toList =
        current :: (rest ++ [current.extend x]) := by
      rw [hqueue, hopen]
      rfl
    refine ⟨rest ++ [current.extend x], out', past ++ [(current.key, x)],
      tight D current.key (st'.search.pending P A current) ++
        expansions P A D ((rest ++ [current.extend x]) ++ out'), by simp, hstate,
      ⟨⟨rfl, ?_, ?_, fun r hr => hc.searching.found r (List.mem_cons_of_mem _ hr), ?_⟩, ?_, ?_⟩, ?_, ?_⟩
    · show Recorded D st'.visited st'.iters _
      rw [hr.visited, hiters]
      exact hc.searching.recorded.discover hcurrent hD hnew rfl
        (hc.searching.found (current.extend x) List.mem_cons_self)
    · show ∀ s ∈ st'.openStates ++ (some (current.extend x)).toList, s ∈ st'.visited
      rw [hr.visited, hqueue]
      refine List.forall_mem_append.mpr ⟨fun s hs => ?_, fun s hs => List.mem_append_right _ hs⟩
      exact List.mem_append_left _ (forall_mem_visited hc hs)
    · rw [show (BFSCheck.search { st' with openStates := st'.openStates ++
        (some (current.extend x)).toList }).openStates = current :: (rest ++ [current.extend x]) from
          hstate]
      refine ⟨?_, rfl⟩
      show DistanceSearch P A (keys st'.visited) _ _ _ _
      rw [hr.visited]
      show DistanceSearch P A (keys (st.visited ++ [current.extend x])) _ _ _ _
      rw [keys_concat]
      exact htake
    · show found = done ++ ((st'.openStates ++ (some (current.extend x)).toList) ++ out')
      rw [hstate, hc.split, hopen]
      simp
    · rw [hc.events, hfuture]
      simp
    · intro u hu
      rw [hiters, Function.update_of_ne]
      rintro rfl
      omega
    · intro hidle
      rw [hiters]
      exact hidle.update

/-- One round: the call of `current_state_has_next`, and the queue with the state that it
inserted. -/
theorem Checking.round (hc : Checking P A D found st done past future out)
    (hopen : st.openStates = current :: rest) {hasNext : Bool} {inserted : Option SearchState}
    (hresult : BFSCheck.currentStateHasNext P A current st = (hasNext, inserted, st')) :
    ∃ rest' out' past' future', rest' ++ out' = rest ++ out ∧
      st'.openStates ++ inserted.toList = current :: rest' ∧
      Checking P A D found { st' with openStates := st'.openStates ++ inserted.toList } done past'
        future' out' ∧
      (∀ u, D u ≤ D current.key → st'.iters u = st.iters u) ∧ (Idle st.iters → Idle st'.iters) ∧
      st'.endObjectId = st.endObjectId ∧ st'.isFirst = st.isFirst ∧
      (st'.search.pending P A current).length + hasNext.toNat =
        (st.search.pending P A current).length ∧
      (hasNext = false → st'.search.pending P A current = []) := by
  have hmem := hc.mem_visited hopen
  rcases currentStateHasNext_records hc.searching.recorded.distances hmem hresult with
    ⟨rfl, rfl, hnil, hnil', k', i', rfl⟩ | ⟨rfl, x, hpending, hrecords⟩
  · have hexhausted := hc.exhausted hopen hnil hnil'
    refine ⟨rest, out, past, future, rfl, by simpa using hopen, ?_, fun _ _ => rfl, id, rfl, rfl, ?_,
      fun _ => hnil'⟩
    · simpa only [Option.toList_none, List.append_nil] using hexhausted
    · rw [hnil, hnil']
      rfl
  · obtain ⟨rest', out', past', future', hsame, hstate, hchecking, hagree, hidle⟩ :=
      hc.take hopen hpending hrecords
    refine ⟨rest', out', past', future', hsame, hstate, hchecking, hagree, hidle, hrecords.same.1,
      hrecords.same.2.1, ?_, by simp⟩
    rw [hpending]
    rfl

theorem Checking.level_le (hc : Checking P A D found st done past future out)
    (hsorted : found.Pairwise fun r r' => D r.key ≤ D r'.key)
    (hopen : st.openStates = current :: rest) {ev : Event} (hev : ev ∈ future) :
    D current.key ≤ D ev.1 ∧ D ev.2.2 = D ev.1 + 1 := by
  obtain ⟨-, hfuture⟩ := hc.ahead hopen
  rw [hc.split, hopen, List.cons_append] at hsorted
  have hlater := (List.pairwise_cons.mp (List.pairwise_append.mp hsorted).2.1).1
  rw [hfuture, List.mem_append] at hev
  rcases hev with hev | hev
  · obtain ⟨x, hx, rfl⟩ := List.mem_map.mp hev
    exact ⟨le_rfl, of_decide_eq_true (List.mem_filter.mp hx).2⟩
  · obtain ⟨r, hr, hev⟩ := List.mem_flatMap.mp hev
    obtain ⟨x, hx, rfl⟩ := List.mem_map.mp hev
    exact ⟨hlater r hr, of_decide_eq_true (List.mem_filter.mp hx).2⟩

theorem Checking.pathsTo_front (hc : Checking P A D found st done past future out)
    (hsorted : found.Pairwise fun r r' => D r.key ≤ D r'.key)
    (hopen : st.openStates = current :: rest) :
    pathsTo st.iters (D current.key) current.key =
      pathsTo (record (expansions P A D found)) (D current.key) current.key := by
  have hlevels := fun ev (hev : ev ∈ future) => hc.level_le hsorted hopen hev
  have hrecord : pathsTo st.iters (D current.key) current.key =
      pathsTo (record past) (D current.key) current.key :=
    pathsTo_congr (fun v => hc.searching.recorded.transitions v) _ _
  rw [hrecord]
  apply pathsTo_of_entries (m := D current.key) ?_ ?_ rfl le_rfl
  · intro v hv
    have hnone : entries future v = [] := by
      rw [List.eq_nil_iff_forall_not_mem]
      intro e he
      obtain ⟨hle, hnext⟩ := hlevels _ (mem_entries.mp he)
      dsimp only at hle hnext
      omega
    rw [hc.events, entries_append, hnone, List.append_nil]
  · rw [hc.events]
    intro ev hev
    rcases List.mem_append.mp hev with hev | hev
    · exact (hc.searching.recorded.sources ev hev).2
    · exact (hlevels ev hev).2.symm

theorem pathsTo_agree {live : Set (Nat × Nat)} (hl : Layered D h live) (hu : u ∈ live) (hD : D u = n)
    (hagree : ∀ v, D v ≤ n → h' v = h v) : pathsTo h' n u = pathsTo h n u := by
  induction n generalizing u with
  | zero => rfl
  | succ n ih =>
    rw [pathsTo, pathsTo, hagree u (by omega)]
    refine List.flatMap_congr fun e he => ?_
    obtain ⟨hlive, hlevel⟩ := hl.previous u hu e he
    rw [ih hlive (by omega) fun v hv => hagree v (by omega)]

theorem Positioned.agree {p : ProductPath} {paths : List ProductPath} {live : Set (Nat × Nat)}
    (hl : Layered D h live) (hu : u ∈ live) (hD : D u = n) (hagree : ∀ v, D v ≤ n → h' v = h v)
    (hp : Positioned D h n u p paths) : Positioned D h' n u p paths := by
  induction n generalizing u p paths with
  | zero =>
    obtain ⟨hnil, hrest, hcurrent⟩ := hp
    exact ⟨hnil, hrest, by rw [hagree u (by omega), hcurrent]⟩
  | succ n ih =>
    obtain ⟨i, e, p', paths', hcurrent, he, hprevious, hreset, hpath, hrest⟩ := hp
    obtain ⟨hlive, hlevel⟩ := hl.previous u hu e (List.mem_of_getElem? he)
    refine ⟨i, e, p', paths', ?_, ?_, ?_, ?_, hpath, ?_⟩
    · rw [hagree u (by omega), hcurrent]
    · rw [hagree u (by omega), he]
    · exact ih hlive (by omega) (fun v hv => hagree v (by omega)) hprevious
    · exact fun v hv hne => by rw [hagree v (by omega), hreset v hv hne]
    · rw [hrest, hagree u (by omega)]
      congr 1
      refine List.flatMap_congr fun e he => ?_
      obtain ⟨hlive, hlevel⟩ := hl.previous u hu e (List.mem_of_mem_drop he)
      rw [pathsTo_agree hl hlive (by omega) fun v hv => hagree v (by omega)]

/-- The paths that the next calls of `PathIter::next` find: all of them when no cursor is set, and
none for the start. -/
def Upcoming (D : Nat × Nat → Nat) (h : Iters) (n : Nat) (v : Nat × Nat)
    (paths : List ProductPath) : Prop :=
  ((h v).current = none ∧ Reset D h n ∧ paths = if n = 0 then [] else pathsTo h n v) ∨
    ∃ p, Positioned D h n v p paths

theorem Upcoming.agree {paths : List ProductPath} {live : Set (Nat × Nat)} (hl : Layered D h live)
    (hu : u ∈ live) (hD : D u = n) (hagree : ∀ v, D v ≤ n → h' v = h v)
    (hup : Upcoming D h n u paths) : Upcoming D h' n u paths := by
  rcases hup with ⟨hcurrent, hreset, rfl⟩ | ⟨p, hp⟩
  · refine Or.inl ⟨by rw [hagree u (by omega), hcurrent], fun v hv => ?_, ?_⟩
    · rw [hagree v (by omega), hreset v hv]
    · rw [pathsTo_agree hl hu hD hagree]
  · exact Or.inr ⟨p, hp.agree hl hu hD hagree⟩

/-- One call of `PathIter::next`. -/
theorem Upcoming.next {paths : List ProductPath} {live : Set (Nat × Nat)} (hl : Layered D h live)
    (hu : u ∈ live) (hD : D u = n) (hfuel : n < fuel) (hup : Upcoming D h n u paths) :
    match paths with
    | [] => (pathNext fuel h u).1 = false
    | p :: paths => (pathNext fuel h u).1 = true ∧ Positioned D (pathNext fuel h u).2 n u p paths := by
  have hspec := pathNext_spec hl hu hD hfuel
  rcases hup with ⟨hcurrent, hreset, hpaths⟩ | ⟨p, hp⟩
  · obtain ⟨hmoved, p, rest, hall, hpositioned⟩ := hspec.start hcurrent hreset
    cases paths with
    | nil =>
      have hzero : n = 0 := by
        by_contra hne
        rw [if_neg hne, hall] at hpaths
        cases hpaths
      simpa using mt hmoved.mp (not_not.mpr hzero)
    | cons q paths =>
      have hne : n ≠ 0 := by
        rintro rfl
        cases hpaths
      rw [if_neg hne, hall] at hpaths
      obtain ⟨rfl, rfl⟩ := List.cons.inj hpaths
      exact ⟨hmoved.mpr hne, hpositioned⟩
  · cases paths with
    | nil => exact (hspec.finish p hp).1
    | cons q paths => exact hspec.move p q paths hp

def checkPaths (P : PathIndexProvider) (A : RPQAutomaton) (D : Nat × Nat → Nat)
    (found : List SearchState) (v : Nat × Nat) : List ProductPath :=
  if v ∈ found.map SearchState.key ∧ D v ≠ 0 then pathsTo (record (expansions P A D found)) (D v) v
  else []

/-- The paths that are still to be returned after a first one: none once the queue is cleared. -/
def BFSCheck.Enumerates (P : PathIndexProvider) (A : RPQAutomaton) (D : Nat × Nat → Nat)
    (found : List SearchState) (st : BFSCheck) (paths : List ProductPath) : Prop :=
  st.isFirst = false ∧ ((st.openStates = [] ∧ paths = []) ∨
    ∃ current rest done past future out p, st.openStates = current :: rest ∧
      current.automatonState = A.finalState ∧ current.nodeId = st.endObjectId ∧
      Checking P A D found st done past future out ∧
      Positioned D st.iters (D current.key) current.key p paths)

theorem loop_cleared (P : PathIndexProvider) (A : RPQAutomaton) (fuel : Nat)
    (hopen : st.openStates = []) : BFSCheck.loop P A fuel st = (none, st) := by
  cases fuel with
  | zero => rfl
  | succ fuel => rw [BFSCheck.loop, hopen]

theorem Checking.cursors (hc : Checking P A D found st done past future out)
    (ht : ∀ u, (h' u).transitions = (st.iters u).transitions) :
    Checking P A D found { st with iters := h' } done past future out :=
  ⟨hc.searching.cursors ht, hc.split, hc.events⟩

section loop

variable {paths : List ProductPath} {p : ProductPath}

theorem loop_enumerate (hc : Checking P A D found st done past future out)
    (hopen : st.openStates = current :: rest) (hfinal : current.automatonState = A.finalState)
    (hend : current.nodeId = st.endObjectId) (hfirst : st.isFirst = false)
    (hup : Upcoming D st.iters (D current.key) current.key paths) :
    (BFSCheck.loop P A (fuel + 1) st).1 = paths.head?.map walkOf ∧
      BFSCheck.Enumerates P A D found (BFSCheck.loop P A (fuel + 1) st).2 paths.tail := by
  obtain ⟨hasNext, inserted, st', hresult⟩ : ∃ hasNext inserted st',
      BFSCheck.currentStateHasNext P A current st = (hasNext, inserted, st') := ⟨_, _, _, rfl⟩
  obtain ⟨rest', out', past', future', -, hstate, hc', hagree, -, hsame, hsameFirst, -, -⟩ :=
    hc.round hopen hresult
  have hmem := hc.mem_visited hopen
  have hmem' := hc'.mem_visited hstate
  have hdist : current.distance = D current.key := hc'.searching.recorded.distances current hmem'
  have hlive : current.key ∈ keys st'.visited := ⟨current, hmem', rfl⟩
  have hlayered : Layered D st'.iters (keys st'.visited) := hc'.searching.recorded.layered
  have hup' := hup.agree hc.searching.recorded.layered ⟨current, hmem, rfl⟩ rfl hagree
  have hfuel : D current.key < current.distance + 1 := by omega
  have hnext := hup'.next hlayered hlive rfl hfuel
  have hspec := pathNext_spec hlayered hlive rfl hfuel
  rw [BFSCheck.loop, hopen]
  dsimp only
  rw [hresult]
  dsimp only
  rw [if_pos ⟨hfinal, hend.trans hsame.symm⟩]
  cases paths with
  | nil =>
    rw [if_neg (by simp [hnext])]
    exact ⟨rfl, hsameFirst.trans hfirst, Or.inl ⟨rfl, rfl⟩⟩
  | cons p paths =>
    obtain ⟨hmoved, hpositioned⟩ := hnext
    rw [if_pos hmoved]
    have hpath := getPath_eq (hlayered.congr hspec.untouched.transitions) hlive rfl hfuel hpositioned
    refine ⟨by rw [hpath]; rfl, hsameFirst.trans hfirst, Or.inr ?_⟩
    exact ⟨current, rest', done, past', future', out', p, hstate, hfinal, hend.trans hsame.symm,
      hc'.cursors hspec.untouched.transitions, hpositioned⟩

theorem checkPaths_cleared (hc : Checking P A D found st done past future out)
    (hopen : st.openStates = []) (hv : v ∉ done.map SearchState.key) :
    checkPaths P A D found v = [] := by
  have hahead := hc.searching.ahead
  rw [show st.search.openStates = [] from hopen] at hahead
  obtain ⟨rfl, -⟩ := hahead
  rw [checkPaths, if_neg]
  rintro ⟨hmem, -⟩
  rw [hc.split, hopen, List.nil_append, List.append_nil] at hmem
  exact hv hmem

theorem upcoming_front (hc : Checking P A D found st done past future out)
    (hsorted : found.Pairwise fun r r' => D r.key ≤ D r'.key) (hidle : Idle st.iters)
    (hopen : st.openStates = current :: rest) : Upcoming D st.iters (D current.key) current.key
      (checkPaths P A D found current.key) := by
  refine Or.inl ⟨hidle _, fun v _ => hidle v, ?_⟩
  have hfound : current.key ∈ found.map SearchState.key := by
    rw [hc.split, hopen]
    simp
  rw [checkPaths, hc.pathsTo_front hsorted hopen]
  by_cases hzero : D current.key = 0
  · rw [if_neg fun hmem => hmem.2 hzero, if_pos hzero]
  · rw [if_pos ⟨hfound, hzero⟩, if_neg hzero]

theorem loop_spec (hc : Checking P A D found st done past future out)
    (hsorted : found.Pairwise fun r r' => D r.key ≤ D r'.key) (hidle : Idle st.iters)
    (hfirst : st.isFirst = false) (hdone : (A.finalState, st.endObjectId) ∉ done.map SearchState.key)
    (hfuel : ∀ current rest, st.openStates = current :: rest →
      (st.search.pending P A current).length + 1 + rounds P A (rest ++ out) ≤ fuel)
    (hpaths : paths = checkPaths P A D found (A.finalState, st.endObjectId)) :
    (BFSCheck.loop P A fuel st).1 = paths.head?.map walkOf ∧
      BFSCheck.Enumerates P A D found (BFSCheck.loop P A fuel st).2 paths.tail := by
  induction fuel generalizing st done past future out with
  | zero =>
    have hopen : st.openStates = [] := by
      cases hopen : st.openStates with
      | nil => rfl
      | cons current rest => exact absurd (hfuel current rest hopen) (by omega)
    rw [hpaths, checkPaths_cleared hc hopen hdone]
    exact ⟨rfl, hfirst, Or.inl ⟨hopen, rfl⟩⟩
  | succ fuel ih =>
    cases hopen : st.openStates with
    | nil =>
      rw [loop_cleared P A _ hopen, hpaths, checkPaths_cleared hc hopen hdone]
      exact ⟨rfl, hfirst, Or.inl ⟨hopen, rfl⟩⟩
    | cons current rest =>
      by_cases htarget : current.automatonState = A.finalState ∧ current.nodeId = st.endObjectId
      · have hkey : (A.finalState, st.endObjectId) = current.key :=
          Prod.ext htarget.1.symm htarget.2.symm
        rw [hkey] at hpaths
        exact loop_enumerate hc hopen htarget.1 htarget.2 hfirst
          (hpaths ▸ upcoming_front hc hsorted hidle hopen)
      · obtain ⟨hasNext, inserted, st', hresult⟩ : ∃ hasNext inserted st',
            BFSCheck.currentStateHasNext P A current st = (hasNext, inserted, st') := ⟨_, _, _, rfl⟩
        obtain ⟨rest', out', past', future', hrest, hstate, hc', -, hidle', hsame, hsameFirst, hlength,
          hnil⟩ := hc.round hopen hresult
        have hrounds := hfuel current rest hopen
        rw [← hrest] at hrounds
        rw [BFSCheck.loop, hopen]
        dsimp only
        rw [hresult]
        dsimp only
        rw [if_neg (by rw [hsame]; exact htarget)]
        cases hasNext with
        | true =>
          rw [if_pos rfl]
          apply ih hc' (hidle' hidle) (hsameFirst.trans hfirst)
          · show (A.finalState, st'.endObjectId) ∉ _
            rw [hsame]
            exact hdone
          · intro current' rest'' hopen'
            obtain ⟨rfl, rfl⟩ := List.cons.inj (hstate.symm.trans hopen')
            rw [Bool.toNat_true] at hlength
            show (st'.search.pending P A current).length + 1 + _ ≤ fuel
            omega
          · show paths = checkPaths P A D found (A.finalState, st'.endObjectId)
            rw [hsame]
            exact hpaths
        | false =>
          rw [if_neg Bool.false_ne_true]
          have hpop := hc'.pop hstate (hnil rfl)
          rw [hstate, List.tail_cons]
          apply ih hpop (hidle' hidle) (hsameFirst.trans hfirst)
          · show (A.finalState, st'.endObjectId) ∉ _
            rw [hsame, List.map_append, List.mem_append, not_or]
            refine ⟨hdone, ?_⟩
            rw [List.map_singleton, List.mem_singleton]
            exact fun hkey => htarget ⟨(Prod.mk.inj hkey).1.symm, (Prod.mk.inj hkey).2.symm⟩
          · intro current' rest'' hopen'
            obtain rfl : rest' = current' :: rest'' := hopen'
            rw [pending_none rfl]
            rw [List.cons_append, rounds, List.map_cons, List.sum_cons] at hrounds
            rw [rounds]
            omega
          · show paths = checkPaths P A D found (A.finalState, st'.endObjectId)
            rw [hsame]
            exact hpaths

theorem BFSCheck.Enumerates.next (he : st.Enumerates P A D found paths) :
    (BFSCheck.loop P A (fuel + 1) st).1 = paths.head?.map walkOf ∧
      BFSCheck.Enumerates P A D found (BFSCheck.loop P A (fuel + 1) st).2 paths.tail := by
  obtain ⟨hfirst, ⟨hopen, rfl⟩ | ⟨current, rest, done, past, future, out, p, hopen, hfinal, hend, hc,
    hpositioned⟩⟩ := he
  · rw [loop_cleared P A _ hopen]
    exact ⟨rfl, hfirst, Or.inl ⟨hopen, rfl⟩⟩
  · exact loop_enumerate hc hopen hfinal hend hfirst (Or.inr ⟨p, hpositioned⟩)

end loop

/-- The automaton without its mark for the start state: `BFSCheck` inserts no state for it. -/
def unmarked (A : RPQAutomaton) : RPQAutomaton := { A with startIsFinal := false }

variable {G : QuadModel} {s endId m : Nat} {W : List (EdgeLabel × Nat)} {p : ProductPath}

theorem openSteps_unmarked (u : Nat × Nat) : openSteps P (unmarked A) s u = productSteps P A u :=
  openSteps_of_not_mem fun hmem => Bool.false_ne_true hmem.1

theorem openSteps_unmarked_eq : openSteps P (unmarked A) s = productSteps P A := by
  funext u
  exact openSteps_unmarked u

theorem not_mem_marked_unmarked : v ∉ marked (unmarked A) s := fun hmem => Bool.false_ne_true hmem.1

theorem BFSCheck.yields_enumerates {paths : List ProductPath}
    (he : st.Enumerates G.provider A D found paths) (hfuel : 0 < fuel) :
    Yields (BFSCheck.next G A fuel) st (paths.map walkOf) := by
  obtain ⟨fuel, rfl⟩ : ∃ n, fuel = n + 1 := ⟨fuel - 1, by omega⟩
  have hcall : ∀ {st : BFSCheck} {paths}, st.Enumerates G.provider A D found paths →
      (BFSCheck.next G A (fuel + 1) st).1 = paths.head?.map walkOf ∧
        (BFSCheck.next G A (fuel + 1) st).2.Enumerates G.provider A D found paths.tail := by
    intro st paths he
    rw [BFSCheck.next, if_neg (by rw [he.1]; exact Bool.false_ne_true)]
    exact he.next
  apply Yields.of_relation fun (st : BFSCheck) results => ∃ paths,
    st.Enumerates G.provider A D found paths ∧ results = paths.map walkOf
  · intro st ⟨paths, he, hnil⟩
    obtain rfl : paths = [] := List.map_eq_nil_iff.mp hnil.symm
    exact ⟨(hcall he).1, [], (hcall he).2, rfl⟩
  · intro st r out ⟨paths, he, hcons⟩
    obtain ⟨p, paths', rfl, rfl, rfl⟩ := List.map_eq_cons_iff.mp hcons.symm
    exact ⟨(hcall he).1, paths', (hcall he).2, rfl⟩
  · exact ⟨paths, he, rfl⟩

/-- From a node at which it does not end at once, `BFSCheck` returns the paths to the final state
at the end node. -/
theorem BFSCheck.yields_next (hs : s ∈ G.nodes) (hne : ¬ (A.startIsFinal ∧ s = endId))
    (hsearch : DistanceSearch G.provider A {(0, s)} ⟨0, s, 0⟩ (productSteps G.provider A (0, s)) [] out)
    (hl : Levels G (unmarked A) s D (⟨0, s, 0⟩ :: out))
    (hdist : ∀ r ∈ (⟨0, s, 0⟩ : SearchState) :: out, r.distance = D r.key)
    (hfuel : rounds G.provider A (⟨0, s, 0⟩ :: out) ≤ fuel) :
    Yields (BFSCheck.next G A fuel) (.start s endId)
      ((checkPaths G.provider A D (⟨0, s, 0⟩ :: out) (A.finalState, endId)).map walkOf) := by
  obtain ⟨hroot, hout⟩ := List.forall_mem_cons.mp hdist
  have hexists : G.provider.nodeExists s = true := G.serves_provider.nodeExists_of_mem hs
  have hcall : BFSCheck.next G A fuel (.start s endId) =
      BFSCheck.loop G.provider A fuel { BFSCheck.start s endId with isFirst := false } := by
    simp only [BFSCheck.next, BFSCheck.start, hexists, if_true, not_true_eq_false, if_false, hne]
  have hkeys : keys [(⟨0, s, 0⟩ : SearchState)] = {(0, s)} := by
    ext v
    simp [keysOf, SearchState.key, eq_comm]
  have hzero : D (0, s) = 0 := hroot.symm
  have hchecking : Checking G.provider A D (⟨0, s, 0⟩ :: out)
      { BFSCheck.start s endId with isFirst := false } [] []
      (expansions G.provider A D (⟨0, s, 0⟩ :: out)) out := by
    refine ⟨⟨rfl, ⟨fun _ => rfl, by simp, by simp, ?_, ?_⟩, fun _ h => h, hout, ?_⟩, rfl, rfl⟩
    · intro v hv hne
      rw [show keys (BFSCheck.search { BFSCheck.start s endId with isFirst := false }).visited =
        {(0, s)} from hkeys] at hv
      obtain rfl : v = (0, s) := hv
      exact absurd hzero hne
    · intro r hr
      rw [List.mem_singleton.mp hr]
      exact hroot
    · refine ⟨?_, rfl⟩
      show DistanceSearch G.provider A (keys [(⟨0, s, 0⟩ : SearchState)]) _ _ _ _
      rw [hkeys]
      exact hsearch
  have hpos : 0 < fuel := by
    rw [rounds, List.map_cons, List.sum_cons] at hfuel
    omega
  have hrounds : ∀ current rest, [(⟨0, s, 0⟩ : SearchState)] = current :: rest →
      ((BFSCheck.search { BFSCheck.start s endId with isFirst := false }).pending G.provider A
        current).length + 1 + rounds G.provider A (rest ++ out) ≤ fuel := by
    intro current rest hopen
    obtain ⟨rfl, rfl⟩ := List.cons.inj hopen
    exact hfuel
  obtain ⟨hfirst, hlater⟩ := loop_spec hchecking hl.sorted (fun _ => rfl) rfl (by simp) hrounds rfl
  apply Yields.of_head_tail
  · rw [hcall, List.head?_map]
    exact hfirst
  · rw [hcall, ← List.map_tail]
    exact BFSCheck.yields_enumerates hlater hpos

/-- A run of the automaton over a shortest accepted walk from `s` to the end node. -/
structure ShortestRun (G : QuadModel) (A : RPQAutomaton) (s endId : Nat) (p : ProductPath) : Prop where
  walk : 0 < multiplicity (productSteps G.provider A) (0, s) p
  final : endOf (0, s) p = (A.finalState, endId)
  shortest : ShortestWalkTo G A s endId (walkOf p)

/-- Some accepted walk leads from `s` to the end node. -/
def Connects (G : QuadModel) (A : RPQAutomaton) (s endId : Nat) : Prop :=
  s ∈ G.nodes ∧ ∃ w, A.acceptsIds w ∧ Run G.Step s w endId

/-- `BFSCheck` returns every shortest accepted walk to the end node once and nothing else, and
nothing only when no accepted walk leads there. -/
def ReturnsShortestWalksTo (G : QuadModel) (A : RPQAutomaton) (s endId : Nat) : Prop :=
  ∀ fuel, searchBound G A ≤ fuel → ∃ results,
    Yields (BFSCheck.next G A fuel) (.start s endId) results ∧ results.Nodup ∧
      (∀ W, W ∈ results ↔ ShortestWalkTo G A s endId W) ∧ (results = [] ↔ ¬ Connects G A s endId)

/-- Every shortest accepted walk to the end node can be produced in one way: it has one run of the
automaton, over one edge and one transition at each step.  And when the search begins in its end
state, which no mark makes final, there is none. -/
structure OneRunEach (G : QuadModel) (A : RPQAutomaton) (s endId : Nat) : Prop where
  single : ∀ p, ShortestRun G A s endId p → multiplicity (productSteps G.provider A) (0, s) p = 1
  run : ∀ p p', ShortestRun G A s endId p → ShortestRun G A s endId p' → walkOf p = walkOf p' → p = p'
  start : A.finalState = 0 → s = endId → ¬ A.startIsFinal → ¬ Connects G A s endId

theorem exists_shortestWalkTo_iff :
    (∃ W, ShortestWalkTo G A s endId W) ↔ Connects G A s endId := by
  constructor
  · intro ⟨W, hW⟩
    exact ⟨hW.source_mem, _, hW.accepted, hW.along.run⟩
  · intro ⟨hs, w, hw, hrun⟩
    obtain ⟨W, hW, -⟩ := exists_shortestWalkTo hs hw hrun
    exact ⟨W, hW⟩

theorem nil_iff_not_connects {results : List (List (EdgeLabel × Nat))}
    (hmem : ∀ W, W ∈ results ↔ ShortestWalkTo G A s endId W) :
    results = [] ↔ ¬ Connects G A s endId := by
  rw [← exists_shortestWalkTo_iff, List.eq_nil_iff_forall_not_mem, not_exists]
  exact forall_congr' fun W => not_congr (hmem W)

theorem rounds_le (hnodup : (found.map SearchState.key).Nodup)
    (hmem : ∀ r ∈ found, r.key ∈ vertices G A) : rounds G.provider A found ≤ searchBound G A := by
  have hsum : rounds G.provider A found =
      ∑ v ∈ (found.map SearchState.key).toFinset, ((productSteps G.provider A v).length + 1) := by
    rw [List.sum_toFinset _ hnodup, rounds, List.map_map]
    rfl
  have hsub : (found.map SearchState.key).toFinset ⊆ vertices G A := by
    intro v hv
    obtain ⟨r, hr, rfl⟩ := List.mem_map.mp (List.mem_toFinset.mp hv)
    exact hmem r hr
  have hle := Finset.sum_le_sum_of_subset (f := fun v => (productSteps G.provider A v).length + 1) hsub
  rw [← hsum, Finset.sum_add_distrib, ← Finset.card_eq_sum_ones] at hle
  have hcard := card_vertices_le G A
  unfold searchBound
  omega

theorem run_of_accepted (hne : ¬ (A.startIsFinal ∧ s = endId)) {w : List EdgeLabel}
    (hw : A.acceptsIds w) (hrun : Run G.Step s w endId) :
    Run (ProductStep G A) (0, s) w (A.finalState, endId) := by
  rcases hw with ⟨rfl, hstart⟩ | ⟨-, hauto⟩
  · exact absurd ⟨hstart, Run.nil_iff.mp hrun⟩ hne
  · exact run_productStep.mpr ⟨hauto, hrun⟩

/-- The walks of the product to the end state are as long as its level exactly when they are
shortest accepted walks. -/
theorem shortestRun_iff (hl : Levels G (unmarked A) s D found) (hs : s ∈ G.nodes)
    (hne : ¬ (A.startIsFinal ∧ s = endId)) (hroot : (0, s) ≠ (A.finalState, endId))
    (hp : 0 < multiplicity (productSteps G.provider A) (0, s) p)
    (hend : endOf (0, s) p = (A.finalState, endId)) :
    ShortestRun G A s endId p ↔ p.length = D (A.finalState, endId) := by
  have hsteps : ∀ {w v}, Run (ProductStep G A) (0, s) w v →
      Run (OpenStep G (unmarked A) s) (0, s) w v := by
    intro w v hrun
    refine hrun.mono fun u l v hstep => ?_
    rw [OpenStep, openSteps_unmarked]
    exact (mem_productSteps G.serves_provider).mpr hstep
  have hsteps' : ∀ {w v}, Run (OpenStep G (unmarked A) s) (0, s) w v →
      Run (ProductStep G A) (0, s) w v := by
    intro w v hrun
    refine hrun.mono fun u l v hstep => ?_
    rw [OpenStep, openSteps_unmarked] at hstep
    exact (mem_productSteps G.serves_provider).mp hstep
  have hrun : Run (ProductStep G A) (0, s) (p.map (·.1)) (A.finalState, endId) := by
    rw [← hend]
    exact (run_of_multiplicity hp).mono fun u l v hx => (mem_productSteps G.serves_provider).mp hx
  have hwords : (walkOf p).map (·.1) = p.map (·.1) := by simp [walkOf]
  have hlength : (walkOf p).length = p.length := List.length_map _
  obtain ⟨⟨r, hr, hkey⟩, hle⟩ := hl.complete _ _ (hsteps hrun) not_mem_marked_unmarked
  obtain ⟨w, hw, hwD⟩ := hl.walk r hr
  rw [hkey] at hw hwD
  rw [List.length_map] at hle
  have hnonempty : ∀ {w}, Run (ProductStep G A) (0, s) w (A.finalState, endId) → w ≠ [] := by
    rintro w hw rfl
    exact hroot (Run.nil_iff.mp hw)
  constructor
  · intro h
    have hproduct := run_productStep.mp (hsteps' hw)
    have hshort := h.shortest.shortest w (.inr ⟨hnonempty (hsteps' hw), hproduct.1⟩) hproduct.2
    omega
  · intro hD
    have hproduct := run_productStep.mp hrun
    refine ⟨hp, hend, hs, ?_, ?_, fun w' hw' hrun' => ?_⟩
    · have halong := walksAlong_of_multiplicity (A := unmarked A) (s := s) (u := (0, s)) (p := p)
        (by rwa [openSteps_unmarked_eq])
      rwa [hend] at halong
    · rw [hwords]
      exact .inr ⟨hnonempty hrun, hproduct.1⟩
    · have hle' := (hl.complete _ _ (hsteps (run_of_accepted hne hw' hrun')) not_mem_marked_unmarked).2
      omega

theorem count_checkPaths [Decidable (ShortestRun G A s endId p)]
    (hl : Levels G (unmarked A) s D found) (hs : s ∈ G.nodes) (hne : ¬ (A.startIsFinal ∧ s = endId))
    (hroot : (0, s) ≠ (A.finalState, endId)) :
    (checkPaths G.provider A D found (A.finalState, endId)).count p =
      if ShortestRun G A s endId p then multiplicity (productSteps G.provider A) (0, s) p else 0 := by
  by_cases hk : (A.finalState, endId) ∈ keys found
  · have hlevel : D (A.finalState, endId) ≠ 0 := by
      intro hzero
      obtain ⟨r, hr, hkey⟩ := hk
      obtain ⟨w, hw, hlength⟩ := hl.walk r hr
      obtain rfl : w = [] := List.eq_nil_of_length_eq_zero (by rw [hlength, hkey, hzero])
      exact hroot ((Run.nil_iff.mp hw).trans hkey)
    have hcount := count_pathsTo hl hk rfl p
    rw [openSteps_unmarked_eq] at hcount
    rw [checkPaths, if_pos ⟨mem_keys_iff.mp hk, hlevel⟩]
    refine hcount.trans ?_
    by_cases hrun : ShortestRun G A s endId p
    · have hlength := (shortestRun_iff hl hs hne hroot hrun.walk hrun.final).mp hrun
      rw [if_pos hrun, if_pos ⟨hrun.final, hlength⟩]
    · rw [if_neg hrun]
      split_ifs with hend
      · apply Nat.eq_zero_of_not_pos
        exact fun hp => hrun ((shortestRun_iff hl hs hne hroot hp hend.1).mpr hend.2)
      · rfl
  · rw [checkPaths, if_neg fun h => hk (mem_keys_iff.mpr h.1), if_neg]
    · rfl
    · intro hrun
      have hopen : Run (OpenStep G (unmarked A) s) (0, s) (p.map (·.1)) (endOf (0, s) p) := by
        refine (run_of_multiplicity hrun.walk).mono fun u l v hx => ?_
        rw [OpenStep, openSteps_unmarked]
        exact hx
      have hfound := (hl.complete _ _ hopen not_mem_marked_unmarked).1
      rw [hrun.final] at hfound
      exact hk hfound

section checked

variable (hl : Levels G (unmarked A) s D found) (hs : s ∈ G.nodes)
  (hne : ¬ (A.startIsFinal ∧ s = endId)) (hroot : (0, s) ≠ (A.finalState, endId))

include hl hs hne hroot

theorem mem_checkPaths : p ∈ checkPaths G.provider A D found (A.finalState, endId) ↔
    ShortestRun G A s endId p := by
  classical
  rw [← List.count_pos_iff, count_checkPaths hl hs hne hroot]
  constructor
  · intro hpos
    by_contra hrun
    rw [if_neg hrun] at hpos
    exact Nat.lt_irrefl 0 hpos
  · intro hrun
    rw [if_pos hrun]
    exact hrun.walk

theorem mem_map_checkPaths :
    W ∈ (checkPaths G.provider A D found (A.finalState, endId)).map walkOf ↔
      ShortestWalkTo G A s endId W := by
  rw [List.mem_map]
  constructor
  · intro ⟨p, hp, hwalk⟩
    rw [← hwalk]
    exact ((mem_checkPaths hl hs hne hroot).mp hp).shortest
  · intro hW
    have hrun := run_productStep.mp (run_of_accepted hne hW.accepted hW.along.run)
    obtain ⟨p, rfl, hend, hpos⟩ := exists_product_walk hrun.1 hW.along
    exact ⟨p, (mem_checkPaths hl hs hne hroot).mpr ⟨hpos, hend, hW⟩, rfl⟩

theorem nodup_map_checkPaths_iff :
    ((checkPaths G.provider A D found (A.finalState, endId)).map walkOf).Nodup ↔
      (∀ p, ShortestRun G A s endId p → multiplicity (productSteps G.provider A) (0, s) p = 1) ∧
        ∀ p p', ShortestRun G A s endId p → ShortestRun G A s endId p' → walkOf p = walkOf p' →
          p = p' := by
  classical
  have hmem := fun p => mem_checkPaths (p := p) hl hs hne hroot
  constructor
  · intro hnodup
    refine ⟨fun p hp => ?_, fun p p' hp hp' heq => ?_⟩
    · have hcount := List.nodup_iff_count_le_one.mp (List.Nodup.of_map _ hnodup) p
      rw [count_checkPaths hl hs hne hroot, if_pos hp] at hcount
      have hpos := hp.walk
      omega
    · exact List.inj_on_of_nodup_map hnodup ((hmem p).mpr hp) ((hmem p').mpr hp') heq
  · intro ⟨hsingle, hrun⟩
    apply List.Nodup.map_on
    · exact fun p hp p' hp' heq => hrun p p' ((hmem p).mp hp) ((hmem p').mp hp') heq
    · rw [List.nodup_iff_count_le_one]
      intro p
      rw [count_checkPaths hl hs hne hroot]
      split_ifs with hp
      · exact (hsingle p hp).le
      · exact Nat.zero_le 1

end checked

/-- Without the start node, or with the end state at the start, the search ends at once. -/
theorem BFSCheck.yields_nil (hs : s ∉ G.nodes) :
    Yields (BFSCheck.next G A fuel) (.start s endId) [] := by
  have hexists : G.provider.nodeExists s = false := by simp [QuadModel.provider, hs]
  have hcall : BFSCheck.next G A fuel (.start s endId) =
      (none, { BFSCheck.start s endId with isFirst := false, openStates := [] }) := by
    simp only [BFSCheck.next, BFSCheck.start, hexists, if_true, Bool.false_eq_true, not_false_eq_true]
  refine .nil_of_none (by rw [hcall]) ?_
  rw [hcall]
  apply Yields.nil_of_invariant (fun st : BFSCheck => st.isFirst = false ∧ st.openStates = []) ?_
    ⟨rfl, rfl⟩
  rintro st ⟨hfirst, hopen⟩
  rw [BFSCheck.next, if_neg (by rw [hfirst]; exact Bool.false_ne_true), loop_cleared _ _ _ hopen]
  exact ⟨rfl, hfirst, hopen⟩

theorem BFSCheck.yields_empty (hs : s ∈ G.nodes) (hfinal : A.startIsFinal) :
    Yields (BFSCheck.next G A fuel) (.start s s) [[]] := by
  have hexists : G.provider.nodeExists s = true := G.serves_provider.nodeExists_of_mem hs
  have hcall : BFSCheck.next G A fuel (.start s s) =
      (some [], { BFSCheck.start s s with isFirst := false, openStates := [] }) := by
    simp [BFSCheck.next, BFSCheck.start, hexists, hfinal, getPath, walkOf]
  refine .cons (by rw [hcall]) ?_
  rw [hcall]
  apply Yields.nil_of_invariant (fun st : BFSCheck => st.isFirst = false ∧ st.openStates = []) ?_
    ⟨rfl, rfl⟩
  rintro st ⟨hfirst, hopen⟩
  rw [BFSCheck.next, if_neg (by rw [hfirst]; exact Bool.false_ne_true), loop_cleared _ _ _ hopen]
  exact ⟨rfl, hfirst, hopen⟩

theorem not_connects_of_not_mem (hs : s ∉ G.nodes) : ¬ Connects G A s endId := fun h => hs h.1

theorem shortestWalkTo_self_iff (hs : s ∈ G.nodes) (hfinal : A.startIsFinal) :
    ShortestWalkTo G A s s W ↔ W = [] := by
  constructor
  · intro hW
    have hshort := hW.shortest [] (.inl ⟨rfl, hfinal⟩) (.nil s)
    exact List.eq_nil_of_length_eq_zero (Nat.le_zero.mp hshort)
  · rintro rfl
    exact ⟨hs, rfl, .inl ⟨rfl, hfinal⟩, fun _ _ _ => Nat.zero_le _⟩

theorem exists_checkPaths (endId : Nat) (hA : A.InRange) (hs : s ∈ G.nodes)
    (hne : ¬ (A.startIsFinal ∧ s = endId)) :
    ∃ D found, Levels G (unmarked A) s D found ∧ D (0, s) = 0 ∧ ∀ fuel, searchBound G A ≤ fuel →
      Yields (BFSCheck.next G A fuel) (.start s endId)
        ((checkPaths G.provider A D found (A.finalState, endId)).map walkOf) := by
  obtain ⟨out, D, hsearch, hl, hdist, hmem⟩ := exists_levels (G := G) (A := unmarked A)
    ⟨hA.start_lt, hA.toState_lt⟩ s
  have hmarked : marked (unmarked A) s = ∅ := by
    ext v
    exact iff_of_false not_mem_marked_unmarked (Set.notMem_empty v)
  rw [hmarked, LawfulSingleton.insert_empty_eq] at hsearch
  have hvertices : ∀ r ∈ (⟨0, s, 0⟩ : SearchState) :: out, r.key ∈ vertices G A := by
    refine List.forall_mem_cons.mpr ⟨?_, hmem⟩
    simp [vertices, SearchState.key, hs, hA.start_lt]
  have hroot : D (0, s) = 0 := (hdist ⟨0, s, 0⟩ List.mem_cons_self).symm
  refine ⟨D, _, hl, hroot, fun fuel hfuel => ?_⟩
  exact BFSCheck.yields_next hs hne hsearch hl hdist ((rounds_le hl.nodup hvertices).trans hfuel)

/-- `BFSCheck` is right exactly when every shortest accepted walk to the end node can be produced
in one way, and none is missed for want of a mark at the start. -/
theorem returnsShortestWalksTo_iff (G : QuadModel) (A : RPQAutomaton) (s endId : Nat)
    (hA : A.InRange) : ReturnsShortestWalksTo G A s endId ↔ OneRunEach G A s endId := by
  by_cases hs : s ∈ G.nodes
  · by_cases hne : A.startIsFinal ∧ s = endId
    · -- the empty walk is the only shortest one
      obtain ⟨hfinal, rfl⟩ := hne
      have hnil : ∀ p, ShortestRun G A s s p → p = [] := fun p hp =>
        walkOf_eq_nil.mp ((shortestWalkTo_self_iff hs hfinal).mp hp.shortest)
      apply iff_of_true
      · intro fuel _
        have hmem : ∀ W, W ∈ [([] : List (EdgeLabel × Nat))] ↔ ShortestWalkTo G A s s W := fun W =>
          List.mem_singleton.trans (shortestWalkTo_self_iff hs hfinal).symm
        exact ⟨_, BFSCheck.yields_empty hs hfinal, List.nodup_singleton _, hmem,
          nil_iff_not_connects hmem⟩
      · refine ⟨fun p hp => ?_, fun p p' hp hp' _ => ?_, fun _ _ h => absurd hfinal h⟩
        · rw [hnil p hp]
          rfl
        · rw [hnil p hp, hnil p' hp']
    · obtain ⟨D, found, hl, hzero, hyields⟩ := exists_checkPaths endId hA hs hne
      by_cases hroot : (0, s) = (A.finalState, endId)
      · -- the end state is at the front of the queue at once, and has no path
        obtain ⟨hfinal, hend⟩ := Prod.mk.inj hroot
        have hpaths : checkPaths G.provider A D found (A.finalState, endId) = [] := by
          rw [checkPaths, if_neg fun h => h.2 (hroot ▸ hzero)]
        simp only [hpaths, List.map_nil] at hyields
        have hstart : ¬ A.startIsFinal := fun h => hne ⟨h, hend⟩
        constructor
        · intro h
          obtain ⟨results, hresults, _, _, hnone⟩ := h _ le_rfl
          obtain rfl := hresults.unique (hyields _ le_rfl)
          have hconnects := hnone.mp rfl
          have hnoRun : ∀ p, ¬ ShortestRun G A s endId p := fun p hp =>
            hconnects (exists_shortestWalkTo_iff.mp ⟨_, hp.shortest⟩)
          exact ⟨fun p hp => absurd hp (hnoRun p), fun p _ hp => absurd hp (hnoRun p),
            fun _ _ _ => hconnects⟩
        · intro h fuel hfuel
          have hconnects := h.start hfinal.symm hend hstart
          have hmem : ∀ W, W ∈ ([] : List (List (EdgeLabel × Nat))) ↔ ShortestWalkTo G A s endId W :=
            fun W => iff_of_false List.not_mem_nil fun hW =>
              hconnects (exists_shortestWalkTo_iff.mp ⟨W, hW⟩)
          exact ⟨[], hyields fuel hfuel, .nil, hmem, nil_iff_not_connects hmem⟩
      · have hmem := fun W => mem_map_checkPaths (W := W) hl hs hne hroot
        have hnodup := nodup_map_checkPaths_iff hl hs hne hroot
        constructor
        · intro h
          obtain ⟨results, hresults, hnodupResults, _⟩ := h _ le_rfl
          obtain rfl := hresults.unique (hyields _ le_rfl)
          obtain ⟨hsingle, hrun⟩ := hnodup.mp hnodupResults
          exact ⟨hsingle, hrun, fun hfinal hend _ => absurd (Prod.ext hfinal.symm hend) hroot⟩
        · intro h fuel hfuel
          exact ⟨_, hyields fuel hfuel, hnodup.mpr ⟨h.single, h.run⟩, hmem, nil_iff_not_connects hmem⟩
  · have hnoRun : ∀ p, ¬ ShortestRun G A s endId p := fun p hp => hs hp.shortest.source_mem
    have hmem : ∀ W, W ∈ ([] : List (List (EdgeLabel × Nat))) ↔ ShortestWalkTo G A s endId W :=
      fun W => iff_of_false List.not_mem_nil fun hW => hs hW.source_mem
    apply iff_of_true
    · exact fun fuel _ => ⟨[], BFSCheck.yields_nil hs, .nil, hmem, nil_iff_not_connects hmem⟩
    · exact ⟨fun p hp => absurd hp (hnoRun p), fun p _ hp => absurd hp (hnoRun p),
        fun _ _ _ => not_connects_of_not_mem hs⟩

theorem returnsShortestWalksTo_loopAndEdge : ReturnsShortestWalksTo loopAndEdge finalAlone 0 1 ↔
    OneRunEach loopAndEdge finalAlone 0 1 :=
  returnsShortestWalksTo_iff loopAndEdge finalAlone 0 1 inRange_finalAlone

def twoEdges : QuadModel where
  nodes := [0, 1, 2]
  typeFromToEdge := [(0, 0, 1, 0), (1, 1, 2, 1)]
  toTypeFromEdge := [(1, 0, 0, 0), (2, 1, 1, 1)]
  same_edges := by
    intros
    simp
    omega
  endpoints := by
    intro _ _ _ _ h
    simp at h ⊢
    omega
  nodup_forward := by decide
  nodup_backward := by decide

/-- The automaton of `(:a/:b)|(:a/:b)`. -/
def sameTwice : RPQAutomaton where
  totalStates := 10
  finalState := 9
  startIsFinal := false
  rows := 10
  fromTo := fun i =>
    if i = 0 then [⟨0, 2, "a", false, 0⟩, ⟨0, 6, "a", false, 0⟩]
    else if i = 2 ∨ i = 6 then [⟨i, 9, "b", false, 1⟩] else []

/-- The walk to node 2 is returned for each alternative. -/
theorem not_returnsShortestWalksTo : ¬ ReturnsShortestWalksTo twoEdges sameTwice 0 2 := by
  intro h
  obtain ⟨results, hyields, hnodup, _⟩ := h (searchBound twoEdges sameTwice) le_rfl
  have hone : results[0]? = some [((0, false), 1), ((1, false), 2)] := by
    rw [← hyields 0]
    decide
  have htwo : results[1]? = some [((0, false), 1), ((1, false), 2)] := by
    rw [← hyields 1]
    decide
  obtain ⟨hlt, h1⟩ := List.getElem?_eq_some_iff.mp hone
  obtain ⟨hlt', h2⟩ := List.getElem?_eq_some_iff.mp htwo
  exact absurd ((hnodup.getElem_inj_iff).mp (h1.trans h2.symm)) (by decide)

end

end AllShortest
end Paths
end MillenniumDB
