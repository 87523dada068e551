import MillenniumDB.QuadModel

/-!
# The suspended searches `BFSIterEnum` and `BFSIterEnum2`

Both stop at every answer in the middle of an expansion, with an iterator over the nodes
that one transition still has to visit.  `Ahead` says what a suspended search is going to
find; one call of `next` splits that list at its first answer.
-/

namespace MillenniumDB
namespace Paths

/-- What changes during the search.  `iter` is empty between two expansions: the null pointer
of `BFSIterEnum`, an iterator at its end in `BFSIterEnum2`. -/
structure IterEnum where
  firstNext : Bool
  visited : List SearchState
  openStates : List SearchState
  iter : Option (List Nat)
  currentTransition : Nat

/-- The loop over the nodes left in an iterator: the first state that `visited.insert` adds,
and the nodes left behind it. -/
def nextChild (visited : List SearchState) (current : SearchState) (t : Transition) :
    List Nat → Option (SearchState × List Nat)
  | [] => none
  | m :: ms =>
    let next := SearchState.step current t.inverse t.typeId t.toState m
    if (findState visited next.key).isSome then nextChild visited current t ms
    else some (next, ms)

/-- `set_iter` for the first of the transitions left. -/
def rowIter (P : PathIndexProvider) (n : Nat) : List Transition → List Nat
  | [] => []
  | t :: _ => P.getIterator t.typeId t.inverse n

/-- The loop over the transitions left, from the one with index `k`. -/
def searchRow (P : PathIndexProvider) (visited : List SearchState) (current : SearchState) :
    List Transition → Nat → List Nat → Option (SearchState × Nat × List Nat)
  | [], _, _ => none
  | t :: ts, k, ms =>
    match nextChild visited current t ms with
    | some (s, ms') => some (s, k, ms')
    | none => searchRow P visited current ts (k + 1) (rowIter P current.nodeId ts)

/-- `current_state_has_next`: the state that it reaches, with the cursor that it leaves. -/
def currentStateHasNext (P : PathIndexProvider) (A : RPQAutomaton) (st : IterEnum)
    (current : SearchState) : Option (SearchState × Nat × List Nat) :=
  let row := A.fromTo current.automatonState
  match st.iter with
  | none => searchRow P st.visited current row 0 (rowIter P current.nodeId row)
  | some ms =>
    searchRow P st.visited current (row.drop st.currentTransition) st.currentTransition ms

/-- The state that was reached is visited and queued, and the cursor stays behind it. -/
def IterEnum.push (st : IterEnum) (s : SearchState) (k : Nat) (ms : List Nat) : IterEnum :=
  { st with
    visited := st.visited ++ [s]
    openStates := st.openStates ++ [s]
    iter := some ms
    currentTransition := k }

/-- The loop of `next`. -/
def iterLoop (P : PathIndexProvider) (A : RPQAutomaton) :
    Nat → IterEnum → Option SearchState × IterEnum
  | 0, st => (none, st)
  | fuel + 1, st =>
    match st.openStates with
    | [] => (none, st)
    | current :: rest =>
      match currentStateHasNext P A st current with
      | some (s, k, ms) =>
        if s.automatonState = A.finalState then (some s, st.push s k ms)
        else iterLoop P A fuel (st.push s k ms)
      | none => iterLoop P A fuel { st with iter := none, openStates := rest }

/-- `begin`, from the start node. -/
def IterEnum.start (s : Nat) : IterEnum where
  firstNext := true
  visited := [.root 0 s]
  openStates := [.root 0 s]
  iter := none
  currentTransition := 0

/-- `BFSIterEnum::next`, which marks the final state at the start node as visited. -/
def BFSIterEnum.next (G : QuadModel) (A : RPQAutomaton) (fuel : Nat) (st : IterEnum) :
    Option SearchState × IterEnum :=
  if st.firstNext then
    let st := { st with firstNext := false }
    match st.openStates with
    | [] => (none, st)
    | current :: rest =>
      if ¬ G.provider.nodeExists current.nodeId then (none, { st with openStates := rest })
      else if A.startIsFinal then
        let reached := SearchState.root A.finalState current.nodeId
        match findState st.visited reached.key with
        | some s => (some s, st)
        | none => (some reached, { st with visited := st.visited ++ [reached] })
      else iterLoop G.provider A fuel st
  else iterLoop G.provider A fuel st

/-- `BFSIterEnum2::next`, which marks nothing when the start state is final. -/
def BFSIterEnum2.next (P : PathIndexProvider) (A : RPQAutomaton) (fuel : Nat) (st : IterEnum) :
    Option SearchState × IterEnum :=
  if st.firstNext then
    let st := { st with firstNext := false }
    match st.openStates with
    | [] => (none, st)
    | current :: rest =>
      if ¬ P.nodeExists current.nodeId then (none, { st with openStates := rest })
      else if A.startIsFinal then (some current, st)
      else iterLoop P A fuel st
  else iterLoop P A fuel st

section

variable {G : QuadModel} {P : PathIndexProvider} {A : RPQAutomaton} {visited rest out : List SearchState}
  {current s : SearchState} {st : IterEnum} {t : Transition} {ts row : List Transition}
  {ms : List Nat} {xs : List (EdgeLabel × Nat × Nat)} {k : Nat}

def transitionSteps (t : Transition) (ms : List Nat) : List (EdgeLabel × Nat × Nat) :=
  ms.map fun m => ((t.typeId, t.inverse), (t.toState, m))

/-- The steps that a cursor has still to try: the nodes `ms` for the first transition and
every node for the others. -/
def pendingSteps (P : PathIndexProvider) (n : Nat) : List Transition → List Nat →
    List (EdgeLabel × Nat × Nat)
  | [], _ => []
  | t :: ts, ms =>
    transitionSteps t ms ++ ts.flatMap fun t => transitionSteps t (P.getIterator t.typeId t.inverse n)

theorem pendingSteps_rowIter (P : PathIndexProvider) (n : Nat) (ts : List Transition) :
    pendingSteps P n ts (rowIter P n ts) =
      ts.flatMap fun t => transitionSteps t (P.getIterator t.typeId t.inverse n) := by
  cases ts <;> rfl

theorem nextChild_spec
    (h : ProductSearch P A (keys visited) current (transitionSteps t ms ++ xs) rest out) :
    match nextChild visited current t ms with
    | some (s, ms') => ∃ out', out = s :: out' ∧
        ProductSearch P A (keys (visited ++ [s])) current (transitionSteps t ms' ++ xs)
          (rest ++ [s]) out'
    | none => ProductSearch P A (keys visited) current xs rest out := by
  induction ms with
  | nil => exact h
  | cons m ms ih =>
    rw [nextChild]
    split_ifs with hfound
    · exact ih ((Search.skip_iff (isSome_findState.mp hfound)).mp h)
    · obtain ⟨out', rfl, hrest⟩ := h.take_inv (mt isSome_findState.mpr hfound)
      refine ⟨out', rfl, ?_⟩
      rw [keys_concat]
      exact hrest

theorem searchRow_spec (hrow : ts = row.drop k)
    (h : ProductSearch P A (keys visited) current (pendingSteps P current.nodeId ts ms) rest out) :
    match searchRow P visited current ts k ms with
    | some (s, k', ms') => ∃ out', out = s :: out' ∧
        ProductSearch P A (keys (visited ++ [s])) current
          (pendingSteps P current.nodeId (row.drop k') ms') (rest ++ [s]) out'
    | none => ProductSearch P A (keys visited) current [] rest out := by
  induction ts generalizing k ms with
  | nil => exact h
  | cons t ts ih =>
    rw [searchRow]
    have hchild := nextChild_spec h
    cases hnext : nextChild visited current t ms with
    | some result =>
      rw [hnext] at hchild
      obtain ⟨out', rfl, hrest⟩ := hchild
      exact ⟨out', rfl, by rw [← hrow]; exact hrest⟩
    | none =>
      rw [hnext] at hchild
      have hdrop : ts = row.drop (k + 1) := by
        rw [← List.drop_drop, ← hrow, List.drop_one, List.tail_cons]
      exact ih hdrop (by rw [pendingSteps_rowIter]; exact hchild)

/-- The steps that the cursor of a suspended search leaves for its current state. -/
def IterEnum.pending (P : PathIndexProvider) (A : RPQAutomaton) (st : IterEnum)
    (current : SearchState) : List (EdgeLabel × Nat × Nat) :=
  match st.iter with
  | none => productSteps P A current.key
  | some ms =>
    pendingSteps P current.nodeId ((A.fromTo current.automatonState).drop st.currentTransition) ms

def IterEnum.Ahead (P : PathIndexProvider) (A : RPQAutomaton) (st : IterEnum)
    (out : List SearchState) : Prop :=
  match st.openStates with
  | [] => out = []
  | current :: rest => ProductSearch P A (keys st.visited) current (st.pending P A current) rest out

theorem currentStateHasNext_spec
    (h : ProductSearch P A (keys st.visited) current (st.pending P A current) rest out) :
    match currentStateHasNext P A st current with
    | some (s, k, ms) => ∃ out', out = s :: out' ∧
        ProductSearch P A (keys (st.visited ++ [s])) current
          (pendingSteps P current.nodeId ((A.fromTo current.automatonState).drop k) ms)
          (rest ++ [s]) out'
    | none => ProductSearch P A (keys st.visited) current [] rest out := by
  unfold currentStateHasNext
  unfold IterEnum.pending at h
  cases hiter : st.iter with
  | none =>
    rw [hiter] at h
    refine searchRow_spec List.drop_zero.symm ?_
    rw [pendingSteps_rowIter]
    exact h
  | some ms =>
    rw [hiter] at h
    exact searchRow_spec rfl h

/-- What a suspended search is going to answer, with fuel for every step until then. -/
def IterEnum.Returns (P : PathIndexProvider) (A : RPQAutomaton) (fuel : Nat) (st : IterEnum)
    (answers : List SearchState) : Prop :=
  st.firstNext = false ∧ ∃ out, st.Ahead P A out ∧
    2 * out.length + st.openStates.length ≤ fuel ∧
    out.filter (·.automatonState = A.finalState) = answers

theorem IterEnum.ahead_of_open_nil (hopen : st.openStates = []) : st.Ahead P A [] := by
  unfold IterEnum.Ahead
  rw [hopen]

theorem IterEnum.ahead_iff (hopen : st.openStates = current :: rest) : st.Ahead P A out ↔
    ProductSearch P A (keys st.visited) current (st.pending P A current) rest out := by
  unfold IterEnum.Ahead
  rw [hopen]

theorem ahead_push {out' : List SearchState} (hopen : st.openStates = current :: rest)
    (h : ProductSearch P A (keys (st.visited ++ [s])) current
      (pendingSteps P current.nodeId ((A.fromTo current.automatonState).drop k) ms)
      (rest ++ [s]) out') : (st.push s k ms).Ahead P A out' := by
  have hpush : (st.push s k ms).openStates = current :: (rest ++ [s]) := by
    rw [IterEnum.push, hopen, List.cons_append]
  exact (IterEnum.ahead_iff hpush).mpr h

theorem ahead_pop (h : ProductSearch P A (keys st.visited) current [] rest out) :
    IterEnum.Ahead P A { st with iter := none, openStates := rest } out := by
  unfold IterEnum.Ahead
  cases rest with
  | nil => exact h.stop_inv
  | cons current' rest' => exact h.pop_inv

theorem iterLoop_spec {fuel limit : Nat} {answers : List SearchState}
    (hfirst : st.firstNext = false) (hahead : st.Ahead P A out)
    (hfuel : 2 * out.length + st.openStates.length ≤ fuel) (hlimit : fuel ≤ limit)
    (hanswers : out.filter (·.automatonState = A.finalState) = answers) :
    (iterLoop P A fuel st).1 = answers.head? ∧
      (iterLoop P A fuel st).2.Returns P A limit answers.tail := by
  -- every round uses up an entry of the queue or finds a new one
  induction fuel generalizing st out with
  | zero =>
    obtain rfl : out = [] := List.eq_nil_of_length_eq_zero (by omega)
    subst hanswers
    exact ⟨rfl, hfirst, [], hahead, hfuel.trans hlimit, rfl⟩
  | succ fuel ih =>
    rw [iterLoop]
    cases hopen : st.openStates with
    | nil =>
      obtain rfl : out = [] := by
        unfold IterEnum.Ahead at hahead
        rwa [hopen] at hahead
      subst hanswers
      exact ⟨rfl, hfirst, [], hahead, hfuel.trans hlimit, rfl⟩
    | cons current rest =>
      have hnext := currentStateHasNext_spec ((IterEnum.ahead_iff hopen).mp hahead)
      have hlength : st.openStates.length = rest.length + 1 := by rw [hopen, List.length_cons]
      dsimp only
      cases hresult : currentStateHasNext P A st current with
      | none =>
        rw [hresult] at hnext
        have hpop : 2 * out.length + rest.length ≤ fuel := by omega
        exact ih hfirst (ahead_pop hnext) hpop (by omega) hanswers
      | some result =>
        obtain ⟨s, k, ms⟩ := result
        rw [hresult] at hnext
        obtain ⟨out', rfl, hsearch⟩ := hnext
        have hahead' := ahead_push hopen hsearch
        have hpush : (st.push s k ms).openStates.length = st.openStates.length + 1 := by
          simp [IterEnum.push]
        rw [List.length_cons] at hfuel
        by_cases hfinal : s.automatonState = A.finalState
        · rw [List.filter_cons_of_pos (by simpa using hfinal)] at hanswers
          subst hanswers
          simp only [hfinal, if_true]
          exact ⟨rfl, hfirst, out', hahead', by omega, rfl⟩
        · rw [List.filter_cons_of_neg (by simpa using hfinal)] at hanswers
          simp only [hfinal, if_false]
          exact ih hfirst hahead' (by omega) (by omega) hanswers

theorem IterEnum.Returns.yields {next : IterEnum → Option SearchState × IterEnum} {fuel : Nat}
    {answers : List SearchState} (hnext : ∀ st, st.firstNext = false → next st = iterLoop P A fuel st)
    (h : st.Returns P A fuel answers) : Yields next st answers := by
  have hspec : ∀ st answers, IterEnum.Returns P A fuel st answers →
      (next st).1 = answers.head? ∧ (next st).2.Returns P A fuel answers.tail := by
    intro st answers h
    obtain ⟨hfirst, out, hahead, hfuel, hanswers⟩ := h
    rw [hnext st hfirst]
    exact iterLoop_spec hfirst hahead hfuel le_rfl hanswers
  exact .of_relation (IterEnum.Returns P A fuel) (fun st h => hspec st [] h)
    (fun st r out h => hspec st (r :: out) h) h

theorem IterEnum.returns_nil_of_open {fuel : Nat} (hfirst : st.firstNext = false)
    (hopen : st.openStates = []) : st.Returns P A fuel [] :=
  ⟨hfirst, [], IterEnum.ahead_of_open_nil hopen, by simp [hopen], rfl⟩

end

/-- The answer for the empty walk, which is reported in the state `q`. -/
def emptyWalk (A : RPQAutomaton) (q s : Nat) : List SearchState :=
  if A.startIsFinal then [.root q s] else []

/-- The vertex that `BFSIterEnum` marks without expanding it. -/
def marked (A : RPQAutomaton) (s : Nat) : Set (Nat × Nat) :=
  {v | A.startIsFinal ∧ A.finalState ≠ 0 ∧ v = (A.finalState, s)}

def searchFuel (G : QuadModel) (A : RPQAutomaton) : Nat := 2 * (A.rows * G.nodes.length) + 1

section

variable {G : QuadModel} {P : PathIndexProvider} {A : RPQAutomaton} {s fuel : Nat}
  {out : List SearchState}

theorem run_avoids_marked (hA : A.FinalStateAlone) {w : List EdgeLabel} {v : Nat × Nat}
    (hv : v ∉ marked A s) (h : Run (ProductStep G A) (0, s) w v) :
    Run (fun u l v => ProductStep G A u l v ∧ v ∉ marked A s) (0, s) w v := by
  refine h.avoiding ?_
  rintro u u' b rfl - - hb ⟨hfinal, hzero, rfl⟩
  cases u' with
  | nil => exact hv ⟨hfinal, hzero, (Run.nil_iff.mp hb).symm⟩
  | cons l u' =>
    obtain ⟨b', ⟨⟨t, ht, -⟩, -⟩, -⟩ := Run.cons_iff.mp hb
    rw [hA.fromTo_final hfinal hzero] at ht
    exact absurd ht List.not_mem_nil

theorem mem_emptyWalk {q : Nat} {r : SearchState} :
    r ∈ emptyWalk A q s ↔ A.startIsFinal ∧ r = .root q s := by
  unfold emptyWalk
  split_ifs with h <;> simp [h]

theorem emptyWalk_nodup {q : Nat}
    (hout : ((out.filter (·.automatonState = A.finalState)).map SearchState.nodeId).Nodup)
    (hfresh : ∀ r ∈ out, r.automatonState = A.finalState → A.startIsFinal → r.nodeId ≠ s) :
    ((emptyWalk A q s ++ out.filter (·.automatonState = A.finalState)).map
      SearchState.nodeId).Nodup := by
  rw [List.map_append, List.nodup_append]
  refine ⟨?_, hout, fun m hm m' hm' => ?_⟩
  · unfold emptyWalk
    split_ifs <;> simp
  · obtain ⟨r, hr, rfl⟩ := List.mem_map.mp hm
    obtain ⟨r', hr', rfl⟩ := List.mem_map.mp hm'
    obtain ⟨hstart, rfl⟩ := mem_emptyWalk.mp hr
    simp only [List.mem_filter, decide_eq_true_eq] at hr'
    exact (hfresh r' hr'.1 hr'.2 hstart).symm

theorem returns_start {st : IterEnum} (hfirst : st.firstNext = false)
    (hopen : st.openStates = [.root 0 s]) (hiter : st.iter = none)
    (h : ProductSearch P A (keys st.visited) (.root 0 s) (productSteps P A (0, s)) [] out)
    (hfuel : 2 * out.length + 1 ≤ fuel) :
    st.Returns P A fuel (out.filter (·.automatonState = A.finalState)) := by
  refine ⟨hfirst, out, (IterEnum.ahead_iff hopen).mpr ?_, by simpa [hopen] using hfuel, rfl⟩
  unfold IterEnum.pending
  rw [hiter]
  exact h

/-- `BFSIterEnum` returns the empty walk and then what its search finds in the final state. -/
theorem BFSIterEnum.yields_next (hs : s ∈ G.nodes)
    (h : ProductSearch G.provider A (insert (0, s) (marked A s)) (.root 0 s)
      (productSteps G.provider A (0, s)) [] out) (hfuel : 2 * out.length + 1 ≤ fuel) :
    Yields (BFSIterEnum.next G A fuel) (.start s)
      (emptyWalk A A.finalState s ++ out.filter (·.automatonState = A.finalState)) := by
  have hloop : ∀ st : IterEnum, st.firstNext = false →
      BFSIterEnum.next G A fuel st = iterLoop G.provider A fuel st := by
    intro st hfirst
    simp [BFSIterEnum.next, hfirst]
  have hexists : G.provider.nodeExists s = true :=
    G.serves_provider.nodeExists_of_mem hs
  by_cases hfinal : A.startIsFinal
  · rw [emptyWalk, if_pos hfinal]
    cases hfound : findState [.root 0 s] (A.finalState, s) with
    | some r =>
      obtain ⟨hzero, rfl⟩ : A.finalState = 0 ∧ .root 0 s = r := by
        simpa [findState, SearchState.key, SearchState.automatonState, SearchState.nodeId,
          eq_comm] using hfound
      have hfirst : BFSIterEnum.next G A fuel (.start s) =
          (some (.root 0 s), { IterEnum.start s with firstNext := false }) := by
        have hfound' : findState [.root 0 s] (SearchState.root A.finalState s).key =
            some (.root 0 s) := hfound
        simp [BFSIterEnum.next, IterEnum.start, hexists, hfinal, SearchState.nodeId, hfound']
      refine .cons (by rw [hfirst, hzero]) ?_
      rw [hfirst]
      refine (returns_start rfl rfl rfl ?_ hfuel).yields hloop
      have hkeys : keys [SearchState.root 0 s] = insert (0, s) (marked A s) := by
        ext v
        simp [keysOf, marked, hfinal, hzero, SearchState.key, SearchState.automatonState,
          SearchState.nodeId, eq_comm]
      exact hkeys ▸ h
    | none =>
      have hzero : A.finalState ≠ 0 := by
        intro hzero
        simp [findState, hzero, SearchState.key, SearchState.automatonState,
          SearchState.nodeId] at hfound
      have hfirst : BFSIterEnum.next G A fuel (.start s) =
          (some (.root A.finalState s), { IterEnum.start s with
            firstNext := false, visited := [.root 0 s] ++ [.root A.finalState s] }) := by
        have hfound' : findState [.root 0 s] (SearchState.root A.finalState s).key = none := hfound
        simp [BFSIterEnum.next, IterEnum.start, hexists, hfinal, SearchState.nodeId, hfound']
      refine .cons (by rw [hfirst]) ?_
      rw [hfirst]
      refine (returns_start rfl rfl rfl ?_ hfuel).yields hloop
      have hkeys : keys ([SearchState.root 0 s] ++ [.root A.finalState s]) =
          insert (0, s) (marked A s) := by
        ext v
        simp [keysOf, marked, hfinal, hzero, SearchState.key, SearchState.automatonState,
          SearchState.nodeId, eq_comm]
      exact hkeys ▸ h
  · rw [emptyWalk, if_neg hfinal, List.nil_append]
    have hfirst : BFSIterEnum.next G A fuel (.start s) =
        BFSIterEnum.next G A fuel { IterEnum.start s with firstNext := false } := by
      simp [BFSIterEnum.next, IterEnum.start, hexists, hfinal, SearchState.nodeId]
    have hkeys : keys [SearchState.root 0 s] = insert (0, s) (marked A s) := by
      ext v
      simp [keysOf, marked, hfinal, SearchState.key, SearchState.automatonState,
        SearchState.nodeId, eq_comm]
    have hyields : Yields (BFSIterEnum.next G A fuel) { IterEnum.start s with firstNext := false }
        (out.filter (·.automatonState = A.finalState)) :=
      (returns_start rfl rfl rfl (hkeys ▸ h) hfuel).yields hloop
    intro k
    rw [← hyields k]
    cases k <;> simp only [nthNext, hfirst]

theorem BFSIterEnum.yields_nil (hs : s ∉ G.nodes) :
    Yields (BFSIterEnum.next G A fuel) (.start s) [] := by
  have hloop : ∀ st : IterEnum, st.firstNext = false →
      BFSIterEnum.next G A fuel st = iterLoop G.provider A fuel st := by
    intro st hfirst
    simp [BFSIterEnum.next, hfirst]
  have hfirst : BFSIterEnum.next G A fuel (.start s) =
      (none, { IterEnum.start s with firstNext := false, openStates := [] }) := by
    simp [BFSIterEnum.next, IterEnum.start, QuadModel.provider, SearchState.nodeId, hs]
  refine .nil_of_none (by rw [hfirst]) ?_
  rw [hfirst]
  exact (IterEnum.returns_nil_of_open rfl rfl).yields hloop

theorem answers_of_search (hA : A.FinalStateAlone) (hs : s ∈ G.nodes) (hP : P.Serves G)
    (h : ProductSearch P A (insert (0, s) (marked A s)) (.root 0 s) (productSteps P A (0, s)) [] out) :
    Answers G A s (emptyWalk A A.finalState s ++ out.filter (·.automatonState = A.finalState)) := by
  have hspec := found_spec hP h
  obtain ⟨hnodup, hnew⟩ := h.nodup SearchState.key_extend_eq
  have hfound : ∀ w m, (A.finalState, m) ≠ (0, s) → (A.finalState, m) ∉ marked A s →
      Run A.IdStep 0 w A.finalState → Run G.Step s w m →
      ∃ r ∈ out, r.key = (A.finalState, m) ∧ r.word.length ≤ w.length := by
    intro w m hm hmarked hauto hwalk
    exact exists_found hP h hm (run_avoids_marked hA hmarked (run_productStep.mpr ⟨hauto, hwalk⟩))
  have hfresh : ∀ r ∈ out, r.automatonState = A.finalState → A.startIsFinal → r.nodeId ≠ s := by
    intro r hr hfinal hstart hnode
    have hkey : r.key = (A.finalState, s) := Prod.ext hfinal hnode
    by_cases hzero : A.finalState = 0
    · exact hnew r hr (.inl (by rw [hkey, hzero]))
    · exact hnew r hr (.inr ⟨hstart, hzero, hkey⟩)
  -- a node is answered when it is the start of an accepted empty walk or ends a walk found
  have hfilter : ∀ r, r ∈ out.filter (·.automatonState = A.finalState) ↔
      r ∈ out ∧ r.automatonState = A.finalState := by simp
  have hwalk : ∀ w m, A.acceptsIds w → Run G.Step s w m →
      ∃ r ∈ emptyWalk A A.finalState s ++ out.filter (·.automatonState = A.finalState),
        r.nodeId = m ∧ r.word.length ≤ w.length := by
    intro w m haccepts hrun
    by_cases hempty : A.startIsFinal ∧ m = s
    · obtain ⟨hstart, rfl⟩ := hempty
      exact ⟨.root A.finalState m, List.mem_append_left _ (mem_emptyWalk.mpr ⟨hstart, rfl⟩), rfl,
        Nat.zero_le _⟩
    · rcases haccepts with ⟨rfl, hstart⟩ | ⟨-, hauto⟩
      · exact absurd ⟨hstart, (Run.nil_iff.mp hrun).symm⟩ hempty
      · have hm : (A.finalState, m) ≠ (0, s) := by
          intro heq
          obtain ⟨hzero, hms⟩ := Prod.mk.inj heq
          exact hempty ⟨hA.start_marked hzero, hms⟩
        have hmarked : (A.finalState, m) ∉ marked A s := by
          rintro ⟨hstart, -, heq⟩
          exact hempty ⟨hstart, (Prod.mk.inj heq).2⟩
        obtain ⟨r, hr, hkey, hle⟩ := hfound w m hm hmarked hauto hrun
        obtain ⟨hfinal, hnode⟩ := Prod.mk.inj hkey
        exact ⟨r, List.mem_append_right _ ((hfilter r).mpr ⟨hr, hfinal⟩), hnode, hle⟩
  have hshortest : ∀ r ∈ emptyWalk A A.finalState s ++ out.filter (·.automatonState = A.finalState),
      r.source = s ∧ r.Follows G.Step ∧ A.acceptsIds r.word := by
    intro r hr
    rcases List.mem_append.mp hr with hr | hr
    · obtain ⟨hstart, rfl⟩ := mem_emptyWalk.mp hr
      exact ⟨rfl, trivial, .inl ⟨rfl, hstart⟩⟩
    · obtain ⟨hr, hfinal⟩ := (hfilter r).mp hr
      obtain ⟨hsource, hfollows, hrun, hne, -⟩ := hspec r hr
      exact ⟨hsource, hfollows, .inr ⟨hne, hfinal ▸ (run_productStep.mp hrun).1⟩⟩
  have honce := emptyWalk_nodup (q := A.finalState) (filter_final_nodup hnodup) hfresh
  refine ⟨honce, fun m => ⟨fun hm => ?_, fun hm => ?_⟩, fun r hr => ?_⟩
  · obtain ⟨r, hr, rfl⟩ := List.mem_map.mp hm
    obtain ⟨hsource, hfollows, haccepts⟩ := hshortest r hr
    exact ⟨hs, r.word, haccepts, hsource ▸ hfollows.run⟩
  · obtain ⟨-, w, haccepts, hrun⟩ := hm
    obtain ⟨r, hr, rfl, -⟩ := hwalk w m haccepts hrun
    exact List.mem_map_of_mem hr
  · obtain ⟨hsource, hfollows, haccepts⟩ := hshortest r hr
    refine ⟨hsource, hfollows, haccepts, fun w hw hrun => ?_⟩
    obtain ⟨r', hr', hnode, hle⟩ := hwalk w r.nodeId hw hrun
    rwa [List.inj_on_of_nodup_map honce hr' hr hnode] at hle

/-- `BFSIterEnum` answers the query when the final state of the automaton stands alone, as
`set_final_state` leaves it. -/
theorem BFSIterEnum.yields_answers (G : QuadModel) (A : RPQAutomaton) (s fuel : Nat)
    (hA : A.InRange) (halone : A.FinalStateAlone) (hfuel : searchFuel G A ≤ fuel) :
    ∃ results, Yields (BFSIterEnum.next G A fuel) (.start s) results ∧ Answers G A s results := by
  by_cases hs : s ∈ G.nodes
  · obtain ⟨out, h, hlength⟩ := exists_search G.serves_provider hA s (insert (0, s) (marked A s))
    have hout : 2 * out.length + 1 ≤ fuel := by
      unfold searchFuel at hfuel
      omega
    exact ⟨_, BFSIterEnum.yields_next hs h hout, answers_of_search halone hs G.serves_provider h⟩
  · refine ⟨[], BFSIterEnum.yields_nil hs, by simp, fun m => ?_, by simp⟩
    simp [Answer, hs]

end

def loopAndEdge : QuadModel where
  nodes := [0, 1]
  typeFromToEdge := [(0, 0, 0, 0), (1, 0, 1, 1)]
  toTypeFromEdge := [(0, 0, 0, 0), (1, 1, 0, 1)]
  same_edges := by
    intros
    simp
    omega
  endpoints := by
    intro _ _ _ _ h
    simp at h ⊢
    omega
  nodup_forward := by decide
  nodup_backward := by decide

/-- The start state is final beside the final state 1, which is entered by types 0 and 1. -/
def finalAlone : RPQAutomaton where
  totalStates := 2
  finalState := 1
  startIsFinal := true
  rows := 2
  fromTo := fun i => if i = 0 then [⟨0, 1, "a", false, 0⟩, ⟨0, 1, "b", false, 1⟩] else []

theorem inRange_finalAlone : finalAlone.InRange where
  start_lt := by decide
  toState_lt i t ht := by
    simp only [finalAlone] at ht
    split_ifs at ht
    · simp only [List.mem_cons, List.not_mem_nil, or_false] at ht
      rcases ht with rfl | rfl <;> decide
    · exact absurd ht List.not_mem_nil

theorem finalStateAlone_finalAlone : finalAlone.FinalStateAlone where
  start_marked h := absurd h (by decide)
  final_no_step _ _ := by
    rintro _ _ ⟨t, ht, -⟩
    simp [finalAlone] at ht

theorem BFSIterEnum.yields_answers_loopAndEdge :
    ∃ results, Yields (BFSIterEnum.next loopAndEdge finalAlone 9) (.start 0) results ∧
      Answers loopAndEdge finalAlone 0 results :=
  BFSIterEnum.yields_answers loopAndEdge finalAlone 0 9 inRange_finalAlone
    finalStateAlone_finalAlone (by decide)

/-- The start state is final beside the final state 1, which is entered by type 0 and left by
type 1. -/
def finalWithLoop : RPQAutomaton where
  totalStates := 2
  finalState := 1
  startIsFinal := true
  rows := 2
  fromTo := fun i => if i = 0 then [⟨0, 1, "a", false, 0⟩] else if i = 1 then [⟨1, 1, "b", false, 1⟩]
    else []

/-- `BFSIterEnum` loses node 1, since it has marked the final state at node 0. -/
theorem BFSIterEnum.not_yields_answers :
    ¬ ∀ fuel, searchFuel loopAndEdge finalWithLoop ≤ fuel →
      ∃ results, Yields (BFSIterEnum.next loopAndEdge finalWithLoop fuel) (.start 0) results ∧
        Answers loopAndEdge finalWithLoop 0 results := by
  intro h
  obtain ⟨results, hyields, hanswers⟩ := h 9 (by decide)
  have hmem : 1 ∈ results.map SearchState.nodeId := by
    refine (hanswers.mem_iff 1).mpr ⟨by decide, [(0, false), (1, false)], .inr ⟨by simp, ?_⟩, ?_⟩
    · exact .cons (r := 1) ⟨_, List.mem_singleton_self _, rfl, rfl⟩
        (.single ⟨_, List.mem_singleton_self _, rfl, rfl⟩)
    · exact .cons (r := 0) ⟨0, by decide⟩ (.single ⟨1, by decide⟩)
  have hsecond : results[1]? = none := by
    rw [← hyields 1]
    decide
  have hfirst : results[0]? = some (.root 1 0) := by
    rw [← hyields 0]
    decide
  obtain ⟨r, hr, hnode⟩ := List.mem_map.mp hmem
  obtain ⟨i, hi, rfl⟩ := List.getElem_of_mem hr
  have hlength := List.getElem?_eq_none_iff.mp hsecond
  obtain rfl : i = 0 := by omega
  rw [List.getElem?_eq_getElem hi, Option.some_inj] at hfirst
  rw [hfirst] at hnode
  exact absurd hnode (by decide)

end Paths
end MillenniumDB
