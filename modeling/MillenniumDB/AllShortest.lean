import MillenniumDB.BfsIterEnum
import MillenniumDB.PathIter

/-!
# The search for all shortest paths

`AllShortest::BFSEnum` is a breadth-first search that also records the transitions that reach
a visited state at its own distance, and enumerates the paths of a final state each time that
one is added to it.  A step of the product that is discovered or tied is an event; the
results are a function of the list of events alone.
-/

namespace MillenniumDB
namespace Paths
namespace AllShortest

/-- `AllShortest::SearchState`, without its mutable `path_iter`. -/
structure SearchState where
  automatonState : Nat
  nodeId : Nat
  distance : Nat
  deriving DecidableEq, Repr

def SearchState.key (s : SearchState) : Nat × Nat := (s.automatonState, s.nodeId)

def SearchState.extend (s : SearchState) (x : EdgeLabel × Nat × Nat) : SearchState :=
  ⟨x.2.1, x.2.2, s.distance + 1⟩

theorem SearchState.key_extend (s : SearchState) (x : EdgeLabel × Nat × Nat) :
    (s.extend x).key = x.2 := rfl

theorem SearchState.distance_extend (s : SearchState) (x : EdgeLabel × Nat × Nat) :
    (s.extend x).distance = s.distance + 1 := rfl

structure BFSEnum where
  firstNext : Bool
  visited : List SearchState
  iters : Iters
  openStates : List SearchState
  iter : Option (List Nat)
  currentTransition : Nat
  savedStateReached : Option SearchState

/-- Why an expansion stops: a state that was not visited, or a final one that was, at its
distance. -/
inductive Reached
  | new (s : SearchState)
  | tied (s : SearchState)

def nextChild (final : Nat) (visited : List SearchState) (current : SearchState) (t : Transition) :
    Iters → List Nat → Option Reached × Iters × List Nat
  | h, [] => (none, h, [])
  | h, m :: ms =>
    let next : SearchState := ⟨t.toState, m, current.distance + 1⟩
    let e : IterTransition := ⟨current.key, t.inverse, t.typeId⟩
    match visited.find? fun s => s.key = next.key with
    | some s =>
      if s.distance = next.distance then
        let h' := addTransition h s.key e
        if next.automatonState = final then (some (.tied s), h', ms)
        else nextChild final visited current t h' ms
      else nextChild final visited current t h ms
    | none => (some (.new next), Function.update h next.key ⟨[e], none⟩, ms)

/-- The loop over the transitions left, from the one with index `k`. -/
def searchRow (P : PathIndexProvider) (final : Nat) (visited : List SearchState)
    (current : SearchState) :
    List Transition → Nat → Iters → List Nat → Option Reached × Iters × Nat × List Nat
  | [], k, h, _ => (none, h, k, [])
  | t :: ts, k, h, ms =>
    match nextChild final visited current t h ms with
    | (some r, h', ms') => (some r, h', k, ms')
    | (none, h', _) => searchRow P final visited current ts (k + 1) h' (rowIter P current.nodeId ts)

def currentStateHasNext (P : PathIndexProvider) (A : RPQAutomaton) (st : BFSEnum)
    (current : SearchState) : Option Reached × Iters × Nat × List Nat :=
  let row := A.fromTo current.automatonState
  match st.iter with
  | none => searchRow P A.finalState st.visited current row 0 st.iters (rowIter P current.nodeId row)
  | some ms =>
    searchRow P A.finalState st.visited current (row.drop st.currentTransition)
      st.currentTransition st.iters ms

/-- The code at the label `enumeration`: the next path of the saved state. -/
def enumeration (st : BFSEnum) (s : SearchState) :
    Option (Nat × List (EdgeLabel × Nat)) × BFSEnum :=
  let moved := pathNext (s.distance + 1) st.iters s.key
  if moved.1 then
    (some (s.nodeId, walkOf (getPath (s.distance + 1) moved.2 s.key)),
      { st with iters := moved.2, savedStateReached := some s })
  else (none, { st with iters := moved.2, savedStateReached := none })

/-- The loop of `next`. -/
def searchLoop (P : PathIndexProvider) (A : RPQAutomaton) :
    Nat → BFSEnum → Option (Nat × List (EdgeLabel × Nat)) × BFSEnum
  | 0, st => (none, st)
  | fuel + 1, st =>
    match st.openStates with
    | [] => (none, st)
    | current :: rest =>
      match currentStateHasNext P A st current with
      | (some (.new s), h, k, ms) =>
        let st' := { st with
          visited := st.visited ++ [s], openStates := st.openStates ++ [s]
          iters := h, iter := some ms, currentTransition := k }
        if s.automatonState = A.finalState then
          match enumeration { st' with iters := startEnumeration h s.key } s with
          | (some result, st'') => (some result, st'')
          | (none, st'') => searchLoop P A fuel st''
        else searchLoop P A fuel st'
      | (some (.tied s), h, k, ms) =>
        let st' := { st with
          iters := startEnumeration h s.key, iter := some ms, currentTransition := k }
        match enumeration st' s with
        | (some result, st'') => (some result, st'')
        | (none, st'') => searchLoop P A fuel st''
      | (none, h, _, _) =>
        searchLoop P A fuel { st with iters := h, iter := none, openStates := rest }

/-- `begin`, from the start node. -/
def BFSEnum.start (s : Nat) : BFSEnum where
  firstNext := true
  visited := [⟨0, s, 0⟩]
  iters := fun _ => {}
  openStates := [⟨0, s, 0⟩]
  iter := none
  currentTransition := 0
  savedStateReached := none

/-- The rest of `next`, from the check for a saved state on. -/
def BFSEnum.resume (P : PathIndexProvider) (A : RPQAutomaton) (fuel : Nat) (st : BFSEnum) :
    Option (Nat × List (EdgeLabel × Nat)) × BFSEnum :=
  match st.savedStateReached with
  | some s =>
    match enumeration st s with
    | (some result, st') => (some result, st')
    | (none, st') => searchLoop P A fuel st'
  | none => searchLoop P A fuel st

/-- `BFSEnum::next`: a result is an end node with a walk to it. -/
def BFSEnum.next (G : QuadModel) (A : RPQAutomaton) (fuel : Nat) (st : BFSEnum) :
    Option (Nat × List (EdgeLabel × Nat)) × BFSEnum :=
  if st.firstNext then
    let st := { st with firstNext := false }
    match st.openStates with
    | [] => (none, st)
    | current :: rest =>
      if ¬ G.provider.nodeExists current.nodeId then (none, { st with openStates := rest })
      else if A.startIsFinal then
        let newState : SearchState := ⟨A.finalState, current.nodeId, 0⟩
        match st.visited.find? fun s => s.key = newState.key with
        | some s => (some (current.nodeId, walkOf (getPath (s.distance + 1) st.iters s.key)), st)
        | none => (some (current.nodeId, walkOf (getPath 1 st.iters newState.key)),
            { st with visited := st.visited ++ [newState] })
      else st.resume G.provider A fuel
  else st.resume G.provider A fuel

/-- A step of the product that is recorded: the vertex it leaves, its label and the vertex it
enters. -/
abbrev Event := (Nat × Nat) × EdgeLabel × Nat × Nat

def entries (past : List Event) (v : Nat × Nat) : List IterTransition :=
  past.filterMap fun ev => if ev.2.2 = v then some ⟨ev.1, ev.2.1.2, ev.2.1.1⟩ else none

def record (past : List Event) : Iters := fun v => ⟨entries past v, none⟩

/-- The events among some steps out of a vertex: the steps one level further. -/
def tight (D : Nat × Nat → Nat) (u : Nat × Nat) (xs : List (EdgeLabel × Nat × Nat)) : List Event :=
  (xs.filter fun x => D x.2 = D u + 1).map (u, ·)

/-- The paths that the events behind some others make the search enumerate. -/
def outputs (D : Nat × Nat → Nat) (final : Nat) : List Event → List Event → List ProductPath
  | _, [] => []
  | past, ev :: evs =>
    (if ev.2.2.1 = final then enumerated (record (past ++ [ev])) (D ev.1) ev.2.2 else []) ++
      outputs D final (past ++ [ev]) evs

def report (p : ProductPath) : Nat × List (EdgeLabel × Nat) :=
  (p.getLast?.elim 0 (·.2.2), walkOf p)

abbrev DistanceSearch (P : PathIndexProvider) (A : RPQAutomaton) :=
  Search (productSteps P A) SearchState.key SearchState.extend

abbrev keys (visited : List SearchState) : Set (Nat × Nat) := keysOf SearchState.key visited

section

variable {P : PathIndexProvider} {A : RPQAutomaton} {D : Nat × Nat → Nat} {h h' : Iters}
  {past evs : List Event} {visited rest out : List SearchState} {current s : SearchState}
  {u v : Nat × Nat} {xs : List (EdgeLabel × Nat × Nat)} {final n k : Nat} {t : Transition}
  {ts row : List Transition} {ms : List Nat}

theorem entries_append (past evs : List Event) (v : Nat × Nat) :
    entries (past ++ evs) v = entries past v ++ entries evs v := List.filterMap_append

theorem outputs_append_of_not_final (h : ∀ ev ∈ evs, ev.2.2.1 ≠ final) (past evs' : List Event) :
    outputs D final past (evs ++ evs') = outputs D final (past ++ evs) evs' := by
  induction evs generalizing past with
  | nil => simp
  | cons ev evs ih =>
    obtain ⟨hev, hevs⟩ := List.forall_mem_cons.mp h
    rw [List.cons_append, outputs, if_neg hev, List.nil_append, ih hevs]
    simp

theorem enumerated_congr (ht : ∀ u, (h' u).transitions = (h u).transitions) (n : Nat)
    (k : Nat × Nat) : enumerated h' n k = enumerated h n k := by
  unfold enumerated
  rw [ht k]
  simp only [pathsTo_congr ht]

theorem tight_cons_of_eq {x : EdgeLabel × Nat × Nat} (hx : D x.2 = D u + 1)
    (xs : List (EdgeLabel × Nat × Nat)) : tight D u (x :: xs) = (u, x) :: tight D u xs := by
  simp [tight, hx]

theorem tight_cons_of_ne {x : EdgeLabel × Nat × Nat} (hx : D x.2 ≠ D u + 1)
    (xs : List (EdgeLabel × Nat × Nat)) : tight D u (x :: xs) = tight D u xs := by
  simp [tight, hx]

theorem keys_concat : keys (visited ++ [s]) = insert s.key (keys visited) := keysOf_concat

/-- The iterators hold the transitions of the events, and the events lead one level up, from
visited vertices to every one that is not on the start level. -/
structure Recorded (D : Nat × Nat → Nat) (visited : List SearchState) (h : Iters)
    (past : List Event) : Prop where
  transitions : ∀ v, (h v).transitions = entries past v
  sources : ∀ ev ∈ past, ev.1 ∈ keys visited ∧ D ev.1 + 1 = D ev.2.2
  targets : ∀ ev ∈ past, ev.2.2 ∈ keys visited
  entered : ∀ v ∈ keys visited, D v ≠ 0 → entries past v ≠ []
  distances : ∀ s ∈ visited, s.distance = D s.key

theorem mem_entries {e : IterTransition} : e ∈ entries past v ↔ (e.previous, e.label, v) ∈ past := by
  simp only [entries, List.mem_filterMap]
  constructor
  · rintro ⟨⟨u, ⟨typeId, inverse⟩, w⟩, hev, heq⟩
    split_ifs at heq with hw
    obtain rfl := Option.some_inj.mp heq
    obtain rfl : w = v := hw
    exact hev
  · intro he
    exact ⟨_, he, by simp [IterTransition.label]⟩

theorem Recorded.layered (hr : Recorded D visited h past) : Layered D h (keys visited) where
  nil_iff v hv := by
    rw [hr.transitions]
    refine ⟨fun hnil => by_contra fun hne => hr.entered v hv hne hnil, fun hzero => ?_⟩
    rw [List.eq_nil_iff_forall_not_mem]
    intro e he
    have hlevel : D e.previous + 1 = D v := (hr.sources _ (mem_entries.mp he)).2
    omega
  previous v hv e he := hr.sources _ (mem_entries.mp (hr.transitions v ▸ he))

theorem Recorded.congr (hr : Recorded D visited h past)
    (ht : ∀ u, (h' u).transitions = (h u).transitions) : Recorded D visited h' past :=
  { hr with transitions := fun v => (ht v).trans (hr.transitions v) }

theorem entries_singleton (u : Nat × Nat) (x : EdgeLabel × Nat × Nat) (v : Nat × Nat) :
    entries [(u, x)] v = if x.2 = v then [⟨u, x.1.2, x.1.1⟩] else [] := by
  unfold entries
  by_cases hv : x.2 = v <;> simp [hv]

theorem Recorded.tie (hr : Recorded D visited h past) {x : EdgeLabel × Nat × Nat}
    (hu : u ∈ keys visited) (hv : x.2 ∈ keys visited) (hx : D x.2 = D u + 1) :
    Recorded D visited (addTransition h x.2 ⟨u, x.1.2, x.1.1⟩) (past ++ [(u, x)]) where
  transitions v := by
    rw [entries_append, entries_singleton, ← hr.transitions v]
    unfold addTransition
    by_cases hv : x.2 = v
    · subst hv
      simp
    · simp [hv, Ne.symm hv]
  sources := List.forall_mem_append.mpr ⟨hr.sources, by simp [hu, hx]⟩
  targets := List.forall_mem_append.mpr ⟨hr.targets, by simp [hv]⟩
  entered v hv hne := by
    rw [entries_append]
    simp [hr.entered v hv hne]
  distances := hr.distances

theorem Recorded.discover (hr : Recorded D visited h past) {x : EdgeLabel × Nat × Nat}
    (hu : u ∈ keys visited) (hx : D x.2 = D u + 1) (hnew : x.2 ∉ keys visited) (hs : s.key = x.2)
    (hd : s.distance = D x.2) :
    Recorded D (visited ++ [s]) (Function.update h x.2 ⟨[⟨u, x.1.2, x.1.1⟩], none⟩)
      (past ++ [(u, x)]) where
  transitions v := by
    rw [entries_append, entries_singleton]
    by_cases hv : x.2 = v
    · subst hv
      have hnone : entries past x.2 = [] := by
        rw [List.eq_nil_iff_forall_not_mem]
        exact fun e he => hnew (hr.targets _ (mem_entries.mp he))
      simp [hnone]
    · simp [hv, Ne.symm hv, hr.transitions v]
  sources := by
    rw [keys_concat]
    refine List.forall_mem_append.mpr ⟨fun ev hev => ?_, ?_⟩
    · exact ⟨Set.mem_insert_of_mem _ (hr.sources ev hev).1, (hr.sources ev hev).2⟩
    · simp [hx, hu]
  targets := by
    rw [keys_concat]
    refine List.forall_mem_append.mpr ⟨fun ev hev => Set.mem_insert_of_mem _ (hr.targets ev hev), ?_⟩
    simp [hs]
  entered v hv hne := by
    rw [keys_concat, Set.mem_insert_iff, hs] at hv
    rw [entries_append, entries_singleton]
    rcases hv with rfl | hv
    · simp
    · simp [hr.entered v hv hne]
  distances := List.forall_mem_append.mpr ⟨hr.distances, by simp [hd, hs]⟩

def Idle (h : Iters) : Prop := ∀ v, (h v).current = none

/-- How an expansion of `current` that had still to try the steps `xs` stops, with the steps
`xs'` left: behind events that are not final, and in front of the event that it stops at. -/
def Stops (P : PathIndexProvider) (A : RPQAutomaton) (D : Nat × Nat → Nat)
    (visited : List SearchState) (current : SearchState) (past : List Event)
    (rest out : List SearchState) (xs : List (EdgeLabel × Nat × Nat)) (h : Iters)
    (xs' : List (EdgeLabel × Nat × Nat)) : Option Reached → Prop
  | none => ∃ evs, tight D current.key xs = evs ++ tight D current.key xs' ∧
      (∀ ev ∈ evs, ev.2.2.1 ≠ A.finalState) ∧ Recorded D visited h (past ++ evs) ∧ Idle h ∧
      DistanceSearch P A (keys visited) current xs' rest out
  | some (.new s) => ∃ evs x out', tight D current.key xs =
        evs ++ (current.key, x) :: tight D current.key xs' ∧
      (∀ ev ∈ evs, ev.2.2.1 ≠ A.finalState) ∧ s = current.extend x ∧ out = s :: out' ∧
      Recorded D (visited ++ [s]) h (past ++ evs ++ [(current.key, x)]) ∧ Idle h ∧
      DistanceSearch P A (keys (visited ++ [s])) current xs' (rest ++ [s]) out'
  | some (.tied s) => ∃ evs x, tight D current.key xs =
        evs ++ (current.key, x) :: tight D current.key xs' ∧
      (∀ ev ∈ evs, ev.2.2.1 ≠ A.finalState) ∧ s ∈ visited ∧ s.key = x.2 ∧
      s.automatonState = A.finalState ∧
      Recorded D visited h (past ++ evs ++ [(current.key, x)]) ∧ Idle h ∧
      DistanceSearch P A (keys visited) current xs' rest out

theorem Stops.prepend {xs₀ xs' : List (EdgeLabel × Nat × Nat)} {evs₀ : List Event}
    {r : Option Reached} (htight : tight D current.key xs₀ = evs₀ ++ tight D current.key xs)
    (hfinal : ∀ ev ∈ evs₀, ev.2.2.1 ≠ A.finalState)
    (hstops : Stops P A D visited current (past ++ evs₀) rest out xs h xs' r) :
    Stops P A D visited current past rest out xs₀ h xs' r := by
  match r with
  | none =>
    obtain ⟨evs, ht, hf, hr, hidle, hs⟩ := hstops
    refine ⟨evs₀ ++ evs, by rw [htight, ht, List.append_assoc],
      List.forall_mem_append.mpr ⟨hfinal, hf⟩, ?_, hidle, hs⟩
    rwa [← List.append_assoc]
  | some (.new s) =>
    obtain ⟨evs, x, out', ht, hf, hs, hout, hr, hidle, hsearch⟩ := hstops
    refine ⟨evs₀ ++ evs, x, out', by rw [htight, ht, List.append_assoc],
      List.forall_mem_append.mpr ⟨hfinal, hf⟩, hs, hout, ?_, hidle, hsearch⟩
    rwa [← List.append_assoc past]
  | some (.tied s) =>
    obtain ⟨evs, x, ht, hf, hmem, hs, hsf, hr, hidle, hsearch⟩ := hstops
    refine ⟨evs₀ ++ evs, x, by rw [htight, ht, List.append_assoc],
      List.forall_mem_append.mpr ⟨hfinal, hf⟩, hmem, hs, hsf, ?_, hidle, hsearch⟩
    rwa [← List.append_assoc past]

theorem Idle.addTransition {e : IterTransition} (hi : Idle h) : Idle (addTransition h v e) := by
  intro u
  unfold AllShortest.addTransition
  by_cases hu : u = v
  · subst hu
    simpa using hi u
  · simpa [hu] using hi u

theorem Idle.update {ts : List IterTransition} (hi : Idle h) : Idle (Function.update h v ⟨ts, none⟩) := by
  intro u
  by_cases hu : u = v
  · subst hu
    simp
  · simpa [hu] using hi u

theorem nextChild_spec {ms' : List Nat} {r : Option Reached} (hcurrent : current.key ∈ keys visited)
    (hdist : current.distance = D current.key) (hout : ∀ r ∈ out, r.distance = D r.key)
    (hr : Recorded D visited h past) (hi : Idle h)
    (hs : DistanceSearch P A (keys visited) current (transitionSteps t ms ++ xs) rest out)
    (hresult : nextChild A.finalState visited current t h ms = (r, h', ms')) :
    Stops P A D visited current past rest out (transitionSteps t ms ++ xs) h'
      (transitionSteps t ms' ++ xs) r := by
  induction ms generalizing h past with
  | nil =>
    obtain ⟨rfl, rfl, rfl⟩ := by simpa [nextChild] using hresult
    exact ⟨[], by simp, by simp, by simpa using hr, hi, hs⟩
  | cons m ms ih =>
    have hsteps : transitionSteps t (m :: ms) ++ xs =
        ((t.typeId, t.inverse), (t.toState, m)) :: (transitionSteps t ms ++ xs) := rfl
    rw [hsteps] at hs ⊢
    rw [nextChild] at hresult
    dsimp only at hresult
    cases hfind : visited.find? fun s => s.key = SearchState.key ⟨t.toState, m, current.distance + 1⟩ with
    | none =>
      have hnew : (t.toState, m) ∉ keys visited := by
        rintro ⟨s, hs, hkey⟩
        exact List.find?_eq_none.mp hfind s hs (decide_eq_true hkey)
      obtain ⟨out', rfl, hsearch⟩ := hs.take_inv hnew
      have hD : D (t.toState, m) = D current.key + 1 := by
        rw [← hdist]
        exact (hout _ List.mem_cons_self).symm
      simp only [hfind, Prod.mk.injEq] at hresult
      obtain ⟨rfl, rfl, rfl⟩ := hresult
      refine ⟨[], ((t.typeId, t.inverse), (t.toState, m)), out', ?_, by simp, rfl, rfl, ?_,
        hi.update, ?_⟩
      · rw [tight_cons_of_eq hD, List.nil_append]
      · rw [List.append_nil]
        exact hr.discover (x := ((t.typeId, t.inverse), (t.toState, m))) hcurrent hD hnew rfl
          (hout _ List.mem_cons_self)
      · rw [keys_concat]
        exact hsearch
    | some s =>
      have hmem := List.mem_of_find?_eq_some hfind
      have hfound := List.find?_some hfind
      have hkey : s.key = (t.toState, m) := of_decide_eq_true hfound
      have hvisited : (t.toState, m) ∈ keys visited := ⟨s, hmem, hkey⟩
      have hsdist : s.distance = D (t.toState, m) := hkey ▸ hr.distances s hmem
      have hskip := (Search.skip_iff hvisited).mp hs
      simp only [hfind] at hresult
      by_cases htie : s.distance = current.distance + 1
      · have hD : D (t.toState, m) = D current.key + 1 := by omega
        have hrecorded : Recorded D visited
            (AllShortest.addTransition h s.key ⟨current.key, t.inverse, t.typeId⟩)
            (past ++ [(current.key, ((t.typeId, t.inverse), (t.toState, m)))]) := by
          rw [hkey]
          exact hr.tie (x := ((t.typeId, t.inverse), (t.toState, m))) hcurrent hvisited hD
        rw [if_pos htie] at hresult
        by_cases hfinal : t.toState = A.finalState
        · have hstate : s.automatonState = A.finalState := by
            rw [← hfinal]
            exact (Prod.mk.inj hkey).1
          simp only [if_pos hfinal, Prod.mk.injEq] at hresult
          obtain ⟨rfl, rfl, rfl⟩ := hresult
          refine ⟨[], ((t.typeId, t.inverse), (t.toState, m)), ?_, by simp, hmem, hkey, hstate,
            by simpa using hrecorded, hi.addTransition, hskip⟩
          rw [tight_cons_of_eq hD, List.nil_append]
        · rw [if_neg hfinal] at hresult
          exact (ih hrecorded hi.addTransition hskip hresult).prepend (tight_cons_of_eq hD _)
            (by simpa using hfinal)
      · have hD : D (t.toState, m) ≠ D current.key + 1 := by omega
        rw [if_neg htie] at hresult
        refine Stops.prepend ((tight_cons_of_ne hD _).trans (List.nil_append _).symm) (by simp) ?_
        exact ih (by simpa using hr) hi hskip hresult

theorem nextChild_none {ms' : List Nat}
    (hresult : nextChild final visited current t h ms = (none, h', ms')) : ms' = [] := by
  induction ms generalizing h with
  | nil => exact (by simpa [nextChild, eq_comm] using hresult : h' = h ∧ ms' = []).2
  | cons m ms ih =>
    rw [nextChild] at hresult
    dsimp only at hresult
    split at hresult
    · split_ifs at hresult
      · cases hresult
      · exact ih hresult
      · exact ih hresult
    · cases hresult

theorem searchRow_spec {ms' : List Nat} {r : Option Reached} {k' : Nat}
    (hcurrent : current.key ∈ keys visited)
    (hdist : current.distance = D current.key) (hout : ∀ r ∈ out, r.distance = D r.key)
    (hrow : ts = row.drop k) (hr : Recorded D visited h past) (hi : Idle h)
    (hs : DistanceSearch P A (keys visited) current (pendingSteps P current.nodeId ts ms) rest out)
    (hresult : searchRow P A.finalState visited current ts k h ms = (r, h', k', ms')) :
    Stops P A D visited current past rest out (pendingSteps P current.nodeId ts ms) h'
      (pendingSteps P current.nodeId (row.drop k') ms') r := by
  induction ts generalizing k h ms past with
  | nil =>
    obtain ⟨rfl, rfl, rfl, rfl⟩ := by simpa [searchRow] using hresult
    have hnil : pendingSteps P current.nodeId (row.drop k) [] = [] := by
      rw [← hrow]
      rfl
    rw [hnil]
    exact ⟨[], rfl, by simp, by simpa using hr, hi, hs⟩
  | cons t ts ih =>
    rw [searchRow] at hresult
    obtain ⟨r₀, h₀, ms₀, hchild⟩ : ∃ r₀ h₀ ms₀,
        nextChild A.finalState visited current t h ms = (r₀, h₀, ms₀) := ⟨_, _, _, rfl⟩
    have hstops := nextChild_spec hcurrent hdist hout hr hi hs hchild
    simp only [hchild] at hresult
    cases r₀ with
    | some r₀ =>
      obtain ⟨rfl, rfl, rfl, rfl⟩ := by simpa using hresult
      rw [← hrow]
      exact hstops
    | none =>
      obtain ⟨evs, htight, hfinal, hr₀, hi₀, hs₀⟩ := hstops
      have hdrop : ts = row.drop (k + 1) := by
        rw [← List.drop_drop, ← hrow, List.drop_one, List.tail_cons]
      have hnil : ms₀ = [] := nextChild_none hchild
      subst hnil
      have hpending : (ts.flatMap fun t =>
          transitionSteps t (P.getIterator t.typeId t.inverse current.nodeId)) =
          pendingSteps P current.nodeId ts (rowIter P current.nodeId ts) :=
        (pendingSteps_rowIter P current.nodeId ts).symm
      rw [hpending] at htight hs₀
      refine Stops.prepend ?_ hfinal (ih hdrop hr₀ hi₀ hs₀ hresult)
      rw [pendingSteps, hpending]
      exact htight

theorem searchRow_none {ms' : List Nat} {k' : Nat} (hrow : ts = row.drop k)
    (hresult : searchRow P final visited current ts k h ms = (none, h', k', ms')) :
    row.drop k' = [] := by
  induction ts generalizing k h ms with
  | nil =>
    obtain ⟨-, rfl, -⟩ := (by simpa [searchRow] using hresult : h = h' ∧ k = k' ∧ [] = ms')
    exact hrow.symm
  | cons t ts ih =>
    rw [searchRow] at hresult
    have hdrop : ts = row.drop (k + 1) := by
      rw [← List.drop_drop, ← hrow, List.drop_one, List.tail_cons]
    split at hresult
    · cases hresult
    · exact ih hdrop hresult

/-- The steps that the cursor of a suspended search leaves for its current state. -/
def BFSEnum.pending (P : PathIndexProvider) (A : RPQAutomaton) (st : BFSEnum)
    (current : SearchState) : List (EdgeLabel × Nat × Nat) :=
  match st.iter with
  | none => productSteps P A current.key
  | some ms =>
    pendingSteps P current.nodeId ((A.fromTo current.automatonState).drop st.currentTransition) ms

def expansions (P : PathIndexProvider) (A : RPQAutomaton) (D : Nat × Nat → Nat)
    (states : List SearchState) : List Event :=
  states.flatMap fun r => tight D r.key (productSteps P A r.key)

/-- A search in progress: the events behind it and before it, and the states still to be
found. -/
structure Searching (P : PathIndexProvider) (A : RPQAutomaton) (D : Nat × Nat → Nat) (st : BFSEnum)
    (past future : List Event) (out : List SearchState) : Prop where
  first : st.firstNext = false
  recorded : Recorded D st.visited st.iters past
  queued : ∀ s ∈ st.openStates, s ∈ st.visited
  found : ∀ r ∈ out, r.distance = D r.key
  ahead : match st.openStates with
    | [] => out = [] ∧ future = []
    | current :: rest =>
      DistanceSearch P A (keys st.visited) current (st.pending P A current) rest out ∧
        future = tight D current.key (st.pending P A current) ++ expansions P A D (rest ++ out)

/-- The paths of a saved state are being enumerated: `p` was returned last. -/
structure Enumerating (D : Nat × Nat → Nat) (st : BFSEnum) (s : SearchState) (p : ProductPath)
    (rest : List ProductPath) : Prop where
  visited : s ∈ st.visited
  level : D s.key ≠ 0
  others : ∀ u, D s.key ≤ D u → u ≠ s.key → (st.iters u).current = none
  positioned : Positioned D st.iters (D s.key) s.key p rest

/-- What a search is going to return after its first call, with fuel for every round. -/
def BFSEnum.Returns (P : PathIndexProvider) (A : RPQAutomaton) (D : Nat × Nat → Nat) (fuel : Nat)
    (st : BFSEnum) (results : List (Nat × List (EdgeLabel × Nat))) : Prop :=
  ∃ past future out paths, Searching P A D st past future out ∧
    2 * out.length + st.openStates.length + future.length ≤ fuel ∧ results = paths.map report ∧
    match st.savedStateReached with
    | none => Idle st.iters ∧ paths = outputs D A.finalState past future
    | some s => ∃ p rest, Enumerating D st s p rest ∧
        paths = rest ++ outputs D A.finalState past future

theorem Searching.cursors {st : BFSEnum} {future : List Event} {saved : Option SearchState}
    (hsearch : Searching P A D st past future out)
    (ht : ∀ u, (h' u).transitions = (st.iters u).transitions) :
    Searching P A D { st with iters := h', savedStateReached := saved } past future out :=
  ⟨hsearch.first, hsearch.recorded.congr ht, hsearch.queued, hsearch.found, hsearch.ahead⟩

theorem report_of_positioned {p : ProductPath} {paths : List ProductPath} (hD : D s.key ≠ 0)
    (hp : Positioned D h (D s.key) s.key p paths) : report p = (s.nodeId, walkOf p) := by
  obtain ⟨n, hn⟩ : ∃ n, D s.key = n + 1 := ⟨D s.key - 1, by omega⟩
  rw [hn] at hp
  obtain ⟨i, e, p', rest', -, -, -, -, rfl, -⟩ := hp
  simp [report, SearchState.key]

section Enumeration

variable {st : BFSEnum} {p q : ProductPath} {paths : List ProductPath}

theorem enumeration_move (hr : Recorded D st.visited st.iters past)
    (he : Enumerating D st s p (q :: paths)) :
    ∃ h', (∀ u, (h' u).transitions = (st.iters u).transitions) ∧
      enumeration st s = (some (report q), { st with iters := h', savedStateReached := some s }) ∧
      Enumerating D { st with iters := h', savedStateReached := some s } s q paths := by
  have hk : s.key ∈ keys st.visited := ⟨s, he.visited, rfl⟩
  have hdist := hr.distances s he.visited
  have hfuel : D s.key < s.distance + 1 := by omega
  have hspec := pathNext_spec hr.layered hk rfl hfuel
  obtain ⟨hmoved, hpos⟩ := hspec.move p q paths he.positioned
  refine ⟨_, hspec.untouched.transitions, ?_, he.visited, he.level, fun u hu hne => ?_, hpos⟩
  · unfold enumeration
    rw [report_of_positioned he.level hpos]
    simp only [hmoved, if_true]
    rw [getPath_eq (hr.layered.congr hspec.untouched.transitions) hk rfl (by omega) hpos]
  · dsimp only
    rw [hspec.untouched.other u hu hne]
    exact he.others u hu hne

theorem enumeration_finish (hr : Recorded D st.visited st.iters past)
    (he : Enumerating D st s p []) :
    ∃ h', (∀ u, (h' u).transitions = (st.iters u).transitions) ∧
      enumeration st s = (none, { st with iters := h', savedStateReached := none }) ∧ Idle h' := by
  have hk : s.key ∈ keys st.visited := ⟨s, he.visited, rfl⟩
  have hdist := hr.distances s he.visited
  have hfuel : D s.key < s.distance + 1 := by omega
  have hspec := pathNext_spec hr.layered hk rfl hfuel
  obtain ⟨hmoved, hcur, hreset⟩ := hspec.finish p he.positioned
  refine ⟨_, hspec.untouched.transitions, ?_, fun u => ?_⟩
  · unfold enumeration
    simp only [hmoved, Bool.false_eq_true, if_false]
  · by_cases hlt : D u < D s.key
    · exact hreset u hlt
    · by_cases hu : u = s.key
      · exact hu ▸ hcur
      · rw [hspec.untouched.other u (by omega) hu]
        exact he.others u (by omega) hu

theorem enumeration_start {n : Nat} (hr : Recorded D st.visited st.iters past)
    (hi : Idle st.iters) (hs : s ∈ st.visited) (hD : D s.key = n + 1) :
    ∃ h' p paths, (∀ u, (h' u).transitions = (st.iters u).transitions) ∧
      enumerated st.iters n s.key = p :: paths ∧
      enumeration { st with iters := startEnumeration st.iters s.key } s =
        (some (report p), { st with iters := h', savedStateReached := some s }) ∧
      Enumerating D { st with iters := h', savedStateReached := some s } s p paths := by
  have hk : s.key ∈ keys st.visited := ⟨s, hs, rfl⟩
  have hdist := hr.distances s hs
  have hfuel : n + 1 < s.distance + 1 := by omega
  obtain ⟨huntouched, hmoved, p, paths, hpaths, hpos⟩ :=
    pathNext_startEnumeration hr.layered hk hD hfuel (hi _) fun u _ => hi u
  rw [← hD] at hpos huntouched
  have hlevel : D s.key ≠ 0 := by omega
  refine ⟨_, p, paths, huntouched.transitions, hpaths, ?_, hs, hlevel, fun u hu hne => ?_, hpos⟩
  · unfold enumeration
    rw [report_of_positioned hlevel hpos]
    simp only [hmoved, if_true]
    rw [getPath_eq (hr.layered.congr huntouched.transitions) hk rfl (by omega) hpos]
  · dsimp only
    rw [huntouched.other u hu hne]
    exact hi u

end Enumeration

section Loop

variable {st : BFSEnum} {future : List Event} {fuel limit : Nat}

theorem currentStateHasNext_spec {ms' : List Nat} {r : Option Reached} {k' : Nat}
    (hsearch : Searching P A D st past future out) (hi : Idle st.iters)
    (hopen : st.openStates = current :: rest)
    (hresult : currentStateHasNext P A st current = (r, h', k', ms')) :
    Stops P A D st.visited current past rest out (st.pending P A current) h'
      (pendingSteps P current.nodeId ((A.fromTo current.automatonState).drop k') ms') r := by
  have hahead := hsearch.ahead
  rw [hopen] at hahead
  have hmem := hsearch.queued current (by rw [hopen]; exact List.mem_cons_self)
  have hcurrent : current.key ∈ keys st.visited := ⟨current, hmem, rfl⟩
  have hdist := hsearch.recorded.distances current hmem
  have hs := hahead.1
  unfold currentStateHasNext at hresult
  unfold BFSEnum.pending at hs ⊢
  cases hiter : st.iter with
  | none =>
    rw [hiter] at hs hresult
    dsimp only at hs hresult ⊢
    have hrow : productSteps P A current.key = pendingSteps P current.nodeId
        (A.fromTo current.automatonState) (rowIter P current.nodeId (A.fromTo current.automatonState)) :=
      (pendingSteps_rowIter P current.nodeId _).symm
    rw [hrow] at hs ⊢
    exact searchRow_spec hcurrent hdist hsearch.found List.drop_zero.symm hsearch.recorded hi hs
      hresult
  | some ms =>
    rw [hiter] at hs hresult
    exact searchRow_spec hcurrent hdist hsearch.found rfl hsearch.recorded hi hs hresult

theorem currentStateHasNext_none {ms' : List Nat} {k' : Nat}
    (hresult : currentStateHasNext P A st current = (none, h', k', ms')) :
    (A.fromTo current.automatonState).drop k' = [] := by
  unfold currentStateHasNext at hresult
  cases hiter : st.iter with
  | none =>
    rw [hiter] at hresult
    exact searchRow_none List.drop_zero.symm hresult
  | some ms =>
    rw [hiter] at hresult
    exact searchRow_none rfl hresult

theorem outputs_event {ev : Event} (hr : Recorded D visited h (past ++ evs ++ [ev]))
    (hevs : ∀ ev ∈ evs, ev.2.2.1 ≠ final) (hev : ev.2.2.1 = final) :
    outputs D final past (evs ++ ev :: future) =
      enumerated h (D ev.1) ev.2.2 ++ outputs D final (past ++ evs ++ [ev]) future := by
  rw [outputs_append_of_not_final hevs, outputs, if_pos hev]
  congr 1
  exact (enumerated_congr (fun u => hr.transitions u) _ _).symm

theorem returns_enumeration {ev : Event} {st' : BFSEnum} {results : List (Nat × List (EdgeLabel × Nat))}
    (hsearch : Searching P A D st' (past ++ evs ++ [ev]) future out) (hi : Idle st'.iters)
    (hevs : ∀ ev ∈ evs, ev.2.2.1 ≠ A.finalState) (hev : ev.2.2.1 = A.finalState)
    (hs : s ∈ st'.visited) (hkey : s.key = ev.2.2)
    (hfuel : 2 * out.length + st'.openStates.length + future.length ≤ limit)
    (hresults : results = (outputs D A.finalState past (evs ++ ev :: future)).map report) :
    ∃ st'', enumeration { st' with iters := startEnumeration st'.iters s.key } s =
        (results.head?, st'') ∧ results ≠ [] ∧ st''.Returns P A D limit results.tail := by
  have hlevel : D ev.1 + 1 = D ev.2.2 := (hsearch.recorded.sources ev (by simp)).2
  obtain ⟨h', p, paths, ht, hpaths, hnext, henum⟩ :=
    enumeration_start hsearch.recorded hi hs (hkey ▸ hlevel.symm)
  rw [outputs_event hsearch.recorded hevs hev, ← hkey, hpaths, List.cons_append, List.map_cons]
    at hresults
  subst hresults
  exact ⟨_, hnext, by simp, _, _, _, _, hsearch.cursors ht, hfuel, rfl, p, paths, henum, rfl⟩

/-- The rest of the row brings nothing, and the entry leaves the queue. -/
theorem searching_done {ms' : List Nat} {k' : Nat} (hsearch : Searching P A D st past future out)
    (hi : Idle st.iters) (hopen : st.openStates = current :: rest)
    (hresult : currentStateHasNext P A st current = (none, h', k', ms')) :
    ∃ evs, future = evs ++ expansions P A D (rest ++ out) ∧ (∀ ev ∈ evs, ev.2.2.1 ≠ A.finalState) ∧
      Idle h' ∧ Searching P A D { st with iters := h', iter := none, openStates := rest }
        (past ++ evs) (expansions P A D (rest ++ out)) out := by
  have hahead := hsearch.ahead
  have hstops := currentStateHasNext_spec hsearch hi hopen hresult
  rw [hopen] at hahead
  rw [currentStateHasNext_none hresult] at hstops
  obtain ⟨evs, htight, hevs, hr', hi', hsearch'⟩ := hstops
  refine ⟨evs, ?_, hevs, hi', hsearch.first, hr', fun s hs => ?_, hsearch.found, ?_⟩
  · rw [hahead.2, htight]
    simp [pendingSteps, tight]
  · apply hsearch.queued
    rw [hopen]
    exact List.mem_cons_of_mem _ hs
  · dsimp only
    cases rest with
    | nil =>
      obtain rfl := hsearch'.stop_inv
      exact ⟨rfl, rfl⟩
    | cons current' rest' => exact ⟨hsearch'.pop_inv, rfl⟩

/-- A step to a state that was not visited before, which enters the queue. -/
theorem searching_new {ms' : List Nat} {k' : Nat} (hsearch : Searching P A D st past future out)
    (hi : Idle st.iters) (hopen : st.openStates = current :: rest)
    (hresult : currentStateHasNext P A st current = (some (.new s), h', k', ms')) :
    ∃ evs x out' future', s = current.extend x ∧ out = s :: out' ∧
      future = evs ++ (current.key, x) :: future' ∧ (∀ ev ∈ evs, ev.2.2.1 ≠ A.finalState) ∧
      Idle h' ∧ Searching P A D { st with
        visited := st.visited ++ [s]
        openStates := current :: rest ++ [s]
        iters := h', iter := some ms', currentTransition := k' }
        (past ++ evs ++ [(current.key, x)]) future' out' := by
  have hahead := hsearch.ahead
  rw [hopen] at hahead
  obtain ⟨evs, x, out', htight, hevs, rfl, rfl, hr', hi', hsearch'⟩ :=
    currentStateHasNext_spec hsearch hi hopen hresult
  refine ⟨evs, x, out', tight D current.key (pendingSteps P current.nodeId
    ((A.fromTo current.automatonState).drop k') ms') ++
      expansions P A D ((rest ++ [current.extend x]) ++ out'), rfl, rfl, ?_, hevs, hi', hsearch.first,
    hr', ?_, fun r hr => hsearch.found r (List.mem_cons_of_mem _ hr), hsearch', rfl⟩
  · rw [hahead.2, htight, List.append_assoc rest]
    simp
  · dsimp only
    rw [← hopen]
    exact List.forall_mem_append.mpr
      ⟨fun s hs => List.mem_append_left _ (hsearch.queued s hs), by simp⟩

/-- A step of another shortest walk to a state of the end that was visited before. -/
theorem searching_tied {ms' : List Nat} {k' : Nat} (hsearch : Searching P A D st past future out)
    (hi : Idle st.iters) (hopen : st.openStates = current :: rest)
    (hresult : currentStateHasNext P A st current = (some (.tied s), h', k', ms')) :
    ∃ evs x future', future = evs ++ (current.key, x) :: future' ∧
      (∀ ev ∈ evs, ev.2.2.1 ≠ A.finalState) ∧ s ∈ st.visited ∧ s.key = x.2 ∧
      x.2.1 = A.finalState ∧ Idle h' ∧ Searching P A D { st with
        openStates := current :: rest, iters := h', iter := some ms', currentTransition := k' }
        (past ++ evs ++ [(current.key, x)]) future' out := by
  have hahead := hsearch.ahead
  rw [hopen] at hahead
  obtain ⟨evs, x, htight, hevs, hmem, hkey, hstate, hr', hi', hsearch'⟩ :=
    currentStateHasNext_spec hsearch hi hopen hresult
  refine ⟨evs, x, tight D current.key (pendingSteps P current.nodeId
    ((A.fromTo current.automatonState).drop k') ms') ++ expansions P A D (rest ++ out), ?_, hevs, hmem,
    hkey, hkey ▸ hstate, hi', hsearch.first, hr', ?_, hsearch.found, hsearch', rfl⟩
  · rw [hahead.2, htight]
    simp
  · dsimp only
    rw [← hopen]
    exact hsearch.queued

theorem searchLoop_spec {results : List (Nat × List (EdgeLabel × Nat))}
    (hsearch : Searching P A D st past future out) (hi : Idle st.iters)
    (hsaved : st.savedStateReached = none)
    (hfuel : 2 * out.length + st.openStates.length + future.length ≤ fuel) (hlimit : fuel ≤ limit)
    (hresults : results = (outputs D A.finalState past future).map report) :
    (searchLoop P A fuel st).1 = results.head? ∧
      (searchLoop P A fuel st).2.Returns P A D limit results.tail := by
  -- every round uses up an event, an entry of the queue or a state to be found
  induction fuel generalizing st past future out with
  | zero =>
    obtain rfl : future = [] := List.eq_nil_of_length_eq_zero (by omega)
    obtain rfl : results = [] := hresults
    exact ⟨rfl, past, [], out, [], hsearch, hfuel.trans hlimit, rfl, by
      show match st.savedStateReached with | none => _ | some s => _
      rw [hsaved]
      exact ⟨hi, rfl⟩⟩
  | succ fuel ih =>
    rw [searchLoop]
    have hahead := hsearch.ahead
    cases hopen : st.openStates with
    | nil =>
      rw [hopen] at hahead
      obtain ⟨rfl, rfl⟩ := hahead
      obtain rfl : results = [] := hresults
      exact ⟨rfl, past, [], [], [], hsearch, hfuel.trans hlimit, rfl, by
        show match st.savedStateReached with | none => _ | some s => _
        rw [hsaved]
        exact ⟨hi, rfl⟩⟩
    | cons current rest =>
      have hlength : st.openStates.length = rest.length + 1 := by rw [hopen, List.length_cons]
      dsimp only
      obtain ⟨r, h', k', ms', hresult⟩ : ∃ r h' k' ms',
          currentStateHasNext P A st current = (r, h', k', ms') := ⟨_, _, _, _, rfl⟩
      rw [hresult]
      match r with
      | none =>
        obtain ⟨evs, rfl, hevs, hi', hnext⟩ := searching_done hsearch hi hopen hresult
        rw [outputs_append_of_not_final hevs] at hresults
        rw [List.length_append] at hfuel
        exact ih hnext hi' hsaved (by dsimp only; omega) (by omega) hresults
      | some (.new s) =>
        obtain ⟨evs, x, out', future', rfl, rfl, rfl, hevs, hi', hnext⟩ :=
          searching_new hsearch hi hopen hresult
        simp only [List.length_append, List.length_cons] at hfuel
        have hfuel' : 2 * out'.length + (current :: rest ++ [current.extend x]).length +
            future'.length ≤ fuel := by
          simp only [List.length_append, List.length_cons, List.length_nil]
          omega
        by_cases hfinal : (current.extend x).automatonState = A.finalState
        · obtain ⟨st'', hreturn, hne, hreturns⟩ := returns_enumeration (s := current.extend x) hnext
            hi' hevs hfinal (by simp) rfl (Nat.le_trans hfuel' ((Nat.le_succ fuel).trans hlimit)) hresults
          simp only [hfinal, if_true, hreturn]
          cases results with
          | nil => exact absurd rfl hne
          | cons result results => exact ⟨rfl, hreturns⟩
        · have hevs' : ∀ ev ∈ evs ++ [(current.key, x)], ev.2.2.1 ≠ A.finalState :=
            List.forall_mem_append.mpr ⟨hevs, fun ev hev => by rwa [List.mem_singleton.mp hev]⟩
          rw [List.append_cons, outputs_append_of_not_final hevs', ← List.append_assoc] at hresults
          simp only [hfinal, if_false]
          exact ih hnext hi' hsaved hfuel' (by omega) hresults
      | some (.tied s) =>
        obtain ⟨evs, x, future', rfl, hevs, hmem, hkey, hfinal, hi', hnext⟩ :=
          searching_tied hsearch hi hopen hresult
        simp only [List.length_append, List.length_cons] at hfuel
        have hfuel' : 2 * out.length + (current :: rest).length + future'.length ≤ fuel := by
          rw [List.length_cons]
          omega
        obtain ⟨st'', hreturn, hne, hreturns⟩ := returns_enumeration hnext hi' hevs
          hfinal hmem hkey (Nat.le_trans hfuel' ((Nat.le_succ fuel).trans hlimit)) hresults
        simp only [hreturn]
        cases results with
        | nil => exact absurd rfl hne
        | cons result results => exact ⟨rfl, hreturns⟩

end Loop

section Calls

variable {G : QuadModel} {st : BFSEnum} {fuel m : Nat} {results : List (Nat × List (EdgeLabel × Nat))}

theorem BFSEnum.Returns.next (h : st.Returns G.provider A D fuel results) :
    (BFSEnum.next G A fuel st).1 = results.head? ∧
      (BFSEnum.next G A fuel st).2.Returns G.provider A D fuel results.tail := by
  obtain ⟨past, future, out, paths, hsearch, hfuel, rfl, hsaved⟩ := h
  have hfirst := hsearch.first
  unfold BFSEnum.next BFSEnum.resume
  rw [if_neg (by simp [hfirst])]
  cases hs : st.savedStateReached with
  | none =>
    rw [hs] at hsaved
    obtain ⟨hidle, rfl⟩ := hsaved
    exact searchLoop_spec hsearch hidle hs hfuel le_rfl rfl
  | some s =>
    rw [hs] at hsaved
    obtain ⟨p, rest, henum, rfl⟩ := hsaved
    cases rest with
    | nil =>
      obtain ⟨h', ht, hnext, hidle⟩ := enumeration_finish hsearch.recorded henum
      simp only [hnext]
      exact searchLoop_spec (hsearch.cursors ht) hidle rfl hfuel le_rfl rfl
    | cons q rest =>
      obtain ⟨h', ht, hnext, henum'⟩ := enumeration_move hsearch.recorded henum
      simp only [hnext]
      exact ⟨rfl, _, _, _, _, hsearch.cursors ht, hfuel, rfl, q, rest, henum', rfl⟩

theorem BFSEnum.Returns.yields (h : st.Returns G.provider A D fuel results) :
    Yields (BFSEnum.next G A fuel) st results :=
  .of_relation (BFSEnum.Returns G.provider A D fuel) (fun _ h => h.next) (fun _ _ _ h => h.next) h

def emptyResult (A : RPQAutomaton) (m : Nat) : List (Nat × List (EdgeLabel × Nat)) :=
  if A.startIsFinal then [(m, [])] else []

/-- `BFSEnum` returns the empty walk and then the paths of its events. -/
theorem BFSEnum.yields_next (hm : m ∈ G.nodes)
    (hs : DistanceSearch G.provider A (insert (0, m) (marked A m)) ⟨0, m, 0⟩
      (productSteps G.provider A (0, m)) [] out)
    (hD : ∀ r ∈ out, r.distance = D r.key) (hroot : D (0, m) = 0) (hmarked : ∀ v ∈ marked A m, D v = 0)
    (hfuel : 2 * out.length + 1 + (expansions G.provider A D (⟨0, m, 0⟩ :: out)).length ≤ fuel) :
    Yields (BFSEnum.next G A fuel) (.start m) (emptyResult A m ++
      (outputs D A.finalState [] (expansions G.provider A D (⟨0, m, 0⟩ :: out))).map report) := by
  have hexists : G.provider.nodeExists m = true := G.serves_provider.nodeExists_of_mem hm
  have hreturns : ∀ visited : List SearchState, (∀ s ∈ visited, s.distance = D s.key ∧ D s.key = 0) →
      (⟨0, m, 0⟩ : SearchState) ∈ visited → keys visited = insert (0, m) (marked A m) →
      BFSEnum.Returns G.provider A D fuel
        { BFSEnum.start m with firstNext := false, visited := visited }
        ((outputs D A.finalState [] (expansions G.provider A D (⟨0, m, 0⟩ :: out))).map report) := by
    intro visited hvisited hmem hkeys
    refine ⟨[], _, out, _, ⟨rfl, ⟨fun v => rfl, by simp, by simp, ?_, fun s hs => (hvisited s hs).1⟩,
      ?_, hD, ?_⟩, hfuel, rfl, fun v => rfl, rfl⟩
    · rintro v ⟨s, hs, rfl⟩ hne
      exact absurd (hvisited s hs).2 hne
    · intro s hs
      rw [List.mem_singleton.mp hs]
      exact hmem
    · exact ⟨hkeys ▸ hs, rfl⟩
  have hstart : (⟨0, m, 0⟩ : SearchState).distance = D (SearchState.key ⟨0, m, 0⟩) ∧
      D (SearchState.key ⟨0, m, 0⟩) = 0 := ⟨hroot.symm, hroot⟩
  by_cases hfinal : A.startIsFinal
  · rw [emptyResult, if_pos hfinal]
    by_cases hzero : A.finalState = 0
    · have hcall : BFSEnum.next G A fuel (.start m) =
          (some (m, []), { BFSEnum.start m with firstNext := false }) := by
        simp [BFSEnum.next, BFSEnum.start, hexists, hfinal, SearchState.key, hzero, getPath, walkOf]
      refine .cons (by rw [hcall]) ?_
      rw [hcall]
      refine (hreturns [⟨0, m, 0⟩] (by simpa using hstart) (by simp) ?_).yields
      ext v
      simp only [keysOf, marked, hzero, SearchState.key, Set.mem_ofPred_eq, Set.mem_insert_iff,
        List.mem_singleton, exists_eq_left, ne_eq, not_true_eq_false, false_and, and_false, or_false]
      exact eq_comm
    · have hcall : BFSEnum.next G A fuel (.start m) = (some (m, []), { BFSEnum.start m with
          firstNext := false, visited := [⟨0, m, 0⟩] ++ [⟨A.finalState, m, 0⟩] }) := by
        have hne : 0 ≠ A.finalState := fun h => hzero h.symm
        simp [BFSEnum.next, BFSEnum.start, hexists, hfinal, SearchState.key, hne, getPath, walkOf]
      refine .cons (by rw [hcall]) ?_
      rw [hcall]
      have hghost : D (A.finalState, m) = 0 := hmarked _ ⟨hfinal, hzero, rfl⟩
      refine (hreturns ([⟨0, m, 0⟩] ++ [⟨A.finalState, m, 0⟩]) ?_ (by simp) ?_).yields
      · exact List.forall_mem_append.mpr ⟨by simpa using hstart, by simp [SearchState.key, hghost]⟩
      · ext v
        simp [keysOf, marked, hfinal, hzero, SearchState.key, eq_comm]
  · rw [emptyResult, if_neg hfinal, List.nil_append]
    have hcall : BFSEnum.next G A fuel (.start m) =
        BFSEnum.next G A fuel { BFSEnum.start m with firstNext := false } := by
      simp [BFSEnum.next, BFSEnum.start, hexists, hfinal]
    have hyields := (hreturns [⟨0, m, 0⟩] (by simpa using hstart) (by simp) (by
      ext v
      simp [keysOf, marked, hfinal, SearchState.key, eq_comm])).yields
    intro k
    rw [← hyields k]
    cases k <;> simp only [nthNext, hcall] <;> rfl

theorem BFSEnum.yields_nil (hm : m ∉ G.nodes) : Yields (BFSEnum.next G A fuel) (.start m) [] := by
  have hcall : BFSEnum.next G A fuel (.start m) =
      (none, { BFSEnum.start m with firstNext := false, openStates := [] }) := by
    simp [BFSEnum.next, BFSEnum.start, QuadModel.provider, hm]
  refine .nil_of_none (by rw [hcall]) ?_
  rw [hcall]
  have hreturns : BFSEnum.Returns G.provider A (fun _ => 0) fuel
      { BFSEnum.start m with firstNext := false, openStates := [] } [] := by
    refine ⟨[], [], [], [], ⟨rfl, ⟨fun v => rfl, by simp, by simp, by simp, ?_⟩, by simp, by simp,
      rfl, rfl⟩, by simp, rfl, fun v => rfl, rfl⟩
    intro s hs
    rw [List.mem_singleton.mp hs]
  exact hreturns.yields

end Calls

end

end AllShortest
end Paths
end MillenniumDB
