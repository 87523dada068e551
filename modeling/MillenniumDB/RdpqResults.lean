import MillenniumDB.BfsCheck
import MillenniumDB.Lib.FallibleIterators
import MillenniumDB.RdpqRuns

/-!
# What `BFS_RDPQEnum` and `BFS_RDPQCheck` return

The enumeration tests only the first of the states that `begin` queues for the final state, and both
searches read the front of the queue when it has none.
-/

namespace MillenniumDB
namespace Paths

variable {V : Type}

section

variable {G : PropertyModel V} {A : RDPQAutomaton V} {dState : Nat → Prop} {m s : Nat}
  {t : RDPQTransition V} {current : SearchState} {rest out : List SearchState}

section

variable {visited : List SearchState} {row ds ts : List (RDPQTransition V)}
  {xs : List (EdgeLabel × Nat × Nat)} {node k i : Nat} {records : List (Nat × Nat)}

/-- The steps along the records left, where data transitions from index `k` on are left for the
first one. -/
def recordsSteps (G : PropertyModel V) (A : RDPQAutomaton V) (t : RDPQTransition V) :
    Nat → List (Nat × Nat) → List (EdgeLabel × Nat × Nat)
  | _, [] => []
  | k, record :: records => recordSteps G A t k record ++ records.flatMap (recordSteps G A t 0)

theorem recordsSteps_zero (records : List (Nat × Nat)) :
    recordsSteps G A t 0 records = records.flatMap (recordSteps G A t 0) := by
  cases records <;> rfl

def leftSteps (G : PropertyModel V) (A : RDPQAutomaton V) (n : Nat) :
    List (RDPQTransition V) → Nat → List (Nat × Nat) → List (EdgeLabel × Nat × Nat)
  | [], _, _ => []
  | t :: ts, k, records => recordsSteps G A t k records ++ ts.flatMap (edgeSteps G A n)

theorem leftSteps_rowRecords (n : Nat) (ts : List (RDPQTransition V)) :
    leftSteps G A n ts 0 (RDPQEnum.rowRecords G n ts) = ts.flatMap (edgeSteps G A n) := by
  cases ts with
  | nil => rfl
  | cons t ts =>
    rw [leftSteps, recordsSteps_zero, List.flatMap_cons]
    rfl

theorem dataSteps_cons_of_pos {d : RDPQTransition V} (h : G.evalDataCheck node d.propertyChecks) :
    dataSteps G t node (d :: ds) =
      ((t.typeId, t.inverse), (d.toState, node)) :: dataSteps G t node ds := by
  simp [dataSteps, h]

theorem dataSteps_cons_of_neg {d : RDPQTransition V}
    (h : ¬ G.evalDataCheck node d.propertyChecks) :
    dataSteps G t node (d :: ds) = dataSteps G t node ds := by
  simp [dataSteps, h]

theorem dataLoop_spec (hrow : ds = row.drop k)
    (h : DataSearch G A (keys visited) current (dataSteps G t node ds ++ xs) rest out) :
    match RDPQEnum.dataLoop G visited current t node ds k with
    | some (next, k') => k' ≠ 0 ∧ ∃ out', out = next :: out' ∧
        DataSearch G A (keys (visited ++ [next])) current
          (dataSteps G t node (row.drop k') ++ xs) (rest ++ [next]) out'
    | none => DataSearch G A (keys visited) current xs rest out := by
  induction ds generalizing k with
  | nil => exact h
  | cons d ds ih =>
    have hdrop : ds = row.drop (k + 1) := by
      rw [← List.drop_drop, ← hrow, List.drop_one, List.tail_cons]
    rw [RDPQEnum.dataLoop]
    by_cases heval : G.evalDataCheck node d.propertyChecks
    · rw [if_pos heval]
      rw [dataSteps_cons_of_pos heval] at h
      dsimp only
      by_cases hfound : (findState visited
          (SearchState.step current t.inverse t.typeId d.toState node).key).isSome
      · rw [if_pos hfound]
        exact ih hdrop ((Search.skip_iff (isSome_findState.mp hfound)).mp h)
      · rw [if_neg hfound]
        obtain ⟨out', rfl, hrest⟩ := h.take_inv (mt isSome_findState.mpr hfound)
        refine ⟨Nat.succ_ne_zero k, out', rfl, ?_⟩
        rw [keys_concat, ← hdrop]
        exact hrest
    · rw [if_neg heval]
      rw [dataSteps_cons_of_neg heval] at h
      exact ih hdrop h

theorem recordLoop_spec
    (h : DataSearch G A (keys visited) current (recordsSteps G A t k records ++ xs) rest out) :
    match RDPQEnum.recordLoop G A visited current t k records with
    | some (next, k', records') => ∃ out', out = next :: out' ∧
        DataSearch G A (keys (visited ++ [next])) current
          (recordsSteps G A t k' records' ++ xs) (rest ++ [next]) out'
    | none => DataSearch G A (keys visited) current xs rest out := by
  -- only the first record has data transitions left, the others start with the first one
  induction records generalizing k with
  | nil => exact h
  | cons record records ih =>
    obtain ⟨node, edge⟩ := record
    rw [recordsSteps, List.append_assoc, ← recordsSteps_zero] at h
    rw [RDPQEnum.recordLoop]
    by_cases hedge : k ≠ 0 ∨ G.evalDataCheck edge t.propertyChecks
    · have hsteps : recordSteps G A t k (node, edge) =
          dataSteps G t node ((A.fromTo t.toState).drop k) := if_pos hedge
      rw [hsteps] at h
      have hdata := dataLoop_spec rfl h
      rw [if_pos hedge]
      cases hloop : RDPQEnum.dataLoop G visited current t node ((A.fromTo t.toState).drop k) k with
      | none =>
        rw [hloop] at hdata
        exact ih hdata
      | some found =>
        obtain ⟨next, k'⟩ := found
        rw [hloop] at hdata
        obtain ⟨hne, out', rfl, hrest⟩ := hdata
        refine ⟨out', rfl, ?_⟩
        rw [recordsSteps, List.append_assoc, ← recordsSteps_zero]
        unfold recordSteps
        rw [if_pos (Or.inl hne)]
        exact hrest
    · have hsteps : recordSteps G A t k (node, edge) = [] := if_neg hedge
      rw [hsteps, List.nil_append] at h
      rw [if_neg hedge]
      exact ih h

theorem edgeLoop_spec (hrow : ts = row.drop i)
    (h : DataSearch G A (keys visited) current (leftSteps G A current.nodeId ts k records) rest
      out) :
    match RDPQEnum.edgeLoop G A visited current ts i k records with
    | some (next, i', k', records') => ∃ out', out = next :: out' ∧
        DataSearch G A (keys (visited ++ [next])) current
          (leftSteps G A current.nodeId (row.drop i') k' records') (rest ++ [next]) out'
    | none => DataSearch G A (keys visited) current [] rest out := by
  induction ts generalizing i k records with
  | nil => exact h
  | cons t ts ih =>
    rw [RDPQEnum.edgeLoop]
    have hrecords := recordLoop_spec h
    cases hloop : RDPQEnum.recordLoop G A visited current t k records with
    | none =>
      rw [hloop] at hrecords
      have hdrop : ts = row.drop (i + 1) := by
        rw [← List.drop_drop, ← hrow, List.drop_one, List.tail_cons]
      exact ih hdrop (by rw [leftSteps_rowRecords]; exact hrecords)
    | some found =>
      obtain ⟨next, k', records'⟩ := found
      rw [hloop] at hrecords
      obtain ⟨out', rfl, hrest⟩ := hrecords
      exact ⟨out', rfl, by rw [← hrow]; exact hrest⟩

/-- The steps that the cursors of a suspended search leave for its current state. -/
def RDPQEnum.pending (G : PropertyModel V) (A : RDPQAutomaton V) (st : RDPQEnum)
    (current : SearchState) : List (EdgeLabel × Nat × Nat) :=
  match st.iter with
  | none => rdpqSteps G A current.key
  | some records => leftSteps G A current.nodeId
      ((A.fromTo current.automatonState).drop st.currentEdgeTransition) st.currentDataTransition
      records

def RDPQEnum.Ahead (G : PropertyModel V) (A : RDPQAutomaton V) (st : RDPQEnum)
    (out : List SearchState) : Prop :=
  match st.openStates with
  | [] => out = []
  | current :: rest => DataSearch G A (keys st.visited) current (st.pending G A current) rest out

variable {st : RDPQEnum} {next : SearchState} {fuel limit : Nat} {answers : List SearchState}

theorem rdpq_currentStateHasNext_spec
    (h : DataSearch G A (keys st.visited) current (st.pending G A current) rest out) :
    match RDPQEnum.currentStateHasNext G A st current with
    | some (next, i, k, records) => ∃ out', out = next :: out' ∧
        DataSearch G A (keys (st.visited ++ [next])) current
          (leftSteps G A current.nodeId ((A.fromTo current.automatonState).drop i) k records)
          (rest ++ [next]) out'
    | none => DataSearch G A (keys st.visited) current [] rest out := by
  unfold RDPQEnum.currentStateHasNext
  unfold RDPQEnum.pending at h
  cases hiter : st.iter with
  | none =>
    rw [hiter] at h
    apply edgeLoop_spec List.drop_zero.symm
    rw [leftSteps_rowRecords]
    exact h
  | some records =>
    rw [hiter] at h
    exact edgeLoop_spec rfl h

theorem RDPQEnum.ahead_iff (hopen : st.openStates = current :: rest) : st.Ahead G A out ↔
    DataSearch G A (keys st.visited) current (st.pending G A current) rest out := by
  unfold RDPQEnum.Ahead
  rw [hopen]

theorem RDPQEnum.ahead_push {out' : List SearchState} (hopen : st.openStates = current :: rest)
    (h : DataSearch G A (keys (st.visited ++ [next])) current
      (leftSteps G A current.nodeId ((A.fromTo current.automatonState).drop i) k records)
      (rest ++ [next]) out') : (st.push next i k records).Ahead G A out' := by
  have hpush : (st.push next i k records).openStates = current :: (rest ++ [next]) := by
    rw [RDPQEnum.push, hopen, List.cons_append]
  exact (RDPQEnum.ahead_iff hpush).mpr h

theorem RDPQEnum.ahead_pop (h : DataSearch G A (keys st.visited) current [] rest out) :
    RDPQEnum.Ahead G A { st with iter := none, openStates := rest } out := by
  unfold RDPQEnum.Ahead
  cases rest with
  | nil => exact h.stop_inv
  | cons current' rest' => exact h.pop_inv

/-- What a suspended search is going to return, with fuel for every round until the end. -/
def RDPQEnum.Returns (G : PropertyModel V) (A : RDPQAutomaton V) (fuel : Nat) (st : RDPQEnum)
    (answers : List SearchState) : Prop :=
  st.firstNext = false ∧ ∃ out, st.Ahead G A out ∧
    2 * out.length + st.openStates.length + 1 ≤ fuel ∧
    out.filter (·.automatonState = A.finalState) = answers

theorem RDPQEnum.loop_spec (hfirst : st.firstNext = false) (hahead : st.Ahead G A out)
    (hfuel : 2 * out.length + st.openStates.length + 1 ≤ fuel) (hlimit : fuel ≤ limit)
    (hanswers : out.filter (·.automatonState = A.finalState) = answers) :
    ∃ st', RDPQEnum.loop G A fuel st = some (answers.head?, st') ∧
      st'.Returns G A limit answers.tail := by
  -- every round uses up an entry of the queue or finds a new one
  induction fuel generalizing st out with
  | zero => omega
  | succ fuel ih =>
    rw [RDPQEnum.loop]
    cases hopen : st.openStates with
    | nil =>
      obtain rfl : out = [] := by
        unfold RDPQEnum.Ahead at hahead
        rwa [hopen] at hahead
      subst hanswers
      exact ⟨st, rfl, hfirst, [], hahead, hfuel.trans hlimit, rfl⟩
    | cons current rest =>
      have hnext := rdpq_currentStateHasNext_spec ((RDPQEnum.ahead_iff hopen).mp hahead)
      have hlength : st.openStates.length = rest.length + 1 := by rw [hopen, List.length_cons]
      dsimp only
      cases hresult : RDPQEnum.currentStateHasNext G A st current with
      | none =>
        rw [hresult] at hnext
        have hpop : 2 * out.length + rest.length + 1 ≤ fuel := by omega
        exact ih hfirst (RDPQEnum.ahead_pop hnext) hpop (by omega) hanswers
      | some result =>
        obtain ⟨next, i, k, records⟩ := result
        rw [hresult] at hnext
        obtain ⟨out', rfl, hsearch⟩ := hnext
        have hahead' := RDPQEnum.ahead_push hopen hsearch
        have hpush : (st.push next i k records).openStates.length = st.openStates.length + 1 := by
          simp [RDPQEnum.push]
        rw [List.length_cons] at hfuel
        by_cases hfinal : next.automatonState = A.finalState
        · rw [List.filter_cons_of_pos (by simpa using hfinal)] at hanswers
          subst hanswers
          simp only [hfinal, if_true]
          exact ⟨_, rfl, hfirst, out', hahead', by omega, rfl⟩
        · rw [List.filter_cons_of_neg (by simpa using hfinal)] at hanswers
          simp only [hfinal, if_false]
          exact ih hfirst hahead' (by omega) (by omega) hanswers

theorem RDPQEnum.Returns.exhausts (h : st.Returns G A fuel answers) :
    Exhausts (RDPQEnum.next G A fuel) st answers := by
  have hspec : ∀ st answers, RDPQEnum.Returns G A fuel st answers →
      ∃ st', RDPQEnum.next G A fuel st = some (answers.head?, st') ∧
        st'.Returns G A fuel answers.tail := by
    intro st answers ⟨hfirst, out, hahead, hfuel, hanswers⟩
    rw [RDPQEnum.next, if_neg (by rw [hfirst]; exact Bool.false_ne_true)]
    exact RDPQEnum.loop_spec hfirst hahead hfuel le_rfl hanswers
  exact .of_relation (RDPQEnum.Returns G A fuel) hspec h

def firstAnswer (A : RDPQAutomaton V) (current : SearchState) : List SearchState :=
  if current.automatonState = A.finalState then [current] else []

theorem RDPQEnum.next_first (hfirst : st.firstNext = true) (hopen : st.openStates = current :: rest)
    (hexists : G.provider.nodeExists current.nodeId = true) : RDPQEnum.next G A fuel st =
      if current.automatonState = A.finalState then
        some (some current, { st with firstNext := false })
      else RDPQEnum.loop G A fuel { st with firstNext := false } := by
  obtain ⟨_, _, _, _, _, _⟩ := st
  subst hfirst hopen
  simp [RDPQEnum.next, hexists]

theorem RDPQEnum.exhausts_start (hs : s ∈ G.nodes)
    (hbegin : beginStates G s [] (A.fromTo 0) = current :: rest)
    (h : DataSearch G A (keys (current :: rest)) current (rdpqSteps G A current.key) rest out)
    (hfuel : 2 * out.length + (current :: rest).length + 1 ≤ fuel) :
    Exhausts (RDPQEnum.next G A fuel) (.start G A s)
      (firstAnswer A current ++ out.filter (·.automatonState = A.finalState)) := by
  have hexists : G.provider.nodeExists current.nodeId = true := by
    obtain ⟨t, _, rfl⟩ := beginStates_root hbegin current List.mem_cons_self
    exact G.serves_provider.nodeExists_of_mem hs
  let st : RDPQEnum := { RDPQEnum.start G A s with firstNext := false }
  have hopen : st.openStates = current :: rest := hbegin
  have hvisited : st.visited = current :: rest := hbegin
  have hahead : st.Ahead G A out := by
    rw [RDPQEnum.ahead_iff hopen, hvisited]
    exact h
  have hreturns : st.Returns G A fuel (out.filter (·.automatonState = A.finalState)) :=
    ⟨rfl, out, hahead, by rwa [hopen], rfl⟩
  have hcall : RDPQEnum.next G A fuel (.start G A s) = _ :=
    RDPQEnum.next_first rfl hbegin hexists
  unfold firstAnswer
  by_cases hfinal : current.automatonState = A.finalState
  · rw [if_pos hfinal] at hcall ⊢
    exact .result hcall hreturns.exhausts
  · rw [if_neg hfinal] at hcall ⊢
    have hlater : RDPQEnum.next G A fuel st = RDPQEnum.loop G A fuel st := if_neg Bool.false_ne_true
    exact .of_next_eq (hcall.trans hlater.symm) hreturns.exhausts

theorem checkData_eq (final endId : Nat) (t : RDPQTransition V)
    (sets : List SearchState × List SearchState) (ds : List (RDPQTransition V)) :
    RDPQCheck.checkData G final endId current t node sets ds =
      checkSteps final endId current sets (dataSteps G t node ds) := by
  induction ds generalizing sets with
  | nil => rfl
  | cons d ds ih =>
    rw [RDPQCheck.checkData]
    by_cases heval : G.evalDataCheck node d.propertyChecks
    · rw [if_pos heval, dataSteps_cons_of_pos heval, checkSteps]
      simp only [ih, Prod.mk.injEq]
      rfl
    · rw [if_neg heval, dataSteps_cons_of_neg heval]
      exact ih sets

theorem checkRecords_eq (endId : Nat) (t : RDPQTransition V)
    (sets : List SearchState × List SearchState) (records : List (Nat × Nat)) :
    RDPQCheck.checkRecords G A endId current t sets records = checkSteps A.finalState endId current
      sets (records.flatMap (recordSteps G A t 0)) := by
  induction records generalizing sets with
  | nil => rfl
  | cons record records ih =>
    obtain ⟨node, edge⟩ := record
    rw [RDPQCheck.checkRecords, List.flatMap_cons]
    by_cases heval : G.evalDataCheck edge t.propertyChecks
    · have hsteps : recordSteps G A t 0 (node, edge) = dataSteps G t node (A.fromTo t.toState) := by
        unfold recordSteps
        rw [if_pos (Or.inr heval), List.drop_zero]
      rw [if_pos heval, hsteps, checkSteps_append, checkData_eq]
      obtain ⟨found, sets'⟩ :=
        checkSteps A.finalState endId current sets (dataSteps G t node (A.fromTo t.toState))
      cases found with
      | none => exact ih sets'
      | some found => rfl
    · have hsteps : recordSteps G A t 0 (node, edge) = [] :=
        if_neg fun h => h.elim (fun hne => hne rfl) heval
      rw [if_neg heval, hsteps, List.nil_append]
      exact ih sets

theorem checkEdges_eq (endId : Nat) (sets : List SearchState × List SearchState)
    (ts : List (RDPQTransition V)) : RDPQCheck.checkEdges G A endId current sets ts =
      checkSteps A.finalState endId current sets (ts.flatMap (edgeSteps G A current.nodeId)) := by
  induction ts generalizing sets with
  | nil => rfl
  | cons t ts ih =>
    rw [RDPQCheck.checkEdges, List.flatMap_cons, checkSteps_append, checkRecords_eq, edgeSteps]
    obtain ⟨found, sets'⟩ := checkSteps A.finalState endId current sets
      ((G.setIter t.typeId t.inverse current.nodeId).flatMap (recordSteps G A t 0))
    cases found with
    | none => exact ih sets'
    | some found => rfl

variable {st : RDPQCheck} {endId : Nat}

theorem RDPQCheck.loop_spec (endId : Nat) (hfirst : st.isFirst = false)
    (hopen : st.openStates = current :: rest)
    (h : DataSearch G A (keys st.visited) current (rdpqSteps G A current.key) rest out)
    (hfuel : rest.length + out.length + 2 ≤ fuel) :
    ∃ found st', RDPQCheck.loop G A endId fuel st = some (found, st') ∧
      (found.isSome ↔ ∃ r ∈ current :: (rest ++ out), ∃ x ∈ rdpqSteps G A r.key,
        x.2 = (A.finalState, endId)) ∧ st'.isFirst = false ∧ st'.openStates = [] := by
  induction fuel generalizing st current rest out with
  | zero => omega
  | succ fuel ih =>
    have hrow : RDPQCheck.checkEdges G A endId current (st.visited, st.openStates)
        (A.fromTo current.automatonState) = checkSteps A.finalState endId current
          (st.visited, current :: rest) (rdpqSteps G A current.key) := by
      rw [checkEdges_eq, hopen]
      rfl
    rw [RDPQCheck.loop]
    simp only [hopen]
    rw [← hopen, hrow]
    rcases checkSteps_spec A.finalState endId h with
      ⟨hstop, found, sets, hrun⟩ | ⟨hpass, visited', news, out', hrun, rfl, hrest⟩
    · rw [hrun]
      have hsome : ∃ r ∈ current :: (rest ++ out), ∃ x ∈ rdpqSteps G A r.key,
          x.2 = (A.finalState, endId) := ⟨current, List.mem_cons_self, hstop⟩
      exact ⟨some found, _, rfl, iff_of_true rfl hsome, hfirst, rfl⟩
    · rw [hrun]
      dsimp only [List.tail_cons]
      have hcurrent : ¬ ∃ x ∈ rdpqSteps G A current.key, x.2 = (A.finalState, endId) := by
        intro ⟨x, hx, heq⟩
        exact hpass x hx heq
      rw [← List.append_assoc]
      cases hqueue : rest ++ news with
      | nil =>
        rw [hqueue] at hrest
        obtain rfl := hrest.stop_inv
        have hnone : ¬ ∃ r ∈ current :: ([] ++ ([] : List SearchState)),
            ∃ x ∈ rdpqSteps G A r.key, x.2 = (A.finalState, endId) := by
          intro ⟨r, hr, hx⟩
          rw [List.append_nil, List.mem_singleton] at hr
          exact hcurrent (hr ▸ hx)
        obtain ⟨fuel, rfl⟩ : ∃ k, fuel = k + 1 := ⟨fuel - 1, by omega⟩
        exact ⟨none, _, rfl, iff_of_false Bool.false_ne_true hnone, hfirst, rfl⟩
      | cons current' rest' =>
        rw [hqueue] at hrest
        have hlength := congrArg List.length hqueue
        simp only [List.length_append, List.length_cons] at hlength hfuel
        let st' : RDPQCheck := ⟨st.isFirst, visited', current' :: rest'⟩
        obtain ⟨found, st'', hloop, hfound, hend⟩ :=
          ih (show st'.isFirst = false from hfirst)
            (show st'.openStates = current' :: rest' from rfl) hrest.pop_inv (by omega)
        refine ⟨found, st'', hloop, hfound.trans ?_, hend⟩
        simp only [List.cons_append, List.mem_cons, exists_eq_or_imp, hcurrent, false_or]

theorem RDPQCheck.next_first (hfirst : st.isFirst = true) (hopen : st.openStates = current :: rest)
    (hexists : G.provider.nodeExists current.nodeId = true) : RDPQCheck.next G A endId fuel st =
      if current.automatonState = A.finalState ∧ current.nodeId = endId then
        some (some current, { st with isFirst := false, openStates := [] })
      else RDPQCheck.loop G A endId fuel { st with isFirst := false } := by
  obtain ⟨_, _, _⟩ := st
  subst hfirst hopen
  simp [RDPQCheck.next, hexists]

/-- The check succeeds at the first state or by a step to the end, and then it is over. -/
theorem RDPQCheck.exhausts_start (endId : Nat) (hs : s ∈ G.nodes)
    (hbegin : beginStates G s [] (A.fromTo 0) = current :: rest)
    (h : DataSearch G A (keys (current :: rest)) current (rdpqSteps G A current.key) rest out)
    (hfuel : 2 * out.length + (current :: rest).length + 1 ≤ fuel) :
    ∃ found, Exhausts (RDPQCheck.next G A endId fuel) (.start G A s) found ∧
      (found ≠ [] ↔ current.key = (A.finalState, endId) ∨ ∃ r ∈ (current :: rest) ++ out,
        ∃ x ∈ rdpqSteps G A r.key, x.2 = (A.finalState, endId)) := by
  have hexists : G.provider.nodeExists current.nodeId = true := by
    obtain ⟨t, _, rfl⟩ := beginStates_root hbegin current List.mem_cons_self
    exact G.serves_provider.nodeExists_of_mem hs
  have hend : ∀ st : RDPQCheck, st.isFirst = false → st.openStates = [] →
      Exhausts (RDPQCheck.next G A endId fuel) st [] := by
    intro st hfirst hopen
    obtain ⟨fuel, rfl⟩ : ∃ k, fuel = k + 1 := ⟨fuel - 1, by omega⟩
    have hlast : RDPQCheck.next G A endId (fuel + 1) st = some (none, st) := by
      rw [RDPQCheck.next, if_neg (by rw [hfirst]; exact Bool.false_ne_true), RDPQCheck.loop]
      simp only [hopen]
    exact .done hlast
  have hcall : RDPQCheck.next G A endId fuel (.start G A s) = _ :=
    RDPQCheck.next_first rfl hbegin hexists
  have hkey : current.key = (A.finalState, endId) ↔
      current.automatonState = A.finalState ∧ current.nodeId = endId := Prod.mk.injEq .. ▸ Iff.rfl
  rw [hkey]
  by_cases hfinal : current.automatonState = A.finalState ∧ current.nodeId = endId
  · rw [if_pos hfinal] at hcall
    refine ⟨[current], .result hcall (hend _ rfl rfl), ?_⟩
    exact iff_of_true (List.cons_ne_nil _ _) (.inl hfinal)
  · rw [if_neg hfinal] at hcall
    let st : RDPQCheck := { RDPQCheck.start G A s with isFirst := false }
    have hopen : st.openStates = current :: rest := hbegin
    have hvisited : st.visited = current :: rest := hbegin
    have hsearch : DataSearch G A (keys st.visited) current (rdpqSteps G A current.key) rest out := by
      rw [hvisited]
      exact h
    have hbound : rest.length + out.length + 2 ≤ fuel := by
      rw [List.length_cons] at hfuel
      omega
    obtain ⟨found, st', hloop, hfound, hfirst, hopen'⟩ :=
      RDPQCheck.loop_spec endId rfl hopen hsearch hbound
    refine ⟨found.toList, ?_, ?_⟩
    · cases found with
      | none => exact .done (hcall.trans hloop)
      | some r => exact .result (hcall.trans hloop) (hend st' hfirst hopen')
    · rw [List.cons_append, ← hfound]
      cases found with
      | none => simp [hfinal]
      | some r => simp

end

/-- The enumeration returns every node that ends an accepted data path once, the check succeeds at
these, and no call reads the front of an empty queue. -/
def FindsDataPaths (G : PropertyModel V) (A : RDPQAutomaton V) (s : Nat) : Prop :=
  ∀ fuel, rdpqFuel G A ≤ fuel → ∃ results,
    Exhausts (RDPQEnum.next G A fuel) (.start G A s) results ∧
    (results.map SearchState.nodeId).Nodup ∧
    (∀ m, m ∈ results.map SearchState.nodeId ↔ EndsDataPath G A s m) ∧
    ∀ endId, ∃ found, Exhausts (RDPQCheck.next G A endId fuel) (.start G A s) found ∧
      (found ≠ [] ↔ endId ∈ results.map SearchState.nodeId)

/-- Some first check holds at the start node, and one that leads to the final state is the first of
those that hold, if there is any. -/
structure StartsRight (G : PropertyModel V) (A : RDPQAutomaton V) (s : Nat) : Prop where
  ne_nil : startTransitions G A s ≠ []
  final_first : (∃ t ∈ startTransitions G A s, t.toState = A.finalState) →
    ∀ t, (startTransitions G A s).head? = some t → t.toState = A.finalState

theorem not_exhausts_of_nil {fuel : Nat} {results : List SearchState}
    (hbegin : beginStates G s [] (A.fromTo 0) = []) :
    ¬ Exhausts (RDPQEnum.next G A fuel) (.start G A s) results := by
  intro h
  apply h.next_ne_none
  have hopen : (RDPQEnum.start G A s).openStates = [] := hbegin
  rw [RDPQEnum.next, if_pos (show (RDPQEnum.start G A s).firstNext = true from rfl), hopen]

theorem mem_answers : m ∈ (firstAnswer A current ++
      out.filter (·.automatonState = A.finalState)).map SearchState.nodeId ↔
    current.key = (A.finalState, m) ∨ ∃ r ∈ out, r.key = (A.finalState, m) := by
  have hkey : ∀ r : SearchState, r.key = (A.finalState, m) ↔
      r.automatonState = A.finalState ∧ r.nodeId = m := fun r => Prod.mk.injEq .. ▸ Iff.rfl
  have hfirst : (∃ r ∈ firstAnswer A current, r.nodeId = m) ↔ current.key = (A.finalState, m) := by
    rw [hkey]
    unfold firstAnswer
    split_ifs with hfinal <;> simp [hfinal]
  simp only [List.map_append, List.mem_append, List.mem_map, hfirst]
  simp only [List.mem_filter, decide_eq_true_eq, and_assoc, hkey]

theorem nodup_answers (hnodup : (out.map SearchState.key).Nodup)
    (hnew : ∀ r ∈ out, r.key ∉ keys (current :: rest)) :
    ((firstAnswer A current ++ out.filter (·.automatonState = A.finalState)).map
      SearchState.nodeId).Nodup := by
  rw [List.map_append, List.nodup_append]
  refine ⟨?_, filter_final_nodup hnodup, fun m hm m' hm' => ?_⟩
  · unfold firstAnswer
    split_ifs <;> simp
  · obtain ⟨r, hr, rfl⟩ := List.mem_map.mp hm
    obtain ⟨r', hr', rfl⟩ := List.mem_map.mp hm'
    simp only [List.mem_filter, decide_eq_true_eq] at hr'
    unfold firstAnswer at hr
    split_ifs at hr with hfinal
    · rw [List.mem_singleton.mp hr]
      intro hnode
      exact hnew r' hr'.1 ⟨current, List.mem_cons_self, Prod.ext (hfinal.trans hr'.2.symm) hnode⟩
    · exact absurd hr List.not_mem_nil

theorem endsDataPath_iff_entry (hDE : A.IsDE dState)
    (hbegin : beginStates G s [] (A.fromTo 0) = current :: rest)
    (h : DataSearch G A (keys (current :: rest)) current (rdpqSteps G A current.key) rest out) :
    EndsDataPath G A s m ↔ ∃ r ∈ (current :: rest) ++ out, r.key = (A.finalState, m) :=
  (endsDataPath_iff hDE).trans (exists_entry_iff hbegin h).symm

theorem exists_first (hbegin : beginStates G s [] (A.fromTo 0) = current :: rest) :
    ∃ t, (startTransitions G A s).head? = some t ∧ SearchState.root t.toState s = current := by
  have hhead : (beginStates G s [] (A.fromTo 0)).head? =
      (startTransitions G A s).head?.map fun t => SearchState.root t.toState s :=
    head?_beginStates (A.fromTo 0)
  rw [hbegin, List.head?_cons] at hhead
  exact Option.map_eq_some_iff.mp hhead.symm

theorem startTransitions_eq_nil (hbegin : beginStates G s [] (A.fromTo 0) = []) :
    startTransitions G A s = [] := by
  have hhead : (beginStates G s [] (A.fromTo 0)).head? =
      (startTransitions G A s).head?.map fun t => SearchState.root t.toState s :=
    head?_beginStates (A.fromTo 0)
  rw [hbegin] at hhead
  simpa using hhead.symm

/-- When the start node is among the answers for a first state that is final, that state is the
first one. -/
theorem final_first_of_answers (hbegin : beginStates G s [] (A.fromTo 0) = current :: rest)
    (h : DataSearch G A (keys (current :: rest)) current (rdpqSteps G A current.key) rest out)
    (ht : t ∈ startTransitions G A s) (hfinal : t.toState = A.finalState)
    (hmem : s ∈ (firstAnswer A current ++
      out.filter (·.automatonState = A.finalState)).map SearchState.nodeId) :
    current.key = (A.finalState, s) := by
  have hkey : (A.finalState, s) ∈ keys (current :: rest) := by
    rw [← hfinal, ← hbegin]
    exact mem_keys_beginStates ht
  rcases mem_answers.mp hmem with hfirst | ⟨r, hr, hrkey⟩
  · exact hfirst
  · apply absurd hkey
    rw [← hrkey]
    exact (h.nodup SearchState.key_extend_eq).2 r hr

theorem StartsRight.front (hstart : StartsRight G A s)
    (hbegin : beginStates G s [] (A.fromTo 0) = current :: rest) (ht : t ∈ startTransitions G A s)
    (heq : (t.toState, s) = (A.finalState, m)) : current.key = (A.finalState, m) := by
  obtain ⟨hfinal, rfl⟩ := Prod.mk.inj heq
  obtain ⟨first, hfirst, hcurrent⟩ := exists_first hbegin
  have hto := hstart.final_first ⟨t, ht, hfinal⟩ first hfirst
  rw [← hcurrent, ← hto]
  rfl

theorem StartsRight.mem_answers_iff (hstart : StartsRight G A s) (hDE : A.IsDE dState)
    (hbegin : beginStates G s [] (A.fromTo 0) = current :: rest)
    (h : DataSearch G A (keys (current :: rest)) current (rdpqSteps G A current.key) rest out) :
    m ∈ (firstAnswer A current ++
      out.filter (·.automatonState = A.finalState)).map SearchState.nodeId ↔
      EndsDataPath G A s m := by
  rw [mem_answers, endsDataPath_iff_entry hDE hbegin h]
  constructor
  · intro hm
    rcases hm with hkey | ⟨r, hr, hkey⟩
    · exact ⟨current, List.mem_append_left out List.mem_cons_self, hkey⟩
    · exact ⟨r, List.mem_append_right _ hr, hkey⟩
  · intro ⟨r, hr, hkey⟩
    rcases List.mem_append.mp hr with hr | hr
    · obtain ⟨t, ht, rfl⟩ := beginStates_root hbegin r hr
      exact .inl (hstart.front hbegin ht hkey)
    · exact .inr ⟨r, hr, hkey⟩

theorem StartsRight.check_iff (hstart : StartsRight G A s) (hDE : A.IsDE dState)
    (hbegin : beginStates G s [] (A.fromTo 0) = current :: rest)
    (h : DataSearch G A (keys (current :: rest)) current (rdpqSteps G A current.key) rest out) :
    (current.key = (A.finalState, m) ∨ ∃ r ∈ (current :: rest) ++ out,
      ∃ x ∈ rdpqSteps G A r.key, x.2 = (A.finalState, m)) ↔ EndsDataPath G A s m := by
  rw [endsDataPath_iff hDE]
  constructor
  · intro hstep
    apply (exists_entry_iff hbegin h).mp
    rcases hstep with hkey | ⟨r, hr, x, hx, heq⟩
    · exact ⟨current, List.mem_append_left out List.mem_cons_self, hkey⟩
    · obtain ⟨t, ht, w, hw⟩ := (exists_entry_iff hbegin h).mp ⟨r, hr, rfl⟩
      have hlast : RdpqStep G A r.key x.1 (A.finalState, m) := heq ▸ hx
      exact (exists_entry_iff hbegin h).mpr
        ⟨t, ht, w ++ [x.1], Run.concat_iff.mpr ⟨_, hw, hlast⟩⟩
  · intro ⟨t, ht, w, hw⟩
    rcases List.eq_nil_or_concat w with rfl | ⟨w, l, rfl⟩
    · exact .inl (hstart.front hbegin ht (Run.nil_iff.mp hw))
    · rw [List.concat_eq_append] at hw
      obtain ⟨u, hu, hlast⟩ := Run.concat_iff.mp hw
      obtain ⟨r, hr, rfl⟩ := (exists_entry_iff hbegin h).mpr ⟨t, ht, w, hu⟩
      exact .inr ⟨r, hr, (l, A.finalState, m), hlast, rfl⟩

/-- For a D/E automaton the two searches are right exactly when some first check holds, and the
final state is not behind another first state. -/
theorem findsDataPaths_iff (G : PropertyModel V) (A : RDPQAutomaton V) (dState : Nat → Prop)
    (s : Nat) (hA : A.InRange) (hDE : A.IsDE dState) (hs : s ∈ G.nodes) :
    FindsDataPaths G A s ↔ StartsRight G A s := by
  cases hbegin : beginStates G s [] (A.fromTo 0) with
  | nil =>
    -- the first call reads the front of an empty queue
    apply iff_of_false
    · intro h
      obtain ⟨results, hrun, _⟩ := h _ le_rfl
      exact not_exhausts_of_nil hbegin hrun
    · exact fun h => h.ne_nil (startTransitions_eq_nil hbegin)
  | cons current rest =>
    obtain ⟨out, h, hlength⟩ := exists_dataSearch hA hs hbegin
    obtain ⟨hnodup, hnew⟩ := h.nodup SearchState.key_extend_eq
    constructor
    -- the start node ends the data path without edges when a first state is final
    · intro hright
      obtain ⟨first, hfirst, hcurrent⟩ := exists_first hbegin
      refine ⟨fun hnil => by simp [hnil] at hfirst, fun ⟨t, ht, hfinal⟩ t' ht' => ?_⟩
      obtain ⟨results, hrun, _, hmem, _⟩ := hright _ le_rfl
      obtain rfl := hrun.unique (RDPQEnum.exhausts_start hs hbegin h hlength)
      have hends : EndsDataPath G A s s :=
        (endsDataPath_iff hDE).mpr ⟨t, ht, [], by rw [hfinal]; exact .nil _⟩
      have hkey := final_first_of_answers hbegin h ht hfinal ((hmem s).mpr hends)
      rw [hfirst] at ht'
      rw [← Option.some.inj ht']
      rw [← hcurrent] at hkey
      exact (Prod.mk.inj hkey).1
    · intro hstart fuel hfuel
      have hbound := hlength.trans hfuel
      refine ⟨_, RDPQEnum.exhausts_start hs hbegin h hbound, nodup_answers hnodup hnew,
        fun m => hstart.mem_answers_iff hDE hbegin h, fun endId => ?_⟩
      obtain ⟨found, hcheck, hfound⟩ := RDPQCheck.exhausts_start endId hs hbegin h hbound
      refine ⟨found, hcheck, ?_⟩
      rw [hfound, hstart.check_iff hDE hbegin h, hstart.mem_answers_iff hDE hbegin h]

end

/-- The graph `loopAndEdge`, with the value 1 under a key of node 0. -/
def valuedLoop : PropertyModel Nat where
  toQuadModel := loopAndEdge
  objectKeyValue := [(0, 7, 1)]
  keyId _ := 7
  valueId v := v

/-- A node with the value under the key `k`, and an edge of type 1 behind it. -/
def checkedEdge (value : Nat) : RDPQAutomaton Nat where
  finalState := 3
  rows := 4
  fromTo := fun i =>
    if i = 0 then [⟨0, 1, false, true, "", 0, [⟨.eq, "k", value⟩]⟩]
    else if i = 1 then [⟨1, 2, false, false, "b", 1, []⟩]
    else if i = 2 then [⟨2, 3, false, true, "", 0, []⟩]
    else []

/-- The states of `checkedEdge` with data transitions. -/
def checksNode (i : Nat) : Prop := i = 0 ∨ i = 2

theorem inRange_checkedEdge (value : Nat) : (checkedEdge value).InRange where
  toState_lt i t ht := by
    simp only [checkedEdge] at ht
    split_ifs at ht
    · rw [List.mem_singleton.mp ht]
      simp [checkedEdge]
    · rw [List.mem_singleton.mp ht]
      simp [checkedEdge]
    · rw [List.mem_singleton.mp ht]
      simp [checkedEdge]
    · exact absurd ht List.not_mem_nil

theorem isDE_checkedEdge (value : Nat) : (checkedEdge value).IsDE checksNode where
  start := .inl rfl
  final := by simp [checksNode, checkedEdge]
  data_transition i hi t ht := by
    rcases hi with rfl | rfl
    · rw [List.mem_singleton.mp ht]
      simp [checksNode]
    · rw [List.mem_singleton.mp ht]
      simp [checksNode]
  edge_transition i hi t ht := by
    simp only [checksNode, not_or] at hi
    simp only [checkedEdge, hi.1, hi.2, if_false] at ht
    split_ifs at ht
    · rw [List.mem_singleton.mp ht]
      simp [checksNode]
    · exact absurd ht List.not_mem_nil

theorem findsDataPaths_checkedEdge : FindsDataPaths valuedLoop (checkedEdge 1) 0 ↔
    StartsRight valuedLoop (checkedEdge 1) 0 :=
  findsDataPaths_iff valuedLoop (checkedEdge 1) checksNode 0 (inRange_checkedEdge 1)
    (isDE_checkedEdge 1) (by decide)

/-- With another value asked for, no first state is queued. -/
theorem not_findsDataPaths : ¬ ∀ A : RDPQAutomaton Nat, A.InRange → A.IsDE checksNode →
    FindsDataPaths valuedLoop A 0 := by
  intro h
  obtain ⟨results, hrun, _⟩ :=
    h (checkedEdge 2) (inRange_checkedEdge 2) (isDE_checkedEdge 2) _ le_rfl
  exact not_exhausts_of_nil (by decide) hrun

end Paths
end MillenniumDB
