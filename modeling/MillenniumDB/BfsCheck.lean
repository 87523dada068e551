import MillenniumDB.BfsIterEnum

/-!
# `BFSCheck`

The search for a path between two fixed nodes.  It answers as soon as a step leads to the end
node in the final state, also when that vertex was visited before.
-/

namespace MillenniumDB
namespace Paths

structure BFSCheck where
  isFirst : Bool
  visited : List SearchState
  openStates : List SearchState

/-- `begin`, from the start node. -/
def BFSCheck.start (s : Nat) : BFSCheck where
  isFirst := true
  visited := [.root 0 s]
  openStates := [.root 0 s]

def checkChildren (final endId : Nat) (current : SearchState) (t : Transition) :
    List SearchState × List SearchState → List Nat →
      Option SearchState × List SearchState × List SearchState
  | sets, [] => (none, sets)
  | sets, m :: ms =>
    let next := SearchState.step current t.inverse t.typeId t.toState m
    let found := findState sets.1 next.key
    let sets' := if found.isSome then sets else (sets.1 ++ [next], sets.2 ++ [next])
    if next.automatonState = final ∧ next.nodeId = endId then (some (found.getD next), sets')
    else checkChildren final endId current t sets' ms

def checkRow (P : PathIndexProvider) (final endId : Nat) (current : SearchState) :
    List SearchState × List SearchState → List Transition →
      Option SearchState × List SearchState × List SearchState
  | sets, [] => (none, sets)
  | sets, t :: ts =>
    match checkChildren final endId current t sets
        (P.getIterator t.typeId t.inverse current.nodeId) with
    | (some s, sets') => (some s, sets')
    | (none, sets') => checkRow P final endId current sets' ts

def checkLoop (P : PathIndexProvider) (A : RPQAutomaton) (endId : Nat) :
    Nat → BFSCheck → Option SearchState × BFSCheck
  | 0, st => (none, st)
  | fuel + 1, st =>
    match st.openStates with
    | [] => (none, st)
    | current :: _ =>
      match checkRow P A.finalState endId current (st.visited, st.openStates)
          (A.fromTo current.automatonState) with
      | (some s, sets) => (some s, { st with visited := sets.1, openStates := [] })
      | (none, sets) =>
        checkLoop P A endId fuel { st with visited := sets.1, openStates := sets.2.tail }

def BFSCheck.next (G : QuadModel) (A : RPQAutomaton) (endId fuel : Nat) (st : BFSCheck) :
    Option SearchState × BFSCheck :=
  if st.isFirst then
    let st := { st with isFirst := false }
    match st.openStates with
    | [] => (none, st)
    | current :: _ =>
      if ¬ G.provider.nodeExists current.nodeId then (none, { st with openStates := [] })
      else if A.startIsFinal ∧ current.nodeId = endId then
        (some current, { st with openStates := [] })
      else checkLoop G.provider A endId fuel st
  else checkLoop G.provider A endId fuel st

section

variable {G : QuadModel} {P : PathIndexProvider} {A : RPQAutomaton} {endId final fuel s : Nat}
  {visited rest out : List SearchState} {current : SearchState} {st : BFSCheck}
  {xs : List (EdgeLabel × Nat × Nat)} {sets : List SearchState × List SearchState}

def checkSteps (final endId : Nat) (current : SearchState) :
    List SearchState × List SearchState → List (EdgeLabel × Nat × Nat) →
      Option SearchState × List SearchState × List SearchState
  | sets, [] => (none, sets)
  | sets, x :: xs =>
    let found := findState sets.1 x.2
    let sets' := if found.isSome then sets
      else (sets.1 ++ [current.extend x], sets.2 ++ [current.extend x])
    if x.2 = (final, endId) then (some (found.getD (current.extend x)), sets')
    else checkSteps final endId current sets' xs

theorem checkSteps_append (sets : List SearchState × List SearchState)
    (xs ys : List (EdgeLabel × Nat × Nat)) :
    checkSteps final endId current sets (xs ++ ys) =
      match checkSteps final endId current sets xs with
      | (some s, sets') => (some s, sets')
      | (none, sets') => checkSteps final endId current sets' ys := by
  induction xs generalizing sets with
  | nil => rfl
  | cons x xs ih =>
    simp only [List.cons_append, checkSteps]
    by_cases hx : x.2 = (final, endId)
    · simp [hx]
    · simp only [hx, if_false]
      exact ih _

theorem checkChildren_eq (t : Transition) (sets : List SearchState × List SearchState)
    (ms : List Nat) : checkChildren final endId current t sets ms =
      checkSteps final endId current sets
        (ms.map fun m => ((t.typeId, t.inverse), (t.toState, m))) := by
  induction ms generalizing sets with
  | nil => rfl
  | cons m ms ih =>
    simp only [checkChildren, List.map_cons, checkSteps, ih, Prod.mk.injEq]
    rfl

theorem checkRow_eq (sets : List SearchState × List SearchState) (ts : List Transition) :
    checkRow P final endId current sets ts = checkSteps final endId current sets
      (ts.flatMap fun t => (P.getIterator t.typeId t.inverse current.nodeId).map fun m =>
        ((t.typeId, t.inverse), (t.toState, m))) := by
  induction ts generalizing sets with
  | nil => rfl
  | cons t ts ih =>
    rw [List.flatMap_cons, checkSteps_append, checkRow, checkChildren_eq]
    simp only [ih]

theorem checkSteps_spec {succ : Nat × Nat → List (EdgeLabel × Nat × Nat)} (final endId : Nat)
    (h : Search succ SearchState.key SearchState.extend (keys visited) current xs rest out) :
    ((∃ x ∈ xs, x.2 = (final, endId)) ∧
        ∃ s sets, checkSteps final endId current (visited, current :: rest) xs = (some s, sets)) ∨
      ((∀ x ∈ xs, x.2 ≠ (final, endId)) ∧ ∃ visited' news out',
        checkSteps final endId current (visited, current :: rest) xs =
          (none, (visited', current :: (rest ++ news))) ∧ out = news ++ out' ∧
        Search succ SearchState.key SearchState.extend (keys visited') current []
          (rest ++ news) out') := by
  induction xs generalizing visited rest out with
  | nil =>
    right
    exact ⟨by simp, visited, [], out, by simp [checkSteps], rfl, by simpa using h⟩
  | cons x xs ih =>
    by_cases hx : x.2 = (final, endId)
    · left
      exact ⟨⟨x, List.mem_cons_self, hx⟩, _, _, by rw [checkSteps, if_pos hx]⟩
    · have hmem : ∀ {p : EdgeLabel × Nat × Nat → Prop}, p x →
          ((∀ y ∈ x :: xs, p y) ↔ ∀ y ∈ xs, p y) := fun hp =>
        ⟨fun h y hy => h y (List.mem_cons_of_mem x hy), fun h => List.forall_mem_cons.mpr ⟨hp, h⟩⟩
      rw [checkSteps, if_neg hx]
      by_cases hfound : (findState visited x.2).isSome
      · rw [if_pos hfound, hmem hx]
        have hskip := (Search.skip_iff (isSome_findState.mp hfound)).mp h
        rcases ih hskip with ⟨⟨y, hy, heq⟩, hstop⟩ | hpass
        · exact .inl ⟨⟨y, List.mem_cons_of_mem x hy, heq⟩, hstop⟩
        · exact .inr hpass
      · rw [if_neg hfound, hmem hx]
        obtain ⟨out', rfl, htake⟩ := h.take_inv (mt isSome_findState.mpr hfound)
        have hsearch : Search succ SearchState.key SearchState.extend
            (keys (visited ++ [current.extend x])) current xs (rest ++ [current.extend x]) out' := by
          rw [keys_concat]
          exact htake
        rcases ih hsearch with ⟨⟨y, hy, heq⟩, hstop⟩ | ⟨hpass, visited', news, out'', hrun, rfl, hrest⟩
        · exact .inl ⟨⟨y, List.mem_cons_of_mem x hy, heq⟩, hstop⟩
        · refine .inr ⟨hpass, visited', current.extend x :: news, out'', ?_, rfl, ?_⟩
          · simpa using hrun
          · simpa using hrest

theorem checkLoop_spec (endId : Nat) (hopen : st.openStates = current :: rest)
    (h : ProductSearch P A (keys st.visited) current (productSteps P A current.key) rest out)
    (hfuel : rest.length + out.length + 1 ≤ fuel) :
    ((checkLoop P A endId fuel st).1.isSome ↔ ∃ r ∈ current :: (rest ++ out),
      ∃ x ∈ productSteps P A r.key, x.2 = (A.finalState, endId)) ∧
      (checkLoop P A endId fuel st).2.isFirst = st.isFirst ∧
      (checkLoop P A endId fuel st).2.openStates = [] := by
  induction fuel generalizing st current rest out with
  | zero => omega
  | succ fuel ih =>
    have hrow : checkRow P A.finalState endId current (st.visited, st.openStates)
        (A.fromTo current.automatonState) = checkSteps A.finalState endId current
          (st.visited, current :: rest) (productSteps P A current.key) := by
      rw [checkRow_eq, hopen]
      rfl
    rw [checkLoop]
    simp only [hopen]
    rw [← hopen, hrow]
    rcases checkSteps_spec _ _ h with ⟨hstop, s, sets, hrun⟩ | ⟨hpass, visited', news, out', hrun, rfl, hrest⟩
    · rw [hrun]
      have hsome : ∃ r ∈ current :: (rest ++ out), ∃ x ∈ productSteps P A r.key,
          x.2 = (A.finalState, endId) := ⟨current, List.mem_cons_self, hstop⟩
      exact ⟨iff_of_true rfl hsome, rfl, rfl⟩
    · rw [hrun]
      dsimp only [List.tail_cons]
      have hcurrent : ¬ ∃ x ∈ productSteps P A current.key, x.2 = (A.finalState, endId) := by
        intro ⟨x, hx, heq⟩
        exact hpass x hx heq
      rw [← List.append_assoc]
      cases hqueue : rest ++ news with
      | nil =>
        rw [hqueue] at hrest
        obtain rfl := hrest.stop_inv
        have hnone : ¬ ∃ r ∈ current :: ([] ++ ([] : List SearchState)),
            ∃ x ∈ productSteps P A r.key, x.2 = (A.finalState, endId) := by
          intro ⟨r, hr, hx⟩
          rw [List.append_nil, List.mem_singleton] at hr
          exact hcurrent (hr ▸ hx)
        cases fuel with
        | zero => exact ⟨iff_of_false (by simp [checkLoop]) hnone, rfl, rfl⟩
        | succ fuel => exact ⟨iff_of_false (by simp [checkLoop]) hnone, rfl, rfl⟩
      | cons current' rest' =>
        rw [hqueue] at hrest
        have hlength := congrArg List.length hqueue
        simp only [List.length_append, List.length_cons] at hlength hfuel
        let st' : BFSCheck := ⟨st.isFirst, visited', current' :: rest'⟩
        have hnext := ih (show st'.openStates = current' :: rest' from rfl) hrest.pop_inv (by omega)
        refine ⟨hnext.1.trans ?_, hnext.2⟩
        simp only [List.cons_append, List.mem_cons, exists_eq_or_imp, hcurrent, false_or]

/-- The vertices at the end of some step out of what a search finds are those that walks with
at least one step reach. -/
theorem exists_step_iff (hP : P.Serves G) {v : Nat × Nat}
    (h : ProductSearch P A {(0, s)} (.root 0 s) (productSteps P A (0, s)) [] out) :
    (∃ r ∈ SearchState.root 0 s :: out, ∃ x ∈ productSteps P A r.key, x.2 = v) ↔
      ∃ w, w ≠ [] ∧ Run (ProductStep G A) (0, s) w v := by
  have hroot : ProductSearch P A (insert (0, s) ∅) (.root 0 s) (productSteps P A (0, s)) [] out := by
    rw [LawfulSingleton.insert_empty_eq]
    exact h
  constructor
  · intro ⟨r, hr, x, hx, heq⟩
    have hrun : Run (ProductStep G A) (0, s) r.word r.key := by
      rcases List.mem_cons.mp hr with rfl | hr
      · exact .nil _
      · exact (found_spec hP hroot r hr).2.2.1
    exact ⟨r.word ++ [x.1], by simp, Run.concat_iff.mpr ⟨_, hrun, heq ▸ (mem_productSteps hP).mp hx⟩⟩
  · intro ⟨w, hw, hrun⟩
    obtain ⟨w, l, rfl⟩ : ∃ u l, w = u ++ [l] := by
      rcases List.eq_nil_or_concat w with rfl | ⟨u, l, rfl⟩
      · exact absurd rfl hw
      · exact ⟨u, l, List.concat_eq_append⟩
    obtain ⟨u, hu, hstep⟩ := Run.concat_iff.mp hrun
    have hx := (mem_productSteps hP).mpr hstep
    by_cases hu0 : u = (0, s)
    · rw [hu0] at hx
      exact ⟨_, List.mem_cons_self, (l, v), hx, rfl⟩
    · obtain ⟨r, hr, hkey, -⟩ := exists_found hP hroot hu0 (hu.avoiding (by simp))
      exact ⟨r, List.mem_cons_of_mem _ hr, (l, v), hkey ▸ hx, rfl⟩

theorem BFSCheck.yields_nil_of_open (hfirst : st.isFirst = false) (hopen : st.openStates = []) :
    Yields (BFSCheck.next G A endId fuel) st [] := by
  have hI : ∀ st : BFSCheck, st.isFirst = false ∧ st.openStates = [] →
      (BFSCheck.next G A endId fuel st).1 = none ∧
        (BFSCheck.next G A endId fuel st).2.isFirst = false ∧
        (BFSCheck.next G A endId fuel st).2.openStates = [] := by
    intro st ⟨hfirst, hopen⟩
    cases fuel <;> simp [BFSCheck.next, checkLoop, hfirst, hopen]
  exact .nil_of_invariant _ hI ⟨hfirst, hopen⟩

/-- The first call says whether the end node ends an accepted walk, and leaves nothing open. -/
theorem BFSCheck.next_start (hA : A.InRange) (hfuel : searchFuel G A ≤ fuel) (s endId : Nat) :
    ((BFSCheck.next G A endId fuel (.start s)).1.isSome ↔ Answer G A s endId) ∧
      (BFSCheck.next G A endId fuel (.start s)).2.isFirst = false ∧
      (BFSCheck.next G A endId fuel (.start s)).2.openStates = [] := by
  by_cases hs : s ∈ G.nodes
  · have hexists : G.provider.nodeExists s = true := G.serves_provider.nodeExists_of_mem hs
    by_cases hempty : A.startIsFinal ∧ s = endId
    · obtain ⟨hstart, rfl⟩ := hempty
      have hanswer : Answer G A s s := ⟨hs, [], .inl ⟨rfl, hstart⟩, .nil s⟩
      simp [BFSCheck.next, BFSCheck.start, SearchState.nodeId, hexists, hstart, hanswer]
    · have hnode : ¬ (A.startIsFinal ∧ (SearchState.root 0 s).nodeId = endId) := hempty
      obtain ⟨out, h, hlength⟩ := exists_search G.serves_provider hA s {(0, s)}
      have hkeys : keys [SearchState.root 0 s] = {(0, s)} := by
        ext v
        simp [keysOf, SearchState.key, SearchState.automatonState, SearchState.nodeId, eq_comm]
      have hcall : BFSCheck.next G A endId fuel (.start s) = checkLoop G.provider A endId fuel
          { BFSCheck.start s with isFirst := false } := by
        have hfound : G.provider.nodeExists (SearchState.root 0 s).nodeId = true := hexists
        simp only [BFSCheck.next, BFSCheck.start, hfound, hnode, if_true, if_false, not_true_eq_false]
      have hsearch : ProductSearch G.provider A
          (keys ({ BFSCheck.start s with isFirst := false } : BFSCheck).visited) (.root 0 s)
          (productSteps G.provider A (SearchState.root 0 s).key) [] out := by
        show ProductSearch G.provider A (keys [SearchState.root 0 s]) _ _ _ _
        rw [hkeys]
        exact h
      unfold searchFuel at hfuel
      have hbound : ([] : List SearchState).length + out.length + 1 ≤ fuel := by
        rw [List.length_nil]
        omega
      have hloop := checkLoop_spec endId rfl hsearch hbound
      rw [hcall]
      refine ⟨?_, hloop.2⟩
      rw [hloop.1, List.nil_append, exists_step_iff G.serves_provider h]
      constructor
      · rintro ⟨w, hw, hrun⟩
        obtain ⟨hauto, hwalk⟩ := run_productStep.mp hrun
        exact ⟨hs, w, .inr ⟨hw, hauto⟩, hwalk⟩
      · rintro ⟨_, w, haccepts, hwalk⟩
        rcases haccepts with ⟨rfl, hstart⟩ | ⟨hw, hauto⟩
        · exact absurd ⟨hstart, Run.nil_iff.mp hwalk⟩ hempty
        · exact ⟨w, hw, run_productStep.mpr ⟨hauto, hwalk⟩⟩
  · have hnot : ¬ Answer G A s endId := fun hanswer => hs hanswer.1
    simp [BFSCheck.next, BFSCheck.start, QuadModel.provider, SearchState.nodeId, hs, hnot]

theorem BFSCheck.yields_first (hA : A.InRange) (hfuel : searchFuel G A ≤ fuel) (s endId : Nat) :
    Yields (BFSCheck.next G A endId fuel) (.start s)
      (BFSCheck.next G A endId fuel (.start s)).1.toList := by
  obtain ⟨-, hfirst, hopen⟩ := BFSCheck.next_start hA hfuel s endId
  have hrest : Yields (BFSCheck.next G A endId fuel)
      (BFSCheck.next G A endId fuel (.start s)).2 [] := yields_nil_of_open hfirst hopen
  cases hresult : (BFSCheck.next G A endId fuel (.start s)).1 with
  | none => exact .nil_of_none hresult hrest
  | some r => exact .cons hresult hrest

/-- `BFSCheck` answers once or not at all, and it answers when the end node ends an accepted
walk from the start node. -/
theorem BFSCheck.exists_yields (hA : A.InRange) (hfuel : searchFuel G A ≤ fuel) (s endId : Nat) :
    ∃ results, Yields (BFSCheck.next G A endId fuel) (.start s) results ∧
      (results ≠ [] ↔ Answer G A s endId) := by
  refine ⟨_, BFSCheck.yields_first hA hfuel s endId, ?_⟩
  rw [← (BFSCheck.next_start hA hfuel s endId).1]
  cases (BFSCheck.next G A endId fuel (.start s)).1 <;> simp

/-- A step to a vertex that is not visited yet returns a state that the search finds there. -/
theorem checkSteps_found {v : Nat × Nat} (h : ProductSearch P A (keys visited) current xs rest out)
    (hv : v ∉ keys visited) :
    (∀ r sets, checkSteps v.1 v.2 current (visited, current :: rest) xs = (some r, sets) →
        r ∈ out ∧ r.key = v) ∧
      ∀ sets, checkSteps v.1 v.2 current (visited, current :: rest) xs = (none, sets) →
        v ∉ keys sets.1 := by
  induction xs generalizing visited rest out with
  | nil =>
    refine ⟨fun r sets hrun => ?_, fun sets hrun => ?_⟩
    · simp [checkSteps] at hrun
    · obtain rfl : (visited, current :: rest) = sets := by simpa [checkSteps] using hrun
      exact hv
  | cons x xs ih =>
    rw [checkSteps]
    by_cases hfound : (findState visited x.2).isSome
    · have hx : x.2 ≠ (v.1, v.2) := by
        intro hx
        have hmem := isSome_findState.mp hfound
        rw [hx] at hmem
        exact hv hmem
      rw [if_neg hx, if_pos hfound]
      exact ih ((Search.skip_iff (isSome_findState.mp hfound)).mp h) hv
    · obtain ⟨out', rfl, htake⟩ := h.take_inv (mt isSome_findState.mpr hfound)
      rw [if_neg hfound]
      by_cases hx : x.2 = (v.1, v.2)
      · rw [if_pos hx]
        refine ⟨fun r sets hrun => ?_, fun sets hrun => by simp at hrun⟩
        have hnone : findState visited x.2 = none := by simpa using hfound
        obtain rfl : current.extend x = r := by simpa [hnone] using congrArg Prod.fst hrun
        exact ⟨List.mem_cons_self, SearchState.key_extend.trans hx⟩
      · have hsearch : ProductSearch P A (keys (visited ++ [current.extend x])) current xs
            (rest ++ [current.extend x]) out' := by
          rw [keys_concat]
          exact htake
        have hv' : v ∉ keys (visited ++ [current.extend x]) := by
          rw [keys_concat, Set.mem_insert_iff, SearchState.key_extend]
          exact not_or.mpr ⟨fun h => hx h.symm, hv⟩
        obtain ⟨hsome, hnone⟩ := ih hsearch hv'
        rw [if_neg hx]
        refine ⟨fun r sets hrun => ?_, fun sets hrun => hnone sets hrun⟩
        obtain ⟨hr, hkey⟩ := hsome r sets hrun
        exact ⟨List.mem_cons_of_mem _ hr, hkey⟩

theorem checkLoop_found (hopen : st.openStates = current :: rest)
    (h : ProductSearch P A (keys st.visited) current (productSteps P A current.key) rest out)
    (hv : (A.finalState, endId) ∉ keys st.visited) {r : SearchState}
    (hr : (checkLoop P A endId fuel st).1 = some r) : r ∈ out ∧ r.key = (A.finalState, endId) := by
  induction fuel generalizing st current rest out with
  | zero => simp [checkLoop] at hr
  | succ fuel ih =>
    have hrow : checkRow P A.finalState endId current (st.visited, st.openStates)
        (A.fromTo current.automatonState) = checkSteps A.finalState endId current
          (st.visited, current :: rest) (productSteps P A current.key) := by
      rw [checkRow_eq, hopen]
      rfl
    obtain ⟨hsome, hnone⟩ := checkSteps_found h hv
    rw [checkLoop] at hr
    simp only [hopen] at hr
    rw [← hopen, hrow] at hr
    rcases checkSteps_spec A.finalState endId h with
      ⟨-, s, sets, hrun⟩ | ⟨-, visited', news, out', hrun, rfl, hrest⟩
    · rw [hrun] at hr
      obtain rfl : s = r := by simpa using hr
      exact hsome s sets hrun
    · have hv' := hnone _ hrun
      rw [hrun] at hr
      dsimp only [List.tail_cons] at hr
      cases hqueue : rest ++ news with
      | nil =>
        rw [hqueue] at hr
        cases fuel <;> simp [checkLoop] at hr
      | cons current' rest' =>
        rw [hqueue] at hrest hr
        let st' : BFSCheck := ⟨st.isFirst, visited', current' :: rest'⟩
        obtain ⟨hmem, hkey⟩ := ih (show st'.openStates = current' :: rest' from rfl) hrest.pop_inv hv' hr
        exact ⟨List.mem_append_right news hmem, hkey⟩

theorem shortestWalk_of_found (hs : A.finalState = 0 → A.startIsFinal) (hP : P.Serves G)
    (h : ProductSearch P A {(0, s)} (.root 0 s) (productSteps P A (0, s)) [] out)
    (hempty : ¬ (A.startIsFinal ∧ s = endId)) {r : SearchState} (hr : r ∈ out)
    (hkey : r.key = (A.finalState, endId)) : ShortestWalk G A s r := by
  have hroot : ProductSearch P A (insert (0, s) ∅) (.root 0 s) (productSteps P A (0, s)) [] out := by
    rw [LawfulSingleton.insert_empty_eq]
    exact h
  obtain ⟨hfinal, hnode⟩ := Prod.mk.inj hkey
  obtain ⟨hsource, hfollows, hrun, hne, -⟩ := found_spec hP hroot r hr
  refine ⟨hsource, hfollows, .inr ⟨hne, hfinal ▸ (run_productStep.mp hrun).1⟩, fun w haccepts hwalk => ?_⟩
  rw [show r.nodeId = endId from hnode] at hwalk
  rcases haccepts with ⟨rfl, hstart⟩ | ⟨-, hauto⟩
  · exact absurd ⟨hstart, Run.nil_iff.mp hwalk⟩ hempty
  · have hv : (A.finalState, endId) ≠ (0, s) := by
      intro hv
      obtain ⟨hzero, hend⟩ := Prod.mk.inj hv
      exact hempty ⟨hs hzero, hend.symm⟩
    have hfree : Run (fun u l v => ProductStep G A u l v ∧ v ∉ (∅ : Set (Nat × Nat))) (0, s) w
        (A.finalState, endId) := (run_productStep.mpr ⟨hauto, hwalk⟩).mono fun _ _ _ h => ⟨h, by simp⟩
    obtain ⟨r', hr', hkey', hle⟩ := exists_found hP hroot hv hfree
    have hinj := List.inj_on_of_nodup_map (h.nodup SearchState.key_extend_eq).1 hr' hr
      (hkey'.trans hkey.symm)
    exact hinj ▸ hle

/-- The check has one result when some accepted walk leads to the end node, a shortest one, and it
answers as the enumeration filtered by the end node. -/
structure ChecksEnd (G : QuadModel) (A : RPQAutomaton) (s endId : Nat)
    (results enumerated : List SearchState) : Prop where
  succeeds_iff : results ≠ [] ↔ Answer G A s endId
  shortest : ∀ r ∈ results, ShortestWalk G A s r
  agrees : results.map SearchState.nodeId =
    (enumerated.map SearchState.nodeId).filter (· = endId)

/-- What `BFSCheck` returns is a shortest walk to the end node. -/
theorem BFSCheck.shortest_next (hA : A.InRange) (hmarked : A.finalState = 0 → A.startIsFinal) {r : SearchState}
    (hr : (BFSCheck.next G A endId fuel (.start s)).1 = some r) :
    r.nodeId = endId ∧ ShortestWalk G A s r := by
  by_cases hs : s ∈ G.nodes
  · have hexists : G.provider.nodeExists s = true := G.serves_provider.nodeExists_of_mem hs
    by_cases hempty : A.startIsFinal ∧ s = endId
    · obtain ⟨hstart, rfl⟩ := hempty
      obtain rfl : SearchState.root 0 s = r := by
        simpa [BFSCheck.next, BFSCheck.start, SearchState.nodeId, hexists, hstart] using hr
      exact ⟨rfl, rfl, trivial, .inl ⟨rfl, hstart⟩, fun _ _ _ => Nat.zero_le _⟩
    · have hnode : ¬ (A.startIsFinal ∧ (SearchState.root 0 s).nodeId = endId) := hempty
      obtain ⟨out, h, -⟩ := exists_search G.serves_provider hA s {(0, s)}
      have hkeys : keys [SearchState.root 0 s] = {(0, s)} := by
        ext v
        simp [keysOf, SearchState.key, SearchState.automatonState, SearchState.nodeId, eq_comm]
      have hcall : BFSCheck.next G A endId fuel (.start s) = checkLoop G.provider A endId fuel
          { BFSCheck.start s with isFirst := false } := by
        have hfound : G.provider.nodeExists (SearchState.root 0 s).nodeId = true := hexists
        simp only [BFSCheck.next, BFSCheck.start, hfound, hnode, if_true, if_false, not_true_eq_false]
      have hnew : (A.finalState, endId) ∉ keys [SearchState.root 0 s] := by
        rw [hkeys, Set.mem_singleton_iff]
        intro hv
        obtain ⟨hzero, hend⟩ := Prod.mk.inj hv
        exact hempty ⟨hmarked hzero, hend.symm⟩
      rw [hcall] at hr
      have hsearch : ProductSearch G.provider A (keys [SearchState.root 0 s]) (.root 0 s)
          (productSteps G.provider A (SearchState.root 0 s).key) [] out := by
        rw [hkeys]
        exact h
      have hopen : ({ BFSCheck.start s with isFirst := false } : BFSCheck).openStates =
          SearchState.root 0 s :: [] := rfl
      obtain ⟨hmem, hkey⟩ := checkLoop_found hopen hsearch hnew hr
      exact ⟨(Prod.mk.inj hkey).2, shortestWalk_of_found hmarked G.serves_provider h hempty hmem hkey⟩
  · simp [BFSCheck.next, BFSCheck.start, QuadModel.provider, SearchState.nodeId, hs] at hr

/-- `BFSCheck` succeeds exactly when an accepted walk leads to the end node, with a shortest one,
as `BFSIterEnum` does. -/
theorem BFSCheck.checksEnd (G : QuadModel) (A : RPQAutomaton) (s endId fuel : Nat) (hA : A.InRange)
    (halone : A.FinalStateAlone) (hfuel : searchFuel G A ≤ fuel) :
    ∃ results enumerated, Yields (BFSCheck.next G A endId fuel) (.start s) results ∧
      Yields (BFSIterEnum.next G A fuel) (.start s) enumerated ∧
      ChecksEnd G A s endId results enumerated := by
  obtain ⟨enumerated, henum, hanswers⟩ := BFSIterEnum.yields_answers G A s fuel hA halone hfuel
  have hanswer := (BFSCheck.next_start hA hfuel s endId).1
  refine ⟨_, enumerated, BFSCheck.yields_first hA hfuel s endId, henum, ?_, fun r hr => ?_, ?_⟩
  · rw [← hanswer]
    cases (BFSCheck.next G A endId fuel (.start s)).1 <;> simp
  · exact (BFSCheck.shortest_next hA halone.start_marked (Option.mem_toList.mp hr)).2
  · rw [List.filter_eq, hanswers.nodup.count]
    cases hresult : (BFSCheck.next G A endId fuel (.start s)).1 with
    | none =>
      rw [hresult] at hanswer
      have hnot : endId ∉ enumerated.map SearchState.nodeId := by
        intro h
        simpa using hanswer.mpr ((hanswers.mem_iff endId).mp h)
      rw [if_neg hnot]
      rfl
    | some r =>
      rw [hresult] at hanswer
      rw [if_pos ((hanswers.mem_iff endId).mpr (hanswer.mp rfl))]
      simp [(BFSCheck.shortest_next hA halone.start_marked hresult).1]

theorem BFSCheck.checksEnd_loopAndEdge :
    ∃ results enumerated, Yields (BFSCheck.next loopAndEdge finalAlone 1 9) (.start 0) results ∧
      Yields (BFSIterEnum.next loopAndEdge finalAlone 9) (.start 0) enumerated ∧
      ChecksEnd loopAndEdge finalAlone 0 1 results enumerated :=
  BFSCheck.checksEnd loopAndEdge finalAlone 0 1 9 inRange_finalAlone finalStateAlone_finalAlone
    (by decide)

/-- `BFSCheck` finds the walk to node 1 that `BFSIterEnum` loses. -/
theorem BFSCheck.not_checksEnd :
    ¬ ∀ fuel, searchFuel loopAndEdge finalWithLoop ≤ fuel →
      ∃ results enumerated,
        Yields (BFSCheck.next loopAndEdge finalWithLoop 1 fuel) (.start 0) results ∧
        Yields (BFSIterEnum.next loopAndEdge finalWithLoop fuel) (.start 0) enumerated ∧
        ChecksEnd loopAndEdge finalWithLoop 0 1 results enumerated := by
  intro h
  obtain ⟨results, enumerated, hresults, henum, hchecks⟩ := h 9 (by decide)
  have hcheck : results[0]?.map SearchState.nodeId = some 1 := by
    rw [← hresults 0]
    decide
  have hone : enumerated[1]? = none := by
    rw [← henum 1]
    decide
  have hfirst : enumerated[0]? = some (.root 1 0) := by
    rw [← henum 0]
    decide
  have hmem : 1 ∈ (enumerated.map SearchState.nodeId).filter (· = 1) := by
    rw [← hchecks.agrees]
    apply List.mem_of_getElem? (i := 0)
    rw [List.getElem?_map]
    exact hcheck
  simp only [List.mem_filter, List.mem_map, decide_true, and_true] at hmem
  obtain ⟨r, hr, hnode⟩ := hmem
  obtain ⟨i, hi, rfl⟩ := List.getElem_of_mem hr
  have hlength := List.getElem?_eq_none_iff.mp hone
  obtain rfl : i = 0 := by omega
  rw [List.getElem?_eq_getElem hi, Option.some_inj] at hfirst
  rw [hfirst] at hnode
  exact absurd hnode (by decide)

end

end Paths
end MillenniumDB
