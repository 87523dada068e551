import MillenniumDB.Lib.LevelSearch
import MillenniumDB.RpqTrim

/-!
# The distances to the final state

`calculate_distance_to_final_state` searches backwards over `to_from_connections`, where silent
transitions are left that `delete_epsilon_transitions` took from the other table only.  The source of
such a transition reads what its target reads up to the final state, so that the search finds no
way that is shorter than one of `from_to_connections`.
-/

namespace MillenniumDB
namespace RPQAutomaton

variable {A B C D : RPQAutomaton} {P : Transition → Prop} {i j q : Nat} {l : Option PathLabel}
  {t u : Transition} {w : List PathLabel}

/-- Every row belongs to a state that `total_states` counts. -/
def RowsCounted (A : RPQAutomaton) : Prop := A.rows ≤ A.totalStates

theorem rowsCounted_addTransition : (A.addTransition t).RowsCounted := by
  rw [RowsCounted, totalStates_addTransition, rows_addTransition]

theorem rowsCounted_foldl {α : Type*} {f : RPQAutomaton → α → RPQAutomaton} {xs : List α}
    (hf : ∀ B, B.RowsCounted → ∀ x ∈ xs, (f B x).RowsCounted) (hA : A.RowsCounted) :
    (xs.foldl f A).RowsCounted := by
  induction xs generalizing A with
  | nil => exact hA
  | cons x xs ih =>
    exact ih (fun B hB y hy => hf B hB y (List.mem_cons_of_mem x hy)) (hf A hA x List.mem_cons_self)

theorem rowsCounted_deleteEpsilonTransitions (hA : A.RowsCounted) :
    A.deleteEpsilonTransitions.RowsCounted := by
  apply rowsCounted_foldl _ hA
  intro B hB state _
  apply rowsCounted_foldl (A := B.withEndStates (B.closureEnds state)) _ hB
  intro B hB t _
  apply rowsCounted_foldl (f := connectThrough state) _ hB
  intro B hB s _
  apply rowsCounted_foldl _ hB
  intro B hB t _
  split_ifs
  · exact hB
  · exact rowsCounted_addTransition

theorem rowsCounted_deleteUnreachableStates (hA : A.RowsCounted) :
    A.deleteUnreachableStates.RowsCounted := by
  apply rowsCounted_foldl _ hA
  intro B hB i _
  split_ifs
  · exact hB
  · exact hB

theorem rowsCounted_setFinalState (hA : A.RowsCounted) : A.setFinalState.RowsCounted := by
  unfold setFinalState
  split
  · exact hA
  · apply rowsCounted_foldl
    · intro B hB i _
      apply rowsCounted_foldl _ hB
      intro B hB t _
      split_ifs
      · exact rowsCounted_addTransition
      · exact hB
    · exact Nat.le_succ A.rows

theorem rowsCounted_deleteAbsortionStates (hA : A.RowsCounted) :
    A.deleteAbsortionStates.RowsCounted := by
  have hfold : ((List.range A.rows).foldl (fun B i =>
      if i ∈ A.reachableStates A.finalState true then B else B.dropTransitions i) A).RowsCounted := by
    apply rowsCounted_foldl _ hA
    intro B hB i _
    split_ifs
    · exact hB
    · exact hB
  exact hfold

theorem epsRun_of_setFinalState (hA : A.SyncedOn NotSilent) (hsilent : ∀ i j, ¬ A.Edge i none j)
    (hend : ∀ e ∈ A.endStates, e < A.rows) (hmany : ∀ f, A.endStates ≠ [f])
    (h : EpsRun A.setFinalState.Edge i w A.rows) (hi : i < A.rows) :
    w ∈ Accepts A.Edge (· ∈ A.endStates) i ∧ w ≠ [] := by
  obtain ⟨-, -, -, hedge⟩ := setFinalState_fresh hA hsilent hend hmany
  generalize hfinal : A.rows = final at h
  induction h with
  | nil q => exact absurd hi (by omega)
  | eps he =>
    rcases (hedge _ _ _).mp he with he | ⟨-, e, -, he⟩
    · exact absurd he (hsilent _ _)
    · exact absurd he (hsilent _ _)
  | sym ha hrun ih =>
    refine ⟨?_, List.cons_ne_nil _ _⟩
    rcases (hedge _ _ _).mp ha with ha | ⟨rfl, e, he, ha⟩
    · obtain ⟨⟨e, he, hw⟩, -⟩ := ih (hA.edge_lt ha).2 hfinal
      exact ⟨e, he, .sym ha hw⟩
    · -- no edge leaves the new state
      cases hrun with
      | nil => exact ⟨e, he, .sym ha (.nil e)⟩
      | eps he' =>
        rcases (hedge _ _ _).mp he' with he' | ⟨-, e, -, he'⟩
        · exact absurd he' (hsilent _ _)
        · exact absurd he' (hsilent _ _)
      | sym ha' =>
        rcases (hedge _ _ _).mp ha' with ha' | ⟨-, e, -, ha'⟩
        · exact absurd (hA.edge_lt ha').1 (lt_irrefl _)
        · exact absurd (hA.edge_lt ha').1 (lt_irrefl _)

def StaleToFinal (D : RPQAutomaton) : Prop :=
  ∀ u j w, ¬ NotSilent u → u ∈ D.toFrom j → EpsRun D.Edge j w D.finalState →
    EpsRun D.Edge u.fromState w D.finalState

theorem staleToFinal_setFinalState (hC : Reached A C) (hend : ∀ e ∈ C.endStates, e < C.rows) :
    C.setFinalState.StaleToFinal := by
  intro u j w hu hmem h
  by_cases hone : ∃ f, C.endStates = [f]
  · obtain ⟨f, hf⟩ := hone
    have hset : C.setFinalState = { C with finalState := f, startIsFinal := f = 0 } := by
      simp only [setFinalState, hf]
    rw [hset] at hmem h ⊢
    obtain ⟨e, he, hw⟩ := hC.stale u j hu hmem ⟨f, by simp [hf], h⟩
    obtain rfl : e = f := by simpa [hf] using he
    exact hw
  · have hmany : ∀ f, C.endStates ≠ [f] := fun f hf => hone ⟨f, hf⟩
    have hrows : C.RowsNotSilent := fun i t ht =>
      label_ne_none_iff.mp fun h => hC.no_silent i t.toState ⟨t, ht, rfl, h⟩
    obtain ⟨-, hfinal, -, hedge⟩ := setFinalState_fresh hC.syncedOn hC.no_silent hend hmany
    rw [hfinal] at h ⊢
    have hold := oldSilent_setFinalState hrows u j hu hmem
    have hj : j < C.rows := by
      rw [← hC.syncedOn.toState_eq hold]
      exact (hC.syncedOn.toFrom_lt_rows hold).2
    obtain ⟨haccepts, hne⟩ := epsRun_of_setFinalState hC.syncedOn hC.no_silent hend hmany h hj
    obtain ⟨e, he, hw⟩ := hC.stale u j hu hold haccepts
    -- the last edge of the word is redirected
    rcases hw.last_edge with ⟨-, hnil⟩ | ⟨v, l, r, rfl, hv, hlast⟩
    · exact absurd hnil hne
    · have hv' := hv.mono fun i l j h => (hedge i l j).mpr (.inl h)
      exact hv'.concat ((hedge r l C.rows).mpr (.inr ⟨rfl, e, he, hlast⟩))

theorem oldSilent_deleteAbsortionStates : OldSilent D D.deleteAbsortionStates := by
  have hdrop : ∀ B : RPQAutomaton, True → ∀ i ∈ List.range D.rows, True ∧
      OldSilent B (if i ∈ D.reachableStates D.finalState true then B else B.dropTransitions i) := by
    intro B _ i _
    split_ifs
    · exact ⟨trivial, fun _ _ _ => id⟩
    · exact ⟨trivial, fun u j _ h => (mem_toFrom_dropTransitions.mp h).1⟩
  exact (oldSilent_foldl trivial hdrop).2

theorem StaleToFinal.deleteAbsortionStates (h : D.StaleToFinal) (hD : Collapsed D) :
    D.deleteAbsortionStates.StaleToFinal := by
  intro u j w hu hmem hrun
  obtain ⟨-, hfinal⟩ := rows_finalState_deleteAbsortionStates hD.syncedOn
  rw [hfinal] at hrun ⊢
  apply hD.epsRun_of_coreachable _ ⟨[], .nil _⟩
  apply h u j w hu (oldSilent_deleteAbsortionStates u j hu hmem)
  exact hrun.mono fun i l j h => (hD.edge_iff.mp h).1

def before (A : RPQAutomaton) (state : Nat) : List Nat := (A.toFrom state).map Transition.fromState

theorem distanceLoop_eq (fuel : Nat) : ∀ (queue : List (Nat × Nat)) (visited : List Nat)
    (distance : Nat → Nat), distanceLoop A.toFrom fuel queue visited distance =
      levelLoop A.before fuel queue visited distance := by
  induction fuel with
  | zero => exact fun _ _ _ => rfl
  | succ fuel ih =>
    intro queue visited distance
    cases queue with
    | nil => rfl
    | cons q queue =>
      obtain ⟨state, d⟩ := q
      rw [distanceLoop, levelLoop, ih, ih, before, List.map_map]
      rfl

/-- The search gives each state the least number of steps backwards from the final state. -/
theorem isDistance_calculate (hA : A.SyncedOn P) : IsDistance A.before A.finalState (2 ^ 32 - 1)
    A.calculateDistanceToFinalState.distanceToFinal := by
  have hrow : ∀ state, state ∉ Finset.range A.rows → A.before state = [] := by
    intro state hstate
    rw [before, List.map_eq_nil_iff, List.eq_nil_iff_forall_not_mem]
    intro t ht
    rw [Finset.mem_range, ← hA.toState_eq ht] at hstate
    exact hstate (hA.toFrom_lt_rows ht).2
  have hfuel : LevelSearch.work A.before (Finset.range A.rows) [(A.finalState, 0)] [] <
      2 + ∑ i ∈ Finset.range A.rows, (A.toFrom i).length := by
    simp only [LevelSearch.work, exploreCost, List.not_mem_nil, not_false_eq_true, Finset.filter_true,
      before, List.length_map, List.length_singleton]
    omega
  have hinit := @LevelSearch.init Nat A.before A.finalState (2 ^ 32 - 1)
  have hloop := LevelSearch.isDistance_levelLoop hrow hinit hfuel
  rw [← distanceLoop_eq] at hloop
  exact hloop

theorem exists_word_of_reachedIn (hA : A.SyncedOn NotSilent) (hstale : A.StaleToFinal) {n : Nat}
    (h : ReachedIn A.before A.finalState n q) : ∃ w, w.length ≤ n ∧ EpsRun A.Edge q w A.finalState := by
  induction h with
  | source => exact ⟨[], le_rfl, .nil _⟩
  | step _ hmem ih =>
    obtain ⟨w, hlength, hw⟩ := ih
    obtain ⟨t, ht, rfl⟩ := List.mem_map.mp hmem
    by_cases hs : NotSilent t
    · have hto := hA.toState_eq ht
      obtain ⟨a, ha⟩ := Option.ne_none_iff_exists'.mp (label_ne_none_iff.mpr hs)
      refine ⟨a :: w, Nat.succ_le_succ hlength, .sym ⟨t, ?_, hto, ha⟩ hw⟩
      exact (hA.mirror t hs).mpr (hto ▸ ht)
    · exact ⟨w, Nat.le_succ_of_le hlength, hstale t _ w hs ht hw⟩

theorem reachedIn_of_run (hA : A.SyncedOn NotSilent) (hsilent : ∀ i j, ¬ A.Edge i none j)
    (h : EpsRun A.Edge q w A.finalState) : ReachedIn A.before A.finalState w.length q := by
  generalize hfinal : A.finalState = final at h ⊢
  induction h with
  | nil => exact .source
  | eps he => exact absurd he (hsilent _ _)
  | sym ha _ ih =>
    obtain ⟨t, ht, rfl, hlabel⟩ := ha
    have hs : NotSilent t := label_ne_none_iff.mp (by simp [hlabel])
    have hfrom := hA.fromState_eq ht
    refine (ih hfinal).step (List.mem_map.mpr ⟨t, ?_, hfrom⟩)
    exact (hA.mirror t hs).mp (hfrom ▸ ht)

/-- `distance_to_final` has an entry for every state that the search reaches, and it holds the least
number of transitions to the final state, or UINT32_MAX. -/
structure DistancesRight (A : RPQAutomaton) : Prop where
  counted : ∀ s n, ReachedIn A.before A.finalState n s → s < A.totalStates
  le : ∀ s w, Run A.Step s w A.finalState → A.distanceToFinal s ≤ w.length
  exists_run : ∀ s w, Run A.Step s w A.finalState →
    ∃ v, Run A.Step s v A.finalState ∧ v.length = A.distanceToFinal s
  unreached : ∀ s, (∀ w, ¬ Run A.Step s w A.finalState) → A.distanceToFinal s = 2 ^ 32 - 1

theorem distancesRight_finish (hA : A.SyncedOn NotSilent) (hsilent : ∀ i j, ¬ A.Edge i none j)
    (hstale : A.StaleToFinal) (hcounted : A.RowsCounted) (hfinal : A.finalState < A.rows)
    (f : String → Nat) : (A.finish f).DistancesRight := by
  have hdistance := isDistance_calculate hA
  have hstep : (A.finish f).Step = A.Step := by
    funext i a j
    exact propext step_finish
  have hshort : ∀ s n, ReachedIn A.before A.finalState n s →
      ∃ w, w.length ≤ n ∧ Run A.Step s w A.finalState := by
    intro s n h
    obtain ⟨w, hlength, hw⟩ := exists_word_of_reachedIn hA hstale h
    exact ⟨w, hlength, (run_step_iff hsilent).mp hw⟩
  have hlong : ∀ s w, Run A.Step s w A.finalState → ReachedIn A.before A.finalState w.length s :=
    fun s w h => reachedIn_of_run hA hsilent ((run_step_iff hsilent).mpr h)
  have hle : ∀ s w, Run A.Step s w A.finalState →
      A.calculateDistanceToFinalState.distanceToFinal s ≤ w.length :=
    fun s w h => hdistance.le _ s (hlong s w h)
  refine ⟨?_, ?_, ?_, ?_⟩
  · intro s n h
    have hlt : s < A.rows := by
      cases h with
      | source => exact hfinal
      | step _ hmem =>
        obtain ⟨t, ht, rfl⟩ := List.mem_map.mp hmem
        exact (hA.toFrom_lt_rows ht).1
    exact Nat.lt_of_lt_of_le hlt hcounted
  · rw [hstep]
    exact hle
  · rw [hstep]
    intro s w h
    obtain ⟨v, hlength, hv⟩ := hshort s _ (hdistance.reached _ s (hlong s w h))
    exact ⟨v, hv, Nat.le_antisymm hlength (hle s v hv)⟩
  · rw [hstep]
    intro s hs
    apply hdistance.far s
    intro n hn
    obtain ⟨w, -, hw⟩ := hshort s n hn
    exact hs w hw

theorem syncedOn_setFinalState (hA : A.SyncedOn NotSilent) (hsilent : ∀ i j, ¬ A.Edge i none j)
    (hend : ∀ e ∈ A.endStates, e < A.rows) : A.setFinalState.SyncedOn NotSilent := by
  by_cases hone : ∃ f, A.endStates = [f]
  · obtain ⟨f, hf⟩ := hone
    have hset : A.setFinalState = { A with finalState := f, startIsFinal := f = 0 } := by
      simp only [setFinalState, hf]
    rw [hset]
    exact ⟨hA.fromState_eq, hA.toState_eq, hA.mirror, hA.nodup_fromTo, hA.nodup_toFrom, hA.lt_rows,
      hA.toFrom_lt_rows⟩
  · exact (setFinalState_fresh hA hsilent hend fun f hf => hone ⟨f, hf⟩).1

theorem redirectRow_of_nil (h : A.endStates = []) (i : Nat) : A.redirectRow i = A := by
  unfold redirectRow
  generalize A.fromTo i = ts
  induction ts with
  | nil => rfl
  | cons t ts ih =>
    rw [List.foldl_cons, if_neg (by simp [h])]
    exact ih

theorem endStates_ne_nil (h : A.setFinalState.finalState < A.setFinalState.rows) :
    A.endStates ≠ [] := by
  intro hnil
  have hfold : ∀ (ss : List Nat) (B : RPQAutomaton), B.endStates = [] → ss.foldl redirectRow B = B := by
    intro ss
    induction ss with
    | nil => exact fun _ _ => rfl
    | cons s ss ih =>
      intro B hB
      rw [List.foldl_cons, redirectRow_of_nil hB, ih B hB]
  unfold setFinalState at h
  simp only [hnil] at h
  rw [hfold _ _ rfl] at h
  exact absurd h (lt_irrefl _)

/-- After the rewrites the distances are right. -/
theorem distancesRight_of_trim (hA : A.Synced) (hnodup : A.endStates.Nodup)
    (hend : ∀ e ∈ A.endStates, e = 0 ∨ e < A.rows) (hcounted : A.RowsCounted) (hB : A.trim = some B)
    (f : String → Nat) : (B.finish f).DistancesRight := by
  have hC := reached hA hnodup
  obtain ⟨hresolved, -⟩ := resolved_deleteEpsilonTransitions hA.notSilent
  rw [trim, hresolved.syncedOn.getReachableStates_eq, hresolved.rows_eq] at hB
  have hCcounted := rowsCounted_deleteUnreachableStates (rowsCounted_deleteEpsilonTransitions hcounted)
  generalize A.deleteEpsilonTransitions.deleteUnreachableStates = C at *
  split_ifs at hB with hpos
  · have hAend : ∀ e ∈ A.endStates, e < A.rows := by
      intro e he
      rcases hend e he with rfl | h
      · exact hpos
      · exact h
    have hCend := hC.end_lt hAend
    rw [Option.bind_some] at hB
    obtain ⟨states, hstates, rfl⟩ := Option.map_eq_some_iff.mp hB
    have hsync := syncedOn_setFinalState hC.syncedOn hC.no_silent hCend
    rw [hsync.getReachableStates_eq] at hstates
    split_ifs at hstates with hfinal
    · have hD : Collapsed C.setFinalState := by
        by_cases hone : ∃ f, C.endStates = [f]
        · obtain ⟨f, hf⟩ := hone
          exact collapsed_of_one hC hCend hf
        · exact collapsed_of_many hC hCend (endStates_ne_nil hfinal) fun f hf => hone ⟨f, hf⟩
      obtain ⟨hrows, hEfinal⟩ := rows_finalState_deleteAbsortionStates hD.syncedOn
      apply distancesRight_finish (kept_deleteAbsortionStates hD.syncedOn).1
      · intro i j h
        exact hD.no_silent i j (hD.edge_iff.mp h).1
      · exact (staleToFinal_setFinalState hC hCend).deleteAbsortionStates hD
      · exact rowsCounted_deleteAbsortionStates (rowsCounted_setFinalState hCcounted)
      · rw [hrows, hEfinal]
        exact hfinal
  · cases hB

theorem rowsCounted_ofTransitions (ts : List Transition) (ends : List Nat) :
    (ofTransitions ts ends).RowsCounted := by
  have hfold : (ts.foldl addTransition {}).RowsCounted := by
    apply rowsCounted_foldl
    · intro B _ t _
      exact rowsCounted_addTransition
    · exact Nat.zero_le 1
  exact hfold

/-- The words `ab` and `cb`; the silent transition stays in the row of its target. -/
def abOrCb : RPQAutomaton :=
  ofTransitions [⟨0, 1, "a", false, 0⟩, ⟨1, 2, "", false, 0⟩, ⟨2, 3, "b", false, 0⟩,
    ⟨0, 2, "c", false, 0⟩] [3]

theorem distancesRight_abOrCb : ∃ B, abOrCb.trim = some B ∧ (∃ t ∈ B.toFrom 2, ¬ NotSilent t) ∧
    (B.finish fun _ => 0).DistancesRight := by
  have hstale : ∃ B, abOrCb.trim = some B ∧ ∃ t ∈ B.toFrom 2, t.type.isEmpty = true :=
    ⟨abOrCb.trim.get (by decide +kernel), by simp, by decide +kernel⟩
  obtain ⟨B, hB, t, ht, hs⟩ := hstale
  exact ⟨B, hB, ⟨t, ht, not_not_intro hs⟩,
    distancesRight_of_trim (synced_ofTransitions _ _) (by decide) (by decide)
      (rowsCounted_ofTransitions _ _) hB _⟩

end RPQAutomaton
end MillenniumDB
