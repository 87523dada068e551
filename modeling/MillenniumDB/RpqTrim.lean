import MillenniumDB.RpqTransform

/-!
# The states that are left

What `transform_automaton` leaves when `delete_epsilon_transitions`, `delete_unreachable_states`,
`set_final_state` and `delete_absortion_states` have run.  The first of them erases the silent
transitions from one table only.  A silent transition that stays in `to_from_connections` leads
from a state that accepts all that its target accepts, so that the last search, which follows it
backwards, still finds states only from which the final state is reached.
-/

namespace MillenniumDB
namespace RPQAutomaton

/-- `get_reachable_states`, which reads the row of every state that it visits. -/
def getReachableStates (A : RPQAutomaton) (source : Nat) (inverse : Bool) : Option (List Nat) :=
  if ∀ s ∈ A.reachableStates source inverse, s < A.rows then some (A.reachableStates source inverse)
  else none

/-- The four rewrites in their order, unless one reads past the end of a table. -/
def trim (A : RPQAutomaton) : Option RPQAutomaton :=
  let B := A.deleteEpsilonTransitions
  let D := B.deleteUnreachableStates.setFinalState
  (B.getReachableStates 0 false).bind fun _ =>
    (D.getReachableStates D.finalState true).map fun _ => D.deleteAbsortionStates

/-- A state that has transitions, the start state or the final state. -/
def Remaining (A : RPQAutomaton) (q : Nat) : Prop :=
  q = 0 ∨ q = A.finalState ∨ ∃ i l j, A.Edge i l j ∧ (q = i ∨ q = j)

structure Trimmed (A B : RPQAutomaton) : Prop where
  no_silent : ∀ i j, ¬ B.Edge i none j
  final_lt : B.finalState < B.rows
  reachable : ∀ q, B.Remaining q → ∃ w, Run B.Step 0 w q
  coreachable : ∀ q, B.Remaining q → ∃ w, Run B.Step q w B.finalState
  accepts_iff : ∀ w, B.accepts w ↔ w ∈ A.language

def Trims (A : RPQAutomaton) : Prop := ∃ B, A.trim = some B ∧ Trimmed A B

variable {A B C D : RPQAutomaton} {P : Transition → Prop} {i j q : Nat} {l : Option PathLabel}
  {t u : Transition}

theorem SyncedOn.reachable_lt (hA : A.SyncedOn P) {inverse : Bool} {source : Nat}
    (hsource : source < A.rows) : ∀ s ∈ A.reachableStates source inverse, s < A.rows := by
  intro s hs
  rw [hA.mem_reachableStates] at hs
  induction hs with
  | refl => exact hsource
  | tail _ hstep _ =>
    unfold stateSuccessors at hstep
    split_ifs at hstep
    · obtain ⟨t, ht, rfl⟩ := List.mem_map.mp hstep
      exact (hA.toFrom_lt_rows ht).1
    · obtain ⟨t, ht, rfl⟩ := List.mem_map.mp hstep
      exact (hA.lt_rows ht).2

theorem SyncedOn.getReachableStates_eq (hA : A.SyncedOn P) (source : Nat) (inverse : Bool) :
    A.getReachableStates source inverse =
      if source < A.rows then some (A.reachableStates source inverse) else none := by
  unfold getReachableStates
  congr 1
  apply propext
  constructor
  · exact fun h => h source ((hA.mem_reachableStates inverse).mpr .refl)
  · exact fun h => hA.reachable_lt h

theorem SyncedOn.epsRun_of_reachable (hA : A.SyncedOn P) (h : q ∈ A.reachableStates i false) :
    ∃ w, EpsRun A.Edge i w q := by
  rw [hA.mem_reachableStates] at h
  induction h with
  | refl => exact ⟨[], .nil i⟩
  | tail _ hstep ih =>
    obtain ⟨w, hw⟩ := ih
    obtain ⟨t, ht, hto⟩ := List.mem_map.mp hstep
    exact ⟨_, hw.concat ⟨t, ht, hto, rfl⟩⟩

/-- The silent transitions in `to_from_connections` are old ones. -/
def OldSilent (A B : RPQAutomaton) : Prop :=
  ∀ u j, ¬ NotSilent u → u ∈ B.toFrom j → u ∈ A.toFrom j

theorem OldSilent.trans (h : OldSilent A B) (h' : OldSilent B C) : OldSilent A C :=
  fun u j hu hC => h u j hu (h' u j hu hC)

theorem oldSilent_foldl {α : Type*} {f : RPQAutomaton → α → RPQAutomaton} {xs : List α}
    {I : RPQAutomaton → Prop} (hA : I A) (hf : ∀ B, I B → ∀ x ∈ xs, I (f B x) ∧ OldSilent B (f B x)) :
    I (xs.foldl f A) ∧ OldSilent A (xs.foldl f A) := by
  induction xs generalizing A with
  | nil => exact ⟨hA, fun _ _ _ => id⟩
  | cons x xs ih =>
    obtain ⟨hI, hx⟩ := hf A hA x List.mem_cons_self
    obtain ⟨hrest, hold⟩ := ih hI fun B hB y hy => hf B hB y (List.mem_cons_of_mem x hy)
    exact ⟨hrest, hx.trans hold⟩

theorem oldSilent_addTransition (ht : NotSilent t) : OldSilent A (A.addTransition t) := by
  intro u j hu hmem
  unfold addTransition at hmem
  split_ifs at hmem
  · exact hmem
  · rcases mem_pushRow.mp hmem with h | ⟨-, rfl⟩
    · exact h
    · exact absurd ht hu

theorem oldSilent_deleteEpsilonTransitions : OldSilent A A.deleteEpsilonTransitions := by
  refine (oldSilent_foldl (I := fun _ => True) trivial fun A _ state _ => ⟨trivial, ?_⟩).2
  have hends : OldSilent A (A.withEndStates (A.closureEnds state)) := fun _ _ _ => id
  refine hends.trans (oldSilent_foldl (I := fun _ => True) trivial fun B _ t _ => ⟨trivial, ?_⟩).2
  have hconnect : OldSilent B ((A.epsilonClosure state).foldl (connectThrough state) B) := by
    refine (oldSilent_foldl (I := fun _ => True) trivial fun B _ s _ => ⟨trivial, ?_⟩).2
    refine (oldSilent_foldl (I := fun _ => True) trivial fun B _ t _ => ⟨trivial, ?_⟩).2
    split_ifs with h
    · exact fun _ _ _ => id
    · exact oldSilent_addTransition h
  exact hconnect.trans fun _ _ _ => id

def RowsNotSilent (A : RPQAutomaton) : Prop := ∀ i, ∀ t ∈ A.fromTo i, NotSilent t

theorem RowsNotSilent.addTransition (hA : A.RowsNotSilent) (ht : NotSilent t) :
    (A.addTransition t).RowsNotSilent := by
  intro i u hu
  rcases mem_fromTo_addTransition.mp hu with h | ⟨-, rfl⟩
  · exact hA i u h
  · exact ht

theorem oldSilent_setFinalState (hA : A.RowsNotSilent) : OldSilent A A.setFinalState := by
  unfold setFinalState
  split
  · exact fun _ _ _ => id
  · refine (oldSilent_foldl (I := RowsNotSilent) ?_ fun B hB i _ => ?_).2
    · exact hA
    · refine oldSilent_foldl (I := RowsNotSilent) hB fun C hC t ht => ?_
      have hs : NotSilent t := hB i t ht
      split_ifs
      · exact ⟨hC.addTransition hs, oldSilent_addTransition hs⟩
      · exact ⟨hC, fun _ _ _ => id⟩

/-- What `delete_epsilon_transitions` leaves accepts the same words from every state. -/
theorem accepts_deleteEpsilonTransitions (hA : A.SyncedOn NotSilent) (q : Nat) :
    Accepts A.deleteEpsilonTransitions.Edge (· ∈ A.deleteEpsilonTransitions.endStates) q =
      Accepts A.Edge (· ∈ A.endStates) q := by
  have key : ∀ (ss : List Nat) (A : RPQAutomaton), A.SyncedOn NotSilent → (∀ s ∈ ss, s < A.rows) →
      Accepts (ss.foldl deleteEpsilonsOf A).Edge (· ∈ (ss.foldl deleteEpsilonsOf A).endStates) q =
        Accepts A.Edge (· ∈ A.endStates) q := by
    intro ss
    induction ss with
    | nil => exact fun _ _ _ => rfl
    | cons s ss ih =>
      intro A hA hlt
      have hres := (resolved_deleteEpsilonsOf hA (hlt s List.mem_cons_self)).1
      rw [List.foldl_cons, ih _ hres.syncedOn fun r hr => hres.rows_eq ▸ hlt r (List.mem_cons_of_mem s hr)]
      exact accepts_deleteEpsilonsOf hA (hlt s List.mem_cons_self) q
  exact key _ _ hA fun s hs => List.mem_range.mp hs

theorem nodup_setInsert {x : Nat} {s : List Nat} (h : s.Nodup) : (setInsert x s).Nodup := by
  unfold setInsert
  split_ifs with hx
  · exact h
  · rw [(List.perm_orderedInsert (· ≤ ·) x s).nodup_iff]
    exact List.nodup_cons.mpr ⟨hx, h⟩

theorem nodup_foldl_setInsert {closure ends : List Nat} {state : Nat} (h : ends.Nodup) :
    (closure.foldl (fun ends s => if s ∈ ends then setInsert state ends else ends) ends).Nodup := by
  induction closure generalizing ends with
  | nil => exact h
  | cons s closure ih =>
    rw [List.foldl_cons]
    split_ifs
    · exact ih (nodup_setInsert h)
    · exact ih h

theorem nodup_endStates_deleteEpsilonTransitions (hA : A.SyncedOn NotSilent) (h : A.endStates.Nodup) :
    A.deleteEpsilonTransitions.endStates.Nodup := by
  have key : ∀ (ss : List Nat) (A : RPQAutomaton), A.SyncedOn NotSilent → (∀ s ∈ ss, s < A.rows) →
      A.endStates.Nodup → (ss.foldl deleteEpsilonsOf A).endStates.Nodup := by
    intro ss
    induction ss with
    | nil => exact fun _ _ _ h => h
    | cons s ss ih =>
      intro A hA hlt h
      have hs := hlt s List.mem_cons_self
      have hres := (resolved_deleteEpsilonsOf hA hs).1
      refine ih _ hres.syncedOn (fun r hr => hres.rows_eq ▸ hlt r (List.mem_cons_of_mem s hr)) ?_
      rw [endStates_deleteEpsilonsOf hA hs]
      exact nodup_foldl_setInsert h
  exact key _ _ hA (fun s hs => List.mem_range.mp hs) h

theorem endStates_deleteUnreachableStates_sublist :
    A.deleteUnreachableStates.endStates.Sublist A.endStates := by
  unfold deleteUnreachableStates
  generalize A.reachableStates 0 false = keep
  generalize List.range' 1 (A.rows - 1) = ss
  induction ss generalizing A with
  | nil => exact List.Sublist.refl _
  | cons s ss ih =>
    rw [List.foldl_cons]
    split_ifs
    · exact ih
    · exact ih.trans List.filter_sublist

structure Reached (A C : RPQAutomaton) : Prop where
  syncedOn : C.SyncedOn NotSilent
  no_silent : ∀ i j, ¬ C.Edge i none j
  rows_eq : C.rows = A.rows
  startIsFinal_eq : C.startIsFinal = A.startIsFinal
  end_lt : (∀ e ∈ A.endStates, e < A.rows) → ∀ e ∈ C.endStates, e < C.rows
  nodup : C.endStates.Nodup
  reachable_edge : ∀ i l j, C.Edge i l j → ∃ w, EpsRun C.Edge 0 w i
  reachable_end : ∀ e ∈ C.endStates, e < C.rows → ∃ w, EpsRun C.Edge 0 w e
  stale : ∀ u j, ¬ NotSilent u → u ∈ C.toFrom j →
    Accepts C.Edge (· ∈ C.endStates) j ≤ Accepts C.Edge (· ∈ C.endStates) u.fromState
  language_eq : C.language = A.language

theorem reached (hA : A.Synced) (hnodup : A.endStates.Nodup) :
    Reached A A.deleteEpsilonTransitions.deleteUnreachableStates := by
  obtain ⟨hres, hsilent⟩ := resolved_deleteEpsilonTransitions hA.notSilent
  have haccepts := accepts_deleteEpsilonTransitions hA.notSilent
  have hold : OldSilent A A.deleteEpsilonTransitions := oldSilent_deleteEpsilonTransitions
  have hBnodup := nodup_endStates_deleteEpsilonTransitions hA.notSilent hnodup
  generalize A.deleteEpsilonTransitions = B at *
  set states := List.range' 1 (B.rows - 1) with hstates
  set keep := B.reachableStates 0 false with hkeepdef
  obtain ⟨hsync, hrows, hflag, hends, htoFrom⟩ := foldl_dropUnreachable keep states hres.syncedOn
  have hCends : ∀ e, e ∈ B.deleteUnreachableStates.endStates ↔ e ∈ B.endStates ∧ ¬ Dropped states keep e :=
    hends
  have hCtoFrom : ∀ u j, u ∈ B.deleteUnreachableStates.toFrom j ↔
      u ∈ B.toFrom j ∧ ¬ Dropped states keep j ∧ ¬ Dropped states keep u.fromState := htoFrom
  have hspec := deleteUnreachableStates_spec hres.syncedOn
  have hreach : ∀ x, x < B.rows → ¬ Dropped states keep x → ∃ w, EpsRun B.Edge 0 w x := by
    intro x hx hdrop
    by_cases hzero : x = 0
    · subst hzero
      exact ⟨[], .nil 0⟩
    · have hmem : x ∈ keep := by
        by_contra hnot
        refine hdrop ⟨?_, hnot⟩
        rw [hstates, List.mem_range'_1]
        omega
      exact hres.syncedOn.epsRun_of_reachable hmem
  -- what is read from a reachable state is kept
  have hkeep : ∀ {x y w}, (∃ v, EpsRun B.Edge 0 v x) → EpsRun B.Edge x w y →
      EpsRun B.deleteUnreachableStates.Edge x w y := by
    intro x y w hx h
    refine (EpsRun.congr_on (P := fun x => ∃ v, EpsRun B.Edge 0 v x) ?_ hx h).1
    rintro x l y ⟨v, hv⟩ hxy
    have hy := hv.concat hxy
    have hnot : ∀ {x v}, EpsRun B.Edge 0 v x → ¬ Dropped states keep x :=
      fun hx hd => hd.2 (hres.syncedOn.reachable_of_epsRun hx)
    exact ⟨edge_deleteUnreachableStates.mpr ⟨hxy, hnot hv, hnot hy⟩, _, hy⟩
  refine ⟨hsync, fun i j h => hsilent i j (edge_deleteUnreachableStates.mp h).1,
    hrows.trans hres.rows_eq, hflag.trans hres.startIsFinal_eq, fun hlt e he => ?_,
    hBnodup.sublist endStates_deleteUnreachableStates_sublist, fun i l j h => ?_, fun e he hlt => ?_,
    fun u j hu hmem => ?_, hspec.2.2.2.2.2.trans hres.language_eq⟩
  · rw [hspec.2.1]
    exact hres.end_lt hlt e ((hCends e).mp he).1
  · obtain ⟨h, hi, -⟩ := edge_deleteUnreachableStates.mp h
    obtain ⟨w, hw⟩ := hreach i (hres.syncedOn.edge_lt h).1 hi
    exact ⟨w, hkeep ⟨[], .nil 0⟩ hw⟩
  · obtain ⟨w, hw⟩ := hreach e (hspec.2.1 ▸ hlt) ((hCends e).mp he).2
    exact ⟨w, hkeep ⟨[], .nil 0⟩ hw⟩
  · -- the source of an old silent transition accepts what the target accepts
    obtain ⟨hB, -, hfrom⟩ := (hCtoFrom u j).mp hmem
    have hold := hold u j hu hB
    have hedge : A.Edge u.fromState none j :=
      ⟨u, (hA.mirror u trivial).mpr (hA.toState_eq hold ▸ hold), hA.toState_eq hold, by
        by_contra h
        exact hu (label_ne_none_iff.mp h)⟩
    intro w ⟨e, he, hrun⟩
    have hw : w ∈ Accepts B.Edge (· ∈ B.endStates) u.fromState := by
      rw [haccepts]
      have hj : w ∈ Accepts B.Edge (· ∈ B.endStates) j :=
        ⟨e, ((hCends e).mp he).1, hrun.mono fun i l j h => (edge_deleteUnreachableStates.mp h).1⟩
      rw [haccepts] at hj
      obtain ⟨f, hf, hjf⟩ := hj
      exact ⟨f, hf, .eps hedge hjf⟩
    obtain ⟨f, hf, hfrun⟩ := hw
    have hsource := hreach _ (hres.syncedOn.toFrom_lt_rows hB).1 hfrom
    obtain ⟨v, hv⟩ := hsource
    refine ⟨f, (hCends f).mpr ⟨hf, fun hd => hd.2 ?_⟩, hkeep ⟨v, hv⟩ hfrun⟩
    exact hres.syncedOn.reachable_of_epsRun (hv.append hfrun)

/-- What `set_final_state` leaves when some end state is reachable. -/
structure Collapsed (D : RPQAutomaton) : Prop where
  syncedOn : D.SyncedOn NotSilent
  no_silent : ∀ i j, ¬ D.Edge i none j
  final_lt : D.finalState < D.rows
  reachable : ∀ i l j, D.Edge i l j → ∃ w, EpsRun D.Edge 0 w i
  reachable_final : ∃ w, EpsRun D.Edge 0 w D.finalState
  coreachable : ∀ q ∈ D.reachableStates D.finalState true, ∃ w, EpsRun D.Edge q w D.finalState

theorem SyncedOn.reachable_induction (hD : D.SyncedOn P) {motive : Nat → Prop} {final : Nat}
    (hfinal : motive final) (hstep : ∀ b, ∀ t ∈ D.toFrom b, motive b → motive t.fromState) :
    ∀ q ∈ D.reachableStates final true, motive q := by
  intro q hq
  rw [hD.mem_reachableStates] at hq
  induction hq with
  | refl => exact hfinal
  | tail _ h ih =>
    obtain ⟨t, ht, rfl⟩ := List.mem_map.mp h
    exact hstep _ t ht ih

theorem collapsed_of_one (hC : Reached A C) (hend : ∀ e ∈ C.endStates, e < C.rows) {final : Nat}
    (hone : C.endStates = [final]) : Collapsed C.setFinalState := by
  have hset : C.setFinalState = { C with finalState := final, startIsFinal := final = 0 } := by
    simp only [setFinalState, hone]
  have hmem : final ∈ C.endStates := by simp [hone]
  have hsync : C.setFinalState.SyncedOn NotSilent := by
    rw [hset]
    have hC := hC.syncedOn
    exact ⟨hC.fromState_eq, hC.toState_eq, hC.mirror, hC.nodup_fromTo, hC.nodup_toFrom, hC.lt_rows,
      hC.toFrom_lt_rows⟩
  have hwords : ∀ q ∈ C.setFinalState.reachableStates final true,
      ∃ w, w ∈ Accepts C.Edge (· ∈ C.endStates) q := by
    refine hsync.reachable_induction ⟨[], final, hmem, .nil final⟩ ?_
    rintro b t ht ⟨w, hw⟩
    have htC : t ∈ C.toFrom b := by
      rw [hset] at ht
      exact ht
    by_cases hs : NotSilent t
    · have hedge : C.Edge t.fromState t.label b :=
        ⟨t, (hC.syncedOn.mirror t hs).mpr (hC.syncedOn.toState_eq htC ▸ htC),
          hC.syncedOn.toState_eq htC, rfl⟩
      obtain ⟨e, he, hrun⟩ := hw
      exact ⟨_, e, he, .edge hedge hrun⟩
    · exact ⟨w, hC.stale t b hs htC hw⟩
  rw [hset] at hsync hwords ⊢
  refine ⟨hsync, hC.no_silent, hend final hmem, hC.reachable_edge,
    hC.reachable_end final hmem (hend final hmem), fun q hq => ?_⟩
  obtain ⟨w, e, he, hrun⟩ := hwords q hq
  obtain rfl : e = final := by simpa [hone] using he
  exact ⟨w, hrun⟩

theorem collapsed_of_many (hC : Reached A C) (hend : ∀ e ∈ C.endStates, e < C.rows)
    (hsome : C.endStates ≠ []) (hmany : ∀ f, C.endStates ≠ [f]) : Collapsed C.setFinalState := by
  obtain ⟨hsync, hfinal, -, hedge⟩ := setFinalState_fresh hC.syncedOn hC.no_silent hend hmany
  have hmono : ∀ {p w q}, EpsRun C.Edge p w q → EpsRun C.setFinalState.Edge p w q :=
    fun h => h.mono fun i l j h => (hedge i l j).mpr (.inl h)
  -- the last edge of a word leads to the new state
  have hlast : ∀ {p w e}, e ∈ C.endStates → p ≠ e ∨ w ≠ [] → EpsRun C.Edge p w e →
      ∃ v, EpsRun C.setFinalState.Edge p v C.rows := by
    intro p w e he hne h
    rcases h.last_edge with ⟨rfl, rfl⟩ | ⟨v, l, r, -, hv, hstep⟩
    · exact absurd hne (by simp)
    · exact ⟨_, (hmono hv).concat ((hedge r l C.rows).mpr (.inr ⟨rfl, e, he, hstep⟩))⟩
  obtain ⟨e, he, hzero⟩ : ∃ e ∈ C.endStates, e ≠ 0 := by
    by_contra hnone
    push Not at hnone
    obtain ⟨f, hf⟩ := List.exists_mem_of_ne_nil _ hsome
    refine hmany 0 ?_
    have hperm : C.endStates.Perm [0] := by
      rw [List.perm_ext_iff_of_nodup hC.nodup (List.nodup_singleton 0)]
      intro x
      rw [List.mem_singleton]
      constructor
      · exact hnone x
      · rintro rfl
        exact hnone f hf ▸ hf
    exact List.perm_singleton.mp hperm
  obtain ⟨w, hw⟩ := hC.reachable_end e he (hend e he)
  have hreach := hlast he (.inl (Ne.symm hzero)) hw
  have hrows : C.RowsNotSilent := fun i t ht =>
    label_ne_none_iff.mp fun h => hC.no_silent i t.toState ⟨t, ht, rfl, h⟩
  have hwords : ∀ q ∈ C.setFinalState.reachableStates C.rows true,
      q = C.rows ∨ ∃ w, w ≠ [] ∧ w ∈ Accepts C.Edge (· ∈ C.endStates) q := by
    refine hsync.reachable_induction (.inl rfl) fun b t ht hb => .inr ?_
    by_cases hs : NotSilent t
    · have hto := hsync.toState_eq ht
      have hstep : C.setFinalState.Edge t.fromState t.label b :=
        ⟨t, (hsync.mirror t hs).mpr (hto ▸ ht), hto, rfl⟩
      obtain ⟨a, ha⟩ := Option.ne_none_iff_exists'.mp (label_ne_none_iff.mpr hs)
      rw [ha] at hstep
      rcases (hedge _ _ _).mp hstep with hstep | ⟨-, e, he, hstep⟩
      · obtain ⟨w, -, e, he, hrun⟩ := hb.resolve_left (hC.syncedOn.edge_lt hstep).2.ne
        exact ⟨a :: w, by simp, e, he, .sym hstep hrun⟩
      · exact ⟨[a], by simp, e, he, .sym hstep (.nil e)⟩
    · have hold := oldSilent_setFinalState hrows t b hs ht
      have hlt := (hC.syncedOn.toFrom_lt_rows hold).2
      rw [hC.syncedOn.toState_eq hold] at hlt
      obtain ⟨w, hw, haccepts⟩ := hb.resolve_left hlt.ne
      exact ⟨w, hw, hC.stale t b hs hold haccepts⟩
  refine ⟨hsync, fun i j h => ?_, ?_, fun i l j h => ?_, hfinal ▸ hreach, fun q hq => ?_⟩
  · rcases (hedge i none j).mp h with h | ⟨-, e, -, h⟩
    · exact hC.no_silent i j h
    · exact hC.no_silent i e h
  · obtain ⟨v, hv⟩ := hreach
    rcases hv.last_edge with ⟨hzero, -⟩ | ⟨-, l, r, -, -, hstep⟩
    · exact absurd (hend e he) (by omega)
    · exact hfinal ▸ (hsync.edge_lt hstep).2
  · rcases (hedge i l j).mp h with h | ⟨-, e, -, h⟩
    · obtain ⟨w, hw⟩ := hC.reachable_edge i l j h
      exact ⟨w, hmono hw⟩
    · obtain ⟨w, hw⟩ := hC.reachable_edge i l e h
      exact ⟨w, hmono hw⟩
  · rw [hfinal] at hq ⊢
    rcases hwords q hq with rfl | ⟨w, hw, e, he, hrun⟩
    · exact ⟨[], .nil C.rows⟩
    · exact hlast he (.inr hw) hrun

section Absorption

variable (hD : Collapsed D)

include hD

theorem Collapsed.edge_iff : D.deleteAbsortionStates.Edge i l j ↔
    D.Edge i l j ∧ i ∈ D.reachableStates D.finalState true ∧
      j ∈ D.reachableStates D.finalState true := by
  have hedge : D.deleteAbsortionStates.Edge i l j ↔ D.Edge i l j ∧
      ¬ Dropped (List.range D.rows) (D.reachableStates D.finalState true) i ∧
        ¬ Dropped (List.range D.rows) (D.reachableStates D.finalState true) j :=
    foldl_dropTransitions (fun B i hi => if_pos hi) (fun B i hi => by rw [if_neg hi]) _ D
  rw [hedge]
  apply and_congr_right
  intro h
  obtain ⟨hi, hj⟩ := hD.syncedOn.edge_lt h
  simp [Dropped, hi, hj]

theorem Collapsed.mem_reachable {w : List PathLabel} (h : EpsRun D.Edge q w D.finalState) :
    q ∈ D.reachableStates D.finalState true := by
  rw [hD.syncedOn.mem_reachableStates]
  have hback : ∀ {a l b}, D.Edge a l b → a ∈ D.stateSuccessors true b := by
    rintro a l b ⟨t, ht, rfl, rfl⟩
    have hs : NotSilent t := label_ne_none_iff.mp fun h => hD.no_silent a t.toState ⟨t, ht, rfl, h⟩
    have hfrom := hD.syncedOn.fromState_eq ht
    exact List.mem_map.mpr ⟨t, (hD.syncedOn.mirror t hs).mp (hfrom ▸ ht), hfrom⟩
  generalize D.finalState = final at h
  induction h with
  | nil => exact .refl
  | eps he _ ih => exact ih.tail (hback he)
  | sym ha _ ih => exact ih.tail (hback ha)

theorem Collapsed.epsRun_of_coreachable {p : Nat} {w : List PathLabel} (h : EpsRun D.Edge p w q)
    (hq : ∃ v, EpsRun D.Edge q v D.finalState) : EpsRun D.deleteAbsortionStates.Edge p w q := by
  obtain ⟨v, hv⟩ := hq
  induction h with
  | nil q => exact .nil q
  | eps he _ ih => exact absurd he (hD.no_silent _ _)
  | sym ha hrun ih =>
    have hr := hrun.append hv
    exact .sym (hD.edge_iff.mpr ⟨ha, hD.mem_reachable (.sym ha hr), hD.mem_reachable hr⟩) (ih hv)

end Absorption

theorem rows_finalState_deleteAbsortionStates (hD : D.SyncedOn P) :
    D.deleteAbsortionStates.rows = D.rows ∧ D.deleteAbsortionStates.finalState = D.finalState :=
  ⟨(kept_deleteAbsortionStates hD).2, (foldl_dropTransitions_fields _ _ D).1⟩

theorem Collapsed.paths (hD : Collapsed D) (hq : D.deleteAbsortionStates.Remaining q) :
    (∃ w, EpsRun D.deleteAbsortionStates.Edge 0 w q) ∧
      ∃ w, EpsRun D.deleteAbsortionStates.Edge q w D.finalState := by
  suffices h : (∃ w, EpsRun D.Edge 0 w q) ∧ ∃ w, EpsRun D.Edge q w D.finalState by
    obtain ⟨⟨v, hv⟩, w, hw⟩ := h
    exact ⟨⟨v, hD.epsRun_of_coreachable hv ⟨w, hw⟩⟩,
      w, hD.epsRun_of_coreachable hw ⟨[], .nil D.finalState⟩⟩
  obtain ⟨-, hfinal⟩ := rows_finalState_deleteAbsortionStates hD.syncedOn
  rcases hq with rfl | hq | ⟨i, l, j, hedge, hq⟩
  · exact ⟨⟨[], .nil 0⟩, hD.reachable_final⟩
  · rw [hq, hfinal]
    exact ⟨hD.reachable_final, [], .nil D.finalState⟩
  · obtain ⟨hedge, hi, hj⟩ := hD.edge_iff.mp hedge
    obtain ⟨v, hv⟩ := hD.reachable i l j hedge
    rcases hq with rfl | rfl
    · exact ⟨⟨v, hv⟩, hD.coreachable q hi⟩
    · exact ⟨⟨_, hv.concat hedge⟩, hD.coreachable q hj⟩

theorem accepts_iff_of_finalFor {L : Language PathLabel} (hsilent : ∀ i j, ¬ B.Edge i none j)
    (h : B.FinalFor L) (w : List PathLabel) : B.accepts w ↔ w ∈ L := by
  rw [h w, run_step_iff hsilent]
  rfl

/-- The rewrites give a trimmed automaton exactly when there is a transition and some end state is
reached from the start. -/
theorem trims_iff (hA : A.Synced) (hnodup : A.endStates.Nodup)
    (hend : ∀ e ∈ A.endStates, e = 0 ∨ e < A.rows) (hflag : A.startIsFinal = false) :
    A.Trims ↔ 0 < A.rows ∧ ∃ e ∈ A.endStates, ∃ w, EpsRun A.Edge 0 w e := by
  have hC := reached hA hnodup
  obtain ⟨hresolved, -⟩ := resolved_deleteEpsilonTransitions hA.notSilent
  have hrows : A.deleteEpsilonTransitions.rows = A.rows := hresolved.rows_eq
  set C := A.deleteEpsilonTransitions.deleteUnreachableStates with hCdef
  have htrim : A.trim = if 0 < A.rows then
      (C.setFinalState.getReachableStates C.setFinalState.finalState true).map
        fun _ => C.setFinalState.deleteAbsortionStates else none := by
    rw [trim, hresolved.syncedOn.getReachableStates_eq, hrows]
    split_ifs <;> rfl
  by_cases hpos : 0 < A.rows
  · have hAend : ∀ e ∈ A.endStates, e < A.rows := by
      intro e he
      rcases hend e he with rfl | h
      · exact hpos
      · exact h
    have hCend := hC.end_lt hAend
    have hCflag : C.startIsFinal = false := hC.startIsFinal_eq.trans hflag
    obtain ⟨hsync, hsilent, hfor, halone⟩ :=
      setFinalState_spec hC.syncedOn hC.no_silent hCend hCflag
    obtain ⟨hEsilent, hEfor, hEalone⟩ := deleteAbsortionStates_spec hsync hsilent hfor
    obtain ⟨hErows, hEfinal⟩ := rows_finalState_deleteAbsortionStates hsync
    rw [hC.language_eq] at hEfor
    have haccepts := accepts_iff_of_finalFor hEsilent hEfor
    rw [if_pos hpos, hsync.getReachableStates_eq] at htrim
    constructor
    · intro ⟨E, hE, htrimmed⟩
      refine ⟨hpos, ?_⟩
      obtain rfl : C.setFinalState.deleteAbsortionStates = E := by
        rw [htrim] at hE
        obtain ⟨_, -, hE⟩ := Option.map_eq_some_iff.mp hE
        exact hE
      -- the empty path is for the empty word, since a final start state is marked
      obtain ⟨w, hw⟩ := htrimmed.coreachable 0 (.inl rfl)
      suffices h : w ∈ A.language by
        obtain ⟨e, he, hrun⟩ := h
        exact ⟨e, he, w, hrun⟩
      rw [← haccepts]
      by_cases hnil : w = []
      · subst hnil
        refine .inl ⟨rfl, (hEalone (halone (hC.rows_eq ▸ hpos))).start_marked ?_⟩
        exact (Run.nil_iff.mp hw).symm
      · exact .inr ⟨hnil, hw⟩
    · intro ⟨_, e, he, w, hw⟩
      have hsome : C.endStates ≠ [] := by
        have hword : w ∈ C.language := hC.language_eq ▸ ⟨e, he, hw⟩
        obtain ⟨f, hf, -⟩ := hword
        exact List.ne_nil_of_mem hf
      have hD : Collapsed C.setFinalState := by
        by_cases hone : ∃ f, C.endStates = [f]
        · obtain ⟨f, hf⟩ := hone
          exact collapsed_of_one hC hCend hf
        · exact collapsed_of_many hC hCend hsome fun f hf => hone ⟨f, hf⟩
      rw [if_pos hD.final_lt] at htrim
      refine ⟨_, htrim, hEsilent, ?_, fun q hq => ?_, fun q hq => ?_, haccepts⟩
      · rw [hErows, hEfinal]
        exact hD.final_lt
      · obtain ⟨v, hv⟩ := (hD.paths hq).1
        exact ⟨v, (run_step_iff hEsilent).mp hv⟩
      · obtain ⟨v, hv⟩ := (hD.paths hq).2
        rw [hEfinal]
        exact ⟨v, (run_step_iff hEsilent).mp hv⟩
  · refine iff_of_false ?_ fun h => hpos h.1
    intro ⟨E, hE, _⟩
    rw [htrim, if_neg hpos] at hE
    exact absurd hE (by simp)

def ofTransitions (ts : List Transition) (ends : List Nat) : RPQAutomaton :=
  (ts.foldl addTransition {}).withEndStates ends

theorem synced_ofTransitions (ts : List Transition) (ends : List Nat) :
    (ofTransitions ts ends).Synced :=
  Synced.withEndStates (Synced.empty.foldl_addTransition ts) ends

/-- The words `a` and `ab`, with a silent transition between the letters. -/
def aOrAb : RPQAutomaton :=
  ofTransitions [⟨0, 1, "a", false, 0⟩, ⟨1, 2, "", false, 0⟩, ⟨2, 3, "b", false, 0⟩] [1, 3]

theorem trims_aOrAb :
    aOrAb.Trims ↔ 0 < aOrAb.rows ∧ ∃ e ∈ aOrAb.endStates, ∃ w, EpsRun aOrAb.Edge 0 w e :=
  trims_iff (synced_ofTransitions _ _) (by decide) (by decide) (by decide)

/-- No end state is reached, and `set_final_state` makes a final state without a row. -/
theorem not_trims_unreachableEnd :
    ¬ (ofTransitions [⟨0, 1, "a", false, 0⟩, ⟨2, 1, "b", false, 0⟩] [2]).Trims := by
  intro ⟨E, hE, _⟩
  have hnone : (ofTransitions [⟨0, 1, "a", false, 0⟩, ⟨2, 1, "b", false, 0⟩] [2]).trim = none := by
    decide +kernel
  rw [hnone] at hE
  exact absurd hE (by simp)

end RPQAutomaton
end MillenniumDB
