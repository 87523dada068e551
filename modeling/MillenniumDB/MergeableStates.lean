import MillenniumDB.PathAutomata

/-!
# What `delete_mergeable_states` accepts

Joining two states along a silent transition adds the silent step back.  No merge loses a word, so
the language is kept exactly when no merge adds one.  A merge can add words in two places: at the
start, which is joined with the state that silently enters it, and at an end state, which is joined
with the state that it silently leads to.
-/

namespace MillenniumDB
namespace RPQAutomaton

variable {A B : RPQAutomaton} {s : Nat}

def EnteredSound (A : RPQAutomaton) (s : Nat) : Prop :=
  s = 0 → ∀ t ∈ A.toFrom 0, Accepts A.Edge (· ∈ A.endStates) t.fromState ≤ A.language

def LeftSound (A : RPQAutomaton) (s : Nat) : Prop :=
  s ∈ A.endStates → ∀ t ∈ A.fromTo s, ∀ w, EpsRun A.Edge 0 w t.toState → w ∈ A.language

def RoundSound (A : RPQAutomaton × Bool) (s : Nat) : Prop :=
  ((A.1.mergeEntered s).isSome → A.1.EnteredSound s) ∧
    (((enteredStep A s).1.mergeLeft s).isSome → (enteredStep A s).1.LeftSound s)

def RoundsSound : RPQAutomaton × Bool → List Nat → Prop
  | _, [] => True
  | A, s :: ss => RoundSound A s ∧ RoundsSound (mergeRound A s) ss

/-- The merges of `mergePasses` add no word. -/
def PassesSound : Nat → RPQAutomaton → Prop
  | 0, _ => True
  | fuel + 1, A => RoundsSound (A, false) (List.range A.rows) ∧
      (A.mergePass.2 → PassesSound fuel A.mergePass.1)

/-- No merge of `delete_mergeable_states` adds a word. -/
def MergesSoundly (A : RPQAutomaton) : Prop := PassesSound (A.rows + 1) A

theorem Synced.le_mergeEntered (hA : A.Synced) (h : A.mergeEntered s = some B) :
    A.language ≤ B.language := by
  obtain ⟨t, hrow, -⟩ := mergeEntered_eq_some h
  rw [hA.accepts_mergeEntered h (by simp [hrow] : t ∈ A.toFrom s)]
  exact accepts_mono (fun _ _ _ => .inl) (fun _ => id) 0

theorem Synced.le_mergeLeft (hA : A.Synced) (h : A.mergeLeft s = some B) :
    A.language ≤ B.language := by
  obtain ⟨t, hrow, -⟩ := mergeLeft_eq_some h
  rw [hA.accepts_mergeLeft h (by simp [hrow] : t ∈ A.fromTo s)]
  exact accepts_mono (fun _ _ _ => .inl) (fun _ => id) 0

theorem Synced.mergeEntered_iff (hA : A.Synced) (h : A.mergeEntered s = some B) :
    B.language = A.language ↔ A.EnteredSound s := by
  obtain ⟨t, hrow, -⟩ := mergeEntered_eq_some h
  have hmem : t ∈ A.toFrom s := by simp [hrow]
  rw [hA.accepts_mergeEntered h hmem]
  constructor
  · intro heq hs u hu
    subst hs
    obtain rfl : u = t := by simpa [hrow] using hu
    rw [← heq]
    -- the word is read behind the new silent step
    intro w hw
    obtain ⟨e, he, hrun⟩ := hw
    exact ⟨e, he, .eps (.inr ⟨rfl, rfl, rfl⟩) hrun.addSilent⟩
  · intro hsound
    by_cases hs : s = 0
    · subst hs
      exact accepts_addSilent (hsound rfl t hmem) 0
    · apply accepts_addSilent_of_back
      intro w hw
      exact (hA.before_mergeEntered h hmem hw).resolve_left fun h => hs h.symm

theorem addSilent_mergeLeft (h : A.mergeLeft s = some B) {t : Transition} (ht : t ∈ A.fromTo s)
    {w : List PathLabel} {q : Nat} (hw : EpsRun (addSilent A.Edge t.toState s) 0 w q) :
    EpsRun A.Edge 0 w q ∨ (q = s ∧ EpsRun A.Edge 0 w t.toState) := by
  obtain ⟨u, hrow, hsilent, hne, -⟩ := mergeLeft_eq_some h
  obtain rfl : t = u := by simpa [hrow] using ht
  refine EpsRun.concat_induction (motive := fun w q => EpsRun A.Edge 0 w q ∨
    (q = s ∧ EpsRun A.Edge 0 w t.toState)) (.inl (.nil 0)) ?_ hw
  intro w r l q _ hstep hm
  rcases hm with hrun | ⟨hr, hrun⟩
  · rcases hstep with hedge | ⟨hr, hl, hq⟩
    · exact .inl (hrun.concat hedge)
    · subst hr hl hq
      exact .inr ⟨rfl, by simpa using hrun⟩
  · subst hr
    rcases hstep with ⟨v, hv, hto, hlabel⟩ | ⟨hr, -, -⟩
    · -- back at the state that was left
      obtain rfl : v = t := by simpa [hrow] using hv
      rw [← hlabel, label_of_isEmpty hsilent, ← hto]
      exact .inl (by simpa using hrun)
    · exact absurd hr.symm hne

theorem Synced.mergeLeft_iff (hA : A.Synced) (h : A.mergeLeft s = some B) :
    B.language = A.language ↔ A.LeftSound s := by
  obtain ⟨t, hrow, hsilent, -⟩ := mergeLeft_eq_some h
  have hmem : t ∈ A.fromTo s := by simp [hrow]
  have hforth : A.Edge s none t.toState := ⟨t, hmem, rfl, label_of_isEmpty hsilent⟩
  rw [hA.accepts_mergeLeft h hmem]
  constructor
  · intro heq hs u hu w hw
    obtain rfl : u = t := by simpa [hrow] using hu
    rw [← heq]
    have hback : EpsRun (addSilent A.Edge u.toState s) u.toState [] s :=
      .single_eps (.inr ⟨rfl, rfl, rfl⟩)
    exact ⟨s, hs, by simpa using hw.addSilent.append hback⟩
  · intro hsound
    apply le_antisymm
    · intro w hw
      obtain ⟨e, he, hrun⟩ := hw
      rcases addSilent_mergeLeft h hmem hrun with hrun | ⟨hes, hrun⟩
      · exact ⟨e, he, hrun⟩
      · exact hsound (hes ▸ he) t hmem w hrun
    · exact accepts_mono (fun _ _ _ => .inl) (fun _ => id) 0

theorem le_enteredStep {A : RPQAutomaton × Bool} (hA : A.1.Synced) (s : Nat) :
    A.1.language ≤ (enteredStep A s).1.language := by
  unfold enteredStep
  split
  · rename_i B h
    exact hA.le_mergeEntered h
  · exact le_rfl

theorem le_mergeRound {A : RPQAutomaton × Bool} (hA : A.1.Synced) (s : Nat) :
    A.1.language ≤ (mergeRound A s).1.language := by
  apply (le_enteredStep hA s).trans
  unfold mergeRound leftStep
  split
  · rename_i B h
    exact (rounds_enteredStep hA s).synced.le_mergeLeft h
  · exact le_rfl

theorem enteredStep_iff {A : RPQAutomaton × Bool} (hA : A.1.Synced) (s : Nat) :
    (enteredStep A s).1.language = A.1.language ↔
      ((A.1.mergeEntered s).isSome → A.1.EnteredSound s) := by
  unfold enteredStep
  cases h : A.1.mergeEntered s with
  | none => simp
  | some B => simpa using hA.mergeEntered_iff h

theorem leftStep_iff {A : RPQAutomaton × Bool} (hA : A.1.Synced) (s : Nat) :
    (leftStep A s).1.language = A.1.language ↔ ((A.1.mergeLeft s).isSome → A.1.LeftSound s) := by
  unfold leftStep
  cases h : A.1.mergeLeft s with
  | none => simp
  | some B => simpa using hA.mergeLeft_iff h

theorem eq_of_chain {L M N : Language PathLabel} (hLM : L ≤ M) (hMN : M ≤ N) :
    N = L ↔ M = L ∧ N = M := by
  constructor
  · intro h
    have hML : M = L := le_antisymm (h ▸ hMN) hLM
    exact ⟨hML, h.trans hML.symm⟩
  · intro h
    exact h.2.trans h.1

theorem mergeRound_iff {A : RPQAutomaton × Bool} (hA : A.1.Synced) (s : Nat) :
    (mergeRound A s).1.language = A.1.language ↔ RoundSound A s := by
  have hentered := rounds_enteredStep hA s
  have hle : (enteredStep A s).1.language ≤ (mergeRound A s).1.language := by
    unfold mergeRound leftStep
    split
    · rename_i B h
      exact hentered.synced.le_mergeLeft h
    · exact le_rfl
  rw [eq_of_chain (le_enteredStep hA s) hle, enteredStep_iff hA s]
  exact and_congr_right fun _ => leftStep_iff hentered.synced s

theorem le_foldl_mergeRound {A : RPQAutomaton × Bool} (hA : A.1.Synced) (ss : List Nat) :
    A.1.language ≤ (ss.foldl mergeRound A).1.language := by
  induction ss generalizing A with
  | nil => exact le_rfl
  | cons s ss ih => exact (le_mergeRound hA s).trans (ih (rounds_mergeRound hA s).synced)

theorem foldl_mergeRound_iff {A : RPQAutomaton × Bool} (hA : A.1.Synced) (ss : List Nat) :
    (ss.foldl mergeRound A).1.language = A.1.language ↔ RoundsSound A ss := by
  induction ss generalizing A with
  | nil => exact iff_of_true rfl trivial
  | cons s ss ih =>
    have hsynced := (rounds_mergeRound hA s).synced
    rw [List.foldl_cons, eq_of_chain (le_mergeRound hA s) (le_foldl_mergeRound hsynced ss),
      mergeRound_iff hA s, ih hsynced]
    rfl

theorem le_mergePasses (fuel : Nat) (hA : A.Synced) : A.language ≤ (mergePasses fuel A).language := by
  induction fuel generalizing A with
  | zero => exact le_rfl
  | succ fuel ih =>
    have hpass : A.language ≤ A.mergePass.1.language := le_foldl_mergeRound (A := (A, false)) hA _
    rw [mergePasses]
    split_ifs
    · exact hpass.trans (ih (rounds_mergePass hA).synced)
    · exact hpass

theorem mergePasses_iff (fuel : Nat) (hA : A.Synced) :
    (mergePasses fuel A).language = A.language ↔ PassesSound fuel A := by
  induction fuel generalizing A with
  | zero => exact iff_of_true rfl trivial
  | succ fuel ih =>
    have hsynced := (rounds_mergePass hA).synced
    have hpass : A.mergePass.1.language = A.language ↔ RoundsSound (A, false) (List.range A.rows) :=
      foldl_mergeRound_iff (A := (A, false)) hA _
    have hle : A.language ≤ A.mergePass.1.language := le_foldl_mergeRound (A := (A, false)) hA _
    rw [mergePasses, PassesSound]
    split_ifs with hflag
    · rw [eq_of_chain hle (le_mergePasses fuel hsynced), hpass, ih hsynced]
      simp [hflag]
    · simp [hpass, hflag]

end RPQAutomaton

namespace IPath

open RPQAutomaton

theorem synced_linkEndStates {A : RPQAutomaton} (hA : A.Synced) (j : Nat) : (A.linkEndStates j).Synced := by
  rw [linkEndStates_eq]
  exact hA.foldl_addTransition _

theorem synced_baseAutomaton (p : IPath) : p.baseAutomaton.Synced := by
  induction p using induct with
  | atom a inverse => exact (Synced.empty.withEndStates [1]).addTransition trivial
  | sequence ps ih =>
    rw [baseAutomaton]
    split
    · exact .empty
    · rename_i A As h
      rw [baseAutomata_eq_map] at h
      obtain ⟨p, ps, rfl, rfl, rfl⟩ := List.map_eq_cons_iff.mp h
      have hfold : ∀ (Bs : List RPQAutomaton) (A : RPQAutomaton), A.Synced →
          (Bs.foldl appendChild A).Synced := by
        intro Bs
        induction Bs with
        | nil => exact fun A hA => hA
        | cons B Bs ih =>
          intro A hA
          exact ih _ ((synced_linkEndStates (hA.renameAndMerge B) _).withEndStates _)
      exact hfold _ _ (ih p (by simp))
  | alternatives ps ih =>
    rw [baseAutomaton]
    have hfold : ∀ (Bs : List RPQAutomaton) (A : RPQAutomaton), A.Synced →
        (Bs.foldl addAlternative A).Synced := by
      intro Bs
      induction Bs with
      | nil => exact fun A hA => hA
      | cons B Bs ih =>
        intro A hA
        have hjoined := (hA.renameAndMerge B).addTransition (t := ⟨0, A.totalStates, "", false, 0⟩) trivial
        exact ih _ (Synced.withEndStates hjoined _)
    exact hfold _ _ .empty
  | optional p ih => exact ih.withEndStates _
  | kleeneStar p ih =>
    rw [baseAutomaton, makeStar]
    split_ifs
    · split
      · exact Synced.withEndStates (Synced.empty.addTransition trivial) _
      · exact Synced.empty.withEndStates _
    · exact (synced_linkEndStates ih 0).withEndStates _

/-- What is expected of `delete_mergeable_states`: its last pass finds nothing to merge, and the
words are the ones from before. -/
def MergesRight (p : IPath) : Prop :=
  p.construct.baseAutomaton.deleteMergeableStates.mergePass =
      (p.construct.baseAutomaton.deleteMergeableStates, false) ∧
    p.construct.baseAutomaton.deleteMergeableStates.language = p.construct.baseAutomaton.language

/-- The merges are right exactly when the start is only joined with a state from which nothing else
is read, and an end state with a state that only words lead to. -/
theorem mergesRight_iff (p : IPath) : p.MergesRight ↔ p.construct.baseAutomaton.MergesSoundly := by
  have hsynced := synced_baseAutomaton p.construct
  have hends := mergePass_deleteMergeableStates hsynced
  exact (and_iff_right hends).trans (mergePasses_iff _ hsynced)

/-- The merges of `(:a/:b*)*` make `b` a word. -/
theorem not_mergesRight_starOfLoop : ¬ starOfLoop.MergesRight := by
  intro h
  have hsame := h.2
  have hfresh : starOfLoop.construct.StartsFresh := by
    simp [starOfLoop, construct, constructList, denull, allNullable, nullable, StartsFresh,
      AllStartFresh, startEntered, stateCount, stateCounts, isSingleEdge]
  have hwords := (base_baseAutomaton starOfLoop.construct hfresh).1.language_eq
  rw [hwords, words_construct] at hsame
  have hstep : ∃ t ∈ starOfLoop.construct.baseAutomaton.deleteMergeableStates.fromTo 0,
      t.toState = 0 ∧ t.label = some ("b", false) := by decide +kernel
  have hend : 0 ∈ starOfLoop.construct.baseAutomaton.deleteMergeableStates.endStates := by
    decide +kernel
  have haccepts : [("b", false)] ∈ starOfLoop.construct.baseAutomaton.deleteMergeableStates.language :=
    ⟨0, hend, .sym hstep (.nil 0)⟩
  rw [hsame] at haccepts
  rcases starOfLoop_words haccepts with h | ⟨u, h⟩
  · exact absurd h (by simp)
  · exact absurd h (by simp)

end IPath
end MillenniumDB
