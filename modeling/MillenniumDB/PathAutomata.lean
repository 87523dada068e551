import MillenniumDB.RpqTransform

/-!
# The automaton of a path expression

`IPath::get_rpq_automaton` builds the base automaton of an expression and rewrites it.
Both halves keep the language under conditions that the code does not check: an optional
or a star must not make a re-entered start state final, a two-state automaton under a star
must be a single edge, and no merge may join states that accept different words.
-/

namespace MillenniumDB

open Computability

namespace RPQAutomaton

variable {A B : RPQAutomaton} {α : Type*}

theorem startIsFinal_foldl {f : RPQAutomaton → α → RPQAutomaton}
    (hf : ∀ A x, (f A x).startIsFinal = A.startIsFinal) (xs : List α) (A : RPQAutomaton) :
    (xs.foldl f A).startIsFinal = A.startIsFinal := by
  induction xs generalizing A with
  | nil => rfl
  | cons x xs ih => rw [List.foldl_cons, ih, hf]

theorem startIsFinal_renameAndMerge : (A.renameAndMerge B).startIsFinal = A.startIsFinal :=
  startIsFinal_foldl (fun _ _ => startIsFinal_addTransition) _ A

theorem startIsFinal_linkEndStates (j : Nat) : (A.linkEndStates j).startIsFinal = A.startIsFinal :=
  startIsFinal_foldl (fun _ _ => startIsFinal_addTransition) _ A

theorem startIsFinal_appendChild : (A.appendChild B).startIsFinal = A.startIsFinal :=
  (startIsFinal_linkEndStates _).trans startIsFinal_renameAndMerge

theorem startIsFinal_addAlternative : (A.addAlternative B).startIsFinal = A.startIsFinal :=
  startIsFinal_addTransition.trans startIsFinal_renameAndMerge

theorem startIsFinal_makeStar (h : A.startIsFinal = false) : A.makeStar.startIsFinal = false := by
  unfold makeStar
  split_ifs
  · split
    · exact startIsFinal_addTransition
    · rfl
  · exact (startIsFinal_linkEndStates 0).trans h

theorem startIsFinal_mergeStates (destiny source : Nat) :
    (A.mergeStates destiny source).startIsFinal = A.startIsFinal := by
  have hout := startIsFinal_foldl (f := moveOut destiny)
    fun _ _ => startIsFinal_addTransition
  have hin := startIsFinal_foldl (f := moveIn destiny)
    fun _ _ => startIsFinal_addTransition
  exact (hin _ _).trans (hout _ _)

theorem startIsFinal_mergeRound (A : RPQAutomaton × Bool) (s : Nat) :
    (mergeRound A s).1.startIsFinal = A.1.startIsFinal := by
  have hentered : (enteredStep A s).1.startIsFinal = A.1.startIsFinal := by
    unfold enteredStep
    split
    · rename_i B h
      obtain ⟨t, -, -, -, rfl⟩ := mergeEntered_eq_some h
      split_ifs <;> exact startIsFinal_mergeStates _ _
    · rfl
  rw [← hentered]
  unfold mergeRound leftStep
  split
  · rename_i B h
    obtain ⟨t, -, -, -, rfl⟩ := mergeLeft_eq_some h
    split_ifs <;> exact startIsFinal_mergeStates _ _
  · rfl

theorem startIsFinal_mergePass : A.mergePass.1.startIsFinal = A.startIsFinal := by
  have key : ∀ (ss : List Nat) (B : RPQAutomaton × Bool),
      (ss.foldl mergeRound B).1.startIsFinal = B.1.startIsFinal := by
    intro ss
    induction ss with
    | nil => exact fun B => rfl
    | cons s ss ih => exact fun B => (ih _).trans (startIsFinal_mergeRound B s)
  exact key _ _

theorem startIsFinal_mergePasses (fuel : Nat) (A : RPQAutomaton) :
    (mergePasses fuel A).startIsFinal = A.startIsFinal := by
  induction fuel generalizing A with
  | zero => rfl
  | succ fuel ih =>
    rw [mergePasses]
    split_ifs
    · exact (ih _).trans startIsFinal_mergePass
    · exact startIsFinal_mergePass

/-- What the searches rely on: a start state that is the final one is marked, and a start
state that is final beside another one leaves that one without transitions. -/
structure FinalStateAlone (A : RPQAutomaton) : Prop where
  start_marked : A.finalState = 0 → A.startIsFinal
  final_no_step : A.startIsFinal → A.finalState ≠ 0 → ∀ a j, ¬ A.Step A.finalState a j

/-- What the rewrites after the merges leave for `finish`: an automaton without silent
transitions for the language that the merges left. -/
theorem transformAutomaton_eq_finish (hA : A.Synced) (hend : ∀ e ∈ A.endStates, e < A.rows)
    (hflag : A.startIsFinal = false) (f : String → Nat) :
    ∃ B : RPQAutomaton, A.transformAutomaton f = B.finish f ∧ B.SyncedOn NotSilent ∧
      (∀ i j, ¬ B.Edge i none j) ∧ B.FinalFor A.deleteMergeableStates.language ∧
      (0 < A.rows → 0 < B.rows ∧ B.Alone) := by
  obtain ⟨hmerged, hrows, hmergedEnd⟩ : A.deleteMergeableStates.Synced ∧
      A.deleteMergeableStates.rows = A.rows ∧
      ∀ e ∈ A.deleteMergeableStates.endStates, e < A.rows := mergePasses_spec hA hend
  have hmergedFlag : A.deleteMergeableStates.startIsFinal = false :=
    (startIsFinal_mergePasses _ A).trans hflag
  unfold transformAutomaton
  generalize A.deleteMergeableStates = B at hmerged hrows hmergedEnd hmergedFlag ⊢
  obtain ⟨hresolved, hsilent⟩ := resolved_deleteEpsilonTransitions hmerged.notSilent
  generalize B.deleteEpsilonTransitions = C at hresolved hsilent ⊢
  obtain ⟨hreach, hreachRows, hreachFlag, hreachEnd, hreachEdge, hreachLanguage⟩ :=
    deleteUnreachableStates_spec hresolved.syncedOn
  generalize C.deleteUnreachableStates = D at *
  have hDsilent : ∀ i j, ¬ D.Edge i none j := fun i j h => hsilent i j (hreachEdge i none j h)
  have hDend : ∀ e ∈ D.endStates, e < D.rows := by
    intro e he
    rw [hreachRows]
    exact hresolved.end_lt (fun e he => hrows ▸ hmergedEnd e he) e (hreachEnd e he)
  have hDflag : D.startIsFinal = false :=
    hreachFlag.trans (hresolved.startIsFinal_eq.trans hmergedFlag)
  obtain ⟨hfinal, hfinalSilent, hfinalFor, hfinalAlone⟩ :=
    setFinalState_spec hreach hDsilent hDend hDflag
  obtain ⟨habsSilent, habsFor, habsAlone⟩ :=
    deleteAbsortionStates_spec hfinal hfinalSilent hfinalFor
  obtain ⟨habs, habsRows⟩ := kept_deleteAbsortionStates hfinal
  have hlanguage : D.language = B.language := hreachLanguage.trans hresolved.language_eq
  refine ⟨_, rfl, habs, habsSilent, hlanguage ▸ habsFor, fun hpos => ?_⟩
  have hresolvedRows := hresolved.rows_eq
  have hDpos : 0 < D.rows := by omega
  have hle : D.rows ≤ D.setFinalState.rows := rows_le_setFinalState
  exact ⟨by omega, habsAlone (hfinalAlone hDpos)⟩

theorem transformAutomaton_spec (hA : A.Synced) (hend : ∀ e ∈ A.endStates, e < A.rows)
    (hflag : A.startIsFinal = false) (f : String → Nat) :
    (∀ w, (A.transformAutomaton f).accepts w ↔ w ∈ A.deleteMergeableStates.language) ∧
      (0 < A.rows → (A.transformAutomaton f).FinalStateAlone) := by
  obtain ⟨B, heq, -, hsilent, hfor, halone⟩ := transformAutomaton_eq_finish hA hend hflag f
  have hstep : (B.finish f).Step = B.Step := by
    funext i a j
    exact propext step_finish
  rw [heq]
  refine ⟨fun w => ?_, fun hpos => ?_⟩
  · simp only [accepts, finalState_finish, startIsFinal_finish, hstep]
    rw [hfor w, run_step_iff hsilent]
  · have halone := (halone hpos).2
    refine ⟨halone.start_marked, fun hs hf a j h => ?_⟩
    rw [finalState_finish, hstep] at h
    exact halone.final_no_edge hs hf _ j ((edge_some_iff hsilent).mpr h)

end RPQAutomaton

namespace IPath

open RPQAutomaton

theorem startIsFinal_baseAutomaton (p : IPath) : p.baseAutomaton.startIsFinal = false := by
  induction p using induct with
  | atom a inverse => exact startIsFinal_addTransition
  | sequence ps ih =>
    rw [baseAutomaton]
    split
    · rfl
    · rename_i A As h
      rw [baseAutomata_eq_map] at h
      obtain ⟨p, ps, rfl, rfl, rfl⟩ := List.map_eq_cons_iff.mp h
      rw [startIsFinal_foldl fun _ _ => startIsFinal_appendChild]
      exact ih p (by simp)
  | alternatives ps ih =>
    rw [baseAutomaton, startIsFinal_foldl fun _ _ => startIsFinal_addAlternative]
  | optional p ih => exact ih
  | kleeneStar p ih => exact startIsFinal_makeStar ih

/-- What the construction relies on: every part of the expression is built right, and the
merges join no states with different words. -/
structure BuiltRight (p : IPath) : Prop where
  startsFresh : p.StartsFresh
  mergesHarmlessly : p.baseAutomaton.MergesHarmlessly

theorem BuiltRight.accepts_iff {p : IPath} (hp : p.BuiltRight) (f : String → Nat)
    (w : List PathLabel) : (p.getRpqAutomaton f).accepts w ↔ w ∈ p.words := by
  obtain ⟨hbase, -⟩ := base_baseAutomaton p hp.startsFresh
  have hend : ∀ e ∈ p.baseAutomaton.endStates, e < p.baseAutomaton.rows :=
    fun e he => hbase.rows_eq ▸ hbase.end_lt e he
  unfold getRpqAutomaton
  rw [(transformAutomaton_spec hbase.synced hend (startIsFinal_baseAutomaton _) f).1 w]
  have hmerged : p.baseAutomaton.deleteMergeableStates.language = p.baseAutomaton.language :=
    language_mergePasses hbase.synced hp.mergesHarmlessly
  rw [hmerged, hbase.language_eq]

/-- The automaton built for an expression accepts exactly the words of the expression, when
its parts are built right and the merges join no states with different words. -/
theorem accepts_getRpqAutomaton_iff (p : IPath) (hp : p.construct.StartsFresh)
    (hmerge : p.construct.baseAutomaton.MergesHarmlessly) (f : String → Nat)
    (w : List PathLabel) : (p.construct.getRpqAutomaton f).accepts w ↔ w ∈ p.words := by
  have hbuilt : p.construct.BuiltRight := ⟨hp, hmerge⟩
  rw [hbuilt.accepts_iff, words_construct]

/-- `(:a/:b)*`. -/
def abStar : IPath := .kleeneStar (.sequence [.atom "a" false, .atom "b" false])

theorem accepts_getRpqAutomaton_abStar :
    (abStar.construct.getRpqAutomaton fun _ => 0).accepts [("a", false), ("b", false)] ↔
      [("a", false), ("b", false)] ∈ abStar.words :=
  accepts_getRpqAutomaton_iff abStar
    (by simp [abStar, construct, constructList, denull, allNullable, nullable, StartsFresh,
      AllStartFresh, startEntered, stateCount, stateCounts])
    (by decide +kernel) (fun _ => 0) _

/-- The query automaton of an expression for which no part is built wrong has the form of
final state that the searches rely on. -/
theorem finalStateAlone_getRpqAutomaton (p : IPath) (hp : p.StartsFresh) (f : String → Nat) :
    (p.getRpqAutomaton f).FinalStateAlone := by
  obtain ⟨hbase, -⟩ := base_baseAutomaton p hp
  have hend : ∀ e ∈ p.baseAutomaton.endStates, e < p.baseAutomaton.rows :=
    fun e he => hbase.rows_eq ▸ hbase.end_lt e he
  exact (transformAutomaton_spec hbase.synced hend (startIsFinal_baseAutomaton _) f).2
    (hbase.rows_eq ▸ hbase.pos)

/-- Its transitions carry the ids of their types, and they lead to states that have rows. -/
theorem transitions_getRpqAutomaton (p : IPath) (hp : p.StartsFresh) (f : String → Nat) :
    0 < (p.getRpqAutomaton f).rows ∧ ∀ i, ∀ t ∈ (p.getRpqAutomaton f).fromTo i,
      t.typeId = f t.type ∧ t.toState < (p.getRpqAutomaton f).rows := by
  obtain ⟨hbase, -⟩ := base_baseAutomaton p hp
  have hend : ∀ e ∈ p.baseAutomaton.endStates, e < p.baseAutomaton.rows :=
    fun e he => hbase.rows_eq ▸ hbase.end_lt e he
  obtain ⟨B, heq, hsync, -, -, hpos⟩ :=
    transformAutomaton_eq_finish hbase.synced hend (startIsFinal_baseAutomaton p) f
  rw [getRpqAutomaton, heq]
  exact ⟨(hpos (hbase.rows_eq ▸ hbase.pos)).1, fun i t ht => mem_fromTo_finish hsync ht⟩

def AutomatonDenotes (p : IPath) : Prop :=
  ∀ (f : String → Nat) (w : List PathLabel), (p.construct.getRpqAutomaton f).accepts w ↔ w ∈ p.words

instance (A : RPQAutomaton) (i : Nat) (a : PathLabel) (j : Nat) : Decidable (A.Step i a j) :=
  inferInstanceAs (Decidable (∃ t ∈ A.fromTo i, t.toState = j ∧ (t.type, t.inverse) = a))

/-- `(:a*/:b)?`: the optional makes the loop of the star final. -/
def optionalOfStar : IPath :=
  .optional (.sequence [.kleeneStar (.atom "a" false), .atom "b" false])

/-- `(:a/:b*)*`: the end state is merged into the start with its loop. -/
def starOfLoop : IPath :=
  .kleeneStar (.sequence [.atom "a" false, .kleeneStar (.atom "b" false)])

/-- `((:a*/:b*)?)*`: two states under the star, but more than one transition. -/
def starOfTwoLoops : IPath :=
  .kleeneStar (.optional (.sequence [.kleeneStar (.atom "a" false), .kleeneStar (.atom "b" false)]))

/-- A word of `(:a*/:b)?` is empty or ends in `b`. -/
theorem optionalOfStar_words {w : List PathLabel} (hw : w ∈ optionalOfStar.words) :
    w = [] ∨ ∃ u, w = u ++ [("b", false)] := by
  rcases hw with rfl | ⟨u, -, _, ⟨_, rfl, _, rfl, rfl⟩, rfl⟩
  · exact .inl rfl
  · exact .inr ⟨u, rfl⟩

/-- A word of `(:a/:b*)*` is empty or starts with `a`. -/
theorem starOfLoop_words : starOfLoop.words ≤ {w | w = [] ∨ ∃ u, w = ("a", false) :: u} := by
  refine kstar_le_of_mul_le_right (by rintro _ rfl; exact .inl rfl) ?_
  rintro _ ⟨_, ⟨_, rfl, u, -, rfl⟩, v, -, rfl⟩
  exact .inr ⟨u ++ v, rfl⟩

/-- The construction accepts a word that `(:a*/:b)?` lacks and one that `(:a/:b*)*` lacks,
and rejects one of `((:a*/:b*)?)*`. -/
theorem not_automatonDenotes :
    ¬ AutomatonDenotes optionalOfStar ∧ ¬ AutomatonDenotes starOfLoop ∧
      ¬ AutomatonDenotes starOfTwoLoops := by
  refine ⟨fun h => ?_, fun h => ?_, fun h => ?_⟩
  · have haccepts : (optionalOfStar.construct.getRpqAutomaton fun _ => 0).accepts [("a", false)] :=
      .inr ⟨by simp, .single (by decide +kernel)⟩
    rcases optionalOfStar_words ((h _ _).mp haccepts) with h | ⟨u, h⟩
    · exact absurd h (by simp)
    · have hlast := congrArg List.getLast? h
      simp at hlast
  · have haccepts : (starOfLoop.construct.getRpqAutomaton fun _ => 0).accepts [("b", false)] :=
      .inr ⟨by simp, .single (by decide +kernel)⟩
    rcases starOfLoop_words ((h _ _).mp haccepts) with h | ⟨u, h⟩
    · exact absurd h (by simp)
    · exact absurd h (by simp)
  · have hword : [("b", false)] ∈ starOfTwoLoops.words := by
      have hle : (IPath.atom "b" false).words ≤ starOfTwoLoops.words := by
        have hseq : (IPath.atom "b" false).words ≤
            (IPath.optional (.sequence [.kleeneStar (.atom "a" false),
              .kleeneStar (.atom "b" false)])).words := by
          refine le_trans ?_ le_sup_right
          rintro w hw
          have hstar : (IPath.atom "b" false).words ≤ (IPath.atom "b" false).words∗ := le_kstar
          exact ⟨[], Language.nil_mem_kstar _, w, ⟨w, hstar hw, [], rfl, by simp⟩, rfl⟩
        exact hseq.trans le_kstar
      exact hle rfl
    have hrow : ∀ t ∈ (starOfTwoLoops.construct.getRpqAutomaton fun _ => 0).fromTo 0,
        (t.type, t.inverse) ≠ ("b", false) := by decide +kernel
    rcases (h (fun _ => 0) _).mpr hword with ⟨h, -⟩ | ⟨-, h⟩
    · exact absurd h (by simp)
    · obtain ⟨s, ⟨t, ht, -, hl⟩, -⟩ := Run.cons_iff.mp h
      exact hrow t ht hl

end IPath
end MillenniumDB
