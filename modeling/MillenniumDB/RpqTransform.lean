import MillenniumDB.RpqMerge

/-!
# From a base automaton to the automaton of a query

The rewrites of `transform_automaton` after the merges: silent transitions, unreachable
states, the single final state, states that lead nowhere, and the order of the rows.
The last table is read by the searches, which never look at `to_from_connections`.
-/

namespace MillenniumDB
namespace RPQAutomaton

/-- Connect `state` to what a state of its closure reaches by a transition that is not
silent. -/
def connectThrough (state : Nat) (A : RPQAutomaton) (s : Nat) : RPQAutomaton :=
  (A.fromTo s).foldl (fun B t =>
    if t.type.isEmpty then B else B.addTransition ⟨state, t.toState, t.type, t.inverse, 0⟩) A

/-- Connect `state` through its closure and erase one of its silent transitions. -/
def replaceSilent (closure : List Nat) (state : Nat) (A : RPQAutomaton) (t : Transition) :
    RPQAutomaton :=
  let B := closure.foldl (connectThrough state) A
  { B with fromTo := eraseRow B.fromTo state t }

/-- One round of the loop of `delete_epsilon_transitions`. -/
def deleteEpsilonsOf (A : RPQAutomaton) (state : Nat) : RPQAutomaton :=
  let closure := A.epsilonClosure state
  let ends := closure.foldl (fun ends s => if s ∈ ends then setInsert state ends else ends)
    A.endStates
  ((A.fromTo state).filter (·.type.isEmpty)).foldl (replaceSilent closure state)
    (A.withEndStates ends)

def deleteEpsilonTransitions (A : RPQAutomaton) : RPQAutomaton :=
  (List.range A.rows).foldl deleteEpsilonsOf A

def dropTransitions (A : RPQAutomaton) (i : Nat) : RPQAutomaton :=
  { A with
    fromTo := fun j => if j = i then [] else (A.fromTo j).filter (·.toState ≠ i)
    toFrom := fun j => if j = i then [] else (A.toFrom j).filter (·.fromState ≠ i) }

def deleteUnreachableStates (A : RPQAutomaton) : RPQAutomaton :=
  let reachable := A.reachableStates 0 false
  (List.range' 1 (A.rows - 1)).foldl (fun B i =>
    if i ∈ reachable then B
    else (B.dropTransitions i).withEndStates (B.endStates.filter (· ≠ i))) A

def redirectRow (A : RPQAutomaton) (i : Nat) : RPQAutomaton :=
  (A.fromTo i).foldl (fun B t =>
    if t.toState ∈ B.endStates then
      B.addTransition ⟨t.fromState, B.finalState, t.type, t.inverse, 0⟩
    else B) A

def setFinalState (A : RPQAutomaton) : RPQAutomaton :=
  match A.endStates with
  | [final] => { A with finalState := final, startIsFinal := final = 0 }
  | ends =>
    let B : RPQAutomaton :=
      { A with
        totalStates := A.rows + 1
        finalState := A.rows
        startIsFinal := if 0 ∈ ends then true else A.startIsFinal }
    (List.range A.rows).foldl redirectRow B

def deleteAbsortionStates (A : RPQAutomaton) : RPQAutomaton :=
  let endReachable := A.reachableStates A.finalState true
  ((List.range A.rows).foldl (fun B i =>
    if i ∈ endReachable then B else B.dropTransitions i) A).withEndStates []

/-- The loop of `calculate_distance_to_final_state`; its fuel covers every push. -/
def distanceLoop (toFrom : Nat → List Transition) :
    Nat → List (Nat × Nat) → List Nat → (Nat → Nat) → Nat → Nat
  | 0, _, _, distance => distance
  | _ + 1, [], _, distance => distance
  | fuel + 1, (state, d) :: queue, visited, distance =>
    if state ∈ visited then distanceLoop toFrom fuel queue visited distance
    else
      distanceLoop toFrom fuel (queue ++ (toFrom state).map fun t => (t.fromState, d + 1))
        (state :: visited) fun i => if i = state then d else distance i

/-- `calculate_distance_to_final_state`, with `UINT32_MAX` for the states not reached. -/
def calculateDistanceToFinalState (A : RPQAutomaton) : RPQAutomaton :=
  { A with
    distanceToFinal := distanceLoop A.toFrom
      (2 + ∑ i ∈ Finset.range A.rows, (A.toFrom i).length) [(A.finalState, 0)] []
      fun _ => 2 ^ 32 - 1 }

/-- The position of the first transition whose target is closest to the final state. -/
def closest (distance : Nat → Nat) : List Transition → Nat
  | [] => 0
  | [_] => 0
  | t :: u :: ts =>
    let k := closest distance (u :: ts) + 1
    match (t :: u :: ts)[k]? with
    | some v => if distance v.toState < distance t.toState then k else 0
    | none => 0

/-- `sort_state_transition`: a selection sort that swaps the closest transition to the
front of what is left. -/
def sortRow (distance : Nat → Nat) : Nat → List Transition → List Transition
  | 0, ts => ts
  | _ + 1, [] => []
  | n + 1, t :: ts =>
    match closest distance (t :: ts) with
    | 0 => t :: sortRow distance n ts
    | k + 1 =>
      match ts[k]? with
      | some u => u :: sortRow distance n (ts.set k t)
      | none => t :: ts

def sortTransitions (A : RPQAutomaton) : RPQAutomaton :=
  { A with
    fromTo := fun i =>
      if i < A.rows then sortRow A.distanceToFinal (A.fromTo i).length (A.fromTo i)
      else A.fromTo i }

/-- The last loop of `transform_automaton`. -/
def setTypeIds (f : String → Nat) (A : RPQAutomaton) : RPQAutomaton :=
  { A with
    fromTo := fun i =>
      if i < A.rows then (A.fromTo i).map fun t => { t with typeId := f t.type }
      else A.fromTo i }

/-- The last rewrites: the distances, the order of the rows and the type ids. -/
def finish (A : RPQAutomaton) (f : String → Nat) : RPQAutomaton :=
  A.calculateDistanceToFinalState.sortTransitions.setTypeIds f

def transformAutomaton (A : RPQAutomaton) (f : String → Nat) : RPQAutomaton :=
  let B := A.deleteMergeableStates.deleteEpsilonTransitions.deleteUnreachableStates
  B.setFinalState.deleteAbsortionStates.finish f

def Step (A : RPQAutomaton) (i : Nat) (a : PathLabel) (j : Nat) : Prop :=
  ∃ t ∈ A.fromTo i, t.toState = j ∧ (t.type, t.inverse) = a

/-- Acceptance of a word by an automaton after `transform_automaton`. -/
def accepts (A : RPQAutomaton) (w : List PathLabel) : Prop :=
  (w = [] ∧ A.startIsFinal) ∨ (w ≠ [] ∧ Run A.Step 0 w A.finalState)

variable {A B : RPQAutomaton} {P : Transition → Prop} {state s i j : Nat} {t u : Transition}
  {l : Option PathLabel}

def NotSilent (t : Transition) : Prop := ¬ t.type.isEmpty

theorem label_ne_none_iff : t.label ≠ none ↔ NotSilent t := by
  unfold Transition.label NotSilent
  split_ifs with h <;> simp [h]

theorem Synced.notSilent (hA : A.Synced) : A.SyncedOn NotSilent :=
  { hA with mirror := fun t _ => hA.mirror t trivial }

/-- Adding some of the transitions of a list, each moved to start in `state`. -/
theorem edge_foldl_connect (ts : List Transition) (A : RPQAutomaton) :
    (ts.foldl (fun B t => if t.type.isEmpty then B
        else B.addTransition ⟨state, t.toState, t.type, t.inverse, 0⟩) A).Edge i l j ↔
      A.Edge i l j ∨ (i = state ∧ l ≠ none ∧ ∃ t ∈ ts, t.toState = j ∧ t.label = l) := by
  induction ts generalizing A with
  | nil => simp
  | cons t ts ih =>
    rw [List.foldl_cons, ih]
    simp only [List.mem_cons, exists_eq_or_imp]
    split_ifs with h
    · have ht : t.label = none := if_pos h
      rw [ht]
      constructor
      · rintro (h | ⟨hi, hl, h⟩)
        · exact .inl h
        · exact .inr ⟨hi, hl, .inr h⟩
      · rintro (h | ⟨hi, hl, ⟨-, rfl⟩ | h⟩)
        · exact .inl h
        · exact absurd rfl hl
        · exact .inr ⟨hi, hl, h⟩
    · have ht : t.label ≠ none := label_ne_none_iff.mpr h
      rw [edge_addTransition]
      constructor
      · rintro ((h | ⟨rfl, rfl, rfl⟩) | ⟨hi, hl, h⟩)
        · exact .inl h
        · exact .inr ⟨rfl, ht, .inl ⟨rfl, rfl⟩⟩
        · exact .inr ⟨hi, hl, .inr h⟩
      · rintro (h | ⟨rfl, hl, ⟨rfl, rfl⟩ | h⟩)
        · exact .inl (.inl h)
        · exact .inl (.inr ⟨rfl, rfl, rfl⟩)
        · exact .inr ⟨rfl, hl, h⟩

theorem edge_connectThrough : (connectThrough state A s).Edge i l j ↔
    A.Edge i l j ∨ (i = state ∧ l ≠ none ∧ A.Edge s l j) :=
  edge_foldl_connect _ _

theorem edge_foldl_connectThrough (closure : List Nat) (A : RPQAutomaton) :
    (closure.foldl (connectThrough state) A).Edge i l j ↔
      A.Edge i l j ∨ (i = state ∧ l ≠ none ∧ ∃ s ∈ closure, A.Edge s l j) := by
  induction closure generalizing A with
  | nil => simp
  | cons s closure ih =>
    rw [List.foldl_cons, ih]
    simp only [edge_connectThrough, List.mem_cons, exists_eq_or_imp]
    constructor
    · rintro ((h | ⟨hi, hl, h⟩) | ⟨hi, hl, r, hr, h | ⟨-, -, h⟩⟩)
      · exact .inl h
      · exact .inr ⟨hi, hl, .inl h⟩
      · exact .inr ⟨hi, hl, .inr ⟨r, hr, h⟩⟩
      · exact .inr ⟨hi, hl, .inl h⟩
    · rintro (h | ⟨hi, hl, h | ⟨r, hr, h⟩⟩)
      · exact .inl (.inl h)
      · exact .inl (.inr ⟨hi, hl, h⟩)
      · exact .inr ⟨hi, hl, r, hr, .inl h⟩

/-- What a rewrite of the tables keeps: the invariant, the size and the fields that are set
later. -/
structure Kept (P : Transition → Prop) (A B : RPQAutomaton) : Prop where
  syncedOn : B.SyncedOn P
  rows_eq : B.rows = A.rows
  endStates_eq : B.endStates = A.endStates
  startIsFinal_eq : B.startIsFinal = A.startIsFinal

theorem Kept.refl (hA : A.SyncedOn P) : Kept P A A := ⟨hA, rfl, rfl, rfl⟩

theorem Kept.trans {C : RPQAutomaton} (h : Kept P A B) (h' : Kept P B C) : Kept P A C :=
  ⟨h'.syncedOn, h'.rows_eq.trans h.rows_eq, h'.endStates_eq.trans h.endStates_eq,
    h'.startIsFinal_eq.trans h.startIsFinal_eq⟩

theorem kept_addTransition (hA : A.SyncedOn P) (ht : P t) (hf : t.fromState < A.rows)
    (hto : t.toState < A.rows) : Kept P A (A.addTransition t) := by
  refine ⟨hA.addTransition ht, ?_, by simp, by simp⟩
  rw [rows_addTransition]
  omega

theorem kept_foldl {α : Type*} {f : RPQAutomaton → α → RPQAutomaton} {xs : List α}
    (hA : A.SyncedOn P)
    (hf : ∀ B, Kept P A B → ∀ x ∈ xs, Kept P B (f B x)) : Kept P A (xs.foldl f A) := by
  induction xs generalizing A with
  | nil => exact .refl hA
  | cons x xs ih =>
    have hx := hf A (.refl hA) x (by simp)
    exact hx.trans (ih hx.syncedOn fun B hB y hy => hf B (hx.trans hB) y (by simp [hy]))

theorem kept_connectThrough (hA : A.SyncedOn NotSilent) (hstate : state < A.rows) :
    Kept NotSilent A (connectThrough state A s) := by
  apply kept_foldl hA
  intro B hB t ht
  split_ifs with h
  · exact .refl hB.syncedOn
  · have hlt := hA.lt_rows ht
    exact kept_addTransition hB.syncedOn h (hB.rows_eq ▸ hstate) (hB.rows_eq ▸ hlt.2)

theorem kept_eraseSilent (hA : A.SyncedOn NotSilent) (ht : ¬ NotSilent t) :
    Kept NotSilent A { A with fromTo := eraseRow A.fromTo state t } := by
  have hmem : ∀ {u i}, u ∈ eraseRow A.fromTo state t i → u ∈ A.fromTo i := fun h =>
    ((mem_eraseRow hA.nodup_fromTo).mp h).1
  refine ⟨⟨fun h => hA.fromState_eq (hmem h), hA.toState_eq, fun u hu => ?_,
    nodup_eraseRow hA.nodup_fromTo, hA.nodup_toFrom, fun h => hA.lt_rows (hmem h),
    hA.toFrom_lt_rows⟩, rfl, rfl, rfl⟩
  have hne : u ≠ t := fun h => ht (h ▸ hu)
  rw [← hA.mirror u hu]
  change u ∈ eraseRow A.fromTo state t u.fromState ↔ _
  rw [mem_eraseRow hA.nodup_fromTo]
  exact and_iff_left fun _ => hne

theorem kept_foldl_connectThrough (hA : A.SyncedOn NotSilent) (hstate : state < A.rows)
    (closure : List Nat) : Kept NotSilent A (closure.foldl (connectThrough state) A) :=
  kept_foldl hA fun _ hB _ _ => kept_connectThrough hB.syncedOn (hB.rows_eq ▸ hstate)

theorem kept_replaceSilent (hA : A.SyncedOn NotSilent) (hstate : state < A.rows)
    (closure : List Nat) (ht : ¬ NotSilent t) :
    Kept NotSilent A (replaceSilent closure state A t) := by
  have h := kept_foldl_connectThrough hA hstate closure
  exact h.trans (kept_eraseSilent h.syncedOn ht)

theorem silent_connectThrough (hu : ¬ NotSilent u) :
    u ∈ (connectThrough state A s).fromTo i ↔ u ∈ A.fromTo i := by
  unfold connectThrough
  generalize A.fromTo s = ts
  induction ts generalizing A with
  | nil => rfl
  | cons t ts ih =>
    rw [List.foldl_cons, ih]
    split_ifs with h
    · rfl
    · rw [mem_fromTo_addTransition]
      refine or_iff_left ?_
      rintro ⟨-, rfl⟩
      exact hu h

theorem silent_replaceSilent (hA : A.SyncedOn NotSilent) (hstate : state < A.rows)
    (closure : List Nat) (hu : ¬ NotSilent u) :
    u ∈ (replaceSilent closure state A t).fromTo i ↔ u ∈ A.fromTo i ∧ (i = state → u ≠ t) := by
  have hconnect : u ∈ (closure.foldl (connectThrough state) A).fromTo i ↔ u ∈ A.fromTo i := by
    clear hA hstate
    induction closure generalizing A with
    | nil => rfl
    | cons s closure ih => rw [List.foldl_cons, ih, silent_connectThrough hu]
  have h := kept_foldl_connectThrough hA hstate closure
  rw [← hconnect]
  exact mem_eraseRow h.syncedOn.nodup_fromTo

theorem edge_replaceSilent (hA : A.SyncedOn NotSilent) (hstate : state < A.rows)
    (closure : List Nat) (ht : ¬ NotSilent t) (hl : l ≠ none) :
    (replaceSilent closure state A t).Edge i l j ↔
      A.Edge i l j ∨ (i = state ∧ ∃ s ∈ closure, A.Edge s l j) := by
  have h := kept_foldl_connectThrough hA hstate closure
  have hconnect : (closure.foldl (connectThrough state) A).Edge i l j ↔
      A.Edge i l j ∨ (i = state ∧ ∃ s ∈ closure, A.Edge s l j) := by
    rw [edge_foldl_connectThrough]
    simp only [hl, ne_eq, not_false_eq_true, true_and]
  rw [← hconnect]
  unfold Edge
  refine exists_congr fun u => ?_
  have hmem : u ∈ (replaceSilent closure state A t).fromTo i ↔
      u ∈ (closure.foldl (connectThrough state) A).fromTo i ∧ (i = state → u ≠ t) :=
    mem_eraseRow h.syncedOn.nodup_fromTo
  rw [hmem]
  constructor
  · rintro ⟨⟨hu, -⟩, hlab⟩
    exact ⟨hu, hlab⟩
  · rintro ⟨hu, hto, hlab⟩
    refine ⟨⟨hu, fun _ hut => ?_⟩, hto, hlab⟩
    rw [← hlab, hut] at hl
    exact ht (label_ne_none_iff.mp hl)

theorem foldl_replaceSilent (hA : A.SyncedOn NotSilent) (hstate : state < A.rows)
    (closure : List Nat) {ts : List Transition} (hts : ∀ t ∈ ts, ¬ NotSilent t) :
    Kept NotSilent A (ts.foldl (replaceSilent closure state) A) ∧
      (∀ u i, ¬ NotSilent u → (u ∈ (ts.foldl (replaceSilent closure state) A).fromTo i ↔
        u ∈ A.fromTo i ∧ (i = state → u ∉ ts))) ∧
      ∀ i l j, l ≠ none → ((ts.foldl (replaceSilent closure state) A).Edge i l j ↔
        A.Edge i l j ∨ (ts ≠ [] ∧ i = state ∧ ∃ s ∈ closure, A.Edge s l j)) := by
  induction ts generalizing A with
  | nil => exact ⟨.refl hA, by simp, by simp⟩
  | cons t ts ih =>
    have ht := hts t (by simp)
    have hkept := kept_replaceSilent hA hstate closure ht
    obtain ⟨hkeep, hsilent, hedge⟩ := ih hkept.syncedOn (hkept.rows_eq ▸ hstate)
      fun t h => hts t (by simp [h])
    refine ⟨hkept.trans hkeep, fun u i hu => ?_, fun i l j hl => ?_⟩
    · rw [List.foldl_cons, hsilent u i hu, silent_replaceSilent hA hstate closure hu,
        List.mem_cons]
      tauto
    · rw [List.foldl_cons, hedge i l j hl]
      simp only [edge_replaceSilent hA hstate closure ht hl, ne_eq, reduceCtorEq,
        not_false_eq_true, true_and]
      constructor
      · rintro ((h | h) | ⟨-, hi, s, hs, h | ⟨-, r, hr, h⟩⟩)
        · exact .inl h
        · exact .inr h
        · exact .inr ⟨hi, s, hs, h⟩
        · exact .inr ⟨hi, r, hr, h⟩
      · rintro (h | h)
        · exact .inl (.inl h)
        · exact .inl (.inr h)

theorem mem_closureEnds {closure ends : List Nat} {e : Nat} :
    e ∈ closure.foldl (fun ends s => if s ∈ ends then setInsert state ends else ends) ends ↔
      e ∈ ends ∨ (e = state ∧ ∃ s ∈ closure, s ∈ ends) := by
  induction closure generalizing ends with
  | nil => simp
  | cons s closure ih =>
    rw [List.foldl_cons, ih]
    simp only [List.mem_cons, exists_eq_or_imp]
    split_ifs with h
    · simp only [mem_setInsert]
      constructor
      · rintro ((rfl | h') | ⟨rfl, -⟩)
        · exact .inr ⟨rfl, .inl h⟩
        · exact .inl h'
        · exact .inr ⟨rfl, .inl h⟩
      · rintro (h' | ⟨rfl, -⟩)
        · exact .inl (.inr h')
        · exact .inl (.inl rfl)
    · tauto

/-- What `delete_epsilon_transitions` keeps from one state to the next. -/
structure Resolved (A B : RPQAutomaton) : Prop where
  syncedOn : B.SyncedOn NotSilent
  rows_eq : B.rows = A.rows
  startIsFinal_eq : B.startIsFinal = A.startIsFinal
  end_lt : (∀ e ∈ A.endStates, e < A.rows) → ∀ e ∈ B.endStates, e < B.rows
  language_eq : B.language = A.language
  no_new : ∀ i j, B.Edge i none j → A.Edge i none j

theorem Resolved.trans {C : RPQAutomaton} (h : Resolved A B) (h' : Resolved B C) :
    Resolved A C where
  syncedOn := h'.syncedOn
  rows_eq := h'.rows_eq.trans h.rows_eq
  startIsFinal_eq := h'.startIsFinal_eq.trans h.startIsFinal_eq
  end_lt hend := h'.end_lt (h.end_lt hend)
  language_eq := h'.language_eq.trans h.language_eq
  no_new i j hC := h.no_new i j (h'.no_new i j hC)

section DeleteEpsilonsOf

def closureEnds (A : RPQAutomaton) (state : Nat) : List Nat :=
  (A.epsilonClosure state).foldl (fun ends s => if s ∈ ends then setInsert state ends else ends)
    A.endStates

theorem kept_deleteEpsilonsOf (hA : A.SyncedOn NotSilent) (hstate : state < A.rows) :
    Kept NotSilent (A.withEndStates (A.closureEnds state)) (A.deleteEpsilonsOf state) := by
  have hA' : (A.withEndStates (A.closureEnds state)).SyncedOn NotSilent :=
    ⟨hA.fromState_eq, hA.toState_eq, hA.mirror, hA.nodup_fromTo, hA.nodup_toFrom, hA.lt_rows,
      hA.toFrom_lt_rows⟩
  refine (foldl_replaceSilent hA' hstate (A.epsilonClosure state) fun t ht => ?_).1
  rw [NotSilent, not_not]
  exact (List.mem_filter.mp ht).2

theorem endStates_deleteEpsilonsOf (hA : A.SyncedOn NotSilent) (hstate : state < A.rows) :
    (A.deleteEpsilonsOf state).endStates = A.closureEnds state :=
  (kept_deleteEpsilonsOf hA hstate).endStates_eq

/-- A state that is led to its closure has the edges of the closure instead of silent ones. -/
theorem edge_deleteEpsilonsOf (hA : A.SyncedOn NotSilent) (hstate : state < A.rows) :
    (A.deleteEpsilonsOf state).Edge = bypass A.Edge state := by
  set closure := A.epsilonClosure state with hclosure
  set ends := closure.foldl (fun ends s => if s ∈ ends then setInsert state ends else ends)
    A.endStates with hends
  set ts := (A.fromTo state).filter (·.type.isEmpty) with hts
  have hmem : ∀ {u}, u ∈ ts ↔ u ∈ A.fromTo state ∧ ¬ NotSilent u := by
    intro u
    rw [hts, List.mem_filter, NotSilent, not_not]
  have hA' : (A.withEndStates ends).SyncedOn NotSilent :=
    ⟨hA.fromState_eq, hA.toState_eq, hA.mirror, hA.nodup_fromTo, hA.nodup_toFrom, hA.lt_rows,
      hA.toFrom_lt_rows⟩
  obtain ⟨-, hsilent, hlabelled⟩ := foldl_replaceSilent hA' hstate closure
    fun t ht => (hmem.mp ht).2
  set C := ts.foldl (replaceSilent closure state) (A.withEndStates ends)
  have hnone : ∀ i j, C.Edge i none j ↔ A.Edge i none j ∧ i ≠ state := by
    intro i j
    constructor
    · rintro ⟨u, hu, hto, hlab⟩
      have hus : ¬ NotSilent u := fun h => label_ne_none_iff.mpr h hlab
      obtain ⟨hu, hnot⟩ := (hsilent u i hus).mp hu
      exact ⟨⟨u, hu, hto, hlab⟩, fun hi => hnot hi (hmem.mpr ⟨hi ▸ hu, hus⟩)⟩
    · rintro ⟨⟨u, hu, hto, hlab⟩, hi⟩
      have hus : ¬ NotSilent u := fun h => label_ne_none_iff.mpr h hlab
      exact ⟨u, (hsilent u i hus).mpr ⟨hu, fun h => absurd h hi⟩, hto, hlab⟩
  show C.Edge = _
  funext i l j
  apply propext
  by_cases hl : l = none
  · subst hl
    rw [hnone]
    unfold bypass
    constructor
    · rintro ⟨h, hi⟩
      exact .inl ⟨h, fun h => absurd h hi⟩
    · rintro (⟨h, hi⟩ | ⟨-, hl, -⟩)
      · exact ⟨h, fun hstate => hi hstate rfl⟩
      · exact absurd rfl hl
  · rw [hlabelled i l j hl]
    constructor
    · rintro (h | ⟨-, rfl, s, hs, h⟩)
      · exact .inl ⟨h, fun _ => hl⟩
      · obtain ⟨k, hk, hks⟩ := hA.mem_epsilonClosure.mp hs
        exact .inr ⟨rfl, hl, s, hk.append (.single_eps hks), h⟩
    · rintro (⟨h, -⟩ | ⟨rfl, -, s, hs, h⟩)
      · exact .inl h
      · rcases hs.last_edge with ⟨rfl, -⟩ | ⟨v, l', r, hv, hr, hrs⟩
        · exact .inl h
        · obtain ⟨rfl, hl'⟩ := List.append_eq_nil_iff.mp hv.symm
          obtain rfl : l' = none := by simpa using hl'
          refine .inr ⟨?_, rfl, s, hA.mem_epsilonClosure.mpr ⟨r, hr, hrs⟩, h⟩
          -- the first edge of the silent path is one of the row
          have hfirst : ∃ k, A.Edge i none k := by
            cases hr with
            | nil => exact ⟨s, hrs⟩
            | eps he => exact ⟨_, he⟩
          obtain ⟨k, u, hu, -, hlab⟩ := hfirst
          exact List.ne_nil_of_mem (hmem.mpr ⟨hu, fun hn => label_ne_none_iff.mpr hn hlab⟩)

theorem mem_endStates_deleteEpsilonsOf (hA : A.SyncedOn NotSilent) (hstate : state < A.rows) {e : Nat} :
    e ∈ (A.deleteEpsilonsOf state).endStates ↔
      e ∈ A.endStates ∨ (e = state ∧ ∃ f, f ∈ A.endStates ∧ EpsRun A.Edge state [] f) := by
  rw [endStates_deleteEpsilonsOf hA hstate, closureEnds, mem_closureEnds]
  constructor
  · rintro (h | ⟨rfl, s, hs, hse⟩)
    · exact .inl h
    · obtain ⟨k, hk, hks⟩ := hA.mem_epsilonClosure.mp hs
      exact .inr ⟨rfl, s, hse, hk.append (.single_eps hks)⟩
  · rintro (h | ⟨rfl, f, hf, hrun⟩)
    · exact .inl h
    · rcases hrun.last_edge with ⟨rfl, -⟩ | ⟨v, l', r, hv, hr, hrs⟩
      · exact .inl hf
      · obtain ⟨rfl, hl'⟩ := List.append_eq_nil_iff.mp hv.symm
        obtain rfl : l' = none := by simpa using hl'
        exact .inr ⟨rfl, f, hA.mem_epsilonClosure.mpr ⟨r, hr, hrs⟩, hf⟩

theorem accepts_deleteEpsilonsOf (hA : A.SyncedOn NotSilent) (hstate : state < A.rows) (q : Nat) :
    Accepts (A.deleteEpsilonsOf state).Edge (· ∈ (A.deleteEpsilonsOf state).endStates) q =
      Accepts A.Edge (· ∈ A.endStates) q := by
  simp only [mem_endStates_deleteEpsilonsOf hA hstate]
  rw [edge_deleteEpsilonsOf hA hstate]
  exact accepts_bypass A.Edge (· ∈ A.endStates) state q

theorem resolved_deleteEpsilonsOf (hA : A.SyncedOn NotSilent) (hstate : state < A.rows) :
    Resolved A (A.deleteEpsilonsOf state) ∧ ∀ j, ¬ (A.deleteEpsilonsOf state).Edge state none j := by
  have hkept := kept_deleteEpsilonsOf hA hstate
  have hnone : ∀ i j, (A.deleteEpsilonsOf state).Edge i none j → A.Edge i none j ∧ i ≠ state := by
    intro i j h
    rw [edge_deleteEpsilonsOf hA hstate] at h
    rcases h with ⟨h, hi⟩ | ⟨-, hl, -⟩
    · exact ⟨h, fun heq => hi heq rfl⟩
    · exact absurd rfl hl
  refine ⟨⟨hkept.syncedOn, hkept.rows_eq, hkept.startIsFinal_eq, fun hlt e he => ?_, ?_, ?_⟩, ?_⟩
  · rw [show (A.deleteEpsilonsOf state).rows = A.rows from hkept.rows_eq]
    rcases (mem_endStates_deleteEpsilonsOf hA hstate).mp he with he | ⟨rfl, -⟩
    · exact hlt e he
    · exact hstate
  · exact accepts_deleteEpsilonsOf hA hstate 0
  · exact fun i j h => (hnone i j h).1
  · exact fun j h => (hnone state j h).2 rfl

end DeleteEpsilonsOf

/-- `delete_epsilon_transitions` keeps the language and leaves no silent transition. -/
theorem resolved_deleteEpsilonTransitions (hA : A.SyncedOn NotSilent) :
    Resolved A A.deleteEpsilonTransitions ∧
      ∀ i j, ¬ A.deleteEpsilonTransitions.Edge i none j := by
  have key : ∀ (ss : List Nat) (A : RPQAutomaton), A.SyncedOn NotSilent → (∀ s ∈ ss, s < A.rows) →
      Resolved A (ss.foldl deleteEpsilonsOf A) ∧
        ∀ s ∈ ss, ∀ j, ¬ (ss.foldl deleteEpsilonsOf A).Edge s none j := by
    intro ss
    induction ss with
    | nil => exact fun A hA _ => ⟨⟨hA, rfl, rfl, id, rfl, fun _ _ => id⟩, by simp⟩
    | cons s ss ih =>
      intro A hA hlt
      obtain ⟨hres, hgone⟩ := resolved_deleteEpsilonsOf hA (hlt s (by simp))
      obtain ⟨hrest, hrestGone⟩ := ih (A.deleteEpsilonsOf s) hres.syncedOn
        fun r hr => hres.rows_eq ▸ hlt r (by simp [hr])
      refine ⟨hres.trans hrest, fun r hr j => ?_⟩
      rcases List.mem_cons.mp hr with rfl | hr
      · exact fun h => hgone j (hrest.no_new r j h)
      · exact hrestGone r hr j
  obtain ⟨hres, hgone⟩ := key (List.range A.rows) A hA fun s hs => List.mem_range.mp hs
  refine ⟨hres, fun i j h => ?_⟩
  have hi := (hA.edge_lt (hres.no_new i j h)).1
  exact hgone i (List.mem_range.mpr hi) j h

theorem mem_dropTransitions : u ∈ (A.dropTransitions s).fromTo i ↔
    u ∈ A.fromTo i ∧ i ≠ s ∧ u.toState ≠ s := by
  change u ∈ (if i = s then [] else (A.fromTo i).filter (·.toState ≠ s)) ↔ _
  split_ifs with h
  · simp [h]
  · simp [h, List.mem_filter]

theorem mem_toFrom_dropTransitions : u ∈ (A.dropTransitions s).toFrom j ↔
    u ∈ A.toFrom j ∧ j ≠ s ∧ u.fromState ≠ s := by
  change u ∈ (if j = s then [] else (A.toFrom j).filter (·.fromState ≠ s)) ↔ _
  split_ifs with h
  · simp [h]
  · simp [h, List.mem_filter]

theorem kept_dropTransitions (hA : A.SyncedOn P) (s : Nat) : Kept P A (A.dropTransitions s) := by
  refine ⟨⟨fun h => hA.fromState_eq (mem_dropTransitions.mp h).1,
    fun h => hA.toState_eq (mem_toFrom_dropTransitions.mp h).1, fun t ht => ?_, fun i => ?_,
    fun j => ?_, fun h => hA.lt_rows (mem_dropTransitions.mp h).1,
    fun h => hA.toFrom_lt_rows (mem_toFrom_dropTransitions.mp h).1⟩, rfl, rfl, rfl⟩
  · rw [mem_dropTransitions, mem_toFrom_dropTransitions, hA.mirror t ht]
    tauto
  · change (if i = s then [] else (A.fromTo i).filter (·.toState ≠ s)).Nodup
    split_ifs
    · exact List.nodup_nil
    · exact (hA.nodup_fromTo i).filter _
  · change (if j = s then [] else (A.toFrom j).filter (·.fromState ≠ s)).Nodup
    split_ifs
    · exact List.nodup_nil
    · exact (hA.nodup_toFrom j).filter _

theorem edge_dropTransitions :
    (A.dropTransitions s).Edge i l j ↔ A.Edge i l j ∧ i ≠ s ∧ j ≠ s := by
  unfold Edge
  simp only [mem_dropTransitions]
  constructor
  · rintro ⟨t, ⟨ht, hi, hj⟩, rfl, rfl⟩
    exact ⟨⟨t, ht, rfl, rfl⟩, hi, hj⟩
  · rintro ⟨⟨t, ht, rfl, rfl⟩, hi, hj⟩
    exact ⟨t, ⟨ht, hi, hj⟩, rfl, rfl⟩

def Dropped (states keep : List Nat) (i : Nat) : Prop := i ∈ states ∧ i ∉ keep

theorem dropped_cons_of_mem {states keep : List Nat} (hs : s ∈ keep) :
    Dropped (s :: states) keep i ↔ Dropped states keep i := by
  unfold Dropped
  rw [List.mem_cons]
  constructor
  · rintro ⟨rfl | h, hi⟩
    · exact absurd hs hi
    · exact ⟨h, hi⟩
  · exact fun h => ⟨.inr h.1, h.2⟩

theorem dropped_cons_of_notMem {states keep : List Nat} (hs : s ∉ keep) :
    Dropped (s :: states) keep i ↔ i = s ∨ Dropped states keep i := by
  unfold Dropped
  rw [List.mem_cons]
  constructor
  · rintro ⟨h | h, hi⟩
    · exact .inl h
    · exact .inr ⟨h, hi⟩
  · rintro (rfl | h)
    · exact ⟨.inl rfl, hs⟩
    · exact ⟨.inr h.1, h.2⟩

/-- Dropping the states of a list that are not to be kept, with any change of the end
states on the way. -/
theorem foldl_dropTransitions {keep : List Nat} {f : RPQAutomaton → Nat → RPQAutomaton}
    (hf : ∀ B i, i ∈ keep → f B i = B)
    (hdrop : ∀ B i, i ∉ keep → (f B i).fromTo = (B.dropTransitions i).fromTo)
    (states : List Nat) (A : RPQAutomaton) :
    (states.foldl f A).Edge i l j ↔
      A.Edge i l j ∧ ¬ Dropped states keep i ∧ ¬ Dropped states keep j := by
  induction states generalizing A with
  | nil => simp [Dropped]
  | cons s states ih =>
    rw [List.foldl_cons, ih]
    by_cases hs : s ∈ keep
    · rw [hf A s hs, dropped_cons_of_mem hs, dropped_cons_of_mem hs]
    · have hedge : (f A s).Edge i l j ↔ A.Edge i l j ∧ i ≠ s ∧ j ≠ s := by
        rw [edge_congr (hdrop A s hs), edge_dropTransitions]
      rw [hedge, dropped_cons_of_notMem hs, dropped_cons_of_notMem hs]
      tauto

theorem SyncedOn.reachable_of_epsRun (hA : A.SyncedOn P) {w : List PathLabel}
    (h : EpsRun A.Edge i w j) : j ∈ A.reachableStates i false := by
  rw [hA.mem_reachableStates]
  have hnext : ∀ {a l b}, A.Edge a l b → b ∈ A.stateSuccessors false a := by
    rintro a l b ⟨t, ht, rfl, -⟩
    exact List.mem_map_of_mem ht
  induction h with
  | nil => exact .refl
  | eps he _ ih => exact .head (hnext he) ih
  | sym ha _ ih => exact .head (hnext ha) ih

theorem edge_deleteUnreachableStates : A.deleteUnreachableStates.Edge i l j ↔ A.Edge i l j ∧
    ¬ Dropped (List.range' 1 (A.rows - 1)) (A.reachableStates 0 false) i ∧
      ¬ Dropped (List.range' 1 (A.rows - 1)) (A.reachableStates 0 false) j :=
  foldl_dropTransitions (fun B i hi => if_pos hi) (fun B i hi => by rw [if_neg hi]; rfl) _ A

/-- The loop of `delete_unreachable_states` over a list of states. -/
theorem foldl_dropUnreachable (keep : List Nat) (ss : List Nat) (hA : A.SyncedOn P) :
    let f : RPQAutomaton → Nat → RPQAutomaton := fun B i =>
      if i ∈ keep then B else (B.dropTransitions i).withEndStates (B.endStates.filter (· ≠ i))
    (ss.foldl f A).SyncedOn P ∧ (ss.foldl f A).rows = A.rows ∧
      (ss.foldl f A).startIsFinal = A.startIsFinal ∧
      (∀ e, e ∈ (ss.foldl f A).endStates ↔ e ∈ A.endStates ∧ ¬ Dropped ss keep e) ∧
      ∀ u j, u ∈ (ss.foldl f A).toFrom j ↔
        u ∈ A.toFrom j ∧ ¬ Dropped ss keep j ∧ ¬ Dropped ss keep u.fromState := by
  intro f
  induction ss generalizing A with
  | nil => exact ⟨hA, rfl, rfl, by simp [Dropped], by simp [Dropped]⟩
  | cons s ss ih =>
    rw [List.foldl_cons]
    by_cases hs : s ∈ keep
    · have hfs : f A s = A := if_pos hs
      simp only [dropped_cons_of_mem hs]
      rw [hfs]
      exact ih hA
    · have hfs : f A s = (A.dropTransitions s).withEndStates (A.endStates.filter (· ≠ s)) :=
        if_neg hs
      have hdrop := (kept_dropTransitions hA s).syncedOn
      obtain ⟨h₁, h₂, h₃, h₄, h₅⟩ := ih (A := (A.dropTransitions s).withEndStates
        (A.endStates.filter (· ≠ s)))
        ⟨hdrop.fromState_eq, hdrop.toState_eq, hdrop.mirror, hdrop.nodup_fromTo,
          hdrop.nodup_toFrom, hdrop.lt_rows, hdrop.toFrom_lt_rows⟩
      simp only [dropped_cons_of_notMem hs, not_or]
      rw [hfs]
      refine ⟨h₁, h₂, h₃, fun e => ?_, fun u j => ?_⟩
      · rw [h₄, endStates_withEndStates, List.mem_filter]
        simp only [decide_eq_true_eq, and_assoc]
      · rw [h₅]
        show u ∈ (A.dropTransitions s).toFrom j ∧ _ ↔ _
        rw [mem_toFrom_dropTransitions]
        tauto

/-- `delete_unreachable_states` keeps the language. -/
theorem deleteUnreachableStates_spec (hA : A.SyncedOn P) :
    A.deleteUnreachableStates.SyncedOn P ∧
      A.deleteUnreachableStates.rows = A.rows ∧
      A.deleteUnreachableStates.startIsFinal = A.startIsFinal ∧
      (∀ e ∈ A.deleteUnreachableStates.endStates, e ∈ A.endStates) ∧
      (∀ i l j, A.deleteUnreachableStates.Edge i l j → A.Edge i l j) ∧
      A.deleteUnreachableStates.language = A.language := by
  set states := List.range' 1 (A.rows - 1)
  obtain ⟨hsync, hrows, hflag, hends, -⟩ := foldl_dropUnreachable (A.reachableStates 0 false) states hA
  refine ⟨hsync, hrows, hflag, fun e he => ((hends e).mp he).1,
    fun i l j h => (edge_deleteUnreachableStates.mp h).1, ?_⟩
  apply le_antisymm
  · rintro w ⟨e, he, h⟩
    exact ⟨e, ((hends e).mp he).1, h.mono fun i l j h => (edge_deleteUnreachableStates.mp h).1⟩
  · rintro w ⟨e, he, h⟩
    have hkeep : ∀ {x v}, EpsRun A.Edge 0 v x → ¬ Dropped states (A.reachableStates 0 false) x :=
      fun hx hd => hd.2 (hA.reachable_of_epsRun hx)
    refine ⟨e, (hends e).mpr ⟨he, hkeep h⟩, ?_⟩
    -- the states of the path are reachable, so its edges are kept
    refine (EpsRun.congr_on (P := fun x => ∃ v, EpsRun A.Edge 0 v x) ?_ ⟨[], .nil 0⟩ h).1
    rintro x l y ⟨v, hv⟩ hxy
    have hy := hv.concat hxy
    exact ⟨edge_deleteUnreachableStates.mpr ⟨hxy, hkeep hv, hkeep hy⟩, _, hy⟩

/-- What the searches read: an automaton without silent transitions accepts the words of
`L`, the empty one by the flag. -/
def FinalFor (A : RPQAutomaton) (L : Language PathLabel) : Prop :=
  ∀ w, w ∈ L ↔ (w = [] ∧ A.startIsFinal) ∨ (w ≠ [] ∧ EpsRun A.Edge 0 w A.finalState)

/-- A start state that is the final one is marked, and a start state that is final beside
another one leaves that one without edges. -/
structure Alone (A : RPQAutomaton) : Prop where
  start_marked : A.finalState = 0 → A.startIsFinal
  final_no_edge : A.startIsFinal → A.finalState ≠ 0 → ∀ l j, ¬ A.Edge A.finalState l j

theorem nil_mem_language_iff (hsilent : ∀ i j, ¬ A.Edge i none j) :
    [] ∈ A.language ↔ 0 ∈ A.endStates := by
  constructor
  · rintro ⟨e, he, h⟩
    cases h with
    | nil => exact he
    | eps hstep => exact absurd hstep (hsilent _ _)
  · exact fun h => ⟨0, h, .nil 0⟩

/-- The inner loop of `set_final_state`. -/
theorem foldl_redirect {ts : List Transition} (hA : A.SyncedOn NotSilent)
    (hts : ∀ t ∈ ts, NotSilent t) :
    let B := ts.foldl (fun B t => if t.toState ∈ B.endStates then
      B.addTransition ⟨t.fromState, B.finalState, t.type, t.inverse, 0⟩ else B) A
    B.SyncedOn NotSilent ∧ B.endStates = A.endStates ∧ B.finalState = A.finalState ∧
      B.startIsFinal = A.startIsFinal ∧ ∀ i l j, B.Edge i l j ↔ A.Edge i l j ∨
        (j = A.finalState ∧ ∃ t ∈ ts, t.toState ∈ A.endStates ∧ t.fromState = i ∧ t.label = l) := by
  induction ts generalizing A with
  | nil => exact ⟨hA, rfl, rfl, rfl, by simp⟩
  | cons t ts ih =>
    have ht := hts t (by simp)
    have hts' : ∀ t ∈ ts, NotSilent t := fun t h => hts t (by simp [h])
    simp only [List.foldl_cons]
    split_ifs with hend
    · have hadd := hA.addTransition
        (show NotSilent (⟨t.fromState, A.finalState, t.type, t.inverse, 0⟩ : Transition) from ht)
      obtain ⟨h₁, h₂, h₃, h₄, h₅⟩ := ih hadd hts'
      refine ⟨h₁, h₂.trans (by simp), h₃.trans (by simp), h₄.trans (by simp), fun i l j => ?_⟩
      rw [h₅, edge_addTransition]
      simp only [endStates_addTransition, finalState_addTransition, List.mem_cons,
        exists_eq_or_imp]
      constructor
      · rintro ((h | ⟨rfl, rfl, rfl⟩) | ⟨hj, h⟩)
        · exact .inl h
        · exact .inr ⟨rfl, .inl ⟨hend, rfl, rfl⟩⟩
        · exact .inr ⟨hj, .inr h⟩
      · rintro (h | ⟨hj, ⟨-, rfl, rfl⟩ | h⟩)
        · exact .inl (.inl h)
        · exact .inl (.inr ⟨rfl, rfl, hj⟩)
        · exact .inr ⟨hj, h⟩
    · obtain ⟨h₁, h₂, h₃, h₄, h₅⟩ := ih hA hts'
      refine ⟨h₁, h₂, h₃, h₄, fun i l j => ?_⟩
      rw [h₅]
      simp only [List.mem_cons, exists_eq_or_imp, hend, false_and, false_or]

/-- The outer loop of `set_final_state`: each state with an edge to an end state gets one to
the new state. -/
theorem foldl_redirectRow (ss : List Nat) (hA : A.SyncedOn NotSilent)
    (hsilent : ∀ i j, ¬ A.Edge i none j) (hfinal : A.finalState ∉ A.endStates) :
    (ss.foldl redirectRow A).SyncedOn NotSilent ∧
      (ss.foldl redirectRow A).finalState = A.finalState ∧
      (ss.foldl redirectRow A).startIsFinal = A.startIsFinal ∧
      ∀ i l j, (ss.foldl redirectRow A).Edge i l j ↔ A.Edge i l j ∨
        (j = A.finalState ∧ i ∈ ss ∧ ∃ e ∈ A.endStates, A.Edge i l e) := by
  induction ss generalizing A with
  | nil => exact ⟨hA, rfl, rfl, by simp⟩
  | cons s ss ih =>
    have hrow : ∀ t ∈ A.fromTo s, NotSilent t := fun t ht =>
      label_ne_none_iff.mp fun h => hsilent s t.toState ⟨t, ht, rfl, h⟩
    obtain ⟨h₁, h₂, h₃, h₄, h₅⟩ : (A.redirectRow s).SyncedOn NotSilent ∧
        (A.redirectRow s).endStates = A.endStates ∧
        (A.redirectRow s).finalState = A.finalState ∧
        (A.redirectRow s).startIsFinal = A.startIsFinal ∧
        ∀ i l j, (A.redirectRow s).Edge i l j ↔ A.Edge i l j ∨ (j = A.finalState ∧
          ∃ t ∈ A.fromTo s, t.toState ∈ A.endStates ∧ t.fromState = i ∧ t.label = l) :=
      foldl_redirect hA hrow
    have hedge : ∀ i l j, (A.redirectRow s).Edge i l j ↔ A.Edge i l j ∨
        (j = A.finalState ∧ i = s ∧ ∃ e ∈ A.endStates, A.Edge i l e) := by
      intro i l j
      refine (h₅ i l j).trans (or_congr_right (and_congr_right fun _ => ?_))
      constructor
      · rintro ⟨t, ht, hend, rfl, rfl⟩
        have hs := hA.fromState_eq ht
        exact ⟨hs, t.toState, hend, t, hs ▸ ht, rfl, rfl⟩
      · rintro ⟨rfl, e, he, t, ht, rfl, rfl⟩
        exact ⟨t, ht, he, hA.fromState_eq ht, rfl⟩
    have hsilent' : ∀ i j, ¬ (A.redirectRow s).Edge i none j := by
      intro i j h
      rcases (hedge i none j).mp h with h | ⟨-, -, e, -, h⟩
      · exact hsilent i j h
      · exact hsilent i e h
    have hfinal' : (A.redirectRow s).finalState ∉ (A.redirectRow s).endStates := by
      rwa [h₂, h₃]
    obtain ⟨g₁, g₂, g₃, g₄⟩ := ih h₁ hsilent' hfinal'
    refine ⟨g₁, g₂.trans h₃, g₃.trans h₄, fun i l j => ?_⟩
    rw [List.foldl_cons, g₄, h₂, h₃]
    simp only [hedge, List.mem_cons]
    constructor
    · rintro ((h | ⟨hj, hi, h⟩) | ⟨hj, hi, e, he, h | ⟨rfl, -⟩⟩)
      · exact .inl h
      · exact .inr ⟨hj, .inl hi, h⟩
      · exact .inr ⟨hj, .inr hi, e, he, h⟩
      · exact absurd he hfinal
    · rintro (h | ⟨hj, hi | hi, e, he, h⟩)
      · exact .inl (.inl h)
      · exact .inl (.inr ⟨hj, hi, e, he, h⟩)
      · exact .inr ⟨hj, hi, e, he, .inl h⟩

theorem rows_le_setFinalState : A.rows ≤ A.setFinalState.rows := by
  have hrow : ∀ (ts : List Transition) (B : RPQAutomaton), B.rows ≤ (ts.foldl (fun B t =>
      if t.toState ∈ B.endStates then
        B.addTransition ⟨t.fromState, B.finalState, t.type, t.inverse, 0⟩ else B) B).rows := by
    intro ts
    induction ts with
    | nil => exact fun B => le_rfl
    | cons t ts ih =>
      intro B
      rw [List.foldl_cons]
      refine le_trans ?_ (ih _)
      split_ifs
      · rw [rows_addTransition]
        omega
      · exact le_rfl
  have hrows : ∀ (ss : List Nat) (B : RPQAutomaton), B.rows ≤ (ss.foldl redirectRow B).rows := by
    intro ss
    induction ss with
    | nil => exact fun B => le_rfl
    | cons s ss ih => exact fun B => (hrow _ B).trans (ih _)
  unfold setFinalState
  split
  · exact le_rfl
  · exact hrows (List.range A.rows) { A with
      totalStates := A.rows + 1
      finalState := A.rows
      startIsFinal := if 0 ∈ A.endStates then true else A.startIsFinal }

theorem setFinalState_fresh (hA : A.SyncedOn NotSilent) (hsilent : ∀ i j, ¬ A.Edge i none j)
    (hend : ∀ e ∈ A.endStates, e < A.rows) (hmany : ∀ f, A.endStates ≠ [f]) :
    A.setFinalState.SyncedOn NotSilent ∧ A.setFinalState.finalState = A.rows ∧
      A.setFinalState.startIsFinal = (if 0 ∈ A.endStates then true else A.startIsFinal) ∧
      ∀ i l j, A.setFinalState.Edge i l j ↔
        A.Edge i l j ∨ (j = A.rows ∧ ∃ e ∈ A.endStates, A.Edge i l e) := by
  unfold setFinalState
  split
  · rename_i final hends
    exact absurd hends (hmany final)
  · rename_i ends hends
    set B : RPQAutomaton :=
      { A with
        totalStates := A.rows + 1
        finalState := A.rows
        startIsFinal := if 0 ∈ A.endStates then true else A.startIsFinal }
    have hBsync : B.SyncedOn NotSilent :=
      ⟨hA.fromState_eq, hA.toState_eq, hA.mirror, hA.nodup_fromTo, hA.nodup_toFrom,
        hA.lt_rows, hA.toFrom_lt_rows⟩
    have hfinal : A.rows ∉ A.endStates := fun h => absurd (hend _ h) (lt_irrefl _)
    obtain ⟨h₁, h₂, h₃, h₄⟩ := foldl_redirectRow (List.range A.rows) hBsync hsilent hfinal
    refine ⟨h₁, h₂, h₃, fun i l j => ?_⟩
    refine (h₄ i l j).trans (or_congr_right (and_congr_right fun _ => ?_))
    constructor
    · exact fun h => h.2
    · rintro ⟨e, he, h⟩
      exact ⟨List.mem_range.mpr (hA.edge_lt h).1, e, he, h⟩

/-- `set_final_state` keeps the language. -/
theorem setFinalState_spec (hA : A.SyncedOn NotSilent) (hsilent : ∀ i j, ¬ A.Edge i none j)
    (hend : ∀ e ∈ A.endStates, e < A.rows) (hflag : A.startIsFinal = false) :
    A.setFinalState.SyncedOn NotSilent ∧ (∀ i j, ¬ A.setFinalState.Edge i none j) ∧
      A.setFinalState.FinalFor A.language ∧ (0 < A.rows → A.setFinalState.Alone) := by
  by_cases hone : ∃ f, A.endStates = [f]
  · obtain ⟨final, hends⟩ := hone
    have hset : A.setFinalState = { A with finalState := final, startIsFinal := final = 0 } := by
      simp only [setFinalState, hends]
    rw [hset]
    refine ⟨⟨hA.fromState_eq, hA.toState_eq, hA.mirror, hA.nodup_fromTo, hA.nodup_toFrom,
      hA.lt_rows, hA.toFrom_lt_rows⟩, hsilent, fun w => ?_, fun _ => ⟨by simp, fun h h' => absurd (by simpa using h) h'⟩⟩
    by_cases hw : w = []
    · subst hw
      rw [nil_mem_language_iff hsilent, hends]
      simp [eq_comm]
    · have hone : w ∈ A.language ↔ EpsRun A.Edge 0 w final := by
        unfold language
        rw [hends]
        constructor
        · rintro ⟨e, he, h⟩
          exact List.mem_singleton.mp he ▸ h
        · exact fun h => ⟨final, by simp, h⟩
      rw [hone]
      simp only [hw, false_and, false_or, ne_eq, not_false_eq_true, true_and]
      rfl
  · have hmany : ∀ f, A.endStates ≠ [f] := fun f h => hone ⟨f, h⟩
    obtain ⟨h₁, hCfinal, hCflag, hedge⟩ := setFinalState_fresh hA hsilent hend hmany
    set C := A.setFinalState
    refine ⟨h₁, fun i j h => ?_, fun w => ?_, fun hpos => ⟨fun h => ?_, fun _ _ l j h => ?_⟩⟩
    · rcases (hedge i none j).mp h with h | ⟨-, e, -, h⟩
      · exact hsilent i j h
      · exact hsilent i e h
    rotate_left
    · omega
    · rw [hCfinal] at h
      rcases (hedge _ l j).mp h with h | ⟨-, e, -, h⟩
      · exact absurd (hA.edge_lt h).1 (lt_irrefl _)
      · exact absurd (hA.edge_lt h).1 (lt_irrefl _)
    · by_cases hw : w = []
      · subst hw
        rw [nil_mem_language_iff hsilent, hCflag, hflag]
        simp
      · simp only [hw, false_and, false_or, ne_eq, not_false_eq_true, true_and, hCfinal]
        constructor
        · rintro ⟨e, he, h⟩
          rcases h.last_edge with ⟨-, h⟩ | ⟨v, l, r, rfl, hv, hlast⟩
          · exact absurd h hw
          · exact (hv.mono fun i l j h => (hedge i l j).mpr (.inl h)).concat
              ((hedge r l A.rows).mpr (.inr ⟨rfl, e, he, hlast⟩))
        · intro h
          -- the new state is only entered by the last edge
          have hbefore : ∀ {v r}, EpsRun C.Edge 0 v r → r < A.rows → EpsRun A.Edge 0 v r := by
            intro v r hv
            refine EpsRun.concat_induction (motive := fun v r => r < A.rows → EpsRun A.Edge 0 v r)
              (fun _ => .nil 0) ?_ hv
            intro v r l q _ hrq ih hq
            rcases (hedge r l q).mp hrq with h | ⟨rfl, -⟩
            · exact (ih (hA.edge_lt h).1).concat h
            · exact absurd hq (lt_irrefl _)
          rcases h.last_edge with ⟨-, h⟩ | ⟨v, l, r, rfl, hv, hlast⟩
          · exact absurd h hw
          · rcases (hedge r l A.rows).mp hlast with h | ⟨-, e, he, h⟩
            · exact absurd (hA.edge_lt h).2 (lt_irrefl _)
            · exact ⟨e, he, (hbefore hv (hA.edge_lt h).1).concat h⟩

theorem foldl_dropTransitions_fields (keep states : List Nat) (A : RPQAutomaton) :
    (states.foldl (fun B i => if i ∈ keep then B else B.dropTransitions i) A).finalState =
        A.finalState ∧
      (states.foldl (fun B i => if i ∈ keep then B else B.dropTransitions i) A).startIsFinal =
        A.startIsFinal := by
  induction states generalizing A with
  | nil => exact ⟨rfl, rfl⟩
  | cons s states ih =>
    rw [List.foldl_cons]
    split_ifs
    · exact ih A
    · exact ih (A.dropTransitions s)

theorem kept_deleteAbsortionStates (hA : A.SyncedOn P) :
    A.deleteAbsortionStates.SyncedOn P ∧ A.deleteAbsortionStates.rows = A.rows := by
  have hkept : Kept P A ((List.range A.rows).foldl (fun B i =>
      if i ∈ A.reachableStates A.finalState true then B else B.dropTransitions i) A) := by
    apply kept_foldl hA
    intro B hB i _
    split_ifs
    · exact .refl hB.syncedOn
    · exact kept_dropTransitions hB.syncedOn i
  have hsync := hkept.syncedOn
  exact ⟨⟨hsync.fromState_eq, hsync.toState_eq, hsync.mirror, hsync.nodup_fromTo,
    hsync.nodup_toFrom, hsync.lt_rows, hsync.toFrom_lt_rows⟩, hkept.rows_eq⟩

/-- `delete_absortion_states` keeps what the searches read. -/
theorem deleteAbsortionStates_spec (hA : A.SyncedOn NotSilent)
    (hsilent : ∀ i j, ¬ A.Edge i none j) {L : Language PathLabel} (hL : A.FinalFor L) :
    (∀ i j, ¬ A.deleteAbsortionStates.Edge i none j) ∧ A.deleteAbsortionStates.FinalFor L ∧
      (A.Alone → A.deleteAbsortionStates.Alone) := by
  set keep := A.reachableStates A.finalState true with hkeep
  set states := List.range A.rows
  have hedge : ∀ i l j, A.deleteAbsortionStates.Edge i l j ↔ A.Edge i l j ∧
      ¬ Dropped states keep i ∧ ¬ Dropped states keep j := fun i l j =>
    foldl_dropTransitions (fun B i hi => if_pos hi)
      (fun B i hi => by simp only [if_neg hi]) states A
  obtain ⟨hfinal, hflag⟩ := foldl_dropTransitions_fields keep states A
  have hfinal' : A.deleteAbsortionStates.finalState = A.finalState := hfinal
  have hflag' : A.deleteAbsortionStates.startIsFinal = A.startIsFinal := hflag
  refine ⟨fun i j h => hsilent i j ((hedge i none j).mp h).1, fun w => ?_, fun h => ⟨?_, ?_⟩⟩
  rotate_left
  · rw [hfinal', hflag']
    exact h.start_marked
  · rw [hfinal', hflag']
    exact fun hs hf l j he => h.final_no_edge hs hf l j ((hedge _ l j).mp he).1
  rw [hL w, hfinal', hflag']
  refine or_congr_right (and_congr_right fun hw => ?_)
  clear hw
  constructor
  · intro h
    generalize hf : A.finalState = f at h hkeep
    -- backwards along the path: every state reaches the final state
    have key : EpsRun A.deleteAbsortionStates.Edge 0 w f ∧ (0 : Nat) ∈ keep := by
      generalize (0 : Nat) = p at h
      have hback : ∀ {p l r}, A.Edge p l r → r ∈ keep → p ∈ keep := by
        rintro p l r ⟨t, ht, rfl, rfl⟩ hr
        rw [hkeep, hA.mem_reachableStates] at hr ⊢
        refine hr.tail ?_
        have hns : NotSilent t := label_ne_none_iff.mp fun h => hsilent p t.toState ⟨t, ht, rfl, h⟩
        have hp := hA.fromState_eq ht
        exact List.mem_map.mpr ⟨t, (hA.mirror t hns).mp (hp ▸ ht), hp⟩
      induction h with
      | nil q => exact ⟨.nil q, (hkeep ▸ (hA.mem_reachableStates true).mpr .refl)⟩
      | eps he => exact absurd he (hsilent _ _)
      | @sym p r q a w ha _ ih =>
        obtain ⟨hrun, hr⟩ := ih hf hkeep
        have hp := hback ha hr
        exact ⟨.sym ((hedge _ _ _).mpr ⟨ha, fun h => h.2 hp, fun h => h.2 hr⟩) hrun, hp⟩
    exact key.1
  · exact fun h => h.mono fun i l j h => ((hedge i l j).mp h).1

theorem sortRow_perm (distance : Nat → Nat) (n : Nat) (ts : List Transition) :
    (sortRow distance n ts).Perm ts := by
  induction n generalizing ts with
  | zero => exact .refl ts
  | succ n ih =>
    cases ts with
    | nil => exact .nil
    | cons t ts =>
      rw [sortRow]
      split
      · exact (ih ts).cons t
      · rename_i k _
        split
        · rename_i u hu
          obtain ⟨hk, rfl⟩ := List.getElem?_eq_some_iff.mp hu
          have hset : (ts[k] :: ts.set k t).Perm (ts[k] :: t :: ts.eraseIdx k) :=
            (List.set_perm_cons_eraseIdx hk t).cons _
          have hback : (t :: ts[k] :: ts.eraseIdx k).Perm (t :: ts) :=
            (List.getElem_cons_eraseIdx_perm hk).cons t
          exact ((ih _).cons _).trans (hset.trans ((List.Perm.swap _ _ _).trans hback))
        · exact .refl _

theorem step_sortTransitions {a : PathLabel} : A.sortTransitions.Step i a j ↔ A.Step i a j := by
  unfold Step
  refine exists_congr fun t => and_congr_left fun _ => ?_
  change t ∈ (if i < A.rows then _ else A.fromTo i) ↔ _
  split_ifs
  · exact (sortRow_perm _ _ _).mem_iff
  · rfl

theorem step_setTypeIds {f : String → Nat} {a : PathLabel} :
    (A.setTypeIds f).Step i a j ↔ A.Step i a j := by
  have hrow : (A.setTypeIds f).fromTo i =
      if i < A.rows then (A.fromTo i).map fun t => { t with typeId := f t.type }
      else A.fromTo i := rfl
  unfold Step
  rw [hrow]
  split_ifs
  · simp only [List.mem_map, exists_exists_and_eq_and]
  · rfl

theorem step_finish {f : String → Nat} {a : PathLabel} :
    (A.finish f).Step i a j ↔ A.Step i a j :=
  step_setTypeIds.trans step_sortTransitions

theorem mem_fromTo_finish (hA : A.SyncedOn NotSilent) {f : String → Nat} {t : Transition}
    (ht : t ∈ (A.finish f).fromTo i) : t.typeId = f t.type ∧ t.toState < (A.finish f).rows := by
  have hrow : (A.finish f).fromTo i =
      if i < A.rows then (A.calculateDistanceToFinalState.sortTransitions.fromTo i).map
        fun t => { t with typeId := f t.type }
      else A.calculateDistanceToFinalState.sortTransitions.fromTo i := rfl
  have hsort : ∀ t, t ∈ A.calculateDistanceToFinalState.sortTransitions.fromTo i →
      t ∈ A.fromTo i := by
    intro t ht
    change t ∈ (if i < A.rows then _ else A.fromTo i) at ht
    split_ifs at ht
    · exact (sortRow_perm _ _ _).mem_iff.mp ht
    · exact ht
  rw [hrow] at ht
  split_ifs at ht with hi
  · obtain ⟨u, hu, rfl⟩ := List.mem_map.mp ht
    exact ⟨rfl, (hA.edge_lt ⟨u, hsort u hu, rfl, rfl⟩).2⟩
  · exact absurd (hA.edge_lt ⟨t, hsort t ht, rfl, rfl⟩).1 hi

theorem finalState_finish (f : String → Nat) : (A.finish f).finalState = A.finalState := rfl

theorem startIsFinal_finish (f : String → Nat) : (A.finish f).startIsFinal = A.startIsFinal := rfl

theorem edge_some_iff (hsilent : ∀ i j, ¬ A.Edge i none j) {a : PathLabel} :
    A.Edge i (some a) j ↔ A.Step i a j := by
  constructor
  · rintro ⟨t, ht, hto, hlab⟩
    unfold Transition.label at hlab
    split_ifs at hlab
    exact ⟨t, ht, hto, Option.some.inj hlab⟩
  · rintro ⟨t, ht, hto, rfl⟩
    have hns : NotSilent t := label_ne_none_iff.mp fun h => hsilent i t.toState ⟨t, ht, rfl, h⟩
    exact ⟨t, ht, hto, if_neg hns⟩

theorem run_step_iff (hsilent : ∀ i j, ¬ A.Edge i none j) {w : List PathLabel} :
    EpsRun A.Edge i w j ↔ Run A.Step i w j := by
  have hstep : (fun i a j => A.Edge i (some a) j) = A.Step := by
    funext i a j
    exact propext (edge_some_iff hsilent)
  rw [EpsRun.iff_run hsilent, hstep]

end RPQAutomaton

def IPath.getRpqAutomaton (p : IPath) (f : String → Nat) : RPQAutomaton :=
  p.baseAutomaton.transformAutomaton f

end MillenniumDB
