import Mathlib.Data.List.Nodup
import Mathlib.Data.List.Sort
import MillenniumDB.Lib.EpsilonRuns
import MillenniumDB.Lib.Explore
import MillenniumDB.PathExpressions

/-!
# The automaton of a path query

`RPQAutomaton` keeps every transition twice: in the row of the state it leaves and in the
row of the state it enters.  This file has the structure, `add_transition`,
`rename_and_merge` and the invariant that ties the two tables together.
-/

namespace MillenniumDB

/-- `Transition`; the type is empty on silent transitions and `typeId` is set last. -/
structure Transition where
  fromState : Nat
  toState : Nat
  type : String
  inverse : Bool
  typeId : Nat := 0
  deriving DecidableEq, Repr

def Transition.label (t : Transition) : Option PathLabel :=
  if t.type.isEmpty then none else some (t.type, t.inverse)

def Transition.rename (n : Nat) (t : Transition) : Transition :=
  { t with fromState := t.fromState + n, toState := t.toState + n }

@[simp] theorem Transition.label_rename (n : Nat) (t : Transition) :
    (t.rename n).label = t.label := rfl

/-- `RPQAutomaton`, with start state 0.  `rows` is the size of both vectors of rows. -/
structure RPQAutomaton where
  totalStates : Nat := 1
  finalState : Nat := 0
  startIsFinal : Bool := false
  endStates : List Nat := []
  rows : Nat := 0
  fromTo : Nat → List Transition := fun _ => []
  toFrom : Nat → List Transition := fun _ => []
  distanceToFinal : Nat → Nat := fun _ => 0

/-- Insertion in a `std::set`, which is iterated in ascending order. -/
def setInsert (x : Nat) (s : List Nat) : List Nat :=
  if x ∈ s then s else s.orderedInsert (· ≤ ·) x

@[simp] theorem mem_setInsert {x y : Nat} {s : List Nat} :
    y ∈ setInsert x s ↔ y = x ∨ y ∈ s := by
  unfold setInsert
  split_ifs with h
  · constructor
    · exact .inr
    · rintro (rfl | hy)
      · exact h
      · exact hy
  · exact List.mem_orderedInsert (· ≤ ·)

/-- `push_back` on one row. -/
def pushRow (rows : Nat → List Transition) (i : Nat) (t : Transition) : Nat → List Transition :=
  fun j => if j = i then rows j ++ [t] else rows j

@[simp] theorem mem_pushRow {rows : Nat → List Transition} {i j : Nat} {t u : Transition} :
    u ∈ pushRow rows i t j ↔ u ∈ rows j ∨ (j = i ∧ u = t) := by
  unfold pushRow
  split_ifs with h <;> simp [h]

namespace RPQAutomaton

/-- The edges stored in `from_to_connections`. -/
def Edge (A : RPQAutomaton) (i : Nat) (l : Option PathLabel) (j : Nat) : Prop :=
  ∃ t ∈ A.fromTo i, t.toState = j ∧ t.label = l

theorem edge_congr {A B : RPQAutomaton} (h : A.fromTo = B.fromTo) : A.Edge = B.Edge := by
  unfold Edge
  rw [h]

def language (A : RPQAutomaton) : Language PathLabel :=
  Accepts A.Edge (· ∈ A.endStates) 0

def addTransition (A : RPQAutomaton) (t : Transition) : RPQAutomaton :=
  let rows := max A.rows (max t.fromState t.toState + 1)
  if t ∈ A.fromTo t.fromState then { A with rows := rows, totalStates := rows }
  else
    { A with
      rows := rows
      totalStates := rows
      fromTo := pushRow A.fromTo t.fromState t
      toFrom := pushRow A.toFrom t.toState t }

def addEpsilonTransition (A : RPQAutomaton) (i j : Nat) : RPQAutomaton :=
  A.addTransition ⟨i, j, "", false, 0⟩

def transitions (A : RPQAutomaton) : List Transition := (List.range A.rows).flatMap A.fromTo

/-- `rename_and_merge`: the states of `B` follow the ones of `A`.  The renamed start and end
states of `B` are what its callers go on with. -/
def renameAndMerge (A B : RPQAutomaton) : RPQAutomaton :=
  B.transitions.foldl (fun A' t => A'.addTransition (t.rename A.totalStates)) A

section AddTransition

variable {A : RPQAutomaton} {t u : Transition} {i j : Nat} {l : Option PathLabel}

theorem mem_fromTo_addTransition :
    u ∈ (A.addTransition t).fromTo i ↔ u ∈ A.fromTo i ∨ (i = t.fromState ∧ u = t) := by
  unfold addTransition
  by_cases h : t ∈ A.fromTo t.fromState
  · rw [if_pos h]
    refine ⟨.inl, ?_⟩
    rintro (hu | ⟨rfl, rfl⟩)
    · exact hu
    · exact h
  · rw [if_neg h]
    exact mem_pushRow

theorem edge_addTransition :
    (A.addTransition t).Edge i l j ↔
      A.Edge i l j ∨ (i = t.fromState ∧ l = t.label ∧ j = t.toState) := by
  unfold Edge
  simp only [mem_fromTo_addTransition]
  constructor
  · rintro ⟨u, hu | ⟨rfl, rfl⟩, rfl, rfl⟩
    · exact .inl ⟨u, hu, rfl, rfl⟩
    · exact .inr ⟨rfl, rfl, rfl⟩
  · rintro (⟨u, hu, rfl, rfl⟩ | ⟨rfl, rfl, rfl⟩)
    · exact ⟨u, .inl hu, rfl, rfl⟩
    · exact ⟨t, .inr ⟨rfl, rfl⟩, rfl, rfl⟩

@[simp] theorem rows_addTransition :
    (A.addTransition t).rows = max A.rows (max t.fromState t.toState + 1) := by
  unfold addTransition
  split_ifs <;> rfl

@[simp] theorem totalStates_addTransition :
    (A.addTransition t).totalStates = max A.rows (max t.fromState t.toState + 1) := by
  unfold addTransition
  split_ifs <;> rfl

@[simp] theorem endStates_addTransition : (A.addTransition t).endStates = A.endStates := by
  unfold addTransition
  split_ifs <;> rfl

@[simp] theorem finalState_addTransition : (A.addTransition t).finalState = A.finalState := by
  unfold addTransition
  split_ifs <;> rfl

@[simp] theorem startIsFinal_addTransition :
    (A.addTransition t).startIsFinal = A.startIsFinal := by
  unfold addTransition
  split_ifs <;> rfl

end AddTransition

/-- Every transition is in the row of its state and no row has it twice; both tables agree
on the transitions with `P`. -/
structure SyncedOn (A : RPQAutomaton) (P : Transition → Prop) : Prop where
  fromState_eq : ∀ {i t}, t ∈ A.fromTo i → t.fromState = i
  toState_eq : ∀ {j t}, t ∈ A.toFrom j → t.toState = j
  mirror : ∀ t, P t → (t ∈ A.fromTo t.fromState ↔ t ∈ A.toFrom t.toState)
  nodup_fromTo : ∀ i, (A.fromTo i).Nodup
  nodup_toFrom : ∀ j, (A.toFrom j).Nodup
  lt_rows : ∀ {i t}, t ∈ A.fromTo i → t.fromState < A.rows ∧ t.toState < A.rows
  toFrom_lt_rows : ∀ {j t}, t ∈ A.toFrom j → t.fromState < A.rows ∧ t.toState < A.rows

abbrev Synced (A : RPQAutomaton) : Prop := A.SyncedOn fun _ => True

theorem nodup_pushRow {rows : Nat → List Transition} {t : Transition} {i : Nat}
    (h : ∀ j, (rows j).Nodup) (ht : t ∉ rows i) (j : Nat) : (pushRow rows i t j).Nodup := by
  unfold pushRow
  split_ifs with hj
  · subst hj
    exact (h j).append (List.nodup_singleton t) (by simpa using ht)
  · exact h j

namespace SyncedOn

variable {A : RPQAutomaton} {P : Transition → Prop} {t u : Transition} {j : Nat}

theorem edge_lt (hA : A.SyncedOn P) {i : Nat} {l : Option PathLabel}
    (h : A.Edge i l j) : i < A.rows ∧ j < A.rows := by
  obtain ⟨t, ht, rfl, rfl⟩ := h
  obtain ⟨h₁, h₂⟩ := hA.lt_rows ht
  exact ⟨hA.fromState_eq ht ▸ h₁, h₂⟩

theorem mem_toFrom_addTransition (hA : A.SyncedOn P) (ht : P t) :
    u ∈ (A.addTransition t).toFrom j ↔ u ∈ A.toFrom j ∨ (j = t.toState ∧ u = t) := by
  unfold addTransition
  by_cases h : t ∈ A.fromTo t.fromState
  · rw [if_pos h]
    refine ⟨.inl, ?_⟩
    rintro (hu | ⟨rfl, rfl⟩)
    · exact hu
    · exact (hA.mirror _ ht).mp h
  · rw [if_neg h]
    exact mem_pushRow

theorem addTransition (hA : A.SyncedOn P) (ht : P t) : (A.addTransition t).SyncedOn P where
  fromState_eq h := by
    rcases mem_fromTo_addTransition.mp h with h | ⟨rfl, rfl⟩
    · exact hA.fromState_eq h
    · rfl
  toState_eq h := by
    rcases (hA.mem_toFrom_addTransition ht).mp h with h | ⟨rfl, rfl⟩
    · exact hA.toState_eq h
    · rfl
  mirror u hu := by
    rw [mem_fromTo_addTransition, hA.mem_toFrom_addTransition ht, hA.mirror u hu]
    constructor
    · rintro (h | ⟨-, rfl⟩)
      · exact .inl h
      · exact .inr ⟨rfl, rfl⟩
    · rintro (h | ⟨-, rfl⟩)
      · exact .inl h
      · exact .inr ⟨rfl, rfl⟩
  nodup_fromTo i := by
    unfold RPQAutomaton.addTransition
    by_cases h : t ∈ A.fromTo t.fromState
    · rw [if_pos h]
      exact hA.nodup_fromTo i
    · rw [if_neg h]
      exact nodup_pushRow hA.nodup_fromTo h i
  nodup_toFrom j := by
    unfold RPQAutomaton.addTransition
    by_cases h : t ∈ A.fromTo t.fromState
    · rw [if_pos h]
      exact hA.nodup_toFrom j
    · rw [if_neg h]
      exact nodup_pushRow hA.nodup_toFrom (fun h' => h ((hA.mirror t ht).mpr h')) j
  lt_rows h := by
    rw [rows_addTransition]
    rcases mem_fromTo_addTransition.mp h with h | ⟨-, rfl⟩
    · have := hA.lt_rows h
      omega
    · omega
  toFrom_lt_rows h := by
    rw [rows_addTransition]
    rcases (hA.mem_toFrom_addTransition ht).mp h with h | ⟨-, rfl⟩
    · have := hA.toFrom_lt_rows h
      omega
    · omega

end SyncedOn

namespace Synced

variable {A : RPQAutomaton} {t u : Transition} {i j : Nat} {l : Option PathLabel}

theorem empty : Synced {} where
  fromState_eq h := absurd h List.not_mem_nil
  toState_eq h := absurd h List.not_mem_nil
  mirror _ _ := Iff.rfl
  nodup_fromTo _ := List.nodup_nil
  nodup_toFrom _ := List.nodup_nil
  lt_rows h := absurd h List.not_mem_nil
  toFrom_lt_rows h := absurd h List.not_mem_nil

theorem mem_toFrom_iff (hA : A.Synced) :
    t ∈ A.toFrom j ↔ t.toState = j ∧ t ∈ A.fromTo t.fromState := by
  constructor
  · intro h
    have hj := hA.toState_eq h
    exact ⟨hj, (hA.mirror t trivial).mpr (hj ▸ h)⟩
  · rintro ⟨rfl, h⟩
    exact (hA.mirror t trivial).mp h

theorem mem_transitions (hA : A.Synced) : t ∈ A.transitions ↔ t ∈ A.fromTo t.fromState := by
  unfold transitions
  rw [List.mem_flatMap]
  constructor
  · rintro ⟨i, -, ht⟩
    exact hA.fromState_eq ht ▸ ht
  · intro ht
    exact ⟨t.fromState, List.mem_range.mpr (hA.lt_rows ht).1, ht⟩

end Synced

section Fold

variable {A : RPQAutomaton} {ts : List Transition} {i j : Nat} {l : Option PathLabel}

theorem edge_foldl_addTransition :
    (ts.foldl addTransition A).Edge i l j ↔
      A.Edge i l j ∨ ∃ t ∈ ts, i = t.fromState ∧ l = t.label ∧ j = t.toState := by
  induction ts generalizing A with
  | nil => simp
  | cons t ts ih =>
    rw [List.foldl_cons, ih, edge_addTransition]
    simp only [List.mem_cons, exists_eq_or_imp, or_assoc]

theorem Synced.foldl_addTransition (hA : A.Synced) (ts : List Transition) :
    (ts.foldl RPQAutomaton.addTransition A).Synced := by
  induction ts generalizing A with
  | nil => exact hA
  | cons t ts ih => exact ih (hA.addTransition trivial)

@[simp] theorem endStates_foldl_addTransition :
    (ts.foldl addTransition A).endStates = A.endStates := by
  induction ts generalizing A with
  | nil => rfl
  | cons t ts ih => rw [List.foldl_cons, ih, endStates_addTransition]

theorem rows_foldl_addTransition {n : Nat} (hA : A.rows ≤ n)
    (hle : ∀ t ∈ ts, t.fromState < n ∧ t.toState < n)
    (hmax : A.rows = n ∨ ∃ t ∈ ts, t.fromState + 1 = n ∨ t.toState + 1 = n) :
    (ts.foldl addTransition A).rows = n := by
  induction ts generalizing A with
  | nil => simpa using hmax
  | cons t ts ih =>
    have ht := hle t (by simp)
    rw [List.foldl_cons]
    apply ih
    · rw [rows_addTransition]
      omega
    · exact fun u hu => hle u (by simp [hu])
    · rw [rows_addTransition]
      simp only [List.mem_cons, exists_eq_or_imp] at hmax
      rcases hmax with h | h | h
      · left
        omega
      · left
        omega
      · exact .inr h

/-- `total_states` is the number of rows once a transition has been added. -/
theorem totalStates_foldl_addTransition (h : ts ≠ [] ∨ A.totalStates = A.rows) :
    (ts.foldl addTransition A).totalStates = (ts.foldl addTransition A).rows := by
  induction ts generalizing A with
  | nil => simpa using h
  | cons t ts ih =>
    rw [List.foldl_cons]
    exact ih (.inr (by simp))

theorem renameAndMerge_eq (A B : RPQAutomaton) :
    A.renameAndMerge B =
      (B.transitions.map (Transition.rename A.totalStates)).foldl addTransition A := by
  rw [List.foldl_map]
  rfl

/-- The edges of the renamed automaton are the ones of `B` between the shifted states. -/
theorem edge_renameAndMerge {B : RPQAutomaton} (hB : B.Synced) :
    (A.renameAndMerge B).Edge i l j ↔ A.Edge i l j ∨
      ∃ i' j', i = i' + A.totalStates ∧ j = j' + A.totalStates ∧ B.Edge i' l j' := by
  rw [renameAndMerge_eq, edge_foldl_addTransition]
  refine or_congr_right ?_
  constructor
  · rintro ⟨u, hu, rfl, rfl, rfl⟩
    obtain ⟨t, ht, rfl⟩ := List.mem_map.mp hu
    exact ⟨t.fromState, t.toState, rfl, rfl, t, hB.mem_transitions.mp ht, rfl, rfl⟩
  · rintro ⟨i', j', rfl, rfl, t, ht, rfl, rfl⟩
    obtain rfl := hB.fromState_eq ht
    exact ⟨t.rename A.totalStates, List.mem_map_of_mem (hB.mem_transitions.mpr ht), rfl, rfl, rfl⟩

theorem Synced.renameAndMerge (hA : A.Synced) (B : RPQAutomaton) :
    (A.renameAndMerge B).Synced := by
  rw [renameAndMerge_eq]
  exact hA.foldl_addTransition _

end Fold

def silentSuccessors (A : RPQAutomaton) (i : Nat) : List Nat :=
  ((A.fromTo i).filter (·.type.isEmpty)).map (·.toState)

/-- `get_epsilon_closure`: the targets of the silent transitions of the visited states. -/
def epsilonClosure (A : RPQAutomaton) (state : Nat) : List Nat :=
  let visited := explore A.silentSuccessors
    (2 + ∑ i ∈ Finset.range A.rows, (A.silentSuccessors i).length) [state] []
  (visited.flatMap A.silentSuccessors).foldl (fun s i => setInsert i s) []

/-- What `get_reachable_states` follows from one state. -/
def stateSuccessors (A : RPQAutomaton) (inverse : Bool) (i : Nat) : List Nat :=
  if inverse then (A.toFrom i).map (·.fromState) else (A.fromTo i).map (·.toState)

/-- `get_reachable_states`. -/
def reachableStates (A : RPQAutomaton) (source : Nat) (inverse : Bool) : List Nat :=
  explore (A.stateSuccessors inverse)
    (2 + ∑ i ∈ Finset.range A.rows, (A.stateSuccessors inverse i).length) [source] []

section Search

variable {A : RPQAutomaton} {P : Transition → Prop} {i j : Nat}

theorem mem_silentSuccessors : j ∈ A.silentSuccessors i ↔ A.Edge i none j := by
  unfold silentSuccessors Edge
  simp only [List.mem_map, List.mem_filter]
  constructor
  · rintro ⟨t, ⟨ht, hsilent⟩, rfl⟩
    exact ⟨t, ht, rfl, if_pos hsilent⟩
  · rintro ⟨t, ht, rfl, hlabel⟩
    refine ⟨t, ⟨ht, ?_⟩, rfl⟩
    unfold Transition.label at hlabel
    by_contra hsilent
    rw [if_neg hsilent] at hlabel
    exact absurd hlabel (by simp)

theorem mem_foldl_setInsert {es s : List Nat} {x : Nat} :
    x ∈ es.foldl (fun s e => setInsert e s) s ↔ x ∈ s ∨ x ∈ es := by
  induction es generalizing s with
  | nil => simp
  | cons e es ih =>
    rw [List.foldl_cons, ih, mem_setInsert, List.mem_cons]
    tauto

theorem SyncedOn.mem_epsilonClosure (hA : A.SyncedOn P) :
    j ∈ A.epsilonClosure i ↔ ∃ k, EpsRun A.Edge i [] k ∧ A.Edge k none j := by
  have huniv : ∀ x, x ∉ Finset.range A.rows → A.silentSuccessors x = [] := by
    intro x hx
    refine List.eq_nil_iff_forall_not_mem.mpr fun y hy => ?_
    obtain ⟨t, ht, -⟩ := mem_silentSuccessors.mp hy
    have := (hA.lt_rows ht).1
    rw [hA.fromState_eq ht] at this
    exact hx (Finset.mem_range.mpr this)
  have hvisited : ∀ k, k ∈ explore A.silentSuccessors
      (2 + ∑ i ∈ Finset.range A.rows, (A.silentSuccessors i).length) [i] [] ↔
        EpsRun A.Edge i [] k := by
    intro k
    rw [mem_explore_iff huniv (by omega), EpsRun.nil_word_iff]
    simp only [mem_silentSuccessors]
  unfold epsilonClosure
  simp only [mem_foldl_setInsert, List.not_mem_nil, false_or, List.mem_flatMap, hvisited,
    mem_silentSuccessors]

theorem SyncedOn.mem_reachableStates (hA : A.SyncedOn P) (inverse : Bool) :
    j ∈ A.reachableStates i inverse ↔
      Relation.ReflTransGen (fun a b => b ∈ A.stateSuccessors inverse a) i j := by
  have huniv : ∀ x, x ∉ Finset.range A.rows → A.stateSuccessors inverse x = [] := by
    intro x hx
    refine List.eq_nil_iff_forall_not_mem.mpr fun y hy => hx (Finset.mem_range.mpr ?_)
    unfold stateSuccessors at hy
    split_ifs at hy
    · obtain ⟨t, ht, -⟩ := List.mem_map.mp hy
      exact hA.toState_eq ht ▸ (hA.toFrom_lt_rows ht).2
    · obtain ⟨t, ht, -⟩ := List.mem_map.mp hy
      exact hA.fromState_eq ht ▸ (hA.lt_rows ht).1
  exact mem_explore_iff huniv (by omega)

end Search

end RPQAutomaton
end MillenniumDB
