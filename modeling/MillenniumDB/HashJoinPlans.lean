import MillenniumDB.Lib.OuterJoins
import Mathlib.Data.Finset.Sort

/-!
# Plans for joins

`IndexNestedLoopPlan` runs the right plan for every row of the left one.  `HashJoinPlan` gives the
hash join the variables of the two plans in three lists, and the operator creates its rows again
from the values it stored for them.
-/

namespace MillenniumDB
namespace Joins

abbrev Row := Mapping Nat Nat

/-- A `Plan`: what `get_vars` returns, and the rows of the operator that it builds, which binds
these variables. -/
structure Plan where
  vars : Finset Nat
  rows : List Row
  bound : ∀ r ∈ rows, ∀ v, r v ≠ none ↔ v ∈ vars

def Agree (vars : List Nat) (l r : Row) : Prop := vars.map l = vars.map r

instance (vars : List Nat) (l r : Row) : Decidable (Agree vars l r) := inferInstanceAs (Decidable (_ = _))

/-- The rows of the right plan when the variables of the left row are input variables. -/
def rowsGiven (lhs rhs : Plan) (l : Row) : List Row :=
  rhs.rows.filter fun r => Agree ((rhs.vars ∩ lhs.vars).sort (· ≤ ·)) l r

def indexNestedLoopJoin (lhs rhs : Plan) : List Row :=
  lhs.rows.flatMap fun l => (rowsGiven lhs rhs l).map (Mapping.merge l)

/-- The lists that `get_binding_id_iter` of `HashJoinPlan` fills. -/
def onlyLeftVars (lhs rhs : Plan) : List Nat := (lhs.vars.sort (· ≤ ·)).filter (· ∉ rhs.vars)

def commonVars (lhs rhs : Plan) : List Nat := (lhs.vars.sort (· ≤ ·)).filter (· ∈ rhs.vars)

def onlyRightVars (lhs rhs : Plan) : List Nat := (rhs.vars.sort (· ≤ ·)).filter (· ∈ lhs.vars)

/-- The variables of a list are written with the values that a row had for them. -/
def assign (vars : List Nat) (stored row : Row) : Row := fun v => if v ∈ vars then stored v else row v

/-- The join for the lists that an operator is given.  It binds the variables of the lists only. -/
def hashJoin (leftVars commonVars rightVars : List Nat) (lhs rhs : List Row) : List Row :=
  lhs.flatMap fun l => (rhs.filter fun r => Agree commonVars l r).map fun r =>
    assign leftVars l (assign commonVars l (assign rightVars r fun _ => none))

/-- The operator that `HashJoinPlan` builds. -/
def hashJoinPlan (lhs rhs : Plan) : List Row :=
  hashJoin (onlyLeftVars lhs rhs) (commonVars lhs rhs) (onlyRightVars lhs rhs) lhs.rows rhs.rows

/-- The three lists have no variable twice, and they have those of the two plans. -/
structure ListsRight (lhs rhs : Plan) : Prop where
  nodup : (onlyLeftVars lhs rhs ++ commonVars lhs rhs ++ onlyRightVars lhs rhs).Nodup
  covered : ∀ v, v ∈ onlyLeftVars lhs rhs ++ commonVars lhs rhs ++ onlyRightVars lhs rhs ↔
    v ∈ lhs.vars ∪ rhs.vars

/-- Every row binds the variables of the two plans, and the rows are those of the nested loop. -/
structure RowsRight (lhs rhs : Plan) : Prop where
  bound : ∀ row ∈ hashJoinPlan lhs rhs, ∀ v ∈ lhs.vars ∪ rhs.vars, row v ≠ none
  rows : (hashJoinPlan lhs rhs).Perm (indexNestedLoopJoin lhs rhs)

section

variable {lhs rhs : Plan} {l r : Row} {v : Nat}

theorem Plan.none_iff (p : Plan) (hr : r ∈ p.rows) : r v = none ↔ v ∉ p.vars := by
  rw [← p.bound r hr v, not_not]

theorem agree_iff {vars : List Nat} : Agree vars l r ↔ ∀ v ∈ vars, l v = r v :=
  List.map_inj_left

theorem mem_commonVars : v ∈ commonVars lhs rhs ↔ v ∈ lhs.vars ∧ v ∈ rhs.vars := by
  simp [commonVars]

theorem mem_onlyLeftVars : v ∈ onlyLeftVars lhs rhs ↔ v ∈ lhs.vars ∧ v ∉ rhs.vars := by
  simp [onlyLeftVars]

theorem mem_onlyRightVars : v ∈ onlyRightVars lhs rhs ↔ v ∈ commonVars lhs rhs := by
  rw [mem_commonVars, and_comm]
  simp [onlyRightVars]

theorem rowsGiven_eq (lhs rhs : Plan) (l : Row) :
    rowsGiven lhs rhs l = rhs.rows.filter fun r => Agree (commonVars lhs rhs) l r := by
  apply List.filter_congr
  intro r _
  simp only [agree_iff, mem_commonVars, Finset.mem_sort, Finset.mem_inter, decide_eq_decide]
  simp only [and_comm]

theorem assigned_eq (hl : l ∈ lhs.rows) :
    assign (onlyLeftVars lhs rhs) l (assign (commonVars lhs rhs) l
      (assign (onlyRightVars lhs rhs) r fun _ => none)) = l := by
  funext v
  by_cases hleft : v ∈ onlyLeftVars lhs rhs
  · simp [assign, hleft]
  by_cases hcommon : v ∈ commonVars lhs rhs
  · simp [assign, hcommon]
  have hv : v ∉ lhs.vars := by
    intro hv
    rw [mem_onlyLeftVars] at hleft
    rw [mem_commonVars] at hcommon
    tauto
  have hright : v ∉ onlyRightVars lhs rhs := mt mem_onlyRightVars.mp hcommon
  simp [assign, hleft, hcommon, hright, (lhs.none_iff hl).mpr hv]

theorem hashJoinPlan_eq (lhs rhs : Plan) :
    hashJoinPlan lhs rhs = lhs.rows.flatMap fun l => (rowsGiven lhs rhs l).map fun _ => l := by
  apply List.flatMap_congr
  intro l hl
  rw [rowsGiven_eq]
  exact List.map_congr_left fun r _ => assigned_eq hl

theorem listsRight_iff : ListsRight lhs rhs ↔ rhs.vars = ∅ := by
  constructor
  · intro h
    rw [Finset.eq_empty_iff_forall_notMem]
    intro v hv
    -- a common variable stands in two lists, and any other one of the right side in none
    by_cases hcommon : v ∈ commonVars lhs rhs
    · have hdisjoint := List.disjoint_of_nodup_append h.nodup
      exact hdisjoint (List.mem_append_right _ hcommon) (mem_onlyRightVars.mpr hcommon)
    · have hlisted := (h.covered v).mpr (Finset.mem_union_right _ hv)
      rcases List.mem_append.mp hlisted with hleft | hright
      · rcases List.mem_append.mp hleft with hleft | hleft
        · exact (mem_onlyLeftVars.mp hleft).2 hv
        · exact hcommon hleft
      · exact hcommon (mem_onlyRightVars.mp hright)
  · intro h
    have hleft : onlyLeftVars lhs rhs = lhs.vars.sort (· ≤ ·) := by simp [onlyLeftVars, h]
    have hcommon : commonVars lhs rhs = [] := by simp [commonVars, h]
    have hright : onlyRightVars lhs rhs = [] := by simp [onlyRightVars, h]
    constructor
    · rw [hleft, hcommon, hright, List.append_nil, List.append_nil]
      exact Finset.sort_nodup ..
    · simp [hleft, hcommon, hright, h]

theorem rowsRight_iff : RowsRight lhs rhs ↔
    rhs.vars ⊆ lhs.vars ∨ indexNestedLoopJoin lhs rhs = [] := by
  constructor
  · intro h
    by_contra! hmissing
    obtain ⟨hsub, hrow⟩ := hmissing
    obtain ⟨v, hv, hleft⟩ := Finset.not_subset.mp hsub
    obtain ⟨row, hrow⟩ := List.exists_mem_of_ne_nil _ hrow
    obtain ⟨l, hl, hrow⟩ := List.mem_flatMap.mp hrow
    obtain ⟨r, hr, -⟩ := List.mem_map.mp hrow
    have hmem : l ∈ hashJoinPlan lhs rhs := by
      rw [hashJoinPlan_eq]
      exact List.mem_flatMap.mpr ⟨l, hl, List.mem_map.mpr ⟨r, hr, rfl⟩⟩
    exact h.bound l hmem v (Finset.mem_union_right _ hv) ((lhs.none_iff hl).mpr hleft)
  · intro h
    have hrows : hashJoinPlan lhs rhs = indexNestedLoopJoin lhs rhs := by
      rw [hashJoinPlan_eq]
      apply List.flatMap_congr
      intro l hl
      apply List.map_congr_left
      intro r hr
      rcases h with hsub | hnone
      · refine (Mapping.merge_eq_left fun v hv => ?_).symm
        have hr := (List.mem_filter.mp hr).1
        have hv : v ∈ rhs.vars := (rhs.bound r hr v).mp (Option.isSome_iff_ne_none.mp hv)
        exact Option.isSome_iff_ne_none.mpr ((lhs.bound l hl v).mpr (hsub hv))
      · have hmem : Mapping.merge l r ∈ indexNestedLoopJoin lhs rhs :=
          List.mem_flatMap.mpr ⟨l, hl, List.mem_map_of_mem hr⟩
        rw [hnone] at hmem
        exact absurd hmem List.not_mem_nil
    refine ⟨fun row hrow v hv => ?_, hrows ▸ .refl _⟩
    rw [hashJoinPlan_eq] at hrow
    obtain ⟨l, hl, hrow'⟩ := List.mem_flatMap.mp hrow
    obtain ⟨r, hr, rfl⟩ := List.mem_map.mp hrow'
    rw [lhs.bound l hl v]
    rcases h with hsub | hnone
    · rcases Finset.mem_union.mp hv with hv | hv
      · exact hv
      · exact hsub hv
    · rw [← hashJoinPlan_eq, hrows, hnone] at hrow
      exact absurd hrow List.not_mem_nil

end

/-- The lists and the rows are right exactly when the right plan has no variables, and the rows
alone are right exactly when it has none beside those of the left plan or nothing is joined. -/
theorem hashJoinPlan_right_iff (lhs rhs : Plan) :
    (ListsRight lhs rhs ∧ RowsRight lhs rhs ↔ rhs.vars = ∅) ∧
      (RowsRight lhs rhs ↔ rhs.vars ⊆ lhs.vars ∨ indexNestedLoopJoin lhs rhs = []) := by
  refine ⟨?_, rowsRight_iff⟩
  rw [listsRight_iff, rowsRight_iff]
  constructor
  · exact fun h => h.1
  · intro h
    refine ⟨h, .inl ?_⟩
    rw [h]
    exact Finset.empty_subset _

def oneRow : Plan where
  vars := {0, 1}
  rows := [fun v => if v = 0 ∨ v = 1 then some 7 else none]
  bound r hr v := by
    rw [List.mem_singleton.mp hr]
    by_cases hv : v = 0 ∨ v = 1 <;> simp [hv]

def twoRows : Plan where
  vars := {1, 2}
  rows := [8, 9].map fun value v => if v = 1 then some 7 else if v = 2 then some value else none
  bound r hr v := by
    obtain ⟨value, -, rfl⟩ := List.mem_map.mp hr
    by_cases hb : v = 1 <;> by_cases hc : v = 2 <;> simp [hb, hc]

/-- A row of the variables 0 and 1 and two rows of 1 and 2: the variable 2, in which the two differ,
is in no list. -/
theorem not_hashJoinPlan_right : ¬ ∀ lhs rhs : Plan, ListsRight lhs rhs ∧ RowsRight lhs rhs := by
  intro h
  have hcovered := ((h oneRow twoRows).1.covered 2).mpr (by decide)
  simp [onlyLeftVars, commonVars, onlyRightVars, oneRow, twoRows] at hcovered

end Joins
end MillenniumDB
