import MillenniumDB.BptWriter
import MillenniumDB.Lib.Counts
import Mathlib.Data.List.Lex
import Mathlib.Data.Prod.Lex

/-!
# Statistics of an import

While a tree is written its records are passed to a `StatsProcessor` in order.  The processors
count how many records or values there are of a key, or how many keys.  The id 0 stands for no key
at their beginning, so they do not count it.
-/

namespace MillenniumDB
namespace Import

def column (i : Nat) (tuple : Tuple) : Nat := tuple.getD i 0

def NoStat.processTuple (_ : Unit) (_ : Tuple) : Unit := ()

structure DistinctStat where
  distinct : Nat
  current : Nat
  deriving DecidableEq

namespace DistinctStat

def start : DistinctStat := ⟨0, 0⟩

def processTuple (s : DistinctStat) (tuple : Tuple) : DistinctStat :=
  if column 0 tuple ≠ s.current then ⟨s.distinct + 1, column 0 tuple⟩ else s

end DistinctStat

abbrev DictCountStat := RunCount Nat

namespace DictCountStat

def start : DictCountStat := RunCount.start 0

def processTuple (s : DictCountStat) (tuple : Tuple) : DictCountStat := s.next 0 (column 0 tuple)

/-- `dict` after `end`. -/
def finish (s : DictCountStat) : Counts Nat := s.save 0

end DictCountStat

abbrev LabelStat := RunCount Nat

namespace LabelStat

def start : LabelStat := RunCount.start 0

def processTuple (s : LabelStat) (tuple : Tuple) : LabelStat := s.next 0 (column 0 tuple)

/-- `map_label_count` after `end`. -/
def finish (s : LabelStat) : Counts Nat := s.save 0

end LabelStat

structure PredicateStat where
  predicates : RunCount Nat
  distinctValues : Nat

namespace PredicateStat

def start : PredicateStat := ⟨RunCount.start 0, 0⟩

def processTuple (s : PredicateStat) (tuple : Tuple) : PredicateStat where
  predicates := s.predicates.next 0 (column 0 tuple)
  distinctValues :=
    if column 0 tuple = s.predicates.current then s.distinctValues else s.distinctValues + 1

/-- `map_predicate_count` after `end`. -/
def finish (s : PredicateStat) : Counts Nat := s.predicates.save 0

end PredicateStat

structure PropStat where
  currentValue : Nat
  keyCount : Nat
  distinctValues : Nat
  currentKey : Nat
  mapKeyCount : Counts Nat
  mapDistinctValues : Counts Nat

namespace PropStat

def start : PropStat := ⟨0, 0, 0, 0, ∅, ∅⟩

/-- `map_key_count` and `map_distinct_values` with what is counted of the last key. -/
def finish (s : PropStat) : Counts Nat × Counts Nat :=
  if s.currentKey ≠ 0 then
    (s.mapKeyCount.insertNew s.currentKey s.keyCount,
      s.mapDistinctValues.insertNew s.currentKey s.distinctValues)
  else (s.mapKeyCount, s.mapDistinctValues)

def processTuple (s : PropStat) (tuple : Tuple) : PropStat :=
  if column 0 tuple = s.currentKey then
    if column 1 tuple ≠ s.currentValue then
      { s with
        keyCount := s.keyCount + 1
        distinctValues := s.distinctValues + 1
        currentValue := column 1 tuple }
    else { s with keyCount := s.keyCount + 1 }
  else
    { currentKey := column 0 tuple
      currentValue := column 1 tuple
      keyCount := 1
      distinctValues := 1
      mapKeyCount := s.finish.1
      mapDistinctValues := s.finish.2 }

end PropStat

theorem le_of_cons_le_cons {a b : Nat} {s t : Tuple} (h : a :: s ≤ b :: t) :
    a < b ∨ a = b ∧ s ≤ t := by
  rcases le_iff_lt_or_eq.mp h with hlt | heq
  · cases (hlt : List.Lex (· < ·) (a :: s) (b :: t)) with
    | rel hab => exact .inl hab
    | cons hst => exact .inr ⟨rfl, le_of_lt hst⟩
  · cases heq
    exact .inr ⟨rfl, le_rfl⟩

theorem column_zero_mono {s t : Tuple} (h : s ≤ t) : column 0 s ≤ column 0 t := by
  match s, t with
  | [], _ => exact Nat.zero_le _
  | _ :: _, [] => exact absurd h (by simp)
  | a :: s, b :: t =>
    rcases le_of_cons_le_cons h with hlt | ⟨heq, _⟩
    · exact Nat.le_of_lt hlt
    · exact Nat.le_of_eq heq

def columnPair (tuple : Tuple) : Nat ×ₗ Nat := toLex (column 0 tuple, column 1 tuple)

theorem columnPair_mono {s t : Tuple} (h : s ≤ t) : columnPair s ≤ columnPair t := by
  have hfirst := column_zero_mono h
  apply Prod.Lex.toLex_le_toLex.mpr
  rcases Nat.eq_or_lt_of_le hfirst with heq | hlt
  · refine .inr ⟨heq, ?_⟩
    match s, t with
    | [], _ => exact Nat.zero_le _
    | _ :: _, [] => exact absurd h (by simp)
    | a :: s, b :: t =>
      rcases le_of_cons_le_cons h with hlt | ⟨_, hle⟩
      · exact absurd heq (Nat.ne_of_lt hlt)
      · exact column_zero_mono hle
  · exact .inl hlt

section

variable {tuples : List Tuple} {k : Nat}

theorem sorted_column (h : tuples.Pairwise (· ≤ ·)) :
    (0 :: tuples.map (column 0)).Pairwise (· ≤ ·) :=
  .cons (fun _ _ => Nat.zero_le _) (List.pairwise_map.mpr (h.imp column_zero_mono))

theorem sorted_columnPair (h : tuples.Pairwise (· ≤ ·)) :
    (toLex (0, 0) :: tuples.map columnPair).Pairwise (· ≤ ·) := by
  refine .cons ?_ (List.pairwise_map.mpr (h.imp columnPair_mono))
  intro p _
  apply Prod.Lex.toLex_le_toLex.mpr
  rcases Nat.eq_zero_or_pos (ofLex p).1 with heq | hlt
  · exact .inr ⟨heq.symm, Nat.zero_le _⟩
  · exact .inl hlt

theorem get_save_column (h : tuples.Pairwise (· ≤ ·)) (hk : k ≠ 0) :
    ((tuples.foldl (fun s t => s.next 0 (column 0 t)) (RunCount.start 0)).save 0).get k =
      (tuples.map (column 0)).count k := by
  rw [← List.foldl_map,
    RunCount.get_save_foldl (RunCount.ascending_start 0) (sorted_column h) hk]
  exact Nat.zero_add _

theorem LabelStat.get_finish (h : tuples.Pairwise (· ≤ ·)) (hk : k ≠ 0) :
    (finish (tuples.foldl processTuple start)).get k = (tuples.map (column 0)).count k :=
  get_save_column h hk

theorem DistinctStat.distinct_foldl (h : tuples.Pairwise (· ≤ ·)) :
    (tuples.foldl processTuple start).distinct =
      ((tuples.map (column 0)).toFinset.erase 0).card := by
  let step : DistinctStat → Nat → DistinctStat := fun s key =>
    if key ≠ s.current then ⟨s.distinct + 1, key⟩ else s
  have hfold : tuples.foldl processTuple start = (tuples.map (column 0)).foldl step start := by
    rw [List.foldl_map]
    rfl
  have hcount := @foldl_add_distinct _ _ _ step current distinct (fun _ => 1) (fun _ => True)
    (fun s a _ _ => by
      refine ⟨trivial, ?_⟩
      by_cases ha : a = s.current <;> simp [step, ha])
    (fun s _ => by simp [step]) (fun s a _ hlt => by simp [step, hlt.ne'])
    start trivial (tuples.map (column 0)) (sorted_column h)
  rw [hfold, hcount, Finset.card_eq_sum_ones]
  exact Nat.zero_add _

namespace PredicateStat

theorem predicates_foldl (s : PredicateStat) : (tuples.foldl processTuple s).predicates =
    tuples.foldl (fun s t => s.next 0 (column 0 t)) s.predicates := by
  induction tuples generalizing s with
  | nil => rfl
  | cons t tuples ih => exact ih (s.processTuple t)

theorem get_finish (h : tuples.Pairwise (· ≤ ·)) (hk : k ≠ 0) :
    (finish (tuples.foldl processTuple start)).get k = (tuples.map (column 0)).count k := by
  rw [finish, predicates_foldl]
  exact get_save_column h hk

/-- The distinct predicates are counted as `DistinctStat` counts. -/
theorem distinct_eq (s : PredicateStat) :
    (tuples.foldl processTuple s).distinctValues =
      (tuples.foldl DistinctStat.processTuple ⟨s.distinctValues, s.predicates.current⟩).distinct := by
  induction tuples generalizing s with
  | nil => rfl
  | cons t tuples ih =>
    rw [List.foldl_cons, List.foldl_cons, ih]
    congr 2
    rw [DistinctStat.processTuple, processTuple, RunCount.next]
    by_cases ht : column 0 t = s.predicates.current <;> simp [ht]

theorem distinctValues_foldl (h : tuples.Pairwise (· ≤ ·)) :
    (tuples.foldl processTuple start).distinctValues =
      ((tuples.map (column 0)).toFinset.erase 0).card := by
  rw [distinct_eq]
  exact DistinctStat.distinct_foldl h

end PredicateStat

namespace PropStat

def keys (s : PropStat) : RunCount Nat := ⟨s.currentKey, s.keyCount, s.mapKeyCount⟩

def values (s : PropStat) : RunCount Nat := ⟨s.currentKey, s.distinctValues, s.mapDistinctValues⟩

theorem finish_eq (s : PropStat) : s.finish = (s.keys.save 0, s.values.save 0) := by
  by_cases hkey : s.currentKey = 0
  · simp [finish, RunCount.save, keys, values, hkey]
  · simp [finish, RunCount.save, keys, values, hkey]

theorem keys_processTuple (s : PropStat) (t : Tuple) :
    (s.processTuple t).keys = s.keys.next 0 (column 0 t) := by
  rw [processTuple, RunCount.next, finish_eq]
  by_cases hkey : column 0 t = s.currentKey
  · rw [if_pos hkey, if_pos (show column 0 t = s.keys.current from hkey)]
    split_ifs <;> rfl
  · rw [if_neg hkey, if_neg (show ¬ column 0 t = s.keys.current from hkey)]
    rfl

theorem values_processTuple (s : PropStat) (t : Tuple) : (s.processTuple t).values =
    if columnPair t = toLex (s.currentKey, s.currentValue) then s.values
    else s.values.next 0 (column 0 t) := by
  have hpair : columnPair t = toLex (s.currentKey, s.currentValue) ↔
      column 0 t = s.currentKey ∧ column 1 t = s.currentValue := by
    rw [columnPair, toLex_inj, Prod.mk.injEq]
  rw [processTuple, RunCount.next, finish_eq]
  by_cases hkey : column 0 t = s.currentKey
  · rw [if_pos hkey, if_pos (show column 0 t = s.values.current from hkey)]
    by_cases hvalue : column 1 t = s.currentValue
    · rw [if_neg (not_not_intro hvalue), if_pos (hpair.mpr ⟨hkey, hvalue⟩)]
      rfl
    · rw [if_pos hvalue, if_neg fun h => hvalue (hpair.mp h).2]
      rfl
  · rw [if_neg hkey, if_neg (show ¬ column 0 t = s.values.current from hkey),
      if_neg fun h => hkey (hpair.mp h).1]
    rfl

theorem pair_processTuple (s : PropStat) (t : Tuple) :
    toLex ((s.processTuple t).currentKey, (s.processTuple t).currentValue) = columnPair t := by
  rw [processTuple, columnPair]
  split_ifs with hkey hvalue
  · rw [← hkey]
  · rw [← hkey, not_not.mp hvalue]
  · rfl

theorem get_finish_keys (h : tuples.Pairwise (· ≤ ·)) (hk : k ≠ 0) :
    (finish (tuples.foldl processTuple start)).1.get k = (tuples.map (column 0)).count k := by
  have hkeys : ∀ s : PropStat, (tuples.foldl processTuple s).keys =
      tuples.foldl (fun s t => s.next 0 (column 0 t)) s.keys := by
    induction tuples with
    | nil => exact fun _ => rfl
    | cons t tuples ih =>
      intro s
      rw [List.foldl_cons, ih h.of_cons, keys_processTuple]
      rfl
  rw [finish_eq, hkeys]
  exact get_save_column h hk

def valuesOf (k : Nat) (tuples : List Tuple) : Finset Nat :=
  ((tuples.filter fun t => column 0 t = k).map (column 1)).toFinset

theorem sum_pairs (hk : k ≠ 0) : (∑ p ∈ (tuples.map columnPair).toFinset.erase (toLex (0, 0)),
    if (ofLex p).1 = k then 1 else 0) = (valuesOf k tuples).card := by
  rw [← Finset.sum_filter, ← Finset.card_eq_sum_ones]
  apply Finset.card_bij (fun p _ => (ofLex p).2)
  · intro p hp
    simp only [Finset.mem_filter, Finset.mem_erase, List.mem_toFinset, List.mem_map] at hp
    obtain ⟨⟨_, t, ht, rfl⟩, hfirst⟩ := hp
    rw [valuesOf, List.mem_toFinset, List.mem_map]
    exact ⟨t, List.mem_filter.mpr ⟨ht, decide_eq_true hfirst⟩, rfl⟩
  · intro p hp q hq heq
    have hfirst := (Finset.mem_filter.mp hp).2.trans (Finset.mem_filter.mp hq).2.symm
    exact ofLex.injective (Prod.ext hfirst heq)
  · intro v hv
    rw [valuesOf, List.mem_toFinset, List.mem_map] at hv
    obtain ⟨t, ht, rfl⟩ := hv
    obtain ⟨ht, hfirst⟩ := List.mem_filter.mp ht
    have hfirst : column 0 t = k := of_decide_eq_true hfirst
    refine ⟨columnPair t, ?_, rfl⟩
    rw [Finset.mem_filter, Finset.mem_erase, List.mem_toFinset]
    refine ⟨⟨?_, List.mem_map_of_mem ht⟩, hfirst⟩
    intro hzero
    exact hk (hfirst.symm.trans (congrArg (fun p => (ofLex p).1) hzero))

theorem get_finish_values (h : tuples.Pairwise (· ≤ ·)) (hk : k ≠ 0) :
    (finish (tuples.foldl processTuple start)).2.get k = (valuesOf k tuples).card := by
  -- the values that are counted, with the pair of the last record
  let step : RunCount Nat × (Nat ×ₗ Nat) → Nat ×ₗ Nat → RunCount Nat × (Nat ×ₗ Nat) := fun s p =>
    (if p = s.2 then s.1 else s.1.next 0 (ofLex p).1, p)
  have hvalues : ∀ s : PropStat,
      (tuples.map columnPair).foldl step (s.values, toLex (s.currentKey, s.currentValue)) =
        ((tuples.foldl processTuple s).values, toLex ((tuples.foldl processTuple s).currentKey,
          (tuples.foldl processTuple s).currentValue)) := by
    induction tuples with
    | nil => exact fun _ => rfl
    | cons t tuples ih =>
      intro s
      rw [List.map_cons, List.foldl_cons, List.foldl_cons, ← ih h.of_cons, values_processTuple,
        pair_processTuple]
      rfl
  have hcount := @foldl_add_distinct _ _ _ step Prod.snd
    (fun s => (s.1.save 0).get k) (fun p => if (ofLex p).1 = k then 1 else 0)
    (fun s => s.1.Ascending ∧ s.1.current = (ofLex s.2).1)
    (fun s p hs hle => by
      have hfirst : s.1.current ≤ (ofLex p).1 := by
        rw [hs.2]
        exact Prod.Lex.monotone_fst _ _ hle
      refine ⟨?_, rfl⟩
      simp only [step]
      split_ifs with hp
      · exact ⟨hs.1, by rw [hp]; exact hs.2⟩
      · exact hs.1.next hfirst)
    (fun s _ => by simp [step])
    (fun s p hs hlt => by
      have hfirst : s.1.current ≤ (ofLex p).1 := by
        rw [hs.2]
        exact Prod.Lex.monotone_fst _ _ hlt.le
      simp only [step, if_neg hlt.ne']
      exact hs.1.get_save_next hfirst hk)
    (RunCount.start 0, toLex (0, 0)) ⟨RunCount.ascending_start 0, rfl⟩ (tuples.map columnPair)
    (sorted_columnPair h)
  have hall := congrArg (fun s => (s.1.save 0).get k) (hvalues start)
  rw [finish_eq]
  refine hall.symm.trans (hcount.trans ?_)
  rw [sum_pairs hk]
  exact Nat.zero_add _

theorem mem_finish_keys (s : PropStat) :
    k ∈ (finish (tuples.foldl processTuple s)).1 ↔
      k ∈ s.keys.save 0 ∨ k ∈ tuples.map (column 0) ∧ k ≠ 0 := by
  rw [finish_eq]
  induction tuples generalizing s with
  | nil => simp
  | cons t tuples ih =>
    rw [List.foldl_cons, ih, keys_processTuple, RunCount.mem_save_next, List.map_cons, List.mem_cons]
    tauto

theorem mem_finish_values (s : PropStat) :
    k ∈ (finish (tuples.foldl processTuple s)).2 ↔
      k ∈ s.values.save 0 ∨ k ∈ tuples.map (column 0) ∧ k ≠ 0 := by
  rw [finish_eq]
  induction tuples generalizing s with
  | nil => simp
  | cons t tuples ih =>
    have hstep : k ∈ (s.processTuple t).values.save 0 ↔ k ∈ s.values.save 0 ∨ k = column 0 t ∧ k ≠ 0 := by
      rw [values_processTuple]
      split_ifs with hpair
      · -- a record of the value that was counted last is one of the key that was counted last
        have hkey : column 0 t = s.values.current := (Prod.mk.inj (toLex_inj.mp hpair)).1
        rw [RunCount.mem_save, hkey]
        tauto
      · exact RunCount.mem_save_next
    rw [List.foldl_cons, ih, hstep, List.map_cons, List.mem_cons]
    tauto

end PropStat

def CountsColumn (tuples : List Tuple) (count : Nat → Nat) (m : Counts Nat) : Prop :=
  ∀ k, m.lookup k = if k ∈ tuples.map (column 0) then some (count k) else none

theorem countsColumn_of_mem {count : Nat → Nat} {m : Counts Nat} (hzero : ∀ t ∈ tuples, column 0 t ≠ 0)
    (hmem : ∀ k, k ∈ m ↔ k ∈ tuples.map (column 0) ∧ k ≠ 0)
    (hcount : ∀ k, k ≠ 0 → m.get k = count k) : CountsColumn tuples count m := by
  intro k
  have hne : k ∈ tuples.map (column 0) → k ≠ 0 := by
    intro hk
    obtain ⟨t, ht, rfl⟩ := List.mem_map.mp hk
    exact hzero t ht
  have hiff : k ∈ m ↔ k ∈ tuples.map (column 0) := (hmem k).trans (and_iff_left_of_imp hne)
  rw [Counts.lookup_eq]
  by_cases hk : k ∈ tuples.map (column 0)
  · rw [if_pos (hiff.mpr hk), if_pos hk, hcount k (hne hk)]
  · rw [if_neg (mt hiff.mp hk), if_neg hk]

theorem countsColumn_save (h : tuples.Pairwise (· ≤ ·)) (hzero : ∀ t ∈ tuples, column 0 t ≠ 0) :
    CountsColumn tuples (tuples.map (column 0)).count
      ((tuples.foldl (fun s t => s.next 0 (column 0 t)) (RunCount.start 0)).save 0) := by
  apply countsColumn_of_mem hzero _ fun k hk => get_save_column h hk
  intro k
  rw [← List.foldl_map, RunCount.mem_save_foldl]
  exact or_iff_right (RunCount.notMem_save_start k)

/-- On a sorted stream without the id 0 in its first column the processors count the records and, for
properties, the values of every key. -/
theorem counts_exactly (h : tuples.Pairwise (· ≤ ·)) (hzero : ∀ t ∈ tuples, column 0 t ≠ 0) :
    (CountsColumn tuples (tuples.map (column 0)).count
        (PropStat.finish (tuples.foldl PropStat.processTuple .start)).1 ∧
      CountsColumn tuples (fun k => (PropStat.valuesOf k tuples).card)
        (PropStat.finish (tuples.foldl PropStat.processTuple .start)).2) ∧
    CountsColumn tuples (tuples.map (column 0)).count
      (LabelStat.finish (tuples.foldl LabelStat.processTuple LabelStat.start)) ∧
    CountsColumn tuples (tuples.map (column 0)).count
      (DictCountStat.finish (tuples.foldl DictCountStat.processTuple DictCountStat.start)) ∧
    CountsColumn tuples (tuples.map (column 0)).count
        (PredicateStat.finish (tuples.foldl PredicateStat.processTuple .start)) ∧
      (tuples.foldl PredicateStat.processTuple .start).distinctValues =
        (tuples.map (column 0)).toFinset.card := by
  refine ⟨⟨?_, ?_⟩, countsColumn_save h hzero, countsColumn_save h hzero, ?_, ?_⟩
  · apply countsColumn_of_mem hzero _ fun k hk => PropStat.get_finish_keys h hk
    intro k
    rw [PropStat.mem_finish_keys]
    exact or_iff_right (RunCount.notMem_save_start k)
  · apply countsColumn_of_mem hzero _ fun k hk => PropStat.get_finish_values h hk
    intro k
    rw [PropStat.mem_finish_values]
    exact or_iff_right (RunCount.notMem_save_start k)
  · rw [PredicateStat.finish, PredicateStat.predicates_foldl]
    exact countsColumn_save h hzero
  · have hnot : 0 ∉ (tuples.map (column 0)).toFinset := by
      intro hmem
      obtain ⟨t, ht, heq⟩ := List.mem_map.mp (List.mem_toFinset.mp hmem)
      exact hzero t ht heq
    rw [PredicateStat.distinctValues_foldl h, Finset.erase_eq_of_notMem hnot]

/-- Two keys, one with two values in three records, and the last group of a single record. -/
theorem counts_fourRecords :
    CountsColumn [[1, 5, 1], [1, 5, 2], [1, 6, 1], [2, 5, 3]]
        (fun k => (PropStat.valuesOf k [[1, 5, 1], [1, 5, 2], [1, 6, 1], [2, 5, 3]]).card)
        (PropStat.finish ([[1, 5, 1], [1, 5, 2], [1, 6, 1], [2, 5, 3]].foldl
          PropStat.processTuple .start)).2 ∧
      (PropStat.valuesOf 1 [[1, 5, 1], [1, 5, 2], [1, 6, 1], [2, 5, 3]]).card = 2 :=
  ⟨(counts_exactly (by decide) (by decide)).1.2, by decide⟩

end

end Import
end MillenniumDB
