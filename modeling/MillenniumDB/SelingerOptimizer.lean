import MillenniumDB.Lib.Combinations
import Mathlib.Data.List.GetD
import Mathlib.Data.Nat.Choose.Bounds
import Mathlib.Tactic.NormNum.NatFactorial

/-!
# `SelingerOptimizer`

The best plan for every combination of the base plans is built from those for the combinations
with one plan less.  The combinations are enumerated by a binary counter, and their plans stand in
the table at the place that the combinatorial number system gives them.
-/

namespace MillenniumDB
namespace Selinger

open Combinations

/-- `CombinationEnumerator`; `count` is the number of ones less the ones that are needed. -/
structure CombinationEnumerator where
  arr : List Bool
  count : Int

namespace CombinationEnumerator

def new (size onesNeeded : Nat) : CombinationEnumerator := ⟨List.replicate size false, -onesNeeded⟩

/-- The loop of `sum_one`. -/
def carry : List Bool → Int → List Bool × Int
  | [], count => ([], count)
  | true :: arr, count =>
    let (arr, count) := carry arr (count - 1)
    (false :: arr, count)
  | false :: arr, count => (true :: arr, count + 1)

def sumOne (e : CombinationEnumerator) : CombinationEnumerator :=
  let (arr, count) := carry e.arr e.count
  ⟨arr, count⟩

/-- `get_next_combination`; `fuel` bounds the rounds of the loop. -/
def getNextCombination : Nat → CombinationEnumerator → Option CombinationEnumerator
  | 0, _ => none
  | fuel + 1, e => if e.sumOne.count ≠ 0 then getNextCombination fuel e.sumOne else some e.sumOne

def combinations (fuel : Nat) : Nat → CombinationEnumerator → Option (List (List Bool))
  | 0, _ => some []
  | calls + 1, e => do
    let e ← e.getNextCombination fuel
    let arrs ← combinations fuel calls e
    return e.arr :: arrs

end CombinationEnumerator

/-- `nCr`, in words of 64 bits. -/
def nCr (n r : Nat) : Nat :=
  if n < r then 0
  else (List.range r).foldl (fun res i => res * (n - i) % 2 ^ 64 / (i + 1)) 1

/-- `get_index`, in words of 64 bits. -/
def getIndex (arr : List Bool) : Nat :=
  (arr.foldl (fun (i, k, res) b =>
    if b then (i + 1, k + 1, (res + nCr i (k + 1)) % 2 ^ 64) else (i + 1, k, res)) (0, 0, 0)).2.2

inductive Plan
  | base (index : Nat)
  | indexNestedLoop (lhs rhs : Plan)

/-- `optimal_plans`. -/
abbrev Table := Nat → Nat → Option Plan

def Table.write (table : Table) (i index : Nat) (plan : Plan) : Table :=
  Function.update table i (Function.update (table i) index (some plan))

section

variable (lower : Plan → Plan → Bool) (n fuel : Nat)

def baseTable : Table := fun i index => if i = 0 ∧ index < n then some (.base index) else none

/-- A round of the loop over the bits, where `lower` compares the estimated costs. -/
def forkBit (table : Table) (i : Nat) : List Bool × Option Plan → Nat → Option (List Bool × Option Plan)
  | (arr, bestPlan), bitPos =>
    if arr.getD bitPos false then do
      let arr := arr.set bitPos false
      let lhs ← table (i - 2) (getIndex arr)
      let rhs ← table 0 bitPos
      let currentPlan := Plan.indexNestedLoop lhs rhs
      let bestPlan :=
        match bestPlan with
        | none => currentPlan
        | some best => if lower currentPlan best then currentPlan else best
      return (arr.set bitPos true, some bestPlan)
    else some (arr, bestPlan)

/-- A round of the loop over the combinations; the plan that is written is not null. -/
def combinationStep (i : Nat) : CombinationEnumerator × Table → Nat →
    Option (CombinationEnumerator × Table)
  | (e, table), _ => do
    let e ← e.getNextCombination fuel
    let (arr, bestPlan) ← (List.range n).foldlM (forkBit lower table i) (e.arr, none)
    let bestPlan ← bestPlan
    return ({ e with arr }, table.write (i - 1) (getIndex arr) bestPlan)

def sizeStep (table : Table) (i : Nat) : Option Table := do
  let (_, table) ← (List.range (nCr n i)).foldlM (combinationStep lower n fuel i)
    (CombinationEnumerator.new n i, table)
  return table

def getPlan : Option Plan := do
  let table ← (List.range' 2 (n - 1)).foldlM (sizeStep lower n fuel) (baseTable n)
  table (n - 1) 0

end

def Plan.LeftDeep : Plan → Prop
  | base _ => True
  | indexNestedLoop lhs (base _) => lhs.LeftDeep
  | indexNestedLoop _ (indexNestedLoop _ _) => False

def Plan.leaves : Plan → List Nat
  | base index => [index]
  | indexNestedLoop lhs rhs => lhs.leaves ++ rhs.leaves

/-- The calls for the combinations of a size return each of them once, and their indexes are the
numbers below the binomial, each once and in order. -/
def EnumeratesRight (n k : Nat) : Prop :=
  ∀ fuel, 2 ^ n ≤ fuel → ∃ arrs,
    (CombinationEnumerator.new n k).combinations fuel (nCr n k) = some arrs ∧ arrs.Nodup ∧
      (∀ arr, arr ∈ arrs ↔ arr.length = n ∧ arr.count true = k) ∧
      arrs.map getIndex = List.range (n.choose k)

def PlanRight (lower : Plan → Plan → Bool) (n : Nat) : Prop :=
  ∀ fuel, 2 ^ n ≤ fuel → ∃ plan, getPlan lower n fuel = some plan ∧ plan.LeftDeep ∧
    plan.leaves.Perm (List.range n)

/-- The products of `nCr` fit in a word. -/
theorem choose_mul_lt {n i : Nat} (hn : n ≤ 62) (hi : i < n) : n.choose i * (n - i) < 2 ^ 64 := by
  obtain ⟨m, rfl⟩ : ∃ m, n = m + 1 := ⟨n - 1, by omega⟩
  have hmiddle : (61).choose 30 = 232714176627630544 := by
    rw [Nat.choose_eq_factorial_div_factorial (by decide)]
    norm_num
  have hchoose : m.choose i ≤ (61).choose 30 := calc
    m.choose i ≤ (61).choose i := Nat.choose_le_choose i (by omega)
    _ ≤ (61).choose 30 := Nat.choose_le_middle i 61
  rw [← Nat.choose_mul_succ_eq]
  calc m.choose i * (m + 1) ≤ 232714176627630544 * 62 := Nat.mul_le_mul (hmiddle ▸ hchoose) hn
    _ < 2 ^ 64 := by norm_num

theorem nCr_eq {n : Nat} (hn : n ≤ 62) (r : Nat) : nCr n r = n.choose r := by
  unfold nCr
  split_ifs with hr
  · exact (Nat.choose_eq_zero_of_lt hr).symm
  · have hloop : ∀ r ≤ n, (List.range r).foldl (fun res i => res * (n - i) % 2 ^ 64 / (i + 1)) 1 =
        n.choose r := by
      intro r
      induction r with
      | zero => simp
      | succ r ih =>
        intro hr
        rw [List.range_succ, List.foldl_append, ih (by omega), List.foldl_cons, List.foldl_nil,
          Nat.mod_eq_of_lt (choose_mul_lt hn hr), ← Nat.choose_succ_right_eq]
        exact Nat.mul_div_cancel _ (Nat.succ_pos r)
    exact hloop r (not_lt.mp hr)

theorem number_lt_choose (arr : List Bool) : number arr < arr.length.choose (ones arr) := by
  obtain ⟨m, hm, harr⟩ := exists_bitsOf arr
  have hlt := number_lt hm
  rwa [harr] at hlt

theorem getIndex_eq {arr : List Bool} (h : arr.length ≤ 62) : getIndex arr = number arr := by
  have hloop : arr.foldl (fun (i, k, res) b =>
      if b then (i + 1, k + 1, (res + nCr i (k + 1)) % 2 ^ 64) else (i + 1, k, res)) (0, 0, 0) =
        (arr.length, ones arr, number arr) := by
    induction arr using List.reverseRecOn with
    | nil => rfl
    | append_singleton arr b ih =>
      have hlt : number (arr ++ [b]) < 2 ^ 64 := calc
        number (arr ++ [b]) < (arr ++ [b]).length.choose (ones (arr ++ [b])) := number_lt_choose _
        _ ≤ 2 ^ (arr ++ [b]).length := Nat.choose_le_two_pow ..
        _ ≤ 2 ^ 64 := Nat.pow_le_pow_right (by decide) (h.trans (by decide))
      rw [List.length_append, List.length_singleton] at h
      rw [List.foldl_append, ih (by omega), List.foldl_cons, List.foldl_nil]
      cases b with
      | false => simp [number_append_false, ones]
      | true =>
        rw [number_append_true] at hlt ⊢
        simp only [if_true, nCr_eq (show arr.length ≤ 62 by omega), Nat.mod_eq_of_lt hlt]
        simp [ones]
  rw [getIndex, hloop]

namespace CombinationEnumerator

theorem carry_bitsOf (n m : Nat) (count : Int) : carry (bitsOf n m) count =
    (bitsOf n (m + 1), count + (ones (bitsOf n (m + 1)) - ones (bitsOf n m))) := by
  induction n generalizing m count with
  | zero => simp [bitsOf, carry]
  | succ n ih =>
    rcases Nat.mod_two_eq_zero_or_one m with hm | hm
    · have hodd : (m + 1) % 2 = 1 := by omega
      have hhalf : (m + 1) / 2 = m / 2 := by omega
      simp only [bitsOf, hm, hodd, hhalf, Nat.zero_ne_one, decide_false, decide_true, carry, ones,
        List.count_cons]
      refine Prod.ext rfl ?_
      simp
    · have heven : (m + 1) % 2 = 0 := by omega
      have hhalf : (m + 1) / 2 = m / 2 + 1 := by omega
      simp only [bitsOf, hm, heven, hhalf, Nat.zero_ne_one, decide_false, decide_true, carry, ih, ones,
        List.count_cons]
      refine Prod.ext rfl ?_
      simp
      omega

/-- The counter stands at a number, and `c` combinations were returned. -/
structure At (n k c : Nat) (e : CombinationEnumerator) : Prop where
  at_number : ∃ m < 2 ^ n, e = ⟨bitsOf n m, (ones (bitsOf n m) : Int) - k⟩ ∧ before n k (m + 1) = c

theorem at_new {n k : Nat} (hk : 0 < k) : At n k 0 (new n k) := by
  have hones : ones (bitsOf n 0) = 0 := by simp [bitsOf_zero, ones, List.count_replicate]
  refine ⟨0, Nat.two_pow_pos n, ?_, ?_⟩
  · rw [hones, bitsOf_zero]
    simp [new]
  · have hzero : ¬ ones (bitsOf n 0) = k := by omega
    simp [before, Nat.count_one, hzero]

theorem getNextCombination_eq {n k m d : Nat} (hd : ones (bitsOf n (m + d + 1)) = k)
    (hfirst : ∀ x < d, ones (bitsOf n (m + x + 1)) ≠ k) {fuel : Nat} (hfuel : d < fuel) :
    getNextCombination fuel ⟨bitsOf n m, (ones (bitsOf n m) : Int) - k⟩ =
      some ⟨bitsOf n (m + d + 1), 0⟩ := by
  induction d generalizing m fuel with
  | zero =>
    obtain ⟨fuel, rfl⟩ := Nat.exists_eq_succ_of_ne_zero (Nat.ne_zero_of_lt hfuel)
    rw [Nat.add_zero] at hd
    have hsum : sumOne ⟨bitsOf n m, (ones (bitsOf n m) : Int) - k⟩ = ⟨bitsOf n (m + 1), 0⟩ := by
      simp [sumOne, carry_bitsOf, hd]
    rw [getNextCombination, hsum]
    simp
  | succ d ih =>
    obtain ⟨fuel, rfl⟩ := Nat.exists_eq_succ_of_ne_zero (Nat.ne_zero_of_lt hfuel)
    have hsum : sumOne ⟨bitsOf n m, (ones (bitsOf n m) : Int) - k⟩ =
        ⟨bitsOf n (m + 1), (ones (bitsOf n (m + 1)) : Int) - k⟩ := by
      simp [sumOne, carry_bitsOf]
    have hne : (ones (bitsOf n (m + 1)) : Int) - k ≠ 0 := by
      have hne := hfirst 0 (by omega)
      rw [Nat.add_zero] at hne
      omega
    have hshift : ∀ x, m + 1 + x + 1 = m + (x + 1) + 1 := by omega
    rw [getNextCombination, hsum, if_pos hne, ← hshift]
    apply ih
    · rw [hshift]
      exact hd
    · intro x hx
      rw [hshift]
      exact hfirst (x + 1) (by omega)
    · omega

theorem At.next {n k c fuel : Nat} {e : CombinationEnumerator} (h : At n k c e)
    (hc : c < n.choose k) (hfuel : 2 ^ n ≤ fuel) :
    ∃ e', getNextCombination fuel e = some e' ∧ At n k (c + 1) e' ∧ e'.arr.length = n ∧
      ones e'.arr = k ∧ number e'.arr = c := by
  obtain ⟨m, hm, rfl, hcount⟩ := h.at_number
  have hexists : ∃ d, m + d + 1 < 2 ^ n ∧ ones (bitsOf n (m + d + 1)) = k := by
    by_contra! hnone
    have hsplit : 2 ^ n = m + 1 + (2 ^ n - (m + 1)) := by omega
    have hzero : Nat.count (fun x => ones (bitsOf n (m + 1 + x)) = k) (2 ^ n - (m + 1)) = 0 := by
      rw [Nat.count_iff_forall_not]
      intro x hx
      rw [Nat.add_right_comm]
      exact hnone x (by omega)
    have htotal := before_two_pow n k
    rw [hsplit, before, Nat.count_add, hzero] at htotal
    rw [before] at hcount
    omega
  classical
  let d := Nat.find hexists
  obtain ⟨hlt, hones⟩ := Nat.find_spec hexists
  have hfirst : ∀ x < d, ones (bitsOf n (m + x + 1)) ≠ k := by
    intro x hx hk
    exact Nat.find_min hexists hx ⟨by omega, hk⟩
  have hbefore : before n k (m + d + 1) = c := by
    have hzero : Nat.count (fun x => ones (bitsOf n (m + 1 + x)) = k) d = 0 := by
      rw [Nat.count_iff_forall_not]
      intro x hx
      rw [Nat.add_right_comm]
      exact hfirst x hx
    rw [Nat.add_right_comm, before, Nat.count_add, hzero]
    exact hcount
  refine ⟨_, getNextCombination_eq hones hfirst (by omega), ⟨_, hlt, ?_, ?_⟩, length_bitsOf .., hones, ?_⟩
  · rw [hones]
    simp
  · rw [before, Nat.count_succ, if_pos hones]
    exact congrArg (· + 1) hbefore
  · rw [count_before hlt, hones]
    exact hbefore

theorem At.combinations {n k fuel : Nat} (hfuel : 2 ^ n ≤ fuel) (calls : Nat) {c : Nat}
    {e : CombinationEnumerator} (h : At n k c e) (hc : c + calls ≤ n.choose k) :
    ∃ arrs, e.combinations fuel calls = some arrs ∧ (∀ arr ∈ arrs, arr.length = n ∧ ones arr = k) ∧
      arrs.map number = List.range' c calls := by
  induction calls generalizing c e with
  | zero => exact ⟨[], rfl, by simp, rfl⟩
  | succ calls ih =>
    obtain ⟨e', hnext, hat, hlength, hones, hnumber⟩ := h.next (by omega) hfuel
    obtain ⟨arrs, harrs, hall, hnumbers⟩ := ih hat (by omega)
    refine ⟨e'.arr :: arrs, ?_, List.forall_mem_cons.mpr ⟨⟨hlength, hones⟩, hall⟩, ?_⟩
    · rw [CombinationEnumerator.combinations, hnext, Option.bind_eq_bind, Option.bind_some, harrs]
      rfl
    · rw [List.map_cons, hnumber, hnumbers, List.range'_succ]

end CombinationEnumerator

theorem enumeratesRight {n k : Nat} (hn : n ≤ 62) (hk : 0 < k) : EnumeratesRight n k := by
  intro fuel hfuel
  obtain ⟨arrs, harrs, hall, hnumbers⟩ := (CombinationEnumerator.at_new hk).combinations hfuel
    (nCr n k) (by rw [nCr_eq hn, Nat.zero_add])
  rw [nCr_eq hn, ← List.range_eq_range'] at hnumbers
  refine ⟨arrs, harrs, ?_, fun arr => ⟨fun h => hall arr h, ?_⟩, ?_⟩
  · apply List.Nodup.of_map number
    rw [hnumbers]
    exact List.nodup_range
  · intro ⟨hlength, hones⟩
    have hlt := number_lt_choose arr
    rw [hlength, show ones arr = k from hones, ← List.mem_range, ← hnumbers] at hlt
    obtain ⟨arr', harr', hnumber⟩ := List.mem_map.mp hlt
    obtain ⟨hlength', hones'⟩ := hall arr' harr'
    rwa [← number_injective (hlength'.trans hlength.symm) (hones'.trans hones.symm) hnumber]
  · rw [← hnumbers]
    apply List.map_congr_left
    intro arr harr
    exact getIndex_eq ((hall arr harr).1 ▸ hn)

structure Plan.Joins (plan : Plan) (arr : List Bool) : Prop where
  leftDeep : plan.LeftDeep
  nodup : plan.leaves.Nodup
  mem_leaves : ∀ j, j ∈ plan.leaves ↔ arr.getD j false = true

def FilledBelow (table : Table) (n k bound : Nat) : Prop :=
  ∀ arr : List Bool, arr.length = n → ones arr = k → number arr < bound →
    ∃ plan, table (k - 1) (number arr) = some plan ∧ plan.Joins arr

def Filled (table : Table) (n k : Nat) : Prop := FilledBelow table n k (n.choose k)

theorem Filled.get {table : Table} {n k : Nat} (h : Filled table n k) {arr : List Bool}
    (hlength : arr.length = n) (hones : ones arr = k) :
    ∃ plan, table (k - 1) (number arr) = some plan ∧ plan.Joins arr := by
  apply h arr hlength hones
  have hlt := number_lt_choose arr
  rwa [hlength, hones] at hlt

theorem ones_set {arr : List Bool} {j : Nat} (hj : arr.getD j false = true) :
    ones (arr.set j false) + 1 = ones arr := by
  have hlt : j < arr.length := by
    by_contra hlt
    rw [List.getD_eq_default _ _ (not_lt.mp hlt)] at hj
    exact Bool.noConfusion hj
  have hget : arr[j] = true := by rwa [List.getD_eq_getElem _ _ hlt] at hj
  have hmem : true ∈ arr := hget ▸ List.getElem_mem hlt
  have hpos : 0 < arr.count true := List.count_pos_iff.mpr hmem
  rw [ones, List.count_set hlt, hget]
  simp only [beq_self_eq_true, if_true, ones]
  simp
  omega

theorem set_set_self {arr : List Bool} {j : Nat} (hj : arr.getD j false = true) :
    (arr.set j false).set j true = arr := by
  have hlt : j < arr.length := by
    by_contra hlt
    rw [List.getD_eq_default _ _ (not_lt.mp hlt)] at hj
    exact Bool.noConfusion hj
  have hget : arr[j] = true := by rwa [List.getD_eq_getElem _ _ hlt] at hj
  rw [List.set_set, ← hget]
  exact List.set_getElem_self hlt

theorem Plan.Joins.fork {plan : Plan} {arr : List Bool} {j : Nat} (hj : arr.getD j false = true)
    (h : plan.Joins (arr.set j false)) : (Plan.indexNestedLoop plan (.base j)).Joins arr := by
  have hget : ∀ x, (arr.set j false).getD x false = true ↔ arr.getD x false = true ∧ x ≠ j := by
    intro x
    by_cases hx : x = j
    · subst hx
      simp only [List.getD_eq_getElem?_getD, List.getElem?_set, if_true]
      split_ifs <;> simp
    · simp [List.getD_eq_getElem?_getD, Ne.symm hx, hx]
  refine ⟨h.leftDeep, ?_, fun x => ?_⟩
  · have hnot : j ∉ plan.leaves := by
      rw [h.mem_leaves, hget]
      simp
    simpa [Plan.leaves, List.nodup_append] using ⟨h.nodup, fun a ha heq => hnot (heq ▸ ha)⟩
  · simp only [Plan.leaves, List.mem_append, h.mem_leaves, hget, List.mem_singleton]
    constructor
    · intro hx
      rcases hx with ⟨hx, -⟩ | rfl
      · exact hx
      · exact hj
    · intro hx
      by_cases heq : x = j
      · exact .inr heq
      · exact .inl ⟨hx, heq⟩

section

variable {n fuel : Nat}

theorem forkBits (lower : Plan → Plan → Bool) {table : Table} {k : Nat} (hn : n ≤ 62) (hfilled : Filled table n (k + 1))
    (hbase : ∀ j < n, table 0 j = some (.base j)) {arr : List Bool} (hlength : arr.length = n)
    (hones : ones arr = k + 2) (ps : List Nat) (hps : ∀ j ∈ ps, j < n) (best : Option Plan)
    (hbest : ∀ plan ∈ best, plan.Joins arr) :
    ∃ best', ps.foldlM (forkBit lower table (k + 2)) (arr, best) = some (arr, best') ∧
      (∀ plan ∈ best', plan.Joins arr) ∧
      ((best.isSome ∨ ∃ j ∈ ps, arr.getD j false = true) → best'.isSome) := by
  induction ps generalizing best with
  | nil => exact ⟨best, rfl, hbest, fun h => by simpa using h⟩
  | cons j ps ih =>
    obtain ⟨hj, hps⟩ := List.forall_mem_cons.mp hps
    by_cases hbit : arr.getD j false = true
    · have hless : ones (arr.set j false) = k + 1 := by
        have hset := ones_set hbit
        omega
      obtain ⟨lhs, hlhs, hjoins⟩ := hfilled.get (by rw [List.length_set, hlength]) hless
      have hindex : getIndex (arr.set j false) = number (arr.set j false) :=
        getIndex_eq (by rw [List.length_set, hlength]; exact hn)
      have hcurrent := hjoins.fork hbit
      let current := Plan.indexNestedLoop lhs (.base j)
      let chosen := match best with
        | none => current
        | some best => if lower current best then current else best
      have hchosen : chosen.Joins arr := by
        cases best with
        | none => exact hcurrent
        | some best =>
          by_cases hlower : lower current best
          · simpa only [chosen, hlower, if_true] using hcurrent
          · simpa [chosen, hlower] using hbest best rfl
      have hstep : forkBit lower table (k + 2) (arr, best) j = some (arr, some chosen) := by
        simp only [forkBit, hbit, if_true, hindex, Nat.add_sub_cancel]
        rw [Nat.add_sub_cancel] at hlhs
        simp only [hlhs, hbase j hj, Option.bind_eq_bind, Option.bind_some, set_set_self hbit]
        rfl
      obtain ⟨best', hloop, hall, hsome⟩ := ih hps (some chosen) (by
        intro plan hplan
        cases hplan
        exact hchosen)
      refine ⟨best', ?_, hall, fun _ => hsome (.inl rfl)⟩
      rw [List.foldlM_cons, hstep]
      exact hloop
    · obtain ⟨best', hloop, hall, hsome⟩ := ih hps best hbest
      refine ⟨best', ?_, hall, fun h => hsome ?_⟩
      · have hstep : forkBit lower table (k + 2) (arr, best) j = some (arr, best) := by
          simp only [forkBit, if_neg hbit]
        rw [List.foldlM_cons, hstep]
        exact hloop
      · rcases h with h | ⟨x, hx, hbitx⟩
        · exact .inl h
        · rcases List.mem_cons.mp hx with rfl | hx
          · exact absurd hbitx hbit
          · exact .inr ⟨x, hx, hbitx⟩

structure Between (n k c : Nat) (table : Table) (st : CombinationEnumerator × Table) : Prop where
  enumerator : st.1.At n k c
  filled : FilledBelow st.2 n k c
  lower_eq : ∀ i, i ≠ k - 1 → st.2 i = table i

theorem Between.step (lower : Plan → Plan → Bool) {table : Table} {k c : Nat}
    {st : CombinationEnumerator × Table} (hn : n ≤ 62) (hfuel : 2 ^ n ≤ fuel) (hfilled : Filled table n (k + 1))
    (hbase : ∀ j < n, table 0 j = some (.base j)) (h : Between n (k + 2) c table st)
    (hc : c < n.choose (k + 2)) (i : Nat) :
    ∃ st', combinationStep lower n fuel (k + 2) st i = some st' ∧ Between n (k + 2) (c + 1) table st' := by
  obtain ⟨e, current⟩ := st
  obtain ⟨e', hnext, hat, hlength, hones, hnumber⟩ := h.enumerator.next hc hfuel
  have hfilled' : Filled current n (k + 1) := by
    intro arr hlength hones hlt
    obtain ⟨plan, hplan, hjoins⟩ := hfilled arr hlength hones hlt
    have heq : current (k + 1 - 1) = table (k + 1 - 1) := h.lower_eq _ (by omega)
    exact ⟨plan, by rwa [heq], hjoins⟩
  have hbase' : ∀ j < n, current 0 j = some (.base j) := by
    intro j hj
    have heq : current 0 = table 0 := h.lower_eq 0 (by omega)
    rw [heq, hbase j hj]
  obtain ⟨best, hloop, hall, hsome⟩ := forkBits lower hn hfilled' hbase' hlength hones
    (List.range n) (fun j hj => List.mem_range.mp hj) none (fun _ h => by simp at h)
  have hbit : ∃ j ∈ List.range n, e'.arr.getD j false = true := by
    have hmem : true ∈ e'.arr := by
      rw [← List.count_pos_iff]
      exact Nat.lt_of_lt_of_eq (by omega : 0 < k + 2) hones.symm
    obtain ⟨j, hj, hget⟩ := List.getElem_of_mem hmem
    exact ⟨j, List.mem_range.mpr (hlength ▸ hj), by rw [List.getD_eq_getElem _ _ hj, hget]⟩
  obtain ⟨plan, rfl⟩ := Option.isSome_iff_exists.mp (hsome (.inr hbit))
  have hindex : getIndex e'.arr = c := by rw [getIndex_eq (hlength ▸ hn), hnumber]
  refine ⟨(e', current.write (k + 1) c plan), ?_, hat, ?_, ?_⟩
  · rw [combinationStep, hnext, Option.bind_eq_bind, Option.bind_some, hloop]
    simp only [Option.bind_eq_bind, Option.bind_some, hindex]
    rfl
  · intro arr harr hones' hlt
    rcases Nat.lt_succ_iff_lt_or_eq.mp hlt with hlt | heq
    · obtain ⟨plan', hplan', hjoins⟩ := h.filled arr harr hones' hlt
      refine ⟨plan', ?_, hjoins⟩
      have hne : number arr ≠ c := by omega
      simpa [Table.write, hne] using hplan'
    · have harr' : arr = e'.arr := number_injective (harr.trans hlength.symm)
        (hones'.trans hones.symm) (heq.trans hnumber.symm)
      refine ⟨plan, by simp [Table.write, heq], ?_⟩
      rw [harr']
      exact hall plan rfl
  · intro i hi
    have hne : i ≠ k + 1 := hi
    simp only [Table.write, Function.update_of_ne hne]
    exact h.lower_eq i hi

theorem sizeStep_spec (lower : Plan → Plan → Bool) {table : Table} {k : Nat} (hn : n ≤ 62) (hfuel : 2 ^ n ≤ fuel)
    (hfilled : Filled table n (k + 1)) (hbase : ∀ j < n, table 0 j = some (.base j)) :
    ∃ table', sizeStep lower n fuel table (k + 2) = some table' ∧ Filled table' n (k + 2) ∧
      table' 0 = table 0 := by
  have hloop : ∀ c ≤ n.choose (k + 2), ∃ st,
      (List.range c).foldlM (combinationStep lower n fuel (k + 2))
        (CombinationEnumerator.new n (k + 2), table) = some st ∧ Between n (k + 2) c table st := by
    intro c
    induction c with
    | zero =>
      intro _
      exact ⟨_, rfl, CombinationEnumerator.at_new (by omega), fun _ _ _ h => by omega, fun _ _ => rfl⟩
    | succ c ih =>
      intro hc
      obtain ⟨st, hst, hbetween⟩ := ih (by omega)
      obtain ⟨st', hstep, hbetween'⟩ := hbetween.step lower hn hfuel hfilled hbase hc c
      refine ⟨st', ?_, hbetween'⟩
      rw [List.range_succ, List.foldlM_append, hst]
      simpa using hstep
  obtain ⟨st, hst, hbetween⟩ := hloop (nCr n (k + 2)) (nCr_eq hn _).le
  refine ⟨st.2, ?_, ?_, hbetween.lower_eq 0 (by omega)⟩
  · rw [sizeStep, hst]
    rfl
  · have hfilled := hbetween.filled
    rwa [nCr_eq hn] at hfilled

theorem filled_baseTable (n : Nat) : Filled (baseTable n) n 1 := by
  intro arr hlength hones _
  have hmem : true ∈ arr := by
    rw [← List.count_pos_iff]
    exact Nat.lt_of_lt_of_eq Nat.zero_lt_one hones.symm
  obtain ⟨l, r, rfl⟩ := List.append_of_mem hmem
  have hzero : l.count true = 0 ∧ r.count true = 0 := by
    have hcount := hones
    simp only [ones, List.count_append, List.count_cons, beq_self_eq_true, if_true] at hcount
    omega
  have hfalse : ∀ bits : List Bool, bits.count true = 0 → bits = List.replicate bits.length false := by
    intro bits h
    rw [List.eq_replicate_iff]
    refine ⟨rfl, fun b hb => ?_⟩
    cases b with
    | false => rfl
    | true => exact absurd hb (List.count_eq_zero.mp h)
  have hnumber : ∀ (bits : List Bool) (m : Nat), number (bits ++ List.replicate m false) = number bits := by
    intro bits m
    induction m with
    | zero => simp
    | succ m ih => rw [List.replicate_succ', ← List.append_assoc, number_append_false, ih]
  have hleft : number l = 0 := by
    rw [hfalse l hzero.1]
    exact hnumber [] l.length
  have heq : number (l ++ true :: r) = l.length := by
    have happend : l ++ true :: r = (l ++ [true]) ++ List.replicate r.length false := by
      rw [← hfalse r hzero.2]
      simp
    rw [happend, hnumber, number_append_true, hleft]
    simp [ones, hzero.1]
  have hlt : l.length < n := by
    rw [← hlength]
    simp
  refine ⟨.base l.length, by simp [baseTable, heq, hlt], trivial, List.nodup_singleton _, fun j => ?_⟩
  have hget : ∀ (bits : List Bool) (j : Nat), bits.count true = 0 → bits.getD j false = false := by
    intro bits j h
    rw [hfalse bits h, List.getD_eq_getElem?_getD, List.getElem?_replicate]
    split_ifs <;> rfl
  rw [Plan.leaves, List.mem_singleton]
  rcases lt_trichotomy j l.length with hj | rfl | hj
  · rw [List.getD_append _ _ _ _ hj, hget l j hzero.1]
    simp [hj.ne]
  · simp [List.getD_eq_getElem?_getD]
  · obtain ⟨d, rfl⟩ := Nat.exists_eq_add_of_lt hj
    have hd : l.length + d + 1 - l.length = d + 1 := by omega
    rw [List.getD_append_right _ _ _ _ (by omega), hd, List.getD_cons_succ, hget r d hzero.2]
    simp
    omega

theorem planRight (lower : Plan → Plan → Bool) {n : Nat} (hpos : 1 ≤ n) (hn : n ≤ 62) :
    PlanRight lower n := by
  intro fuel hfuel
  have hloop : ∀ m ≤ n - 1, ∃ table,
      (List.range' 2 m).foldlM (sizeStep lower n fuel) (baseTable n) = some table ∧
        Filled table n (m + 1) ∧ table 0 = baseTable n 0 := by
    intro m
    induction m with
    | zero =>
      intro _
      exact ⟨_, rfl, filled_baseTable n, rfl⟩
    | succ m ih =>
      intro hm
      obtain ⟨table, htable, hfilled, hzero⟩ := ih (by omega)
      obtain ⟨table', hstep, hfilled', hzero'⟩ := sizeStep_spec lower hn hfuel hfilled
        (fun j hj => by rw [hzero]; simp [baseTable, hj])
      refine ⟨table', ?_, hfilled', hzero'.trans hzero⟩
      rw [List.range'_1_concat, List.foldlM_append, htable, Nat.add_comm 2 m]
      simpa using hstep
  obtain ⟨table, htable, hfilled, -⟩ := hloop (n - 1) le_rfl
  have hone : n - 1 + 1 = n := by omega
  rw [hone] at hfilled
  have hones : ones (List.replicate n true) = n := by simp [ones]
  obtain ⟨plan, hplan, hjoins⟩ := hfilled.get (List.length_replicate ..) hones
  have hnumber : number (List.replicate n true) = 0 := by
    have hlt := number_lt_choose (List.replicate n true)
    rw [List.length_replicate, hones, Nat.choose_self] at hlt
    omega
  rw [hnumber] at hplan
  refine ⟨plan, ?_, hjoins.leftDeep, ?_⟩
  · rw [getPlan, htable]
    exact hplan
  · rw [List.perm_ext_iff_of_nodup hjoins.nodup List.nodup_range]
    intro j
    rw [hjoins.mem_leaves, List.mem_range, List.getD_eq_getElem?_getD, List.getElem?_replicate]
    split_ifs with hj <;> simp [hj]

end

/-- With at most 62 base plans every combination of a size is enumerated once, at the index of
its turn, and the plan is left-deep and has every base plan once. -/
theorem selinger_right (lower : Plan → Plan → Bool) (n : Nat) (hpos : 1 ≤ n) (hn : n ≤ 62) :
    (∀ k, 1 ≤ k → EnumeratesRight n k) ∧ PlanRight lower n :=
  ⟨fun _ hk => enumeratesRight hn hk, planRight lower hpos hn⟩

theorem selinger_right_three : (∀ k, 1 ≤ k → EnumeratesRight 3 k) ∧ PlanRight (fun _ _ => true) 3 :=
  selinger_right (fun _ _ => true) 3 (by decide) (by decide)

/-- With 63 base plans the binomial for 32 of them does not fit on the way. -/
theorem not_selinger_right : ¬ ∀ (lower : Plan → Plan → Bool) (n : Nat), 1 ≤ n →
    (∀ k, 1 ≤ k → EnumeratesRight n k) ∧ PlanRight lower n := by
  intro h
  obtain ⟨arrs, harrs, -, -, hindexes⟩ := (h (fun _ _ => true) 63 (by decide)).1 32 (by decide) _ le_rfl
  have hcalls : ∀ (calls : Nat) (e : CombinationEnumerator) (arrs : List (List Bool)),
      e.combinations (2 ^ 63) calls = some arrs → arrs.length = calls := by
    intro calls
    induction calls with
    | zero =>
      intro e arrs h
      cases h
      rfl
    | succ calls ih =>
      intro e arrs h
      rw [CombinationEnumerator.combinations] at h
      obtain ⟨e', -, h⟩ := Option.bind_eq_some_iff.mp h
      obtain ⟨arrs', harrs', h⟩ := Option.bind_eq_some_iff.mp h
      cases h
      rw [List.length_cons, ih e' arrs' harrs']
  have hlength := congrArg List.length hindexes
  rw [List.length_map, hcalls _ _ _ harrs, List.length_range] at hlength
  have hchoose : (63).choose 32 = 916312070471295267 := by
    rw [Nat.choose_eq_factorial_div_factorial (by decide)]
    norm_num
  rw [hchoose] at hlength
  revert hlength
  decide +kernel

end Selinger
end MillenniumDB
