import Mathlib.Data.List.Lex
import Mathlib.Order.Lattice
import MillenniumDB.Lib.Rearranged

/-!
# The sort of a hash bucket

`KeyValueHashBucket::sort` puts the tuples of a page in the order of their keys, by a quicksort in
place.  Two places of the part move towards each other until they meet; the tuple where they meet
is compared with the pivot in a loop of its own, which does not stop at the first column that
differs.
-/

namespace MillenniumDB

structure KeyValueTuple where
  key : List Nat
  value : List Nat
deriving DecidableEq

namespace KeyValueTuple

def Le (s t : KeyValueTuple) : Prop := s.key ≤ t.key

theorem trans_le (s t u : KeyValueTuple) (hst : s.Le t) (htu : t.Le u) : s.Le u :=
  le_trans hst htu

end KeyValueTuple

/-- A page of the hash: tuples with keys of as many columns as the hash has. -/
structure KeyValueHashBucket (keySize : Nat) where
  tuples : List KeyValueTuple
  key_size : ∀ t ∈ tuples, t.key.length = keySize

namespace KeyValueHashBucket

def smallerKey : List Nat → List Nat → Bool
  | k :: key, p :: pivot => if k < p then true else if k > p then false else smallerKey key pivot
  | _, _ => false

def smallerColumn : List Nat → List Nat → Bool
  | k :: key, p :: pivot => if k < p then true else smallerColumn key pivot
  | _, _ => false

def comparesAt (smaller : List Nat → List Nat → Bool) (pivot : KeyValueTuple) (pos : Nat)
    (tuples : List KeyValueTuple) : Bool :=
  match tuples[pos]? with
  | some t => smaller t.key pivot.key
  | none => false

/-- The loop of `partition`.  Between `insert_min_pos` and `insert_max_pos` are `n` steps. -/
def meet (pivot : KeyValueTuple) : Nat → Nat → List KeyValueTuple → List KeyValueTuple × Nat
  | 0, insertMinPos, tuples => (tuples, insertMinPos)
  | n + 1, insertMinPos, tuples =>
    if comparesAt smallerKey pivot (insertMinPos + (n + 1)) tuples then
      meet pivot n (insertMinPos + 1) (exchange (insertMinPos + (n + 1)) insertMinPos tuples)
    else meet pivot n insertMinPos tuples

/-- `partition` up to its recursive calls: the pivot is put in its place. -/
def placePivot (minPos maxPos : Nat) (tuples : List KeyValueTuple) : List KeyValueTuple × Nat :=
  match tuples[maxPos]? with
  | none => (tuples, minPos)
  | some pivot =>
    let met := meet pivot (maxPos - 1 - minPos) minPos tuples
    -- check last, compare with pivot this time
    let pos := if comparesAt smallerColumn pivot met.2 met.1 then met.2 + 1 else met.2
    (exchange maxPos pos met.1, pos)

theorem meet_bounds (pivot : KeyValueTuple) :
    ∀ n minPos tuples, minPos ≤ (meet pivot n minPos tuples).2 ∧
      (meet pivot n minPos tuples).2 ≤ minPos + n
  | 0, _, _ => ⟨Nat.le_refl _, Nat.le_refl _⟩
  | n + 1, minPos, tuples => by
    unfold meet
    split
    · have h := meet_bounds pivot n (minPos + 1) (exchange (minPos + (n + 1)) minPos tuples)
      omega
    · have h := meet_bounds pivot n minPos tuples
      omega

theorem placePivot_bounds {minPos maxPos : Nat} (h : minPos < maxPos)
    (tuples : List KeyValueTuple) : minPos ≤ (placePivot minPos maxPos tuples).2 ∧
      (placePivot minPos maxPos tuples).2 ≤ maxPos := by
  unfold placePivot
  split
  · exact ⟨Nat.le_refl _, Nat.le_of_lt h⟩
  · next pivot _ =>
    have hmet := meet_bounds pivot (maxPos - 1 - minPos) minPos tuples
    dsimp only
    split <;> omega

def partition (minPos maxPos : Nat) (tuples : List KeyValueTuple) : List KeyValueTuple :=
  if h : maxPos ≤ minPos then tuples
  else
    have _bounds := placePivot_bounds (Nat.lt_of_not_le h) tuples
    let placed := placePivot minPos maxPos tuples
    let left := if placed.2 ≠ 0 then partition minPos (placed.2 - 1) placed.1 else placed.1
    if placed.2 < maxPos then partition (placed.2 + 1) maxPos left else left
termination_by maxPos - minPos
decreasing_by all_goals omega

/-- The tuples of the bucket after `sort`. -/
def sort {keySize : Nat} (bucket : KeyValueHashBucket keySize) : List KeyValueTuple :=
  if bucket.tuples.length > 1 then partition 0 (bucket.tuples.length - 1) bucket.tuples
  else bucket.tuples

def LastCheckAgrees (minPos maxPos : Nat) (tuples : List KeyValueTuple) : Prop :=
  ∀ pivot ∈ tuples[maxPos]?,
    let met := meet pivot (maxPos - 1 - minPos) minPos tuples
    comparesAt smallerColumn pivot met.2 met.1 → comparesAt smallerKey pivot met.2 met.1

def LastChecksAgree (minPos maxPos : Nat) (tuples : List KeyValueTuple) : Prop :=
  if h : maxPos ≤ minPos then True
  else
    have _bounds := placePivot_bounds (Nat.lt_of_not_le h) tuples
    let placed := placePivot minPos maxPos tuples
    LastCheckAgrees minPos maxPos tuples ∧ LastChecksAgree minPos (placed.2 - 1) placed.1 ∧
      LastChecksAgree (placed.2 + 1) maxPos (partition minPos (placed.2 - 1) placed.1)
termination_by maxPos - minPos
decreasing_by all_goals omega

theorem smallerKey_iff : ∀ {key pivot : List Nat}, key.length = pivot.length →
    (smallerKey key pivot = true ↔ key < pivot)
  | [], [], _ => by simp [smallerKey]
  | k :: key, p :: pivot, h => by
    have ih : smallerKey key pivot = true ↔ key < pivot := smallerKey_iff (by simpa using h)
    rw [List.cons_lt_cons_iff, smallerKey]
    split
    · next hk => simp [hk]
    · next hk =>
      split
      · next hp => simp [hk, Nat.ne_of_gt hp]
      · next hp =>
        have heq : k = p := by omega
        simp [heq, ih]

theorem smallerColumn_of_smallerKey : ∀ {key pivot : List Nat}, smallerKey key pivot = true →
    smallerColumn key pivot = true
  | [], _, h => by simp [smallerKey] at h
  | _ :: _, [], h => by simp [smallerKey] at h
  | k :: key, p :: pivot, h => by
    unfold smallerKey at h
    unfold smallerColumn
    split at h
    · next hk => rw [if_pos hk]
    · next hk =>
      rw [if_neg hk]
      split at h
      · exact absurd h Bool.false_ne_true
      · exact smallerColumn_of_smallerKey h

theorem smallerColumn_self : ∀ key : List Nat, smallerColumn key key = false
  | [] => rfl
  | k :: key => by
    rw [smallerColumn, if_neg (Nat.lt_irrefl k)]
    exact smallerColumn_self key

theorem comparesAt_of_get {smaller : List Nat → List Nat → Bool} {pivot t : KeyValueTuple}
    {pos : Nat} {tuples : List KeyValueTuple} (h : tuples[pos]? = some t) :
    comparesAt smaller pivot pos tuples = smaller t.key pivot.key := by
  simp only [comparesAt, h]

/-- What the loop leaves: the smaller keys before the place where it stops, the others behind. -/
structure Met (pivot : KeyValueTuple) (lo hi : Nat) (a b : List KeyValueTuple) (pos : Nat) :
    Prop where
  rearranged : Rearranged lo hi a b
  smaller : ∀ i x, lo ≤ i → i < pos → b[i]? = some x → smallerKey x.key pivot.key = true
  greater : ∀ i x, pos + 1 ≤ i → i < hi → b[i]? = some x →
    smallerKey x.key pivot.key = false

theorem meet_met (pivot : KeyValueTuple) : ∀ n lo a, lo + n < a.length →
    Met pivot lo (lo + n + 1) a (meet pivot n lo a).1 (meet pivot n lo a).2
  | 0, lo, a, _ => by
    refine ⟨.refl _ _ _, fun i x hlo hi => ?_, fun i x hlo hi => ?_⟩
    all_goals
      dsimp only [meet] at *
      omega
  | n + 1, lo, a, h => by
    have hget : a[lo + (n + 1)]? = some a[lo + (n + 1)] := List.getElem?_eq_getElem h
    have hlo : lo < a.length := by omega
    unfold meet
    split
    · next hsmaller =>
      have hbounds := meet_bounds pivot n (lo + 1) (exchange (lo + (n + 1)) lo a)
      have ih := meet_met pivot n (lo + 1) (exchange (lo + (n + 1)) lo a)
        (by rw [← (exchange_perm _ _ a).length_eq]; omega)
      rw [Nat.add_right_comm lo 1 n] at ih
      refine ⟨(Rearranged.exchange (by omega) (by omega) a).trans
        (ih.rearranged.mono (by omega) (by omega)), fun i x hi hpos hx => ?_,
        fun i x hi hih hx => ih.greater i x hi (by omega) hx⟩
      by_cases hil : i = lo
      · -- the exchange has put the smaller tuple here
        subst hil
        rw [ih.rearranged.outside i (Or.inl (by omega)), exchange_right h hlo, hget] at hx
        rw [comparesAt_of_get hget] at hsmaller
        rw [← Option.some.inj hx]
        exact hsmaller
      · exact ih.smaller i x (by omega) hpos hx
    · next hsmaller =>
      have hbounds := meet_bounds pivot n lo a
      have ih := meet_met pivot n lo a (by omega)
      refine ⟨ih.rearranged.mono (by omega) (by omega), ih.smaller, fun i x hi hih hx => ?_⟩
      by_cases hil : i = lo + (n + 1)
      · subst hil
        rw [ih.rearranged.outside _ (Or.inr (by omega)), hget] at hx
        rw [comparesAt_of_get hget] at hsmaller
        rw [← Option.some.inj hx]
        exact Bool.eq_false_iff.mpr hsmaller
      · exact ih.greater i x hi (by omega) hx

theorem le_of_smaller {x pivot : KeyValueTuple} (h : x.key.length = pivot.key.length)
    (hs : smallerKey x.key pivot.key = true) : x.Le pivot :=
  le_of_lt ((smallerKey_iff h).mp hs)

theorem le_of_not_smaller {x pivot : KeyValueTuple} (h : x.key.length = pivot.key.length)
    (hs : smallerKey x.key pivot.key = false) : pivot.Le x := by
  apply le_of_not_gt
  intro hlt
  rw [(smallerKey_iff h).mpr hlt] at hs
  exact absurd hs Bool.false_ne_true.symm

theorem le_iff_of_smallerColumn {x pivot : KeyValueTuple} (h : x.key.length = pivot.key.length)
    (hcolumn : smallerColumn x.key pivot.key = true) :
    x.Le pivot ↔ smallerKey x.key pivot.key = true := by
  constructor
  · intro hle
    apply (smallerKey_iff h).mpr
    apply lt_of_le_of_ne hle
    intro heq
    rw [heq, smallerColumn_self] at hcolumn
    exact absurd hcolumn Bool.false_ne_true
  · exact le_of_smaller h

structure Placed (pivot : KeyValueTuple) (lo hi : Nat) (agrees : Prop) (a b : List KeyValueTuple)
    (pos : Nat) : Prop where
  rearranged : Rearranged lo (hi + 1) a b
  pivot_at : b[pos]? = some pivot
  before : (∀ i x, lo ≤ i → i < pos → b[i]? = some x → x.Le pivot) ↔ agrees
  behind : ∀ i x, pos + 1 ≤ i → i < hi + 1 → b[i]? = some x → pivot.Le x

section

variable {keySize lo hi pos : Nat} {a b : List KeyValueTuple} {pivot t : KeyValueTuple}

theorem Met.hi_eq (h : Met pivot lo hi a b pos) (hpivot : a[hi]? = some pivot) :
    b[hi]? = some pivot := by
  rw [h.rearranged.outside hi (Or.inr (Nat.le_refl hi)), hpivot]

theorem Met.pivot_behind (h : Met pivot lo hi a b pos) (hpos : lo ≤ pos ∧ pos < hi)
    (hlen : hi < b.length) (hpivot : a[hi]? = some pivot)
    (hkey : ∀ x ∈ b, x.key.length = pivot.key.length) (ht : b[pos]? = some t)
    (hcolumn : smallerColumn t.key pivot.key = true) :
    Placed pivot lo hi (smallerKey t.key pivot.key = true) a (exchange hi (pos + 1) b)
      (pos + 1) := by
  refine ⟨(h.rearranged.mono (Nat.le_refl lo) (Nat.le_succ hi)).trans
    (.exchange (by omega) (by omega) b), ?_, ?_, ?_⟩
  · rw [exchange_right hlen (by omega), h.hi_eq hpivot]
  · rw [← le_iff_of_smallerColumn (hkey t (List.mem_of_getElem? ht)) hcolumn]
    constructor
    · intro hall
      apply hall pos t hpos.1 (Nat.lt_succ_self pos)
      rw [exchange_of_ne (by omega) (by omega), ht]
    · intro hle i x hlo hi hx
      rw [exchange_of_ne (by omega) (by omega)] at hx
      rcases Nat.lt_succ_iff_lt_or_eq.mp hi with hi | rfl
      · exact le_of_smaller (hkey x (List.mem_of_getElem? hx)) (h.smaller i x hlo hi hx)
      · rw [← Option.some.inj (ht.symm.trans hx)]
        exact hle
  · intro i x hi' hih hx
    by_cases heq : i = hi
    · subst heq
      rw [exchange_left hlen (by omega)] at hx
      exact le_of_not_smaller (hkey x (List.mem_of_getElem? hx))
        (h.greater _ x (Nat.le_refl _) (by omega) hx)
    · rw [exchange_of_ne heq (by omega)] at hx
      exact le_of_not_smaller (hkey x (List.mem_of_getElem? hx))
        (h.greater i x (by omega) (by omega) hx)

/-- With the pivot in its place, the tuple of the last check goes to the other side. -/
theorem Met.pivot_here (h : Met pivot lo hi a b pos) (hpos : lo ≤ pos ∧ pos < hi)
    (hlen : hi < b.length) (hpivot : a[hi]? = some pivot)
    (hkey : ∀ x ∈ b, x.key.length = pivot.key.length) (ht : b[pos]? = some t)
    (hcolumn : smallerColumn t.key pivot.key = false) :
    Placed pivot lo hi True a (exchange hi pos b) pos := by
  have hsmaller : smallerKey t.key pivot.key = false := by
    cases hs : smallerKey t.key pivot.key with
    | false => rfl
    | true => exact absurd (smallerColumn_of_smallerKey hs) (Bool.eq_false_iff.mp hcolumn)
  have hgreater : ∀ i x, pos ≤ i → i < hi → b[i]? = some x → pivot.Le x := by
    intro i x hi hih hx
    apply le_of_not_smaller (hkey x (List.mem_of_getElem? hx))
    rcases Nat.eq_or_lt_of_le hi with rfl | hi
    · rw [← Option.some.inj (ht.symm.trans hx)]
      exact hsmaller
    · exact h.greater i x hi hih hx
  refine ⟨(h.rearranged.mono (Nat.le_refl lo) (Nat.le_succ hi)).trans
    (.exchange (by omega) (by omega) b), ?_, ?_, ?_⟩
  · rw [exchange_right hlen (by omega), h.hi_eq hpivot]
  · apply iff_of_true _ trivial
    intro i x hlo hi hx
    rw [exchange_of_ne (by omega) (by omega)] at hx
    exact le_of_smaller (hkey x (List.mem_of_getElem? hx)) (h.smaller i x hlo hi hx)
  · intro i x hi' hih hx
    by_cases heq : i = hi
    · subst heq
      rw [exchange_left hlen (by omega)] at hx
      exact hgreater pos x (Nat.le_refl pos) hpos.2 hx
    · rw [exchange_of_ne heq (by omega)] at hx
      exact hgreater i x (by omega) (by omega) hx

theorem placePivot_placed (hlo : lo < hi) (hlen : hi < a.length)
    (hkeys : ∀ t ∈ a, t.key.length = keySize) :
    ∃ pivot, Placed pivot lo hi (LastCheckAgrees lo hi a) a (placePivot lo hi a).1
      (placePivot lo hi a).2 := by
  obtain ⟨pivot, hpivot⟩ : ∃ pivot, a[hi]? = some pivot :=
    ⟨a[hi], List.getElem?_eq_getElem hlen⟩
  have hmet := meet_met pivot (hi - 1 - lo) lo a (by omega)
  have hbounds := meet_bounds pivot (hi - 1 - lo) lo a
  rw [show lo + (hi - 1 - lo) + 1 = hi by omega] at hmet
  have hlast : LastCheckAgrees lo hi a ↔
      (comparesAt smallerColumn pivot (meet pivot (hi - 1 - lo) lo a).2
          (meet pivot (hi - 1 - lo) lo a).1 = true →
        comparesAt smallerKey pivot (meet pivot (hi - 1 - lo) lo a).2
          (meet pivot (hi - 1 - lo) lo a).1 = true) := by
    simp only [LastCheckAgrees, hpivot, Option.mem_some_iff, forall_eq']
  unfold placePivot
  rw [hlast, hpivot]
  dsimp only
  generalize (meet pivot (hi - 1 - lo) lo a).1 = b at hmet ⊢
  generalize (meet pivot (hi - 1 - lo) lo a).2 = pos at hmet hbounds ⊢
  have hblen : hi < b.length := by
    rw [hmet.rearranged.length_eq]
    exact hlen
  have hkey : ∀ x ∈ b, x.key.length = pivot.key.length := by
    intro x hx
    rw [hkeys x (hmet.rearranged.perm.mem_iff.mpr hx),
      hkeys pivot (List.mem_of_getElem? hpivot)]
  have hpos : lo ≤ pos ∧ pos < hi := by omega
  obtain ⟨t, ht⟩ : ∃ t, b[pos]? = some t := ⟨b[pos], List.getElem?_eq_getElem (by omega)⟩
  refine ⟨pivot, ?_⟩
  rw [comparesAt_of_get ht, comparesAt_of_get ht]
  cases hcolumn : smallerColumn t.key pivot.key with
  | true =>
    rw [if_pos rfl, imp_iff_right rfl]
    exact hmet.pivot_behind hpos hblen hpivot hkey ht hcolumn
  | false =>
    rw [if_neg Bool.false_ne_true, iff_true_intro fun h => absurd h Bool.false_ne_true]
    exact hmet.pivot_here hpos hblen hpivot hkey ht hcolumn

theorem partition_of_le (h : hi ≤ lo) : partition lo hi a = a := by
  rw [partition, dif_pos h]

theorem lastChecksAgree_of_le (h : hi ≤ lo) : LastChecksAgree lo hi a := by
  rw [LastChecksAgree, dif_pos h]
  trivial

theorem partition_of_lt (h : lo < hi) :
    partition lo hi a =
      partition ((placePivot lo hi a).2 + 1) hi
        (partition lo ((placePivot lo hi a).2 - 1) (placePivot lo hi a).1) := by
  have hleft : (if (placePivot lo hi a).2 ≠ 0 then
      partition lo ((placePivot lo hi a).2 - 1) (placePivot lo hi a).1
      else (placePivot lo hi a).1) =
      partition lo ((placePivot lo hi a).2 - 1) (placePivot lo hi a).1 := by
    split
    · rfl
    · next hzero => rw [partition_of_le (by omega)]
  rw [partition, dif_neg (Nat.not_le_of_lt h)]
  dsimp only
  rw [hleft]
  split
  · rfl
  · next hplace => exact (partition_of_le (by omega)).symm

theorem lastChecksAgree_of_lt (h : lo < hi) :
    LastChecksAgree lo hi a ↔ LastCheckAgrees lo hi a ∧
      LastChecksAgree lo ((placePivot lo hi a).2 - 1) (placePivot lo hi a).1 ∧
      LastChecksAgree ((placePivot lo hi a).2 + 1) hi
        (partition lo ((placePivot lo hi a).2 - 1) (placePivot lo hi a).1) := by
  rw [LastChecksAgree, dif_neg (Nat.not_le_of_lt h)]

theorem partition_spec (n : Nat) : ∀ (lo hi : Nat) (a : List KeyValueTuple), hi - lo ≤ n →
    hi < a.length → (∀ t ∈ a, t.key.length = keySize) →
    Rearranged lo (hi + 1) a (partition lo hi a) ∧
      (SortedOn KeyValueTuple.Le lo (hi + 1) (partition lo hi a) ↔ LastChecksAgree lo hi a) := by
  induction n with
  | zero =>
    intro lo hi a hn _ _
    rw [partition_of_le (by omega)]
    exact ⟨.refl _ _ _, iff_of_true (SortedOn.of_le (by omega))
      (lastChecksAgree_of_le (by omega))⟩
  | succ n ih =>
    intro lo hi a hn hlen hkeys
    rcases Nat.lt_or_ge lo hi with hlo | hlo
    · have hbounds := placePivot_bounds hlo a
      obtain ⟨pivot, hplaced⟩ := placePivot_placed hlo hlen hkeys
      rw [partition_of_lt hlo, lastChecksAgree_of_lt hlo]
      generalize (placePivot lo hi a).1 = b at hplaced ⊢
      generalize (placePivot lo hi a).2 = pos at hplaced hbounds ⊢
      have hblen : b.length = a.length := hplaced.rearranged.length_eq
      have hbkeys : ∀ t ∈ b, t.key.length = keySize := fun t ht =>
        hkeys t (hplaced.rearranged.perm.mem_iff.mpr ht)
      have hleft : Rearranged lo pos b (partition lo (pos - 1) b) ∧
          (SortedOn KeyValueTuple.Le lo pos (partition lo (pos - 1) b) ↔
            LastChecksAgree lo (pos - 1) b) := by
        rcases Nat.eq_zero_or_pos pos with rfl | hpos
        · rw [partition_of_le (Nat.zero_le lo)]
          exact ⟨.refl _ _ _, iff_of_true (SortedOn.of_le (by omega))
            (lastChecksAgree_of_le (Nat.zero_le lo))⟩
        · have hleft := ih lo (pos - 1) b (by omega) (by omega) hbkeys
          rw [Nat.sub_add_cancel hpos] at hleft
          exact hleft
      generalize partition lo (pos - 1) b = m at hleft ⊢
      have hright := ih (pos + 1) hi m (by omega)
        (by rw [hleft.1.length_eq, hblen]; exact hlen)
        (fun t ht => hbkeys t (hleft.1.perm.mem_iff.mpr ht))
      refine ⟨(hplaced.rearranged.trans (hleft.1.mono (Nat.le_refl lo) (by omega))).trans
        (hright.1.mono (by omega) (Nat.le_refl _)), ?_⟩
      rw [sortedOn_iff_sides KeyValueTuple.trans_le hbounds.1 (by omega) hplaced.pivot_at
        hplaced.behind hleft.1 hright.1, hplaced.before, hleft.2, hright.2]
    · rw [partition_of_le hlo]
      exact ⟨.refl _ _ _, iff_of_true (SortedOn.of_le (by omega)) (lastChecksAgree_of_le hlo)⟩

theorem partition_all {tuples : List KeyValueTuple} (hkeys : ∀ t ∈ tuples, t.key.length = keySize) :
    tuples.Perm (partition 0 (tuples.length - 1) tuples) ∧
      ((partition 0 (tuples.length - 1) tuples).Pairwise KeyValueTuple.Le ↔
        LastChecksAgree 0 (tuples.length - 1) tuples) := by
  rcases Nat.eq_zero_or_pos tuples.length with hzero | hpos
  · rw [hzero, partition_of_le (Nat.zero_le 0), List.length_eq_zero_iff.mp hzero]
    exact ⟨.refl _, iff_of_true .nil (lastChecksAgree_of_le (Nat.zero_le 0))⟩
  · have hspec := partition_spec (tuples.length - 1) 0 (tuples.length - 1) tuples (Nat.sub_le _ 0)
      (by omega) hkeys
    rw [Nat.sub_add_cancel hpos] at hspec
    have hpairwise := sortedOn_iff_pairwise (r := KeyValueTuple.Le)
      (a := partition 0 (tuples.length - 1) tuples)
    rw [hspec.1.length_eq] at hpairwise
    exact ⟨hspec.1.perm, hpairwise.symm.trans hspec.2⟩

theorem sort_eq (bucket : KeyValueHashBucket keySize) :
    sort bucket = partition 0 (bucket.tuples.length - 1) bucket.tuples := by
  unfold sort
  split
  · rfl
  · next hle => exact (partition_of_le (by omega)).symm

/-- The sort keeps the tuples; it sorts them just if every last check agrees with the order. -/
theorem sort_perm_and_sorted_iff (bucket : KeyValueHashBucket keySize) :
    bucket.tuples.Perm (sort bucket) ∧
      ((sort bucket).Pairwise KeyValueTuple.Le ↔
        LastChecksAgree 0 (bucket.tuples.length - 1) bucket.tuples) := by
  rw [sort_eq]
  exact partition_all bucket.key_size

/-- The second column of the first key is smaller, the first is greater. -/
theorem sort_two_columns :
    ¬ (sort (⟨[⟨[2, 1], []⟩, ⟨[1, 2], []⟩], by decide⟩ : KeyValueHashBucket 2)).Pairwise
      KeyValueTuple.Le := by
  have hsort : sort (⟨[⟨[2, 1], []⟩, ⟨[1, 2], []⟩], by decide⟩ : KeyValueHashBucket 2) =
      [⟨[2, 1], []⟩, ⟨[1, 2], []⟩] := by
    rw [sort_eq, partition_of_lt (by decide), partition_of_le (by decide),
      partition_of_le (by decide)]
    decide
  rw [hsort]
  intro h
  have hle := List.rel_of_pairwise_cons h (List.mem_singleton_self _)
  unfold KeyValueTuple.Le at hle
  revert hle
  decide

end
end KeyValueHashBucket
end MillenniumDB
