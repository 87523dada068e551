import MillenniumDB.KeyValueHashRuns
import MillenniumDB.Lib.MergeRuns

/-!
# What the hash keeps

Whatever is inserted, the pages of the buckets hold these tuples, and each tuple is in the bucket
of its hash.  Whether an insertion returns is a question of room: a page has to take a tuple at
all, and the doubling has to help before `1 << depth` is no `int` any more.
-/

namespace MillenniumDB
namespace KeyValueHash

/-- The tuples are distributed over the buckets by the low bits of their hashes, in pages that are
full but the last one of each bucket. -/
structure Distributes (hash : List Nat → Nat) (maxTuples : Nat) (tuples : List KeyValueTuple)
    (t : KeyValueHash) : Prop where
  perm : ((List.range (1 <<< t.depth)).flatMap t.bucketTuples).Perm tuples
  bucket : ∀ b < 1 <<< t.depth, ∀ x ∈ t.bucketTuples b, t.getBucket hash x.key = b
  sizes : ∀ b, t.bucketsSizes b =
    ((t.bucketsPageNumbers b).map fun page => (t.file page).tupleCount).sum
  full : ∀ b i, i + 1 < (t.bucketsPageNumbers b).length →
    (t.file ((t.bucketsPageNumbers b).getD i 0)).tupleCount = maxTuples
  fits : ∀ b, ∀ page ∈ t.bucketsPageNumbers b, (t.file page).tupleCount ≤ maxTuples
  nodup : ∀ b, (t.bucketsPageNumbers b).Nodup
  disjoint : ∀ b c, b ≠ c → ∀ page ∈ t.bucketsPageNumbers b, page ∉ t.bucketsPageNumbers c
  count : t.tuplesCount = tuples.length

section

variable {hash : List Nat → Nat} {maxTuples : Nat} {tuples : List KeyValueTuple}
  {t : KeyValueHash} {content : Nat → List KeyValueTuple}

theorem Inv.bucketTuples_eq (h : Inv hash maxTuples tuples t content) (b : Nat) :
    t.bucketTuples b = content b := (h.stored.holds b).flatMap_eq

theorem Inv.full (h : Inv hash maxTuples tuples t content) {b i : Nat}
    (hi : i + 1 < (t.bucketsPageNumbers b).length) :
    (t.file ((t.bucketsPageNumbers b).getD i 0)).tupleCount = maxTuples := by
  have hbegun := (h.stored.holds b).begun
  have hpages : (i + 1) * maxTuples ≤ ((t.bucketsPageNumbers b).length - 1) * maxTuples :=
    Nat.mul_le_mul_right _ (Nat.le_sub_one_of_lt hi)
  rw [Nat.add_one_mul] at hpages
  rw [(h.stored.holds b).tupleCount (Nat.lt_of_succ_lt hi)]
  omega

theorem Inv.distributes (h : Inv hash maxTuples tuples t content) :
    Distributes hash maxTuples tuples t where
  perm := by
    have hbuckets : ((List.range (2 ^ t.depth)).flatMap t.bucketTuples).Perm
        ((List.range (2 ^ t.depth)).flatMap (agreeing hash tuples t.depth)) := by
      apply List.Perm.flatMap_left
      intro b hb
      rw [h.bucketTuples_eq]
      exact h.perm b (List.mem_range.mp hb)
    rw [Nat.one_shiftLeft]
    apply hbuckets.trans
    exact Merges.flatMap_filter_perm (fun x : KeyValueTuple => hash x.key % 2 ^ t.depth) _
      fun x _ => Nat.mod_lt _ (Nat.two_pow_pos _)
  bucket b hb x hx := by
    rw [Nat.one_shiftLeft] at hb
    rw [h.bucketTuples_eq, (h.perm b hb).mem_iff] at hx
    rw [getBucket_eq]
    exact of_decide_eq_true (List.mem_filter.mp hx).2
  sizes b := by
    have hlength := congrArg List.length (h.bucketTuples_eq b)
    rw [bucketTuples, List.length_flatMap] at hlength
    rw [h.stored.sizes, ← hlength]
    apply congrArg List.sum
    apply List.map_congr_left
    exact fun page _ => KeyValueHash.length_content _
  full b i hi := h.full hi
  fits b page hpage := by
    obtain ⟨i, hi, rfl⟩ := List.getElem_of_mem hpage
    rw [← List.getD_eq_getElem _ 0 hi, (h.stored.holds b).tupleCount hi]
    exact Nat.min_le_left _ _
  nodup := h.stored.owned.nodup
  disjoint := h.stored.owned.disjoint
  count := h.count

theorem makeRoom_zero (key : List Nat) (fuel : Nat) :
    ∀ t : KeyValueHash, makeRoom hash 0 key fuel t = none := by
  induction fuel with
  | zero => exact fun _ => rfl
  | succ fuel ih =>
    intro t
    have hmany : t.tuplesCount ≥ t.getSplitTreshold 0 := by
      rw [getSplitTreshold_eq, Nat.zero_mul, Nat.zero_mod]
      exact Nat.zero_le _
    rw [makeRoom, if_pos (Nat.zero_le _), if_pos hmany]
    cases t.split hash 0 with
    | none => rfl
    | some t' => exact ih t'

theorem insert_zero (fuel : Nat) (x : KeyValueTuple) (t : KeyValueHash) :
    t.insert hash 0 fuel x = none := by
  rw [insert, makeRoom_zero]
  rfl

theorem Reached.inv (h : Reached hash maxTuples tuples t) :
    ∃ content, Inv hash maxTuples tuples t content := by
  induction h with
  | begin file hdepth => exact ⟨_, inv_begin file hdepth⟩
  | reset _ hdepth _ => exact ⟨_, inv_begin _ hdepth⟩
  | insert _ hsome ih =>
    obtain ⟨content, h⟩ := ih
    rcases Nat.eq_zero_or_pos maxTuples with rfl | hmax
    · rw [insert_zero] at hsome
      cases hsome
    · exact (h.insert hmax hsome).1

theorem Inv.insert_returns_iff (h : Inv hash maxTuples tuples t content) (x : KeyValueTuple) :
    (∃ enough, ∀ fuel ≥ enough, ∃ t', t.insert hash maxTuples fuel x = some t') ↔
      0 < maxTuples ∧ HasRoom hash maxTuples tuples x.key t.depth := by
  constructor
  · intro hreturns
    obtain ⟨enough, henough⟩ := hreturns
    obtain ⟨t', ht'⟩ := henough enough (Nat.le_refl _)
    rcases Nat.eq_zero_or_pos maxTuples with rfl | hmax
    · rw [insert_zero] at ht'
      cases ht'
    · exact ⟨hmax, (h.insert hmax ht').2⟩
  · intro hroom
    exact ⟨32, fun fuel hfuel => h.insert_returns hroom.1 hroom.2 hfuel⟩

end

theorem maxTuples_pos_iff {keySize valueSize : Nat} : 0 < maxTuples keySize valueSize ↔
    0 < keySize + valueSize ∧ keySize + valueSize ≤ 511 := by
  rw [maxTuples, mdbPageSize, Nat.div_pos_iff]
  omega

/-- After any insertions the hash holds what was inserted, and the next insertion returns exactly
if a page takes a tuple and there is room at a depth for which `1 << depth` is an `int`. -/
theorem distributes_and_returns_iff {hash : List Nat → Nat} {keySize valueSize : Nat}
    {tuples : List KeyValueTuple} {t : KeyValueHash}
    (h : Reached hash (maxTuples keySize valueSize) tuples t) :
    Distributes hash (maxTuples keySize valueSize) tuples t ∧
    ∀ x : KeyValueTuple, (∃ enough, ∀ fuel ≥ enough, ∃ t',
        t.insert hash (maxTuples keySize valueSize) fuel x = some t') ↔
      (0 < keySize + valueSize ∧ keySize + valueSize ≤ 511) ∧
        HasRoom hash (maxTuples keySize valueSize) tuples x.key t.depth := by
  obtain ⟨content, h⟩ := h.inv
  refine ⟨h.distributes, fun x => ?_⟩
  rw [h.insert_returns_iff x, maxTuples_pos_iff]

def noTuples (_ : Nat) : BucketPage := ⟨0, fun _ => ⟨[], []⟩⟩

/-- A tuple that fills a page alone. -/
def pageTuple (key : Nat) : KeyValueTuple := ⟨[key], List.replicate 510 7⟩

/-- The second tuple splits the only bucket, and the first one moves to the new one. -/
theorem distributes_split : ∃ t t', (begin noTuples 0).insert List.sum (maxTuples 1 510) 1 (pageTuple 3) =
      some t ∧ t.insert List.sum (maxTuples 1 510) 2 (pageTuple 4) = some t' ∧ t'.depth = 1 ∧
        Distributes List.sum (maxTuples 1 510) [pageTuple 3, pageTuple 4] t' := by
  have hsome : ∃ t t', (begin noTuples 0).insert List.sum (maxTuples 1 510) 1 (pageTuple 3) = some t ∧
      t.insert List.sum (maxTuples 1 510) 2 (pageTuple 4) = some t' ∧ t'.depth = 1 :=
    ⟨_, _, rfl, rfl, rfl⟩
  obtain ⟨t, t', hfirst, hsecond, hsplit⟩ := hsome
  have hreached := ((Reached.begin noTuples (Nat.zero_le 30)).insert hfirst).insert hsecond
  exact ⟨t, t', hfirst, hsecond, hsplit, (distributes_and_returns_iff hreached).1⟩

/-- A tuple of 512 columns does not fit a page, and its insertion never returns. -/
theorem insert_wide_returns_nothing :
    Reached List.sum (maxTuples 512 0) [] (begin noTuples 8) ∧ ∀ fuel : Nat,
      (begin noTuples 8).insert List.sum (maxTuples 512 0) fuel ⟨List.replicate 512 1, []⟩ =
        none := by
  have hdepth : 8 ≤ 30 := by decide
  exact ⟨Reached.begin noTuples hdepth, fun fuel => insert_zero fuel _ _⟩

end KeyValueHash
end MillenniumDB
