import MillenniumDB.StringsHashIds
import Mathlib.Data.List.Dedup

/-!
# `DistinctBindingHash`

The rows that a DISTINCT has returned are kept in an extendible hash.  The number of a bucket is
the suffix of its hashes, and a page has room for as many tuples as their size allows.
-/

namespace MillenniumDB
namespace DistinctHash

open StringsHash (mask updateDirs duplicateDirs maxDepth and_mask mask_and or_suffix updateDirs_apply)

def defaultGlobalDepth : Nat := 10

/-- `max_tuples` of a bucket; `sizeof(local_depth)` is the size of a pointer. -/
def maxTuples (tupleSize : Nat) : Nat := (mdbPageSize - 1 - 8) / (8 + tupleSize * 8)

abbrev Row (tupleSize : Nat) := Fin tupleSize → Nat

abbrev DistinctBindingHash (tupleSize : Nat) := ExtHash (Nat × Row tupleSize)

variable {tupleSize : Nat}

namespace DistinctBindingHash

def new (tupleSize : Nat) : DistinctBindingHash tupleSize where
  depth := defaultGlobalDepth
  dir := id
  localDepth := fun _ => defaultGlobalDepth
  entries := fun _ => []

/-- `DistinctBindingHashBucket::is_in`. -/
def bucketIsIn (tuples : List (Nat × Row tupleSize)) (tuple : Row tupleSize) (hash : Nat) : Bool :=
  tuples.any fun e => e.1 = hash ∧ e.2 = tuple

/-- `redistribute`, as it leaves the tuples of the two buckets. -/
def redistribute (tuples : List (Nat × Row tupleSize)) (mask otherSuffix : Nat) :
    List (Nat × Row tupleSize) × List (Nat × Row tupleSize) :=
  (tuples.filter fun e => mask &&& e.1 ≠ otherSuffix, tuples.filter fun e => mask &&& e.1 = otherSuffix)

/-- The part of `is_in_or_insert` that splits the bucket of a suffix; `1 << local_depth` must be a bit
of a word. -/
def split (suffix : Nat) (t : DistinctBindingHash tupleSize) : Option (DistinctBindingHash tupleSize) :=
  let bucketNumber := t.dir suffix
  let localDepth := t.localDepth bucketNumber
  if maxDepth ≤ localDepth then none
  else if localDepth < t.depth then
    let newBucketNumber := bucketNumber ||| 1 <<< localDepth
    let parts := redistribute (t.entries bucketNumber) (mask (localDepth + 1)) newBucketNumber
    some
      { depth := t.depth
        dir := updateDirs t.dir (1 <<< (t.depth - (localDepth + 1))) (localDepth + 1) newBucketNumber
          newBucketNumber
        localDepth := Function.update (Function.update t.localDepth bucketNumber (localDepth + 1))
          newBucketNumber (localDepth + 1)
        entries := Function.update (Function.update t.entries bucketNumber parts.1) newBucketNumber
          parts.2 }
  else if suffix = bucketNumber ∧ localDepth = t.depth then
    let newBucketNumber := bucketNumber ||| 1 <<< t.depth
    let parts := redistribute (t.entries bucketNumber) (mask (t.depth + 1)) newBucketNumber
    some
      { depth := t.depth + 1
        dir := Function.update (duplicateDirs t.depth t.dir) newBucketNumber newBucketNumber
        localDepth := Function.update (Function.update t.localDepth bucketNumber (localDepth + 1))
          newBucketNumber (localDepth + 1)
        entries := Function.update (Function.update t.entries bucketNumber parts.1) newBucketNumber
          parts.2 }
  else none

def isIn (hash : Row tupleSize → Nat) (tuple : Row tupleSize) (t : DistinctBindingHash tupleSize) : Bool :=
  let suffix := hash tuple &&& mask t.depth
  bucketIsIn (t.entries (t.dir suffix)) tuple (hash tuple)

/-- The loop of `is_in_or_insert`.  Each attempt after the first has a deeper bucket. -/
def attempt (hash : Row tupleSize → Nat) (tuple : Row tupleSize) :
    Nat → DistinctBindingHash tupleSize → Option (Bool × DistinctBindingHash tupleSize)
  | 0, _ => none
  | fuel + 1, t =>
    let suffix := hash tuple &&& mask t.depth
    let bucketNumber := t.dir suffix
    if bucketIsIn (t.entries bucketNumber) tuple (hash tuple) then some (true, t)
    else if (t.entries bucketNumber).length = maxTuples tupleSize then
      (split suffix t).bind (attempt hash tuple fuel)
    else
      some (false, { t with
        entries := Function.update t.entries bucketNumber
          (t.entries bucketNumber ++ [(hash tuple, tuple)]) })

def isInOrInsert (hash : Row tupleSize → Nat) (tuple : Row tupleSize)
    (t : DistinctBindingHash tupleSize) : Option (Bool × DistinctBindingHash tupleSize) :=
  attempt hash tuple (maxDepth + 1) t

end DistinctBindingHash

inductive Call (tupleSize : Nat)
  | isInOrInsert (tuple : Row tupleSize)
  | isIn (tuple : Row tupleSize)

def call (hash : Row tupleSize → Nat) (st : List Bool × DistinctBindingHash tupleSize) :
    Call tupleSize → Option (List Bool × DistinctBindingHash tupleSize)
  | .isInOrInsert tuple =>
    (DistinctBindingHash.isInOrInsert hash tuple st.2).map fun (result, t) => (st.1 ++ [result], t)
  | .isIn tuple => some (st.1 ++ [DistinctBindingHash.isIn hash tuple st.2], st.2)

/-- The results of calls and the hash after them; `none` when a call does not return. -/
def run (hash : Row tupleSize → Nat) (calls : List (Call tupleSize)) :
    Option (List Bool × DistinctBindingHash tupleSize) :=
  calls.foldlM (call hash) ([], .new tupleSize)

def inserted : List (Call tupleSize) → List (Row tupleSize)
  | [] => []
  | .isInOrInsert tuple :: calls => tuple :: inserted calls
  | .isIn _ :: calls => inserted calls

/-- What calls should return after the tuples that are already in. -/
def expected (seen : List (Row tupleSize)) : List (Call tupleSize) → List Bool
  | [] => []
  | .isInOrInsert tuple :: calls => decide (tuple ∈ seen) :: expected (tuple :: seen) calls
  | .isIn tuple :: calls => decide (tuple ∈ seen) :: expected seen calls

/-- The hash holds the tuples: those with the same low bits share a bucket, whose number are these
bits, and a bucket fits its page and its counter of one byte. -/
structure Holds (hash : Row tupleSize → Nat) (t : DistinctBindingHash tupleSize)
    (tuples : List (Row tupleSize)) : Prop where
  depth : t.depth ≤ maxDepth
  inv : t.Inv Prod.fst
  named : ∀ j < 2 ^ t.depth, t.dir j = j % 2 ^ t.localDepth (t.dir j)
  stored : ∀ e, t.Stored e ↔ ∃ tuple ∈ tuples, e = (hash tuple, tuple)
  nodup : ∀ j < 2 ^ t.depth, (t.entries (t.dir j)).Nodup
  fits : ∀ j < 2 ^ t.depth, (t.entries (t.dir j)).length ≤ maxTuples tupleSize
  page : maxTuples tupleSize ≤ 255 ∧ maxTuples tupleSize * (8 + tupleSize * 8) + 1 + 1 ≤ mdbPageSize

/-- Every call returns what it should, and after every call the hash holds the inserted tuples. -/
def Correct (hash : Row tupleSize → Nat) (calls : List (Call tupleSize)) : Prop :=
  ∀ before after, calls = before ++ after →
    ∃ t, run hash before = some (expected [] before, t) ∧ Holds hash t (inserted before)

/-- How many of the tuples have these low bits, as many as a bucket can tell apart. -/
def sharing (hash : Row tupleSize → Nat) (tuples : List (Row tupleSize)) (low : Nat) :
    Finset (Row tupleSize) :=
  tuples.toFinset.filter fun tuple => hash tuple % 2 ^ maxDepth = low

section

variable {hash : Row tupleSize → Nat} {t : DistinctBindingHash tupleSize}
  {tuples tuples' : List (Row tupleSize)} {tuple : Row tupleSize} {h : Nat}

theorem page_fits (hsize : 1 ≤ tupleSize) :
    maxTuples tupleSize ≤ 255 ∧ maxTuples tupleSize * (8 + tupleSize * 8) + 1 + 1 ≤ mdbPageSize := by
  have hpage : mdbPageSize = 4096 := rfl
  constructor
  · rw [maxTuples, hpage]
    calc (4096 - 1 - 8) / (8 + tupleSize * 8) ≤ (4096 - 1 - 8) / 16 :=
          Nat.div_le_div_left (by omega) (by decide)
      _ ≤ 255 := by decide
  · have hmul := Nat.div_mul_le_self (mdbPageSize - 1 - 8) (8 + tupleSize * 8)
    rw [← maxTuples, hpage] at hmul
    rw [hpage]
    omega

namespace Holds

theorem congr (ht : Holds hash t tuples) (h : ∀ tuple, tuple ∈ tuples ↔ tuple ∈ tuples') :
    Holds hash t tuples' :=
  { ht with stored := fun e => by simp only [ht.stored, h] }

theorem new (hsize : 1 ≤ tupleSize) : Holds hash (DistinctBindingHash.new tupleSize) [] where
  depth := show 10 ≤ 31 by decide
  inv := by
    refine ⟨fun j _ => Nat.le_refl _, fun i hi j hj => ?_, fun j _ e he => ?_⟩
    · have hi : i < 2 ^ 10 := hi
      have hj : j < 2 ^ 10 := hj
      show i = j ↔ i % 2 ^ 10 = j % 2 ^ 10
      rw [Nat.mod_eq_of_lt hi, Nat.mod_eq_of_lt hj]
    · cases he
  named j hj := by
    have hj : j < 2 ^ 10 := hj
    show j = j % 2 ^ 10
    rw [Nat.mod_eq_of_lt hj]
  stored e := by
    constructor
    · intro ⟨j, _, he⟩
      cases he
    · simp
  nodup j _ := List.nodup_nil
  fits j _ := Nat.zero_le _
  page := page_fits hsize

theorem depth_le (ht : Holds hash t tuples) : t.depth ≤ 64 := ht.depth.trans (by decide)

theorem dir_eq (ht : Holds hash t tuples) (h : Nat) : t.dir (h &&& mask t.depth) = t.slot h := by
  rw [and_mask ht.depth_le, ExtHash.slot]

theorem localDepth_le (ht : Holds hash t tuples) (h : Nat) : t.localDepth (t.slot h) ≤ t.depth :=
  ht.inv.le_depth _ (ExtHash.mod_two_pow_lt h t.depth)

theorem slot_eq (ht : Holds hash t tuples) (h : Nat) : t.slot h = h % 2 ^ t.localDepth (t.slot h) := by
  have hnamed := ht.named _ (ExtHash.mod_two_pow_lt h t.depth)
  rwa [← ExtHash.slot, ExtHash.mod_two_pow_mod (ht.localDepth_le h)] at hnamed

theorem mem_slot_iff (ht : Holds hash t tuples) :
    (hash tuple, tuple) ∈ t.entries (t.slot (hash tuple)) ↔ tuple ∈ tuples := by
  have hstored := ht.inv.stored_iff (e := (hash tuple, tuple))
  rw [← hstored, ht.stored]
  constructor
  · intro ⟨tuple', hmem, heq⟩
    exact (Prod.mk.inj heq).2 ▸ hmem
  · intro hmem
    exact ⟨tuple, hmem, rfl⟩

theorem bucketIsIn_iff (ht : Holds hash t tuples) :
    DistinctBindingHash.bucketIsIn (t.entries (t.slot (hash tuple))) tuple (hash tuple) = true ↔
      tuple ∈ tuples := by
  rw [DistinctBindingHash.bucketIsIn, List.any_eq_true, ← ht.mem_slot_iff]
  constructor
  · intro ⟨e, he, heq⟩
    have heq := of_decide_eq_true heq
    have hpair : e = (hash tuple, tuple) := Prod.ext heq.1 heq.2
    rwa [← hpair]
  · intro he
    exact ⟨_, he, by simp⟩

theorem isIn_eq (ht : Holds hash t tuples) :
    DistinctBindingHash.isIn hash tuple t = decide (tuple ∈ tuples) := by
  rw [DistinctBindingHash.isIn, ht.dir_eq, Bool.eq_iff_iff, ht.bucketIsIn_iff, decide_eq_true_iff]

theorem unused (ht : Holds hash t tuples) (h : Nat) : ∀ j < 2 ^ t.depth, t.dir j ≠ t.newSuffix h := by
  intro j hj heq
  have hnamed := ht.named j hj
  rw [heq] at hnamed
  have hlt := ExtHash.mod_two_pow_lt h (t.localDepth (t.slot h))
  have hne : t.slot h ≠ t.newSuffix h := by
    rw [ht.slot_eq h, ExtHash.newSuffix]
    have hpos := Nat.two_pow_pos (t.localDepth (t.slot h))
    omega
  by_cases hle : t.localDepth (t.slot h) ≤ t.localDepth (t.newSuffix h)
  · -- then the entry has the suffix of the bucket that is split
    have hlow : j % 2 ^ t.localDepth (t.slot h) = h % 2 ^ t.localDepth (t.slot h) := by
      rw [← ExtHash.mod_two_pow_mod hle, ← hnamed, ExtHash.newSuffix, Nat.add_mod_left, Nat.mod_mod]
    exact hne ((ht.inv.dir_eq_slot hj).mpr hlow ▸ heq)
  · have hsmall : t.newSuffix h < 2 ^ t.localDepth (t.newSuffix h) := by
      conv_lhs => rw [hnamed]
      exact ExtHash.mod_two_pow_lt _ _
    have hpow : 2 ^ t.localDepth (t.newSuffix h) ≤ 2 ^ t.localDepth (t.slot h) :=
      Nat.pow_le_pow_right (by decide) (by omega)
    rw [ExtHash.newSuffix] at hsmall hpow
    omega

theorem splits (ht : Holds hash t tuples) (hlt : t.localDepth (t.slot h) < t.depth) :
    t.Splits h (t.newSuffix h) := ⟨hlt, ht.unused h⟩

theorem double (ht : Holds hash t tuples) (hlt : t.depth < maxDepth) : Holds hash t.double tuples where
  depth := hlt
  inv := ht.inv.double
  named j hj := by
    have hnamed := ht.named _ (ExtHash.mod_two_pow_lt j t.depth)
    rwa [ExtHash.mod_two_pow_mod (ht.inv.le_depth _ (ExtHash.mod_two_pow_lt j t.depth))] at hnamed
  stored e := by rw [ExtHash.Inv.stored_double, ht.stored]
  nodup j _ := ht.nodup _ (ExtHash.mod_two_pow_lt j t.depth)
  fits j _ := ht.fits _ (ExtHash.mod_two_pow_lt j t.depth)
  page := ht.page

theorem sublist_split (ht : Holds hash t tuples) (h : Nat) {j : Nat}
    (hj : j < 2 ^ t.depth) :
    let t' := ExtHash.split Prod.fst t (t.slot h) (t.newSuffix h) (t.newSuffix h)
    (t'.entries (t'.dir j)).Sublist (t.entries (t.dir j)) := by
  intro t'
  have hne : t.slot h ≠ t.newSuffix h := ht.unused h _ (ExtHash.mod_two_pow_lt h t.depth)
  by_cases hnew : j % 2 ^ (t.localDepth (t.slot h) + 1) = t.newSuffix h
  · have hdir : t'.dir j = t.newSuffix h := ExtHash.dir_split_of_eq hj hnew
    rw [hdir, ht.inv.dir_of_newSuffix hj hnew]
    simp only [t', ExtHash.split, Function.update_self]
    exact List.filter_sublist
  · have hdir : t'.dir j = t.dir j := ExtHash.dir_split_of_ne hnew
    rw [hdir]
    by_cases hslot : t.dir j = t.slot h
    · rw [hslot]
      simp only [t', ExtHash.split, Function.update_of_ne hne, Function.update_self]
      exact List.filter_sublist
    · rw [ExtHash.entries_split_of_ne (ht.unused h j hj) hslot]

theorem split (ht : Holds hash t tuples) (hlt : t.localDepth (t.slot h) < t.depth) :
    let t' := ExtHash.split Prod.fst t (t.slot h) (t.newSuffix h) (t.newSuffix h)
    Holds hash t' tuples ∧ t'.localDepth (t'.slot h) = t.localDepth (t.slot h) + 1 := by
  intro t'
  have hsplits := ht.splits hlt
  have hne : t.slot h ≠ t.newSuffix h := ht.unused h _ (ExtHash.mod_two_pow_lt h t.depth)
  constructor
  · refine ⟨ht.depth, ht.inv.split hsplits, fun j hj => ?_, fun e => ?_, fun j hj => ?_, fun j hj => ?_,
      ht.page⟩
    · have hj : j < 2 ^ t.depth := hj
      by_cases hnew : j % 2 ^ (t.localDepth (t.slot h) + 1) = t.newSuffix h
      · have hdir : t'.dir j = t.newSuffix h := ExtHash.dir_split_of_eq hj hnew
        rw [hdir, ExtHash.localDepth_split_new, hnew]
      · have hdir : t'.dir j = t.dir j := ExtHash.dir_split_of_ne hnew
        rw [hdir]
        by_cases hslot : t.dir j = t.slot h
        · have hold := (ht.inv.dir_eq_slot hj).mp hslot
          rw [hslot, ExtHash.localDepth_split_self hne, ExtHash.Inv.mod_of_ne_newSuffix hold hnew]
          exact ht.slot_eq h
        · rw [ExtHash.localDepth_split_of_ne (ht.unused h j hj) hslot]
          exact ht.named j hj
    · rw [ht.inv.stored_split hsplits, ht.stored]
    · exact (ht.nodup j hj).sublist (ht.sublist_split h hj)
    · exact (ht.sublist_split h hj).length_le.trans (ht.fits j hj)
  · have hj := ExtHash.mod_two_pow_lt h t.depth
    have hslot : t'.slot h = t'.dir (h % 2 ^ t.depth) := rfl
    rw [hslot]
    by_cases hnew : h % 2 ^ t.depth % 2 ^ (t.localDepth (t.slot h) + 1) = t.newSuffix h
    · have hdir : t'.dir (h % 2 ^ t.depth) = t.newSuffix h := ExtHash.dir_split_of_eq hj hnew
      rw [hdir, ExtHash.localDepth_split_new]
    · have hdir : t'.dir (h % 2 ^ t.depth) = t.slot h := ExtHash.dir_split_of_ne hnew
      rw [hdir, ExtHash.localDepth_split_self hne]

theorem insert (ht : Holds hash t tuples) (hnew : tuple ∉ tuples)
    (hroom : (t.entries (t.slot (hash tuple))).length < maxTuples tupleSize) :
    Holds hash (t.insert (t.slot (hash tuple)) (hash tuple, tuple)) (tuple :: tuples) where
  depth := ht.depth
  inv := ht.inv.insert (hash tuple, tuple)
  named := ht.named
  stored e := by
    have hstored : (t.insert (t.slot (hash tuple)) (hash tuple, tuple)).Stored e ↔
        t.Stored e ∨ e = (hash tuple, tuple) :=
      @ExtHash.Inv.stored_insert _ Prod.fst _ (hash tuple, tuple) e
    rw [hstored, ht.stored, List.exists_mem_cons_iff, or_comm]
  nodup j hj := by
    have hj : j < 2 ^ t.depth := hj
    show (Function.update t.entries (t.slot (hash tuple)) _ (t.dir j)).Nodup
    by_cases hslot : t.dir j = t.slot (hash tuple)
    · rw [hslot, Function.update_self, List.nodup_append]
      refine ⟨hslot ▸ ht.nodup j hj, List.nodup_singleton _, fun e he e' he' heq => hnew ?_⟩
      rw [← ht.mem_slot_iff, ← List.mem_singleton.mp he', ← heq]
      exact he
    · rw [Function.update_of_ne hslot]
      exact ht.nodup j hj
  fits j hj := by
    have hj : j < 2 ^ t.depth := hj
    show (Function.update t.entries (t.slot (hash tuple)) _ (t.dir j)).length ≤ _
    by_cases hslot : t.dir j = t.slot (hash tuple)
    · rw [hslot, Function.update_self, List.length_append, List.length_singleton]
      exact hroom
    · rw [Function.update_of_ne hslot]
      exact ht.fits j hj
  page := ht.page

theorem split_eq (ht : Holds hash t tuples) (h : Nat) (hmax : t.localDepth (t.slot h) < maxDepth) :
    DistinctBindingHash.split (h &&& mask t.depth) t =
      some (ExtHash.split Prod.fst (if t.localDepth (t.slot h) < t.depth then t else t.double) (t.slot h)
        (t.newSuffix h) (t.newSuffix h)) := by
  have hle := ht.localDepth_le h
  have hlt := ExtHash.mod_two_pow_lt h (t.localDepth (t.slot h))
  have hnew : t.slot h ||| 1 <<< t.localDepth (t.slot h) = t.newSuffix h := by
    have hslot := ht.slot_eq h
    rw [ExtHash.newSuffix, ← hslot, Nat.lor_comm, or_suffix (lt_of_eq_of_lt hslot hlt), Nat.one_mul]
  have hsmall : t.newSuffix h < 2 ^ (t.localDepth (t.slot h) + 1) := by
    rw [ExtHash.newSuffix, Nat.pow_succ]
    omega
  have hmask : t.localDepth (t.slot h) + 1 ≤ 64 := Nat.le_trans hmax (by decide)
  simp only [DistinctBindingHash.split, ht.dir_eq h, if_neg (Nat.not_le.mpr hmax)]
  by_cases hshallow : t.localDepth (t.slot h) < t.depth
  · simp only [if_pos hshallow, hnew, DistinctBindingHash.redistribute, mask_and hmask]
    have hdir : updateDirs t.dir (1 <<< (t.depth - (t.localDepth (t.slot h) + 1)))
        (t.localDepth (t.slot h) + 1) (t.newSuffix h) (t.newSuffix h) = fun j =>
          if j < 2 ^ t.depth ∧ j % 2 ^ (t.localDepth (t.slot h) + 1) = t.newSuffix h
            then t.newSuffix h else t.dir j := by
      funext j
      exact updateDirs_apply hshallow hsmall t.dir _ j
    rw [hdir]
    rfl
  · have heq : t.localDepth (t.slot h) = t.depth := by omega
    have hsuffix : h &&& mask t.depth = t.slot h := by
      rw [and_mask ht.depth_le, ← heq]
      exact (ht.slot_eq h).symm
    have hnew' : t.slot h ||| 1 <<< t.depth = t.newSuffix h := heq ▸ hnew
    have hmask' : t.depth + 1 ≤ 64 := heq ▸ hmask
    simp only [if_neg hshallow, if_pos (And.intro hsuffix heq), hnew', DistinctBindingHash.redistribute,
      mask_and hmask']
    have hdir : Function.update (duplicateDirs t.depth t.dir) (t.newSuffix h) (t.newSuffix h) = fun j =>
        if j < 2 ^ (t.depth + 1) ∧ j % 2 ^ (t.depth + 1) = t.newSuffix h then t.newSuffix h
        else t.dir (j % 2 ^ t.depth) := by
      rw [heq] at hsmall
      funext j
      by_cases hj : j = t.newSuffix h
      · rw [hj, Function.update_self, if_pos ⟨hsmall, Nat.mod_eq_of_lt hsmall⟩]
      · have hnot : ¬ (j < 2 ^ (t.depth + 1) ∧ j % 2 ^ (t.depth + 1) = t.newSuffix h) := by
          rintro ⟨hlt, hmod⟩
          exact hj (by rw [← hmod, Nat.mod_eq_of_lt hlt])
        rw [Function.update_of_ne hj, if_neg hnot, duplicateDirs, Nat.shiftLeft_eq, Nat.one_mul]
    rw [hdir, heq]
    simp only [ExtHash.split, ExtHash.double, heq]

theorem split_spec (ht : Holds hash t tuples) (h : Nat) (hmax : t.localDepth (t.slot h) < maxDepth) :
    ∃ t', DistinctBindingHash.split (h &&& mask t.depth) t = some t' ∧ Holds hash t' tuples ∧
      t'.localDepth (t'.slot h) = t.localDepth (t.slot h) + 1 := by
  refine ⟨_, ht.split_eq h hmax, ?_⟩
  by_cases hshallow : t.localDepth (t.slot h) < t.depth
  · rw [if_pos hshallow]
    exact ht.split hshallow
  · rw [if_neg hshallow]
    have hle := ht.localDepth_le h
    have hdouble := ht.double (by omega)
    have hslot : t.double.slot h = t.slot h := by
      show t.dir (h % 2 ^ (t.depth + 1) % 2 ^ t.depth) = _
      rw [ExtHash.mod_two_pow_mod (Nat.le_succ _), ExtHash.slot]
    have hdepth : t.double.localDepth (t.double.slot h) < t.double.depth := by
      rw [hslot]
      exact Nat.lt_succ_of_le hle
    have hsplit := hdouble.split hdepth
    have hsuffix : t.double.newSuffix h = t.newSuffix h := by
      rw [ExtHash.newSuffix, hslot]
      rfl
    rw [hslot, hsuffix] at hsplit
    exact hsplit

theorem length_le_sharing (ht : Holds hash t tuples) (h : Nat)
    (hmax : t.localDepth (t.slot h) = maxDepth) :
    (t.entries (t.slot h)).length ≤ (sharing hash tuples (h % 2 ^ maxDepth)).card := by
  have hj := ExtHash.mod_two_pow_lt h t.depth
  have hnodup : (t.entries (t.slot h)).Nodup := ht.nodup _ hj
  rw [← List.toFinset_card_of_nodup hnodup,
    ← Finset.card_image_of_injective (sharing hash tuples (h % 2 ^ maxDepth))
      (f := fun tuple => (hash tuple, tuple)) fun _ _ heq => (Prod.mk.inj heq).2]
  apply Finset.card_le_card
  intro e he
  rw [List.mem_toFinset] at he
  obtain ⟨tuple, htuple, heq⟩ := (ht.stored e).mp ⟨_, hj, he⟩
  have hplaced := ht.inv.placed _ hj e he
  rw [← ExtHash.slot, hmax, ExtHash.mod_two_pow_mod (hmax ▸ ht.localDepth_le h), heq] at hplaced
  rw [heq, Finset.mem_image]
  exact ⟨tuple, Finset.mem_filter.mpr ⟨List.mem_toFinset.mpr htuple, hplaced⟩, rfl⟩

theorem sharing_le_length (ht : Holds hash t tuples) (h : Nat) :
    (sharing hash tuples (h % 2 ^ maxDepth)).card ≤ (t.entries (t.slot h)).length := by
  calc (sharing hash tuples (h % 2 ^ maxDepth)).card
      = ((sharing hash tuples (h % 2 ^ maxDepth)).image fun tuple => (hash tuple, tuple)).card :=
        (Finset.card_image_of_injective _ fun _ _ heq => (Prod.mk.inj heq).2).symm
    _ ≤ (t.entries (t.slot h)).toFinset.card := by
        apply Finset.card_le_card
        intro e he
        obtain ⟨tuple, htuple, rfl⟩ := Finset.mem_image.mp he
        obtain ⟨hmem, hlow⟩ := Finset.mem_filter.mp htuple
        have hslot : t.slot (hash tuple) = t.slot h := by
          rw [ExtHash.slot, ← ExtHash.mod_two_pow_mod ht.depth, hlow, ExtHash.mod_two_pow_mod ht.depth,
            ExtHash.slot]
        rw [List.mem_toFinset, ← hslot]
        exact ht.mem_slot_iff.mpr (List.mem_toFinset.mp hmem)
    _ ≤ (t.entries (t.slot h)).length := List.toFinset_card_le _

/-- What holds of every hash: no more tuples share the low bits than a bucket has room for. -/
theorem sharing_le (ht : Holds hash t tuples) (low : Nat) :
    (sharing hash tuples low).card ≤ maxTuples tupleSize := by
  rcases (sharing hash tuples low).eq_empty_or_nonempty with hempty | ⟨tuple, htuple⟩
  · rw [hempty, Finset.card_empty]
    exact Nat.zero_le _
  · rw [← (Finset.mem_filter.mp htuple).2]
    exact (ht.sharing_le_length (hash tuple)).trans (ht.fits _ (ExtHash.mod_two_pow_lt _ _))

theorem attempt_mem (ht : Holds hash t tuples) (hmem : tuple ∈ tuples) (fuel : Nat) :
    DistinctBindingHash.attempt hash tuple (fuel + 1) t = some (true, t) := by
  rw [DistinctBindingHash.attempt, ht.dir_eq, if_pos (ht.bucketIsIn_iff.mpr hmem)]

/-- A new tuple is inserted after as many splits as it takes: each of them makes the bucket deeper,
and at the last depth there is room. -/
theorem attempt_notMem (ht : Holds hash t tuples) (hnew : tuple ∉ tuples)
    (hroom : (sharing hash tuples (hash tuple % 2 ^ maxDepth)).card < maxTuples tupleSize) (fuel : Nat)
    (hfuel : maxDepth < t.localDepth (t.slot (hash tuple)) + fuel) :
    ∃ t', DistinctBindingHash.attempt hash tuple fuel t = some (false, t') ∧
      Holds hash t' (tuple :: tuples) := by
  induction fuel generalizing t with
  | zero =>
    have hle := (ht.localDepth_le (hash tuple)).trans ht.depth
    omega
  | succ fuel ih =>
    rw [DistinctBindingHash.attempt, ht.dir_eq, if_neg (mt ht.bucketIsIn_iff.mp hnew)]
    by_cases hfull : (t.entries (t.slot (hash tuple))).length = maxTuples tupleSize
    · rw [if_pos hfull]
      have hle := (ht.localDepth_le (hash tuple)).trans ht.depth
      have hmax : t.localDepth (t.slot (hash tuple)) < maxDepth := by
        by_contra hnot
        have hlength := ht.length_le_sharing (hash tuple) (by omega)
        omega
      obtain ⟨t', hsplit, ht', hdepth⟩ := ht.split_spec (hash tuple) hmax
      rw [hsplit, Option.bind_some]
      exact ih ht' (by omega)
    · rw [if_neg hfull]
      have hlt := (ht.fits _ (ExtHash.mod_two_pow_lt (hash tuple) t.depth)).lt_of_ne hfull
      exact ⟨_, rfl, ht.insert hnew hlt⟩

end Holds

theorem sharing_mono (h : ∀ tuple ∈ tuples, tuple ∈ tuples') (low : Nat) :
    (sharing hash tuples low).card ≤ (sharing hash tuples' low).card := by
  apply Finset.card_le_card
  apply Finset.filter_subset_filter
  intro tuple htuple
  exact List.mem_toFinset.mpr (h tuple (List.mem_toFinset.mp htuple))

theorem card_sharing_cons (hnew : tuple ∉ tuples) :
    (sharing hash (tuple :: tuples) (hash tuple % 2 ^ maxDepth)).card =
      (sharing hash tuples (hash tuple % 2 ^ maxDepth)).card + 1 := by
  rw [sharing, List.toFinset_cons, Finset.filter_insert, if_pos rfl, Finset.card_insert_of_notMem]
  · rfl
  · intro hmem
    exact hnew (List.mem_toFinset.mp (Finset.mem_filter.mp hmem).1)

/-- A call that inserts returns whether the tuple is in, and the tuple is in after it. -/
theorem isInOrInsert_spec (ht : Holds hash t tuples)
    (hroom : (sharing hash (tuple :: tuples) (hash tuple % 2 ^ maxDepth)).card ≤ maxTuples tupleSize) :
    ∃ t', DistinctBindingHash.isInOrInsert hash tuple t = some (decide (tuple ∈ tuples), t') ∧
      Holds hash t' (tuple :: tuples) := by
  by_cases hmem : tuple ∈ tuples
  · rw [decide_eq_true hmem]
    refine ⟨t, ht.attempt_mem hmem maxDepth, ht.congr fun tuple' => ?_⟩
    rw [List.mem_cons]
    exact ⟨Or.inr, fun h => h.elim (fun heq => heq ▸ hmem) id⟩
  · rw [decide_eq_false hmem]
    rw [card_sharing_cons hmem] at hroom
    exact ht.attempt_notMem hmem hroom (maxDepth + 1) (by omega)

/-- Calls from any hash on, by induction over the calls: each of them returns what it should. -/
theorem foldlM_call (ht : Holds hash t tuples) (results : List Bool) (calls : List (Call tupleSize))
    (hroom : ∀ low, (sharing hash (inserted calls ++ tuples) low).card ≤ maxTuples tupleSize) :
    ∃ t', calls.foldlM (call hash) (results, t) = some (results ++ expected tuples calls, t') ∧
      Holds hash t' (inserted calls ++ tuples) := by
  induction calls generalizing t tuples results with
  | nil => exact ⟨t, by simp [expected], ht⟩
  | cons c calls ih =>
    cases c with
    | isInOrInsert tuple =>
      have hmem : ∀ tuple', tuple' ∈ inserted calls ++ tuple :: tuples ↔
          tuple' ∈ inserted (.isInOrInsert tuple :: calls) ++ tuples := by
        intro tuple'
        rw [inserted, List.cons_append, List.perm_middle.mem_iff]
      have hsub : ∀ tuple' ∈ tuple :: tuples, tuple' ∈ inserted calls ++ tuple :: tuples :=
        fun tuple' => List.mem_append_right _
      have hrest : ∀ low, (sharing hash (inserted calls ++ tuple :: tuples) low).card ≤
          maxTuples tupleSize :=
        fun low => (sharing_mono (fun tuple' => (hmem tuple').mp) low).trans (hroom low)
      obtain ⟨t', hcall, ht'⟩ := isInOrInsert_spec ht ((sharing_mono hsub _).trans (hrest _))
      obtain ⟨t'', hrun, ht''⟩ := ih ht' (results ++ [decide (tuple ∈ tuples)]) hrest
      refine ⟨t'', ?_, ht''.congr hmem⟩
      rw [List.foldlM_cons, call, hcall]
      simpa [expected] using hrun
    | isIn tuple =>
      obtain ⟨t', hrun, ht'⟩ := ih ht (results ++ [decide (tuple ∈ tuples)]) hroom
      refine ⟨t', ?_, ht'⟩
      rw [List.foldlM_cons, call, ht.isIn_eq]
      simpa [expected] using hrun

end

theorem inserted_append (before after : List (Call tupleSize)) :
    inserted (before ++ after) = inserted before ++ inserted after := by
  induction before with
  | nil => rfl
  | cons c before ih => cases c <;> simp [inserted, ih]

/-- Every call returns what it should exactly when no more of the inserted tuples have the same low
bits of the hash than a bucket has room for. -/
theorem correct_iff_sharing (hsize : 1 ≤ tupleSize) (hash : Row tupleSize → Nat)
    (calls : List (Call tupleSize)) :
    Correct hash calls ↔ ∀ low, (sharing hash (inserted calls) low).card ≤ maxTuples tupleSize := by
  constructor
  · intro hcorrect low
    obtain ⟨t, _, ht⟩ := hcorrect calls [] (List.append_nil calls).symm
    exact ht.sharing_le low
  · intro hroom before after heq
    have hsub : ∀ tuple ∈ inserted before ++ [], tuple ∈ inserted calls := by
      intro tuple htuple
      rw [heq, inserted_append]
      exact List.mem_append_left _ (List.append_nil (inserted before) ▸ htuple)
    have hnew : Holds hash (DistinctBindingHash.new tupleSize) [] := Holds.new hsize
    obtain ⟨t, hrun, ht⟩ := foldlM_call hnew [] before fun low =>
      (sharing_mono hsub low).trans (hroom low)
    rw [List.append_nil] at ht
    exact ⟨t, hrun, ht⟩

/-- A tuple that is inserted twice, with a look before. -/
theorem correct_twice :
    1 ≤ 1 ∧ Correct (fun _ : Row 1 => 0)
      [.isIn fun _ => 7, .isInOrInsert fun _ => 7, .isInOrInsert fun _ => 7] := by
  refine ⟨by decide, (correct_iff_sharing (by decide) _ _).mpr fun low => ?_⟩
  have hroom : 2 ≤ maxTuples 1 := by decide
  exact ((Finset.card_filter_le _ _).trans (List.toFinset_card_le _)).trans hroom

/-- More inserted tuples than a bucket has room for do not all have the same low bits. -/
def NotConstant (hash : Row tupleSize → Nat) (calls : List (Call tupleSize)) : Prop :=
  ∀ tuples ⊆ (inserted calls).toFinset, maxTuples tupleSize < tuples.card → 1 < tuples.card →
    ∃ a ∈ tuples, ∃ b ∈ tuples, hash a % 2 ^ maxDepth ≠ hash b % 2 ^ maxDepth

/-- Tuples of 510 ids do not fit a bucket: the first call that inserts one splits for ever. -/
theorem not_correct_wide :
    ¬ ∀ (tupleSize : Nat) (hash : Row tupleSize → Nat) (calls : List (Call tupleSize)),
      1 ≤ tupleSize → NotConstant hash calls → Correct hash calls := by
  intro hall
  have hone : NotConstant (fun _ : Row 510 => 0) [.isInOrInsert fun _ => 7] := by
    intro tuples hsub _ hcard
    have hle := (Finset.card_le_card hsub).trans (List.toFinset_card_le _)
    exact absurd (hcard.trans_le hle) (by decide)
  obtain ⟨t, _, ht⟩ := hall 510 _ _ (by decide) hone [.isInOrInsert fun _ => 7] [] rfl
  have hle := ht.sharing_le 0
  have hempty : maxTuples 510 = 0 := by decide
  rw [hempty, Nat.le_zero, Finset.card_eq_zero] at hle
  have hmem : (fun _ => 7 : Row 510) ∈
      sharing (fun _ => 0) (inserted [.isInOrInsert fun _ => 7]) 0 := by
    rw [sharing, Finset.mem_filter]
    exact ⟨by simp [inserted], rfl⟩
  rw [hle] at hmem
  exact absurd hmem (Finset.notMem_empty _)

end DistinctHash
end MillenniumDB
