import MillenniumDB.KeyValueHashSplit
import MillenniumDB.Lib.MergePasses

/-!
# The sort of a bucket of many pages

`sort_bucket` sorts the tuples of each page and then merges runs of pages, in passes that double the
length of the runs.  A pass writes to pages that are available; a page whose tuples have all been
read is available at once.
-/

namespace MillenniumDB

/-- The tuples of a page in the order in which `sort` leaves them. -/
def BucketPage.sort (p : BucketPage) : BucketPage :=
  if p.tupleCount > 1 then
    { p with tuple := fun i =>
        (KeyValueHashBucket.partition 0 (p.tupleCount - 1) p.content).getD i (p.tuple i) }
  else p

namespace KeyValueHash

/-- The local variables of `sort_bucket` in a pass: the table, the pages written so far and the one
that is written to. -/
structure Merging where
  table : KeyValueHash
  newPageNumbers : List Nat
  newPageNumber : Nat

/-- The place of `left_key` or `right_key`: a page of the bucket and a position in it. -/
structure RunPlace where
  pageNumber : Nat
  pos : Nat

namespace Merging

def newPage (t : KeyValueHash) (newPageNumbers : List Nat) : Merging :=
  let new := t.getNewPageNumber
  ⟨new.2.modifyPage new.1 (BucketPage.setTupleCount 0), newPageNumbers ++ [new.1], new.1⟩

def add (maxTuples : Nat) (tuple : KeyValueTuple) (m : Merging) : Merging :=
  let m :=
    if (m.table.file m.newPageNumber).tupleCount ≥ maxTuples then
      newPage m.table m.newPageNumbers
    else m
  { m with table := m.table.modifyPage m.newPageNumber (BucketPage.insert tuple) }

def release (page : Nat) (m : Merging) : Merging :=
  { m with table := { m.table with availablePages := m.table.availablePages ++ [page] } }

/-- One tuple of a run is written.  Behind the last page of the run there is no place to read, and
the position does not matter. -/
def take (maxTuples : Nat) (pages : List Nat) (run : RunPlace) (m : Merging) : RunPlace × Merging :=
  let page := pages.getD run.pageNumber 0
  let m := m.add maxTuples ((m.table.file page).tuple run.pos)
  if run.pos + 1 ≥ (m.table.file page).tupleCount then
    (⟨run.pageNumber + 1, 0⟩, m.release page)
  else (⟨run.pageNumber, run.pos + 1⟩, m)

def insertRest (maxTuples : Nat) (pages : List Nat) (last : Nat) :
    Nat → RunPlace → Merging → Option Merging
  | 0, _, _ => none
  | fuel + 1, run, m =>
    if run.pageNumber < last then
      let taken := m.take maxTuples pages run
      insertRest maxTuples pages last fuel taken.1 taken.2
    else some m

/-- The loop that merges two runs, up to the pages `leftLast` and `rightLast`. -/
def mergeRuns (maxTuples : Nat) (pages : List Nat) (leftLast rightLast : Nat) :
    Nat → RunPlace → RunPlace → Merging → Option Merging
  | 0, _, _, _ => none
  | fuel + 1, left, right, m =>
    if left.pageNumber < leftLast ∧ right.pageNumber < rightLast then
      let leftKey := ((m.table.file (pages.getD left.pageNumber 0)).tuple left.pos).key
      let rightKey := ((m.table.file (pages.getD right.pageNumber 0)).tuple right.pos).key
      if KeyValueHashBucket.smallerKey leftKey rightKey then
        let taken := m.take maxTuples pages left
        mergeRuns maxTuples pages leftLast rightLast fuel taken.1 right taken.2
      else
        let taken := m.take maxTuples pages right
        mergeRuns maxTuples pages leftLast rightLast fuel left taken.1 taken.2
    else if left.pageNumber < leftLast then insertRest maxTuples pages leftLast fuel left m
    else insertRest maxTuples pages rightLast fuel right m

/-- The body of the loop over the steps.  The run that has no other one to be merged with is the last
of a pass; its pages are kept. -/
def mergeStep (maxTuples : Nat) (pages : List Nat) (mergeSize fuel step : Nat) (m : Merging) :
    Option Merging :=
  let rightPageNumber := step + mergeSize
  if rightPageNumber ≥ pages.length then
    some { m with newPageNumbers := m.newPageNumbers ++ pages.drop step }
  else
    m.mergeRuns maxTuples pages (step + mergeSize) (min (step + 2 * mergeSize) pages.length) fuel
      ⟨step, 0⟩ ⟨rightPageNumber, 0⟩

/-- The first `count` steps of a pass. -/
def mergeSteps (maxTuples : Nat) (pages : List Nat) (mergeSize fuel count : Nat) (m : Merging) :
    Option Merging :=
  (List.range count).foldlM
    (fun m k => m.mergeStep maxTuples pages mergeSize fuel (k * (2 * mergeSize))) m

end Merging

/-- One round of the loop that merges runs of `mergeSize` pages. -/
def mergePass (maxTuples bucketNumber fuel mergeSize : Nat) (t : KeyValueHash) :
    Option KeyValueHash :=
  let pages := t.bucketsPageNumbers bucketNumber
  let steps := (pages.length + 2 * mergeSize - 1) / (2 * mergeSize)
  ((Merging.newPage t []).mergeSteps maxTuples pages mergeSize fuel steps).map fun m =>
    { m.table with
      bucketsPageNumbers :=
        Function.update m.table.bucketsPageNumbers bucketNumber m.newPageNumbers }

/-- The loop that doubles `mergeSize`. -/
def mergePasses (maxTuples bucketNumber fuel : Nat) : Nat → Nat → KeyValueHash → Option KeyValueHash
  | 0, _, _ => none
  | rounds + 1, mergeSize, t =>
    if (t.bucketsPageNumbers bucketNumber).length > mergeSize then
      (mergePass maxTuples bucketNumber fuel mergeSize t).bind
        (mergePasses maxTuples bucketNumber fuel rounds (mergeSize * 2))
    else some t

/-- The pages of a bucket are sorted.  The sort of a page does not mark it as changed, so only the
pages in `kept` still have the new order when they are read again: the others have left the buffer
before. -/
def sortPages (kept : Nat → Bool) (bucketNumber : Nat) (t : KeyValueHash) : KeyValueHash :=
  (t.bucketsPageNumbers bucketNumber).foldl
    (fun t page => if kept page then t.modifyPage page BucketPage.sort else t) t

/-- `sort_bucket`; nothing is returned if the loops take more turns than `fuel`. -/
def sortBucket (maxTuples : Nat) (kept : Nat → Bool) (bucketNumber fuel : Nat) (t : KeyValueHash) :
    Option KeyValueHash :=
  mergePasses maxTuples bucketNumber fuel fuel 1 (t.sortPages kept bucketNumber)

section

variable {maxTuples bucketNumber mergeSize fuel fuel' rounds rounds' : Nat} {pages : List Nat}
  {kept : Nat → Bool} {t t' : KeyValueHash} {m m' : Merging}

theorem insertRest_mono {last : Nat} (hle : fuel ≤ fuel') {run : RunPlace}
    (h : m.insertRest maxTuples pages last fuel run = some m') :
    m.insertRest maxTuples pages last fuel' run = some m' := by
  induction fuel generalizing fuel' run m with
  | zero => cases h
  | succ fuel ih =>
    obtain ⟨more, rfl⟩ := Nat.exists_eq_add_one_of_ne_zero (Nat.ne_of_gt (Nat.zero_lt_of_lt hle))
    rw [Merging.insertRest] at h ⊢
    split
    · next hlt =>
      rw [if_pos hlt] at h
      exact ih (Nat.le_of_succ_le_succ hle) h
    · next hlt =>
      rw [if_neg hlt] at h
      exact h

theorem mergeRuns_mono {leftLast rightLast : Nat} (hle : fuel ≤ fuel') {left right : RunPlace}
    (h : m.mergeRuns maxTuples pages leftLast rightLast fuel left right = some m') :
    m.mergeRuns maxTuples pages leftLast rightLast fuel' left right = some m' := by
  induction fuel generalizing fuel' left right m with
  | zero => cases h
  | succ fuel ih =>
    obtain ⟨more, rfl⟩ := Nat.exists_eq_add_one_of_ne_zero (Nat.ne_of_gt (Nat.zero_lt_of_lt hle))
    have hmore := Nat.le_of_succ_le_succ hle
    rw [Merging.mergeRuns] at h ⊢
    split
    · next hboth =>
      rw [if_pos hboth] at h
      dsimp only at h ⊢
      split
      · next hsmaller =>
        rw [if_pos hsmaller] at h
        exact ih hmore h
      · next hsmaller =>
        rw [if_neg hsmaller] at h
        exact ih hmore h
    · next hboth =>
      rw [if_neg hboth] at h
      split
      · next hleft =>
        rw [if_pos hleft] at h
        exact insertRest_mono hmore h
      · next hleft =>
        rw [if_neg hleft] at h
        exact insertRest_mono hmore h

theorem mergeSteps_succ (maxTuples : Nat) (pages : List Nat) (mergeSize fuel count : Nat)
    (m : Merging) : m.mergeSteps maxTuples pages mergeSize fuel (count + 1) =
      (m.mergeSteps maxTuples pages mergeSize fuel count).bind fun m =>
        m.mergeStep maxTuples pages mergeSize fuel (count * (2 * mergeSize)) := by
  rw [Merging.mergeSteps, List.range_succ, List.foldlM_append]
  show (Merging.mergeSteps maxTuples pages mergeSize fuel count m).bind _ = _
  congr 1
  funext m
  rw [List.foldlM_cons]
  exact bind_pure _

theorem mergeSteps_mono (hle : fuel ≤ fuel') (count : Nat)
    (h : m.mergeSteps maxTuples pages mergeSize fuel count = some m') :
    m.mergeSteps maxTuples pages mergeSize fuel' count = some m' := by
  induction count generalizing m' with
  | zero => exact h
  | succ count ih =>
    rw [mergeSteps_succ] at h ⊢
    obtain ⟨m₁, hsteps, hstep⟩ := Option.bind_eq_some_iff.mp h
    rw [ih hsteps, Option.bind_some]
    rw [Merging.mergeStep] at hstep ⊢
    split
    · next hrest =>
      rw [if_pos hrest] at hstep
      exact hstep
    · next hrest =>
      rw [if_neg hrest] at hstep
      exact mergeRuns_mono hle hstep

theorem mergePasses_mono (hle : fuel ≤ fuel') (hrounds : rounds ≤ rounds')
    (h : mergePasses maxTuples bucketNumber fuel rounds mergeSize t = some t') :
    mergePasses maxTuples bucketNumber fuel' rounds' mergeSize t = some t' := by
  induction rounds generalizing rounds' mergeSize t with
  | zero => cases h
  | succ rounds ih =>
    obtain ⟨more, rfl⟩ :=
      Nat.exists_eq_add_one_of_ne_zero (Nat.ne_of_gt (Nat.zero_lt_of_lt hrounds))
    rw [mergePasses] at h ⊢
    split
    · next hlt =>
      rw [if_pos hlt] at h
      obtain ⟨t₁, hpass, hpasses⟩ := Option.bind_eq_some_iff.mp h
      obtain ⟨m, hsteps, hpages⟩ := Option.map_eq_some_iff.mp hpass
      have hpass' : mergePass maxTuples bucketNumber fuel' mergeSize t = some t₁ :=
        Option.map_eq_some_iff.mpr ⟨m, mergeSteps_mono hle _ hsteps, hpages⟩
      rw [hpass', Option.bind_some]
      exact ih (Nat.le_of_succ_le_succ hrounds) hpasses
    · next hlt =>
      rw [if_neg hlt] at h
      exact h

/-- What `sort_bucket` returns does not depend on how many turns its loops may take. -/
theorem sortBucket_mono (hle : fuel ≤ fuel')
    (h : t.sortBucket maxTuples kept bucketNumber fuel = some t') :
    t.sortBucket maxTuples kept bucketNumber fuel' = some t' :=
  mergePasses_mono hle hle h

end

end KeyValueHash
end MillenniumDB
