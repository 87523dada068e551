import Mathlib.Data.List.GetD
import MillenniumDB.BptWriter
import MillenniumDB.KeyValueHashBucket
import MillenniumDB.Lib.ExtendibleHash
import MillenniumDB.Lib.PageFiles

/-!
# The hash of keys and values

The low bits of the hash of a key choose a bucket, which is a list of pages.  When the last page of
a bucket is full, the bucket gets another one, or, if there are many tuples, the number of buckets
is doubled: `split` reads the pages of each bucket, writes back what stays, in the same pages, and
moves the others to a new bucket.  Pages that are left over are used again.
-/

namespace MillenniumDB

/-- A page of a bucket; behind its tuples stands what stood there before. -/
structure BucketPage where
  tupleCount : Nat
  tuple : Nat → KeyValueTuple

namespace BucketPage

def setTupleCount (count : Nat) (p : BucketPage) : BucketPage := { p with tupleCount := count }

def insertInPos (t : KeyValueTuple) (pos : Nat) (p : BucketPage) : BucketPage :=
  { p with tuple := Function.update p.tuple pos t }

def insert (t : KeyValueTuple) (p : BucketPage) : BucketPage :=
  { p.insertInPos t p.tupleCount with tupleCount := p.tupleCount + 1 }

def content (p : BucketPage) : List KeyValueTuple := (List.range p.tupleCount).map p.tuple

end BucketPage

/-- The members of the hash that change; `nextPageNumber` is the one behind `last_page_number`. -/
structure KeyValueHash where
  file : Nat → BucketPage
  nextPageNumber : Nat
  tuplesCount : Nat
  depth : Nat
  bucketsPageNumbers : Nat → List Nat
  bucketsSizes : Nat → Nat
  availablePages : List Nat

namespace KeyValueHash

/-- `max_tuples`: how many tuples fit a page behind its count. -/
def maxTuples (keySize valueSize : Nat) : Nat :=
  (mdbPageSize - 8) / (keySize * 8 + valueSize * 8)

def begin (file : Nat → BucketPage) (initialDepth : Nat) : KeyValueHash :=
  ⟨file, 0, 0, initialDepth, fun _ => [], fun _ => 0, []⟩

/-- `reset`: the file stays as it is. -/
def reset (newDepth : Nat) (t : KeyValueHash) : KeyValueHash := begin t.file newDepth

def getNewPageNumber (t : KeyValueHash) : Nat × KeyValueHash :=
  match t.availablePages with
  | [] => (t.nextPageNumber, { t with nextPageNumber := t.nextPageNumber + 1 })
  | page :: pages => (page, { t with availablePages := pages })

def modifyPage (page : Nat) (f : BucketPage → BucketPage) (t : KeyValueHash) : KeyValueHash :=
  { t with file := Function.update t.file page (f (t.file page)) }

def addPage (bucket : Nat) (t : KeyValueHash) : Nat × KeyValueHash :=
  let new := t.getNewPageNumber
  let t := new.2.modifyPage new.1 (BucketPage.setTupleCount 0)
  (new.1, { t with
    bucketsPageNumbers := Function.update t.bucketsPageNumbers bucket
      (t.bucketsPageNumbers bucket ++ [new.1]) })

/-- `buckets_page_numbers[bucket].back()`. -/
def back (bucket : Nat) (t : KeyValueHash) : Nat := (t.bucketsPageNumbers bucket).getLastD 0

section

variable (hash : List Nat → Nat) (maxTuples : Nat)

/-- `get_split_treshold`, in 32 bits. -/
def getSplitTreshold (t : KeyValueHash) : Nat := maxTuples * (1 <<< t.depth) % 2 ^ 32

def getBucket (key : List Nat) (t : KeyValueHash) : Nat := hash key &&& (1 <<< t.depth - 1)

/-- The local variables of `split` while it reads the pages of a bucket. -/
structure Splitting where
  table : KeyValueHash
  newBucketPage : Nat
  writingOldPos : Nat
  writingOldTupleCount : Nat

def splitTuple (numberOfBuckets bucketNumber : Nat) (pages : List Nat) (readingPage : Nat)
    (s : Splitting) (tupleNumber : Nat) : Splitting :=
  let tuple := (s.table.file readingPage).tuple tupleNumber
  let insertBucketNumber := hash tuple.key &&& (numberOfBuckets - 1)
  if insertBucketNumber = bucketNumber then
    let s :=
      if s.writingOldTupleCount ≥ maxTuples then
        { s with
          table := s.table.modifyPage (pages.getD s.writingOldPos 0)
            (BucketPage.setTupleCount s.writingOldTupleCount)
          writingOldPos := s.writingOldPos + 1
          writingOldTupleCount := 0 }
      else s
    { s with
      table := s.table.modifyPage (pages.getD s.writingOldPos 0)
        (BucketPage.insertInPos tuple s.writingOldTupleCount)
      writingOldTupleCount := s.writingOldTupleCount + 1 }
  else
    let sizes := Function.update s.table.bucketsSizes insertBucketNumber
      (s.table.bucketsSizes insertBucketNumber + 1)
    let t := { s.table with
      bucketsSizes := Function.update sizes bucketNumber (sizes bucketNumber - 1) }
    let new :=
      if (t.file s.newBucketPage).tupleCount ≥ maxTuples then t.addPage insertBucketNumber
      else (s.newBucketPage, t)
    { s with table := new.2.modifyPage new.1 (BucketPage.insert tuple), newBucketPage := new.1 }

def splitBucket (previousNumberOfBuckets numberOfBuckets : Nat) (t : KeyValueHash)
    (bucketNumber : Nat) : KeyValueHash :=
  let newBucket := previousNumberOfBuckets + bucketNumber
  let t := { t with
    bucketsPageNumbers := Function.update t.bucketsPageNumbers newBucket []
    bucketsSizes := Function.update t.bucketsSizes newBucket 0 }
  let pages := t.bucketsPageNumbers bucketNumber
  if pages = [] then t
  else
    let new := t.addPage newBucket
    let s := pages.foldl (fun s page =>
      (List.range (s.table.file page).tupleCount).foldl
        (splitTuple hash maxTuples numberOfBuckets bucketNumber pages page) s) ⟨new.2, new.1, 0, 0⟩
    let t := s.table.modifyPage (pages.getD s.writingOldPos 0)
      (BucketPage.setTupleCount s.writingOldTupleCount)
    -- set available pages
    { t with
      availablePages := t.availablePages ++ pages.drop (s.writingOldPos + 1)
      bucketsPageNumbers := Function.update t.bucketsPageNumbers bucketNumber
        (pages.take (s.writingOldPos + 1)) }

/-- `split`; beyond 30 bits `1 << depth` is no `int` any more. -/
def split (t : KeyValueHash) : Option KeyValueHash :=
  if 30 < t.depth + 1 then none
  else
    some ((List.range (1 <<< t.depth)).foldl
      (splitBucket hash maxTuples (1 <<< t.depth) (1 <<< (t.depth + 1)))
      { t with depth := t.depth + 1 })

/-- The loop of `insert`, which makes room on the last page of the bucket. -/
def makeRoom (key : List Nat) : Nat → KeyValueHash → Option KeyValueHash
  | 0, _ => none
  | fuel + 1, t =>
    let bucketNumber := t.getBucket hash key
    if (t.file (t.back bucketNumber)).tupleCount ≥ maxTuples then
      if t.tuplesCount ≥ t.getSplitTreshold maxTuples then
        (t.split hash maxTuples).bind (makeRoom key fuel)
      else makeRoom key fuel (t.addPage bucketNumber).2
    else some t

/-- `insert`; nothing is returned where the loop does not end. -/
def insert (fuel : Nat) (tuple : KeyValueTuple) (t : KeyValueHash) : Option KeyValueHash :=
  let bucketNumber := t.getBucket hash tuple.key
  let t := if t.bucketsPageNumbers bucketNumber ≠ [] then t else (t.addPage bucketNumber).2
  (makeRoom hash maxTuples tuple.key fuel t).map fun t =>
    let bucketNumber := t.getBucket hash tuple.key
    let t := t.modifyPage (t.back bucketNumber) (BucketPage.insert tuple)
    { t with
      bucketsSizes := Function.update t.bucketsSizes bucketNumber (t.bucketsSizes bucketNumber + 1)
      tuplesCount := t.tuplesCount + 1 }

/-- What a sequence of insertions can lead to, and the tuples inserted since the last `reset`. -/
inductive Reached : List KeyValueTuple → KeyValueHash → Prop
  | begin (file : Nat → BucketPage) {initialDepth : Nat} :
      initialDepth ≤ 30 → Reached [] (begin file initialDepth)
  | reset {tuples : List KeyValueTuple} {t : KeyValueHash} {newDepth : Nat} :
      Reached tuples t → newDepth ≤ 30 → Reached [] (t.reset newDepth)
  | insert {tuples : List KeyValueTuple} {t t' : KeyValueHash} {fuel : Nat}
      {tuple : KeyValueTuple} : Reached tuples t →
      t.insert hash maxTuples fuel tuple = some t' → Reached (tuples ++ [tuple]) t'

end

def bucketTuples (t : KeyValueHash) (bucket : Nat) : List KeyValueTuple :=
  (t.bucketsPageNumbers bucket).flatMap fun page => (t.file page).content

structure Holds (maxTuples : Nat) (file : Nat → BucketPage) (pages : List Nat)
    (tuples : List KeyValueTuple) : Prop where
  page : ∀ i < pages.length, (file (pages.getD i 0)).content = pageOf maxTuples tuples i
  begun : (pages.length - 1) * maxTuples ≤ tuples.length
  room : tuples.length ≤ pages.length * maxTuples

/-- No page is in use twice, and pages that are available are not in use. -/
structure Owned (t : KeyValueHash) : Prop where
  nodup : ∀ bucket, (t.bucketsPageNumbers bucket).Nodup
  disjoint : ∀ b c, b ≠ c → ∀ page ∈ t.bucketsPageNumbers b, page ∉ t.bucketsPageNumbers c
  lt_next : ∀ bucket, ∀ page ∈ t.bucketsPageNumbers bucket, page < t.nextPageNumber
  nodup_available : t.availablePages.Nodup
  available : ∀ page ∈ t.availablePages, page < t.nextPageNumber ∧
    ∀ bucket, page ∉ t.bucketsPageNumbers bucket

section

variable {maxTuples i page : Nat} {file file' : Nat → BucketPage} {pages : List Nat}
  {tuples : List KeyValueTuple} {tuple : KeyValueTuple} {t : KeyValueHash}

theorem length_content (p : BucketPage) : p.content.length = p.tupleCount := by
  rw [BucketPage.content, List.length_map, List.length_range]

theorem content_insert (tuple : KeyValueTuple) (p : BucketPage) :
    (p.insert tuple).content = p.content ++ [tuple] := by
  have hbefore : (List.range p.tupleCount).map (Function.update p.tuple p.tupleCount tuple) =
      (List.range p.tupleCount).map p.tuple := by
    apply List.map_congr_left
    intro i hi
    exact Function.update_of_ne (Nat.ne_of_lt (List.mem_range.mp hi)) _ _
  simp only [BucketPage.content, BucketPage.insert, BucketPage.insertInPos, List.range_succ,
    List.map_append, List.map_singleton, hbefore, Function.update_self]

theorem getD_mem (hi : i < pages.length) : pages.getD i 0 ∈ pages := by
  rw [List.getD_eq_getElem pages 0 hi]
  exact List.getElem_mem hi

theorem getD_injective {j : Nat} (hnodup : pages.Nodup) (hi : i < pages.length)
    (hj : j < pages.length) (heq : pages.getD i 0 = pages.getD j 0) : i = j := by
  rw [List.getD_eq_getElem pages 0 hi, List.getD_eq_getElem pages 0 hj] at heq
  exact (hnodup.getElem_inj_iff).mp heq

theorem getLastD_eq (pages : List Nat) : pages.getLastD 0 = pages.getD (pages.length - 1) 0 := by
  rw [List.getLastD_eq_getLast?, List.getLast?_eq_getElem?, List.getD_eq_getElem?_getD]

theorem Holds.congr (h : Holds maxTuples file pages tuples)
    (hfile : ∀ page ∈ pages, file' page = file page) : Holds maxTuples file' pages tuples where
  page i hi := by
    rw [hfile _ (getD_mem hi)]
    exact h.page i hi
  begun := h.begun
  room := h.room

theorem Holds.nil (maxTuples : Nat) (file : Nat → BucketPage) : Holds maxTuples file [] [] where
  page i hi := absurd hi (Nat.not_lt_zero i)
  begun := by rw [List.length_nil, Nat.zero_sub, Nat.zero_mul]; exact Nat.le_refl 0
  room := Nat.zero_le _

theorem Holds.tupleCount (h : Holds maxTuples file pages tuples) (hi : i < pages.length) :
    (file (pages.getD i 0)).tupleCount = min maxTuples (tuples.length - i * maxTuples) := by
  rw [← length_content, h.page i hi, length_pageOf]

theorem Holds.tupleCount_last (h : Holds maxTuples file pages tuples) (hne : pages ≠ []) :
    (file (pages.getLastD 0)).tupleCount = tuples.length - (pages.length - 1) * maxTuples := by
  have hpos := List.length_pos_of_ne_nil hne
  have hroom := h.room
  rw [getLastD_eq, h.tupleCount (by omega)]
  obtain ⟨k, hk⟩ := Nat.exists_eq_add_one_of_ne_zero hpos.ne'
  rw [hk, Nat.add_one_mul] at hroom
  rw [hk, Nat.add_sub_cancel]
  omega

theorem Holds.flatMap_eq (h : Holds maxTuples file pages tuples) :
    pages.flatMap (fun page => (file page).content) = tuples := by
  have hpages : pages = (List.range pages.length).map fun i => pages.getD i 0 := by
    apply List.ext_getElem
    · rw [List.length_map, List.length_range]
    · intro i hi _
      rw [List.getElem_map, List.getElem_range, List.getD_eq_getElem pages 0 hi]
  rw [hpages, List.flatMap_map, List.flatMap_congr (g := pageOf maxTuples tuples),
    flatMap_pageOf, List.take_of_length_le h.room]
  intro i hi
  exact h.page i (List.mem_range.mp hi)

theorem Holds.insert (h : Holds maxTuples file pages tuples) (hnodup : pages.Nodup)
    (hne : pages ≠ []) (hroom : tuples.length < pages.length * maxTuples) :
    Holds maxTuples (Function.update file (pages.getLastD 0)
      ((file (pages.getLastD 0)).insert tuple)) pages (tuples ++ [tuple]) := by
  have hpos := List.length_pos_of_ne_nil hne
  have hstart := h.begun
  obtain ⟨k, hk⟩ := Nat.exists_eq_add_one_of_ne_zero hpos.ne'
  rw [hk, Nat.add_sub_cancel] at hstart
  rw [getLastD_eq, hk, Nat.add_sub_cancel]
  rw [hk] at hroom
  refine ⟨fun i hi => ?_, ?_, ?_⟩
  · by_cases hlast : i = k
    · subst hlast
      rw [Function.update_self, content_insert, h.page i hi, pageOf_concat hstart hroom]
    · have hlt : i < k := by omega
      have hpage : pages.getD i 0 ≠ pages.getD k 0 :=
        fun heq => hlast (getD_injective hnodup hi (by omega) heq)
      rw [Function.update_of_ne hpage, h.page i hi,
        pageOf_append_left ((Nat.mul_le_mul_right _ hlt).trans hstart)]
  · rw [hk, Nat.add_sub_cancel, List.length_append, List.length_singleton]
    omega
  · rw [List.length_append, List.length_singleton, hk]
    exact hroom

theorem Holds.addPage (h : Holds maxTuples file pages tuples)
    (hfull : tuples.length = pages.length * maxTuples) (hempty : (file' page).content = [])
    (hfile : ∀ p ∈ pages, file' p = file p) : Holds maxTuples file' (pages ++ [page]) tuples where
  page i hi := by
    rw [List.length_append, List.length_singleton] at hi
    rcases Nat.lt_or_eq_of_le (Nat.le_of_lt_succ hi) with hlt | rfl
    · rw [List.getD_append _ _ _ _ hlt, hfile _ (getD_mem hlt)]
      exact h.page i hlt
    · rw [List.getD_append_right _ _ _ _ (Nat.le_refl _), Nat.sub_self, List.getD_cons_zero, hempty,
        pageOf_of_length_le hfull.le]
  begun := by
    rw [List.length_append, List.length_singleton, Nat.add_sub_cancel]
    exact hfull.ge
  room := by
    rw [List.length_append, List.length_singleton, hfull]
    exact Nat.mul_le_mul_right _ (Nat.le_succ _)

theorem Owned.addPage (h : Owned t) (bucket : Nat) {new : Nat × KeyValueHash}
    (hnew : t.addPage bucket = new) :
    (∀ b, new.1 ∉ t.bucketsPageNumbers b) ∧ Owned new.2 ∧
      new.2.bucketsPageNumbers = Function.update t.bucketsPageNumbers bucket
        (t.bucketsPageNumbers bucket ++ [new.1]) ∧
      new.2.file = Function.update t.file new.1 ((t.file new.1).setTupleCount 0) ∧
      new.2.tuplesCount = t.tuplesCount ∧ new.2.depth = t.depth ∧
      new.2.bucketsSizes = t.bucketsSizes := by
  -- the pages after the new one has been added, by the bucket
  have hcases : ∀ {page b : Nat}, page ∈ Function.update t.bucketsPageNumbers bucket
      (t.bucketsPageNumbers bucket ++ [new.1]) b →
      page ∈ t.bucketsPageNumbers b ∨ b = bucket ∧ page = new.1 := by
    intro page b hmem
    by_cases hb : b = bucket
    · subst hb
      rw [Function.update_self] at hmem
      rcases List.mem_append.mp hmem with hmem | hmem
      · exact Or.inl hmem
      · exact Or.inr ⟨rfl, List.mem_singleton.mp hmem⟩
    · rw [Function.update_of_ne hb] at hmem
      exact Or.inl hmem
  have hnodup : (∀ b, new.1 ∉ t.bucketsPageNumbers b) → ∀ b, (Function.update
      t.bucketsPageNumbers bucket (t.bucketsPageNumbers bucket ++ [new.1]) b).Nodup := by
    intro hfree b
    by_cases hb : b = bucket
    · subst hb
      rw [Function.update_self]
      exact List.nodup_append.mpr ⟨h.nodup b, List.nodup_singleton _, fun x hx y hy heq =>
        hfree b (by rw [← List.mem_singleton.mp hy, ← heq]; exact hx)⟩
    · rw [Function.update_of_ne hb]
      exact h.nodup b
  have hdisjoint : (∀ b, new.1 ∉ t.bucketsPageNumbers b) → ∀ b c, b ≠ c →
      ∀ page ∈ Function.update t.bucketsPageNumbers bucket
        (t.bucketsPageNumbers bucket ++ [new.1]) b, page ∉ Function.update t.bucketsPageNumbers
        bucket (t.bucketsPageNumbers bucket ++ [new.1]) c := by
    intro hfree b c hne page hb hc
    rcases hcases hb with hb' | ⟨hb', hpage⟩
    · rcases hcases hc with hc' | ⟨_, hpage⟩
      · exact h.disjoint b c hne page hb' hc'
      · exact hfree b (hpage ▸ hb')
    · rcases hcases hc with hc' | ⟨hc', _⟩
      · exact hfree c (hpage ▸ hc')
      · exact hne (hb'.trans hc'.symm)
  unfold KeyValueHash.addPage getNewPageNumber at hnew
  cases havailable : t.availablePages with
  | nil =>
    rw [havailable] at hnew
    subst hnew
    have hfree : ∀ b, t.nextPageNumber ∉ t.bucketsPageNumbers b :=
      fun b hmem => Nat.lt_irrefl _ (h.lt_next b _ hmem)
    refine ⟨hfree, ⟨hnodup hfree, hdisjoint hfree, fun b page hmem => ?_, ?_, ?_⟩,
      rfl, rfl, rfl, rfl, rfl⟩
    · rcases hcases hmem with hmem | ⟨_, rfl⟩
      · exact Nat.lt_succ_of_lt (h.lt_next b page hmem)
      · exact Nat.lt_succ_self _
    · exact List.nodup_nil
    · exact fun page hmem => absurd hmem List.not_mem_nil
  | cons page pages =>
    rw [havailable] at hnew
    subst hnew
    have hhead := h.available page (havailable ▸ List.mem_cons_self)
    have hnodup' := h.nodup_available
    rw [havailable] at hnodup'
    obtain ⟨hnotin, hrest⟩ := List.nodup_cons.mp hnodup'
    refine ⟨hhead.2, ⟨hnodup hhead.2, hdisjoint hhead.2, fun b p hmem => ?_, hrest, ?_⟩,
      rfl, rfl, rfl, rfl, rfl⟩
    · rcases hcases hmem with hmem | ⟨_, rfl⟩
      · exact h.lt_next b p hmem
      · exact hhead.1
    · intro p hmem
      have hp := h.available p (havailable ▸ List.mem_cons_of_mem page hmem)
      refine ⟨hp.1, fun b hb => ?_⟩
      rcases hcases hb with hb | ⟨_, rfl⟩
      · exact hp.2 b hb
      · exact hnotin hmem

end
end KeyValueHash
end MillenniumDB
