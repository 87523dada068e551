import Mathlib.Data.List.FinRange
import Mathlib.Data.Nat.Sqrt
import MillenniumDB.DiskMerge
import MillenniumDB.Lib.PageFiles

/-!
# Ordering a file of records

`order` permutes the columns of the records, orders each page by itself and merges the pages, from
one file to the other and back, until one run is left.  It leaves the same records in order, if
the buffer is large enough for it to find how many runs to merge at a time.
-/

namespace MillenniumDB

open DiskVector (divisionRoundUp popQueue)

structure OrderedFile where
  file : PageFile Tuple
  helper : PageFile Tuple
  lastPage : Nat

namespace OrderedFilePage

/-- `MAX_RECORDS`, which is that of the leaves of a B+ tree. -/
abbrev maxRecords (n : Nat) : Nat := BPTLeafWriter.maxRecords n

def isFull (n size : Nat) : Bool := decide (maxRecords n ≤ size)

/-- The inner loop of `reorder_columns` that fills `key`. -/
def fillKey (n : Nat) (columnOrder : List Nat) (record key : Tuple) : Tuple :=
  (List.range n).foldl (fun key i => key.set (columnOrder.getD i 0) (record.getD i 0)) key

/-- `reorder_columns`; the array `key` is one for all records. -/
def reorderColumns (n : Nat) (columnOrder : List Nat) : Tuple → List Tuple → List Tuple
  | _, [] => []
  | key, record :: records =>
    let key := fillKey n columnOrder record key
    key :: reorderColumns n columnOrder key records

/-- The inner loop of `order`: records go to the right until `key` has its position.  At position
0 the index overflows and comes back to 0. -/
def insertKey (key : Tuple) : Nat → List Tuple → List Tuple
  | 0, records => records.set 0 key
  | j + 1, records =>
    if key < records.getD j [] then
      insertKey key j (records.set (j + 1) (records.getD j []))
    else records.set (j + 1) key

/-- `order`, an insertion sort. -/
def order (records : List Tuple) : List Tuple :=
  (List.range' 1 (records.length - 1)).foldl
    (fun records i => insertKey (records.getD i []) i records) records

end OrderedFilePage

namespace OrderedFile

def needColumnReorder (n : Nat) (columnOrder : List Nat) : Bool :=
  (List.range n).any fun i => columnOrder.getD i 0 != i

/-- What is done with the records of a page; the array `key` begins with any values. -/
def orderPage (n : Nat) (columnOrder : List Nat) (uninitialized : Nat → Nat) (records : List Tuple) :
    List Tuple :=
  if needColumnReorder n columnOrder then
    OrderedFilePage.order (OrderedFilePage.reorderColumns n columnOrder
      ((List.range n).map uninitialized) records)
  else OrderedFilePage.order records

def orderPages (work : Nat → List Tuple → List Tuple) (lastPage pagesPerThread : Nat) :
    Nat → Nat → PageFile Tuple → Option (PageFile Tuple)
  | 0, startPage, file => if startPage ≤ lastPage then none else some file
  | fuel + 1, startPage, file =>
    if startPage ≤ lastPage then
      let endPage := if startPage + pagesPerThread - 1 > lastPage then lastPage
        else startPage + pagesPerThread - 1
      orderPages work lastPage pagesPerThread fuel (startPage + pagesPerThread)
        ((List.range' startPage (endPage + 1 - startPage)).foldl
          (fun file p => Function.update file p (work p (file p))) file)
    else some file

/-- How many runs are merged at a time; `root n r` is `ceil(pow(n, 1.0 / r))`. -/
def chooseMaxRuns (root : Nat → Nat → Nat) (totalPages poolSize : Nat) : Nat → Nat → Option Nat
  | 0, _ => none
  | fuel + 1, r =>
    if root totalPages r < poolSize then some (root totalPages r)
    else chooseMaxRuns root totalPages poolSize fuel (r + 1)

/-- What is kept of a run: its page in `merge_buffer`, and the positions. -/
structure RunBuffer where
  page : List Tuple
  currentPos : Nat
  currentPage : Nat

section

variable (n : Nat) (source : PageFile Tuple) (runLength maxRuns lastPage : Nat)

def startRun (p run : Nat) : RunBuffer := ⟨source (p + run * runLength), 0, 0⟩

def nextRecord (p run : Nat) (b : RunBuffer) : RunBuffer × Option Tuple :=
  let b := { b with currentPos := b.currentPos + 1 }
  if b.currentPos ≥ b.page.length then
    let b := { b with currentPos := 0, currentPage := b.currentPage + 1 }
    if b.currentPage ≥ runLength ∨ p + run * runLength + b.currentPage > lastPage then (b, none)
    else
      let b := { b with page := source (p + run * runLength + b.currentPage) }
      (b, some (b.page.getD b.currentPos []))
  else (b, some (b.page.getD b.currentPos []))

def mergeLoop (p : Nat) : Nat → List (Tuple × Nat) → (Nat → RunBuffer) → PageWriter Tuple →
    Option (PageWriter Tuple)
  | 0, _, _, _ => none
  | fuel + 1, queue, runs, out =>
    match popQueue queue with
    | none => some out
    | some ((record, minRun), queue) =>
      let next := nextRecord source runLength lastPage p minRun (runs minRun)
      let queue :=
        match next.2 with
        | none => queue
        | some record => (record, minRun) :: queue
      mergeLoop p fuel queue (Function.update runs minRun next.1)
        (out.append (OrderedFilePage.isFull n) record)

/-- The chunks of a thread, from `p` to its last page. -/
def mergeChunks (endPage turns : Nat) : Nat → Nat → PageWriter Tuple → Option (PageWriter Tuple)
  | 0, p, out => if p ≤ endPage then none else some out
  | fuel + 1, p, out =>
    if p ≤ endPage then
      let runs := if p + runLength * maxRuns ≤ endPage then maxRuns
        else divisionRoundUp (endPage + 1 - p) runLength
      let queue := (List.range runs).map fun run =>
        ((startRun source runLength p run).page.getD 0 [], run)
      (mergeLoop n source runLength lastPage p turns queue (startRun source runLength p) out).bind
        (mergeChunks endPage turns fuel (p + runLength * maxRuns))
    else some out

/-- The threads of a pass that are left, the first of them from `startPage` on. -/
def mergeThreads (maxMergesPerThread fuel : Nat) : Nat → Nat → PageFile Tuple →
    Option (PageFile Tuple)
  | 0, _, dest => some dest
  | threads + 1, startPage, dest =>
    let endPage :=
      if startPage + runLength * maxRuns * maxMergesPerThread - 1 > lastPage then lastPage
      else startPage + runLength * maxRuns * maxMergesPerThread - 1
    (mergeChunks n source runLength maxRuns lastPage endPage fuel fuel startPage
        (.start dest startPage)).bind fun out =>
      mergeThreads maxMergesPerThread fuel threads (endPage + 1) out.file

end

def maxThreads : Nat := 8

/-- The second step from a length of the runs on; the files, of which the first is read. -/
def mergePasses (n maxRuns lastPage turns : Nat) : Nat → Nat → PageFile Tuple → PageFile Tuple →
    Option (PageFile Tuple × PageFile Tuple)
  | 0, runLength, file, helper =>
    if runLength < lastPage + 1 then none else some (file, helper)
  | fuel + 1, runLength, file, helper =>
    if runLength < lastPage + 1 then
      let mergesNeeded := divisionRoundUp (lastPage + 1) (runLength * maxRuns)
      let maxMergesPerThread := divisionRoundUp mergesNeeded maxThreads
      let numberOfThreads := divisionRoundUp mergesNeeded maxMergesPerThread
      (mergeThreads n file runLength maxRuns lastPage maxMergesPerThread turns numberOfThreads 0
          helper).bind fun helper =>
        mergePasses n maxRuns lastPage turns fuel (runLength * maxRuns) helper file
    else some (file, helper)

/-- `order`; nothing is returned without enough turns for a loop. -/
def order (n : Nat) (root : Nat → Nat → Nat) (sharedBufferPoolSize : Nat)
    (uninitialized : Nat → Nat → Nat) (fuel : Nat) (columnOrder : List Nat) (f : OrderedFile) :
    Option OrderedFile := do
  let totalPages := f.lastPage + 1
  let numberOfThreads := if maxThreads < totalPages then maxThreads else totalPages
  let file ← orderPages (fun p => orderPage n columnOrder (uninitialized p)) f.lastPage
    (divisionRoundUp totalPages numberOfThreads) fuel 0 f.file
  let maxRuns ← chooseMaxRuns root totalPages (sharedBufferPoolSize / (2 * maxThreads)) fuel 2
  let files ← mergePasses n maxRuns f.lastPage fuel fuel 1 file f.helper
  some { f with file := files.1, helper := files.2 }

end OrderedFile

namespace OrderedFilePage

variable {n : Nat} {columnOrder : List Nat}

/-- `key` comes to its position among the records before it, the last of them onto the record that
stood there. -/
theorem insertKey_spec (key : Tuple) (before : List Tuple) :
    ∀ (x : Tuple) (after : List Tuple), ∃ out,
      insertKey key before.length (before ++ x :: after) = out ++ after ∧
      out.Perm (key :: before) ∧ (before.Pairwise (· ≤ ·) → out.Pairwise (· ≤ ·)) := by
  induction before using List.reverseRecOn with
  | nil =>
    intro x after
    exact ⟨[key], rfl, .refl _, fun _ => List.pairwise_singleton _ _⟩
  | append_singleton before y ih =>
    intro x after
    have hget : (before ++ [y] ++ x :: after).getD before.length [] = y := by simp
    have hset : ∀ z, (before ++ [y] ++ x :: after).set (before.length + 1) z =
        before ++ y :: z :: after := by
      intro z
      simp
    rw [List.length_append, List.length_singleton, insertKey, hget, hset, hset]
    by_cases hless : key < y
    · rw [if_pos hless]
      obtain ⟨out, heq, hperm, hsorted⟩ := ih y (y :: after)
      refine ⟨out ++ [y], by rw [heq, List.append_assoc]; rfl, hperm.append_right [y],
        fun hbefore => ?_⟩
      obtain ⟨hbefore, -, hle⟩ := List.pairwise_append.mp hbefore
      refine List.pairwise_append.mpr ⟨hsorted hbefore, List.pairwise_singleton _ _, ?_⟩
      intro z hz w hw
      rcases List.mem_cons.mp (hperm.mem_iff.mp hz) with rfl | hz
      · rw [List.mem_singleton.mp hw]
        exact le_of_lt hless
      · exact hle z hz w hw
    · rw [if_neg hless]
      refine ⟨before ++ [y] ++ [key], by simp, List.perm_append_singleton _ _, fun hbefore => ?_⟩
      refine List.pairwise_append.mpr ⟨hbefore, List.pairwise_singleton _ _, ?_⟩
      intro z hz w hw
      rw [List.mem_singleton.mp hw]
      rcases List.mem_append.mp hz with hz | hz
      · have hzy := (List.pairwise_append.mp hbefore).2.2 z hz y List.mem_cons_self
        exact hzy.trans (not_lt.mp hless)
      · rw [List.mem_singleton.mp hz]
        exact not_lt.mp hless

theorem order_spec (records : List Tuple) :
    (order records).Perm records ∧ (order records).Pairwise (· ≤ ·) := by
  -- the records before the one that is inserted are in order
  have hinsert : ∀ (after before : List Tuple), before.Pairwise (· ≤ ·) →
      ∃ out, (List.range' before.length after.length).foldl
        (fun records i => insertKey (records.getD i []) i records) (before ++ after) = out ∧
        out.Perm (before ++ after) ∧ out.Pairwise (· ≤ ·) := by
    intro after
    induction after with
    | nil =>
      intro before hbefore
      exact ⟨_, rfl, .refl _, by rw [List.append_nil]; exact hbefore⟩
    | cons x after ih =>
      intro before hbefore
      obtain ⟨out, heq, hperm, hsorted⟩ := insertKey_spec x before x after
      have hget : (before ++ x :: after).getD before.length [] = x := by simp
      have hlength : out.length = before.length + 1 := hperm.length_eq
      rw [List.length_cons, List.range'_succ, List.foldl_cons, hget, heq, ← hlength]
      obtain ⟨out', heq', hperm', hsorted'⟩ := ih out (hsorted hbefore)
      refine ⟨out', heq', hperm'.trans ?_, hsorted'⟩
      exact (hperm.append_right after).trans List.perm_middle.symm
  cases records with
  | nil => exact ⟨.refl _, .nil⟩
  | cons x records =>
    obtain ⟨out, heq, hperm, hsorted⟩ := hinsert records [x] (List.pairwise_singleton _ _)
    have horder : order (x :: records) = out := heq
    rw [horder]
    exact ⟨hperm, hsorted⟩

/-- A record whose columns have been permuted: column `i` has gone to `columnOrder[i]`. -/
def permuted (n : Nat) (columnOrder : List Nat) (record : Tuple) : Tuple :=
  (List.range n).map fun column => record.getD (columnOrder.idxOf column) 0

theorem fillKey_eq (horder : columnOrder.Perm (List.range n)) (record : Tuple) {key : Tuple}
    (hkey : key.length = n) : fillKey n columnOrder record key = permuted n columnOrder record := by
  have hlength : columnOrder.length = n := horder.length_eq.trans List.length_range
  have hnodup : columnOrder.Nodup := horder.nodup_iff.mpr List.nodup_range
  -- what is filled after some of the columns
  have hfill : ∀ k ≤ n, ∀ filled, (List.range k).foldl
      (fun key i => key.set (columnOrder.getD i 0) (record.getD i 0)) key = filled →
      filled.length = n ∧ ∀ column < n, filled.getD column 0 =
        if columnOrder.idxOf column < k then record.getD (columnOrder.idxOf column) 0
        else key.getD column 0 := by
    intro k
    induction k with
    | zero =>
      intro _ filled heq
      rw [← heq]
      exact ⟨hkey, fun column _ => rfl⟩
    | succ k ih =>
      intro hk filled heq
      obtain ⟨hlen, hget⟩ := ih (Nat.le_of_succ_le hk) _ rfl
      rw [List.range_succ, List.foldl_append, List.foldl_cons, List.foldl_nil] at heq
      rw [← heq, List.length_set]
      refine ⟨hlen, fun column hcolumn => ?_⟩
      have hmem : column ∈ columnOrder := horder.mem_iff.mpr (List.mem_range.mpr hcolumn)
      have hk' : k < columnOrder.length := by omega
      rw [List.getD_eq_getElem columnOrder 0 hk']
      have hidx : columnOrder[k] = column ↔ columnOrder.idxOf column = k := by
        constructor
        · intro heq
          rw [← heq]
          exact hnodup.idxOf_getElem k hk'
        · intro heq
          subst heq
          exact List.getElem_idxOf hk'
      by_cases hhere : columnOrder[k] = column
      · rw [hidx.mp hhere, if_pos (Nat.lt_succ_self k), hhere, List.getD_eq_getElem?_getD,
          List.getElem?_set_self (by omega), Option.getD_some]
      · have hne := mt hidx.mpr hhere
        rw [List.getD_eq_getElem?_getD, List.getElem?_set_ne hhere, ← List.getD_eq_getElem?_getD,
          hget column hcolumn]
        by_cases hlt : columnOrder.idxOf column < k
        · rw [if_pos hlt, if_pos (by omega)]
        · rw [if_neg hlt, if_neg (by omega)]
  obtain ⟨hlen, hget⟩ := hfill n (Nat.le_refl n) _ rfl
  apply List.ext_getElem
  · rw [fillKey, hlen, permuted, List.length_map, List.length_range]
  · intro column hcolumn _
    have hcolumn' : column < n := by
      rw [fillKey, hlen] at hcolumn
      exact hcolumn
    have hmem : column ∈ columnOrder := horder.mem_iff.mpr (List.mem_range.mpr hcolumn')
    have hidx : columnOrder.idxOf column < n := hlength ▸ List.idxOf_lt_length_of_mem hmem
    have heq := hget column hcolumn'
    rw [if_pos hidx, List.getD_eq_getElem _ 0 (by rw [hlen]; exact hcolumn')] at heq
    simp only [permuted, List.getElem_map, List.getElem_range]
    exact heq

theorem reorderColumns_eq (horder : columnOrder.Perm (List.range n)) (records : List Tuple) :
    ∀ {key : Tuple}, key.length = n →
      reorderColumns n columnOrder key records = records.map (permuted n columnOrder) := by
  induction records with
  | nil => exact fun _ => rfl
  | cons record records ih =>
    intro key hkey
    have hfill := fillKey_eq horder record hkey
    rw [reorderColumns, List.map_cons, hfill, ih]
    rw [permuted, List.length_map, List.length_range]

end OrderedFilePage

namespace OrderedFile

open OrderedFilePage (maxRecords permuted)

variable {n : Nat} {columnOrder : List Nat}

theorem permuted_of_not_need (horder : columnOrder.Perm (List.range n))
    (hneed : needColumnReorder n columnOrder = false) {record : Tuple} (hrecord : record.length = n) :
    permuted n columnOrder record = record := by
  have hlength : columnOrder.length = n := horder.length_eq.trans List.length_range
  have hsame : ∀ i < n, columnOrder.getD i 0 = i := by
    intro i hi
    have := List.any_eq_false.mp hneed i (List.mem_range.mpr hi)
    rw [bne_iff_ne, not_not] at this
    exact this
  have hnodup : columnOrder.Nodup := horder.nodup_iff.mpr List.nodup_range
  apply List.ext_getElem
  · rw [permuted, List.length_map, List.length_range, hrecord]
  · intro i hi hi'
    rw [hrecord] at hi'
    have hlt : i < columnOrder.length := by omega
    have hget := hsame i hi'
    rw [List.getD_eq_getElem columnOrder 0 hlt] at hget
    have hidx := hnodup.idxOf_getElem i hlt
    rw [hget] at hidx
    simp only [permuted, List.getElem_map, List.getElem_range, hidx]
    exact List.getD_eq_getElem record 0 (by omega)

theorem orderPage_spec (horder : columnOrder.Perm (List.range n)) (uninitialized : Nat → Nat)
    {records : List Tuple} (hcolumns : ∀ record ∈ records, record.length = n) :
    (orderPage n columnOrder uninitialized records).Perm
      (records.map (permuted n columnOrder)) ∧
    (orderPage n columnOrder uninitialized records).Pairwise (· ≤ ·) := by
  unfold orderPage
  split
  · rw [OrderedFilePage.reorderColumns_eq horder]
    · exact OrderedFilePage.order_spec _
    · rw [List.length_map, List.length_range]
  · next hneed =>
    have hsame : records.map (permuted n columnOrder) = records := by
      rw [List.map_congr_left fun record hrecord =>
        permuted_of_not_need horder (Bool.eq_false_iff.mpr hneed) (hcolumns record hrecord)]
      exact List.map_id' records
    rw [hsame]
    exact OrderedFilePage.order_spec records

theorem orderPages_eq (work : Nat → List Tuple → List Tuple) {lastPage pagesPerThread : Nat}
    (hpages : 0 < pagesPerThread) (fuel : Nat) :
    ∀ (startPage : Nat) (file : PageFile Tuple), lastPage < startPage + fuel →
    orderPages work lastPage pagesPerThread fuel startPage file =
      some fun p => if startPage ≤ p ∧ p ≤ lastPage then work p (file p) else file p := by
  -- the pages of one thread
  have hthread : ∀ (count start : Nat) (file : PageFile Tuple),
      (List.range' start count).foldl (fun file p => Function.update file p (work p (file p))) file =
        fun p => if start ≤ p ∧ p < start + count then work p (file p) else file p := by
    intro count
    induction count with
    | zero =>
      intro start file
      funext p
      rw [if_neg (by omega)]
      rfl
    | succ count ih =>
      intro start file
      rw [List.range'_succ, List.foldl_cons, ih]
      funext p
      by_cases hp : p = start
      · rw [if_neg (by omega), if_pos (by omega), hp, Function.update_self]
      · rw [Function.update_of_ne hp]
        by_cases hin : start + 1 ≤ p ∧ p < start + 1 + count
        · rw [if_pos hin, if_pos (by omega)]
        · rw [if_neg hin, if_neg (by omega)]
  have hdone : ∀ {startPage : Nat} {file : PageFile Tuple}, ¬ startPage ≤ lastPage →
      file = fun p => if startPage ≤ p ∧ p ≤ lastPage then work p (file p) else file p := by
    intro startPage file hlt
    funext p
    rw [if_neg (by omega)]
  induction fuel with
  | zero =>
    intro startPage file hfuel
    rw [orderPages, if_neg (by omega)]
    exact congrArg some (hdone (by omega))
  | succ fuel ih =>
    intro startPage file hfuel
    rw [orderPages]
    by_cases hle : startPage ≤ lastPage
    · rw [if_pos hle]
      dsimp only
      rw [ih _ _ (by omega), hthread]
      apply congrArg some
      funext p
      dsimp only
      split_ifs
      all_goals first | rfl | omega
    · rw [if_neg hle]
      exact congrArg some (hdone hle)

end OrderedFile
end MillenniumDB
