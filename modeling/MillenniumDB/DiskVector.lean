import MillenniumDB.BptWriter
import MillenniumDB.Lib.MergeRuns
import Mathlib.Data.List.Lex
import Mathlib.Data.List.Sort
import Mathlib.Data.List.Nodup
import Mathlib.Data.List.GetD
import Mathlib.Tactic.IntervalCases
import Mathlib.Tactic.NormNum

/-!
# Sorting on disk

A `DiskVector` collects tuples in a file.  For each tree it brings the columns of the tuples into
the order of that tree, sorts as much of the file as its buffer holds at a time, and merges what
it has sorted.  Sizes are counted in tuples of `N` columns instead of bytes.
-/

namespace MillenniumDB

structure Bpt where
  leaf : List LeafPage
  dir : List DirPage
  deriving DecidableEq

structure TreeWriter (σ : Type) where
  tree : Bpt
  stat : σ

def TreeWriter.start {σ : Type} (stat : σ) : TreeWriter σ := ⟨⟨[], BPTDirWriter.init⟩, stat⟩

structure DiskVector where
  file : List Tuple
  buffer : List Tuple
  totalTuples : Nat
  bufferSize : Nat
  currentPermutation : List Nat

namespace DiskVector

def init : DiskVector := ⟨[], [], 0, mdbPageSize, []⟩

def pushBack (record : Tuple) (v : DiskVector) : DiskVector :=
  let buffer := v.buffer ++ [record]
  if buffer.length = mdbPageSize then { v with file := v.file ++ buffer, buffer := [] }
  else { v with buffer := buffer }

def finishAppends (v : DiskVector) : DiskVector :=
  let file := v.file ++ v.buffer
  { v with file := file, buffer := [], totalTuples := file.length }

/-- The buffer is as large as whole blocks of `MDB_PAGE_SIZE` tuples allow. -/
def startIndexing (n maxBufferSize : Nat) (originalPermutation : List Nat) (v : DiskVector) :
    DiskVector :=
  { v with
    buffer := []
    bufferSize := maxBufferSize / (mdbPageSize * n * 8) * mdbPageSize
    currentPermutation := originalPermutation }

def swap01 : Tuple → Tuple
  | a :: b :: rest => b :: a :: rest
  | t => t

def swap02 : Tuple → Tuple
  | a :: b :: c :: rest => c :: b :: a :: rest
  | t => t

def swap12 : Tuple → Tuple
  | a :: b :: c :: rest => a :: c :: b :: rest
  | t => t

def rotate012 : Tuple → Tuple
  | a :: b :: c :: rest => b :: c :: a :: rest
  | t => t

/-- What `reorder_chunk` does to each tuple of a chunk. -/
def reorderTuple (n : Nat) (current new : List Nat) : Except Failure (Tuple → Tuple) :=
  let current := fun i => current.getD i 0
  let new := fun i => new.getD i 0
  if n = 1 then .ok id
  else if n = 2 then
    if current 0 = new 0 then
      if current 1 = new 1 then .ok id else .error .assertion
    else .ok swap01
  else if n = 3 then
    if current 0 = new 0 ∧ current 1 = new 1 ∧ current 2 = new 2 then .ok id
    else if new 0 = current 1 ∧ new 1 = current 2 ∧ new 2 = current 0 then .ok rotate012
    else if new 0 = current 1 ∧ new 1 = current 0 ∧ new 2 = current 2 then .ok swap01
    else if new 0 = current 2 ∧ new 1 = current 1 ∧ new 2 = current 0 then .ok swap02
    else .error (.invalidArgument "Unsuported permutation")
  else
    if current 0 = new 0 ∧ current 1 = new 1 ∧ current 2 = new 2 ∧ current 3 = new 3 then .ok id
    else if new 0 = current 1 ∧ new 1 = current 2 ∧ new 2 = current 0 ∧ new 3 = current 3 then
      .ok rotate012
    else if new 0 = current 0 ∧ new 1 = current 2 ∧ new 2 = current 1 ∧ new 3 = current 3 then
      .ok swap12
    else .error (.invalidArgument "Unsuported permutation")

def sort (tuples : List Tuple) : List Tuple := tuples.insertionSort (· ≤ ·)

/-- The loop of `reorder_cols`, from a position of the file on.  A chunk shorter than the buffer
is read up to the end of the file. -/
def reorderLoop (bufferSize : Nat) (reorder : Tuple → Tuple) :
    Nat → List Tuple → Except Failure (List Tuple)
  | 0, _ => .error .diverges
  | fuel + 1, rest =>
    let chunk := rest.take bufferSize
    let sorted := sort (chunk.map reorder)
    if chunk.length < bufferSize then .ok sorted
    else (reorderLoop bufferSize reorder fuel (rest.drop bufferSize)).map (sorted ++ ·)

def reorderCols (n : Nat) (newPermutation : List Nat) (v : DiskVector) :
    Except Failure DiskVector := do
  let reorder ← reorderTuple n v.currentPermutation newPermutation
  let file ← reorderLoop v.bufferSize reorder (v.file.length + 1) v.file
  .ok { v with file := file, currentPermutation := newPermutation }

def divisionRoundUp (a b : Nat) : Nat := a / b + if a % b ≠ 0 then 1 else 0

section

variable {σ : Type} (n : Nat) (process : σ → Tuple → σ)

/-- Writes a leaf; the first one does not go into the directory.  Over a single run `merge_sort`
asks for that whether any tuple was written before. -/
def writeLeaf (block : List Tuple) (leafCurrentBlock nextBlock : Nat) (w : TreeWriter σ) :
    Except Failure (TreeWriter σ) := do
  let dir ← if 0 < leafCurrentBlock then
      BPTDirWriter.bulkInsert n (block.headD []) leafCurrentBlock w.tree.dir
    else .ok w.tree.dir
  .ok { w with tree := ⟨BPTLeafWriter.processBlock block block.length nextBlock w.tree.leaf, dir⟩ }

/-- The loop of `merge_sort` over a single run. -/
def singleRun (totalTuples : Nat) : Nat → List Tuple → Nat → Nat → TreeWriter σ →
    Except Failure (TreeWriter σ)
  | 0, _, _, _, _ => .error .diverges
  | fuel + 1, rest, leafCurrentBlock, currentTuple, w => do
    if currentTuple < totalTuples then
      let maxRecords := BPTLeafWriter.maxRecords n
      let buffer := rest.take maxRecords
      if currentTuple + maxRecords < totalTuples then
        let w ← writeLeaf n buffer leafCurrentBlock (leafCurrentBlock + 1) w
        singleRun totalTuples fuel (rest.drop maxRecords) (leafCurrentBlock + 1)
          (currentTuple + maxRecords) { w with stat := buffer.foldl process w.stat }
      else
        let buffer := buffer.take (totalTuples - currentTuple)
        let w ← writeLeaf n buffer leafCurrentBlock 0 w
        .ok { w with stat := buffer.foldl process w.stat }
    else .ok w

/-- `queue.top()` and `queue.pop()`: a least record, and the others. -/
def popQueue : List (Tuple × Nat) → Option ((Tuple × Nat) × List (Tuple × Nat))
  | [] => none
  | pair :: queue =>
    match popQueue queue with
    | none => some (pair, [])
    | some (least, others) =>
      if pair.1 ≤ least.1 then some (pair, queue) else some (least, pair :: others)

/-- What `merge_sort` keeps of a run. -/
structure Run where
  block : List Tuple
  currentPos : Nat
  endPos : Nat
  currentBlock : Nat
  endBlock : Nat

def readBlock (file : List Tuple) (offset : Nat) : List Tuple :=
  (file.drop offset).take mdbPageSize

/-- The sizes that `merge_sort` computes before it merges. -/
structure RunSizes where
  bufferSize : Nat
  totalRuns : Nat
  maxBlocksPerRun : Nat
  tuplesInLastBlock : Nat
  blocksInLastRun : Nat

def runSizes (v : DiskVector) : RunSizes :=
  let totalBlocks := divisionRoundUp v.file.length mdbPageSize
  let maxBlocksPerRun := v.bufferSize / mdbPageSize
  { bufferSize := v.bufferSize
    totalRuns := divisionRoundUp v.file.length v.bufferSize
    maxBlocksPerRun := maxBlocksPerRun
    tuplesInLastBlock :=
      if v.totalTuples % mdbPageSize = 0 then mdbPageSize else v.totalTuples % mdbPageSize
    blocksInLastRun :=
      if totalBlocks % maxBlocksPerRun = 0 then maxBlocksPerRun
      else totalBlocks % maxBlocksPerRun }

/-- A run before its first tuple is taken.  The last run and its last block are special cases. -/
def startRun (sizes : RunSizes) (file : List Tuple) (run : Nat) : Run where
  block := readBlock file (sizes.bufferSize * run)
  currentPos := 0
  endPos :=
    if run = sizes.totalRuns - 1 ∧ sizes.blocksInLastRun = 1 then sizes.tuplesInLastBlock
    else mdbPageSize
  currentBlock := 0
  endBlock := if run = sizes.totalRuns - 1 then sizes.blocksInLastRun else sizes.maxBlocksPerRun

def nextTuple (sizes : RunSizes) (file : List Tuple) (minRun : Nat) (run : Run) :
    Run × Option Tuple :=
  let run := { run with currentPos := run.currentPos + 1 }
  if run.currentPos = run.endPos then
    let run := { run with currentPos := 0, currentBlock := run.currentBlock + 1 }
    if run.currentBlock = run.endBlock then (run, none)
    else
      let block := readBlock file (sizes.bufferSize * minRun + run.currentBlock * mdbPageSize)
      let run := { run with block := block }
      let run :=
        if minRun = sizes.totalRuns - 1 ∧ run.currentBlock = sizes.blocksInLastRun - 1 then
          { run with endPos := sizes.tuplesInLastBlock }
        else run
      (run, some (run.block.getD run.currentPos []))
  else (run, some (run.block.getD run.currentPos []))

/-- The block that `merge_sort` fills before it becomes a leaf. -/
structure Output (σ : Type) where
  outputBlock : List Tuple
  leafCurrentBlock : Nat
  writer : TreeWriter σ

def output (leafLastBlock : Nat) (out : Output σ) (record : Tuple) :
    Except Failure (Output σ) := do
  let out ←
    if out.outputBlock.length = BPTLeafWriter.maxRecords n then do
      let next := out.leafCurrentBlock + 1
      let w ← writeLeaf n out.outputBlock out.leafCurrentBlock
        (if next < leafLastBlock then next else 0) out.writer
      .ok (Output.mk [] next w)
    else .ok out
  .ok { out with
    outputBlock := out.outputBlock ++ [record]
    writer := { out.writer with stat := process out.writer.stat record } }

/-- The loop of `merge_sort` that merges runs. -/
def mergeLoop (sizes : RunSizes) (file : List Tuple) (leafLastBlock : Nat) :
    Nat → List (Tuple × Nat) → (Nat → Run) → Output σ → Except Failure (Output σ)
  | 0, _, _, _ => .error .diverges
  | fuel + 1, queue, runs, out =>
    match popQueue queue with
    | none => .ok out
    | some ((record, minRun), queue) => do
      let out ← output n process leafLastBlock out record
      let next := nextTuple sizes file minRun (runs minRun)
      let queue :=
        match next.2 with
        | none => queue
        | some record => (record, minRun) :: queue
      mergeLoop sizes file leafLastBlock fuel queue (Function.update runs minRun next.1) out

def finishOutput (out : Output σ) : Except Failure (TreeWriter σ) :=
  if out.outputBlock ≠ [] then writeLeaf n out.outputBlock out.leafCurrentBlock 0 out.writer
  else .ok out.writer

def mergeSort (stat : σ) (v : DiskVector) : Except Failure (TreeWriter σ) := do
  let start := TreeWriter.start stat
  if v.file.length = 0 then
    .ok { start with tree := { start.tree with leaf := BPTLeafWriter.makeEmpty start.tree.leaf } }
  else
    let sizes := v.runSizes
    if sizes.totalRuns * mdbPageSize + BPTLeafWriter.maxRecords n ≤ v.bufferSize then
      if sizes.totalRuns = 1 then
        singleRun n process v.totalTuples (v.totalTuples + 1) v.file 0 0 start
      else
        let runs := startRun sizes v.file
        let queue := (List.range sizes.totalRuns).map fun run => ((runs run).block.getD 0 [], run)
        let leafLastBlock := divisionRoundUp v.totalTuples (BPTLeafWriter.maxRecords n)
        let out ← mergeLoop n process sizes v.file leafLastBlock (v.totalTuples + 1) queue runs
          ⟨[], 0, start⟩
        finishOutput n out
    else .error .assertion

def createBpt (stat : σ) (newPermutation : List Nat) (v : DiskVector) :
    Except Failure (TreeWriter σ × DiskVector) := do
  let v ← v.reorderCols n newPermutation
  let w ← v.mergeSort n process stat
  .ok (w, v)

end

/-- A tuple pushed with the columns `original`, with the columns `new`. -/
def columns (original new : List Nat) (t : Tuple) : Tuple :=
  new.map fun column => t.getD (original.idxOf column) 0

theorem columns_self {original : List Nat} {t : Tuple} (hnodup : original.Nodup)
    (hlen : t.length = original.length) : columns original original t = t := by
  apply List.ext_getElem
  · simp [columns, hlen]
  · intro i hi hi'
    have hi'' : i < original.length := hlen ▸ hi'
    simp only [columns, List.getElem_map]
    rw [hnodup.idxOf_getElem i hi'', List.getD_eq_getElem _ _ hi']

theorem perm_pair {a b x y : Nat} (h : [x, y].Perm [a, b]) (hne : a ≠ x) : x = b ∧ y = a := by
  have hx : x = b := by
    have hmem : x ∈ [a, b] := h.mem_iff.mp List.mem_cons_self
    simp only [List.mem_cons, List.not_mem_nil, or_false] at hmem
    exact hmem.resolve_left (Ne.symm hne)
  subst hx
  have hy := (List.perm_cons x).mp (h.trans (.swap x a []))
  exact ⟨rfl, List.singleton_perm_singleton.mp hy⟩

theorem reorderTuple_columns {n : Nat} {original current new : List Nat}
    {reorder : Tuple → Tuple} (h : reorderTuple n current new = .ok reorder) (hn : 0 < n)
    (hle : n ≤ 4) (hcurrent : current.length = n) (hperm : new.Perm current) (t : Tuple) :
    reorder (columns original current t) = columns original new t := by
  have hnew : new.length = n := hperm.length_eq.trans hcurrent
  interval_cases n
  · match current, new, hcurrent, hnew with
    | [a], [x], _, _ =>
      cases h
      rw [List.singleton_perm_singleton.mp hperm]
      rfl
  · match current, new, hcurrent, hnew with
    | [a, b], [x, y], _, _ =>
      simp only [reorderTuple, List.getD_cons_zero, List.getD_cons_succ] at h
      by_cases hax : a = x
      · simp [hax] at h
        split_ifs at h with hby
        cases h
        rw [hax, hby]
        rfl
      · simp [hax] at h
        obtain ⟨rfl, rfl⟩ := perm_pair hperm hax
        rw [← h]
        rfl
  · match current, new, hcurrent, hnew with
    | [a, b, c], [x, y, z], _, _ =>
      simp only [reorderTuple, List.getD_cons_zero, List.getD_cons_succ] at h
      norm_num at h
      split_ifs at h with hid hrot hswap hswap' <;> cases h
      · obtain ⟨rfl, rfl, rfl⟩ := hid; rfl
      · obtain ⟨rfl, rfl, rfl⟩ := hrot; rfl
      · obtain ⟨rfl, rfl, rfl⟩ := hswap; rfl
      · obtain ⟨rfl, rfl, rfl⟩ := hswap'; rfl
  · match current, new, hcurrent, hnew with
    | [a, b, c, d], [x, y, z, w], _, _ =>
      simp only [reorderTuple, List.getD_cons_zero, List.getD_cons_succ] at h
      norm_num at h
      split_ifs at h with hid hrot hswap <;> cases h
      · obtain ⟨rfl, rfl, rfl, rfl⟩ := hid; rfl
      · obtain ⟨rfl, rfl, rfl, rfl⟩ := hrot; rfl
      · obtain ⟨rfl, rfl, rfl, rfl⟩ := hswap; rfl

theorem perm_sort (l : List Tuple) : (sort l).Perm l := List.perm_insertionSort _ l

theorem pairwise_sort (l : List Tuple) : (sort l).Pairwise (· ≤ ·) :=
  List.pairwise_insertionSort _ l

@[simp] theorem length_sort (l : List Tuple) : (sort l).length = l.length :=
  List.length_insertionSort _ l

theorem eq_sort {l l' : List Tuple} (hperm : l.Perm l') (hsorted : l.Pairwise (· ≤ ·)) :
    l = sort l' :=
  (hperm.trans (perm_sort l').symm).eq_of_pairwise (fun _ _ _ _ => le_antisymm) hsorted
    (pairwise_sort l')

section

variable {bufferSize : Nat} (reorder : Tuple → Tuple)

def runOf (bufferSize : Nat) (file : List Tuple) (run : Nat) : List Tuple :=
  (file.drop (bufferSize * run)).take bufferSize

/-- `reorder_cols` comes to its end, with every run sorted. -/
theorem reorderLoop_ok (hsize : 0 < bufferSize) (fuel : Nat) (rest : List Tuple)
    (hfuel : rest.length < fuel) :
    ∃ file, reorderLoop bufferSize reorder fuel rest = .ok file ∧
      file.Perm (rest.map reorder) ∧ ∀ run, (runOf bufferSize file run).Pairwise (· ≤ ·) := by
  induction fuel generalizing rest with
  | zero => omega
  | succ fuel ih =>
    rw [reorderLoop]
    by_cases hend : (rest.take bufferSize).length < bufferSize
    · have hlen : rest.length ≤ bufferSize := by
        rw [List.length_take] at hend
        omega
      rw [if_pos hend, List.take_of_length_le hlen]
      refine ⟨_, rfl, perm_sort _, fun run => ?_⟩
      exact (pairwise_sort _).sublist ((List.take_sublist _ _).trans (List.drop_sublist _ _))
    · rw [if_neg hend]
      obtain ⟨file, heq, hperm, hsorted⟩ := ih (rest.drop bufferSize)
        (by simp at hend ⊢; omega)
      rw [heq]
      have hlen : (sort ((rest.take bufferSize).map reorder)).length = bufferSize := by
        simp at hend ⊢
        omega
      have hfirst := pairwise_sort ((rest.take bufferSize).map reorder)
      have hpermFirst := perm_sort ((rest.take bufferSize).map reorder)
      generalize sort ((rest.take bufferSize).map reorder) = first at hlen hfirst hpermFirst ⊢
      refine ⟨first ++ file, rfl, ?_, fun run => ?_⟩
      · rw [← List.take_append_drop bufferSize rest, List.map_append]
        exact hpermFirst.append hperm
      · -- the first run is the chunk just sorted, the others are those behind it
        cases run with
        | zero =>
          rw [runOf, Nat.mul_zero, List.drop_zero, List.take_left' hlen]
          exact hfirst
        | succ run =>
          rw [runOf, Nat.mul_succ, Nat.add_comm, ← List.drop_drop, List.drop_left' hlen]
          exact hsorted run

end

section

variable {σ : Type} (n : Nat) (process : σ → Tuple → σ)

theorem writeLeaf_stat (block : List Tuple) (leaf next : Nat) (w : TreeWriter σ) (stat : σ) :
    writeLeaf n block leaf next { w with stat := stat } =
      (writeLeaf n block leaf next w).map fun w => { w with stat := stat } := by
  by_cases hleaf : 0 < leaf
  · simp only [writeLeaf, if_pos hleaf, bind, Except.bind]
    cases BPTDirWriter.bulkInsert n (block.headD []) leaf w.tree.dir <;> rfl
  · simp only [writeLeaf, if_neg hleaf, bind, Except.bind]
    rfl

theorem stat_of_writeLeaf {block : List Tuple} {leaf next : Nat} {w w' : TreeWriter σ}
    (h : writeLeaf n block leaf next w = .ok w') : w'.stat = w.stat := by
  have hsame := writeLeaf_stat n block leaf next w w.stat
  rw [show ({ w with stat := w.stat } : TreeWriter σ) = w from rfl, h] at hsame
  have heq : w' = { w' with stat := w.stat } := by
    simpa only [Except.map, Except.ok.injEq] using hsame
  rw [heq]

theorem writeLeaf_ok (block : List Tuple) (leaf next : Nat) (w : TreeWriter σ)
    (hgrown : BPTDirWriter.Grown w.tree.dir) :
    ∃ dir, BPTDirWriter.Grown dir ∧ writeLeaf n block leaf next w =
      .ok ⟨⟨w.tree.leaf ++ [⟨block.length, next, block⟩], dir⟩, w.stat⟩ := by
  by_cases hleaf : 0 < leaf
  · obtain ⟨dir, heq, hdir⟩ := BPTDirWriter.bulkInsert_ok n (block.headD []) leaf hgrown
    refine ⟨dir, hdir, ?_⟩
    simp only [writeLeaf, if_pos hleaf, heq, bind, Except.bind, BPTLeafWriter.processBlock,
      List.take_length]
  · refine ⟨w.tree.dir, hgrown, ?_⟩
    simp [writeLeaf, hleaf, bind, Except.bind, BPTLeafWriter.processBlock]

theorem divisionRoundUp_eq {a b : Nat} (ha : 0 < a) :
    divisionRoundUp a b = (a - 1) / b + 1 := by
  simp only [divisionRoundUp]
  obtain ⟨x, rfl⟩ := Nat.exists_eq_add_one_of_ne_zero ha.ne'
  simp only [Nat.add_sub_cancel, Nat.succ_div, Nat.dvd_iff_mod_eq_zero]
  split_ifs <;> omega

theorem lt_divisionRoundUp {a b k : Nat} (hb : 0 < b) (h : k * b < a) :
    k < divisionRoundUp a b := by
  rw [divisionRoundUp_eq (by omega), Nat.lt_succ_iff, Nat.le_div_iff_mul_le hb]
  omega

/-- Merged records become the leaves that the same records become in a single run.  The block
holds what came after the last leaf. -/
theorem finishOutput_eq_singleRun (hmax : 0 < BPTLeafWriter.maxRecords n) (total leaf fuel : Nat)
    (block records : List Tuple) (w : TreeWriter σ)
    (hblock : block.length ≤ BPTLeafWriter.maxRecords n) (hne : block ++ records ≠ [])
    (htotal : total = leaf * BPTLeafWriter.maxRecords n + (block ++ records).length)
    (hfuel : (block ++ records).length < fuel) :
    (records.foldlM (output n process (divisionRoundUp total (BPTLeafWriter.maxRecords n)))
        ⟨block, leaf, { w with stat := block.foldl process w.stat }⟩ >>= finishOutput n) =
      singleRun n process total fuel (block ++ records) leaf
        (leaf * BPTLeafWriter.maxRecords n) w := by
  generalize hm : BPTLeafWriter.maxRecords n = max at *
  induction records generalizing block leaf fuel w with
  | nil =>
    obtain ⟨fuel, rfl⟩ := Nat.exists_eq_add_one_of_ne_zero (by omega : fuel ≠ 0)
    rw [List.append_nil] at *
    have hlen := List.length_pos_iff.mpr hne
    rw [singleRun, hm, if_pos (by omega), if_neg (by omega), List.take_of_length_le hblock,
      List.take_of_length_le (by omega)]
    simp only [List.foldlM_nil, pure, Except.pure, bind, Except.bind, finishOutput, if_pos hne]
    rw [writeLeaf_stat]
    cases hw : writeLeaf n block leaf 0 w with
    | error e => rfl
    | ok w' => simp only [Except.map, stat_of_writeLeaf n hw]
  | cons a records ih =>
    rw [List.foldlM_cons]
    simp only [List.length_append, List.length_cons] at htotal hfuel
    by_cases hfull : block.length = max
    · -- the block becomes a leaf, and the record starts the next one
      obtain ⟨fuel, rfl⟩ := Nat.exists_eq_add_one_of_ne_zero (by omega : fuel ≠ 0)
      have hnext : leaf + 1 < divisionRoundUp total max := by
        apply lt_divisionRoundUp hmax
        rw [Nat.succ_mul]
        omega
      rw [singleRun, hm, if_pos (by omega), if_pos (by omega), List.take_left' hfull,
        List.drop_left' hfull]
      simp only [output, hm, if_pos hfull, if_pos hnext, writeLeaf_stat]
      cases hw : writeLeaf n block leaf (leaf + 1) w with
      | error e => rfl
      | ok w' =>
        have hrest := ih (leaf + 1) fuel [a] { w' with stat := block.foldl process w.stat }
          (by simp)
          (by simp only [List.length_append, List.length_cons, List.length_nil]; omega)
          (by simp only [List.length_cons, List.length_nil]; omega)
          (by simp only [List.length_append, List.length_cons, List.length_nil, Nat.succ_mul]; omega)
        rw [Nat.succ_mul] at hrest
        simp only [bind, Except.bind, Except.map, stat_of_writeLeaf n hw] at hrest ⊢
        exact hrest
    · have hrest := ih leaf fuel (block ++ [a]) w (by simp)
        (by simp only [List.length_append, List.length_cons, List.length_nil]; omega)
        (by simp only [List.length_append, List.length_cons, List.length_nil]; omega)
        (by simp only [List.length_append, List.length_cons, List.length_nil]; omega)
      rw [List.append_assoc, List.foldl_append] at hrest
      simp only [output, hm, if_neg hfull, bind, Except.bind] at hrest ⊢
      exact hrest

def bulkLoad (stat : σ) (records : List Tuple) : Except Failure (TreeWriter σ) :=
  let start := TreeWriter.start stat
  if records = [] then
    .ok { start with tree := { start.tree with leaf := BPTLeafWriter.makeEmpty start.tree.leaf } }
  else singleRun n process records.length (records.length + 1) records 0 0 start

end

/-- The leaf pages of a tree hold the given records in order: they are full but the last, and
each names the next one. -/
structure Paged (n : Nat) (records : List Tuple) (leaves : List LeafPage) : Prop where
  concat : leaves.flatMap LeafPage.records = records
  length : leaves.length = max 1 (divisionRoundUp records.length (BPTLeafWriter.maxRecords n))
  valueCount : ∀ page ∈ leaves, page.valueCount = page.records.length
  full : ∀ i page, leaves[i]? = some page → i + 1 < leaves.length →
    page.valueCount = BPTLeafWriter.maxRecords n
  bounded : ∀ page ∈ leaves, page.valueCount ≤ BPTLeafWriter.maxRecords n
  nextLeaf : ∀ i page, leaves[i]? = some page →
    page.nextLeaf = if i + 1 < leaves.length then i + 1 else 0

/-- The leaf pages of the last records, from the page `first` on. -/
structure PagedFrom (n first : Nat) (records : List Tuple) (leaves : List LeafPage) : Prop where
  concat : leaves.flatMap LeafPage.records = records
  length : leaves.length = divisionRoundUp records.length (BPTLeafWriter.maxRecords n)
  valueCount : ∀ page ∈ leaves, page.valueCount = page.records.length
  full : ∀ i page, leaves[i]? = some page → i + 1 < leaves.length →
    page.valueCount = BPTLeafWriter.maxRecords n
  bounded : ∀ page ∈ leaves, page.valueCount ≤ BPTLeafWriter.maxRecords n
  nextLeaf : ∀ i page, leaves[i]? = some page →
    page.nextLeaf = if i + 1 < leaves.length then first + i + 1 else 0

section

variable {σ : Type} {n first : Nat} (process : σ → Tuple → σ) {records : List Tuple}
  {leaves : List LeafPage}

theorem divisionRoundUp_add {a b : Nat} (ha : 0 < a) (hb : 0 < b) :
    divisionRoundUp (b + a) b = divisionRoundUp a b + 1 := by
  rw [divisionRoundUp_eq (by omega), divisionRoundUp_eq ha, Nat.add_sub_assoc ha,
    Nat.add_div_left _ hb]

theorem pagedFrom_last (hne : records ≠ [])
    (hlen : records.length ≤ BPTLeafWriter.maxRecords n) :
    PagedFrom n first records [⟨records.length, 0, records⟩] where
  concat := by simp
  length := by
    have hpos := List.length_pos_iff.mpr hne
    rw [divisionRoundUp_eq hpos, Nat.div_eq_of_lt (by omega)]
    rfl
  valueCount page hpage := by
    cases List.mem_singleton.mp hpage
    rfl
  full i page hpage hi := by
    rw [List.length_singleton] at hi
    omega
  bounded page hpage := by
    cases List.mem_singleton.mp hpage
    exact hlen
  nextLeaf i page hpage := by
    cases i with
    | zero =>
      cases Option.some.inj hpage
      rfl
    | succ i => cases hpage

theorem PagedFrom.cons {block : List Tuple} (hmax : 0 < BPTLeafWriter.maxRecords n)
    (h : PagedFrom n (first + 1) records leaves) (hne : records ≠ [])
    (hblock : block.length = BPTLeafWriter.maxRecords n) :
    PagedFrom n first (block ++ records) (⟨block.length, first + 1, block⟩ :: leaves) where
  concat := by rw [List.flatMap_cons, h.concat]
  length := by
    rw [List.length_cons, h.length, List.length_append, hblock,
      divisionRoundUp_add (List.length_pos_iff.mpr hne) hmax]
  valueCount page hpage := by
    rcases List.mem_cons.mp hpage with rfl | hpage
    · rfl
    · exact h.valueCount page hpage
  full i page hpage hi := by
    cases i with
    | zero =>
      cases Option.some.inj hpage
      exact hblock
    | succ i => exact h.full i page hpage (Nat.lt_of_succ_lt_succ hi)
  bounded page hpage := by
    rcases List.mem_cons.mp hpage with rfl | hpage
    · exact hblock.le
    · exact h.bounded page hpage
  nextLeaf i page hpage := by
    cases i with
    | zero =>
      cases Option.some.inj hpage
      have hpos : 0 < leaves.length := by
        rw [h.length, divisionRoundUp_eq (List.length_pos_iff.mpr hne)]
        exact Nat.succ_pos _
      rw [List.length_cons, if_pos (by omega)]
    | succ i =>
      rw [h.nextLeaf i page hpage]
      simp only [List.length_cons, Nat.add_lt_add_iff_right]
      split_ifs <;> omega

theorem singleRun_ok (hmax : 0 < BPTLeafWriter.maxRecords n) (total fuel leaf : Nat)
    (records : List Tuple) (w : TreeWriter σ) (hne : records ≠ [])
    (htotal : total = leaf * BPTLeafWriter.maxRecords n + records.length)
    (hfuel : records.length < fuel) (hgrown : BPTDirWriter.Grown w.tree.dir) :
    ∃ leaves dir, PagedFrom n leaf records leaves ∧
      singleRun n process total fuel records leaf (leaf * BPTLeafWriter.maxRecords n) w =
        .ok ⟨⟨w.tree.leaf ++ leaves, dir⟩, records.foldl process w.stat⟩ := by
  induction fuel generalizing leaf records w with
  | zero => omega
  | succ fuel ih =>
    have hpos := List.length_pos_iff.mpr hne
    rw [singleRun, if_pos (by omega)]
    by_cases hmore : BPTLeafWriter.maxRecords n < records.length
    · -- a full leaf, and the leaves of the others
      rw [if_pos (by omega)]
      obtain ⟨block, rest, rfl, hblock⟩ :
          ∃ block rest, records = block ++ rest ∧ block.length = BPTLeafWriter.maxRecords n :=
        ⟨_, _, (List.take_append_drop (BPTLeafWriter.maxRecords n) records).symm,
          by rw [List.length_take]; omega⟩
      rw [List.take_left' hblock, List.drop_left' hblock]
      rw [List.length_append] at htotal hfuel hmore
      have hrest : rest ≠ [] := by
        rw [← List.length_pos_iff]
        omega
      obtain ⟨dir, hdir, heq⟩ := writeLeaf_ok n block leaf (leaf + 1) w hgrown
      obtain ⟨leaves, dir', hpaged, hrun⟩ := ih (leaf + 1) rest
        ⟨⟨w.tree.leaf ++ [⟨block.length, leaf + 1, block⟩], dir⟩, block.foldl process w.stat⟩
        hrest (by rw [Nat.succ_mul]; omega) (by omega) hdir
      rw [Nat.succ_mul] at hrun
      refine ⟨_, dir', hpaged.cons hmax hrest hblock, ?_⟩
      simp only [heq, bind, Except.bind]
      rw [hrun, List.append_assoc, List.singleton_append, List.foldl_append]
    · have hall : records.take (BPTLeafWriter.maxRecords n) = records :=
        List.take_of_length_le (by omega)
      rw [if_neg (by omega), hall, List.take_of_length_le (by omega)]
      obtain ⟨dir, hdir, heq⟩ := writeLeaf_ok n records leaf 0 w hgrown
      refine ⟨_, dir, pagedFrom_last hne (by omega), ?_⟩
      simp only [heq, bind, Except.bind]

theorem PagedFrom.paged (h : PagedFrom n 0 records leaves) (hne : records ≠ []) :
    Paged n records leaves where
  concat := h.concat
  length := by
    rw [h.length, divisionRoundUp_eq (List.length_pos_iff.mpr hne),
      Nat.max_eq_right (Nat.succ_pos _)]
  valueCount := h.valueCount
  full := h.full
  bounded := h.bounded
  nextLeaf i page hpage := by rw [h.nextLeaf i page hpage, Nat.zero_add]

theorem paged_nil : Paged n [] [⟨0, 0, []⟩] where
  concat := rfl
  length := by simp [divisionRoundUp]
  valueCount page hpage := by
    cases List.mem_singleton.mp hpage
    rfl
  full i page hpage hi := by
    rw [List.length_singleton] at hi
    omega
  bounded page hpage := by
    cases List.mem_singleton.mp hpage
    exact Nat.zero_le _
  nextLeaf i page hpage := by
    cases i with
    | zero =>
      cases Option.some.inj hpage
      rfl
    | succ i => cases hpage

theorem bulkLoad_ok (hmax : 0 < BPTLeafWriter.maxRecords n) (stat : σ) (records : List Tuple) :
    ∃ w, bulkLoad n process stat records = .ok w ∧ Paged n records w.tree.leaf ∧
      w.stat = records.foldl process stat := by
  rw [bulkLoad]
  by_cases hne : records = []
  · subst hne
    rw [if_pos rfl]
    exact ⟨_, rfl, paged_nil, rfl⟩
  · rw [if_neg hne]
    obtain ⟨leaves, dir, hpaged, heq⟩ :=
      singleRun_ok process hmax records.length (records.length + 1) 0 records
        (TreeWriter.start stat) hne (by omega) (by omega) BPTDirWriter.grown_init
    rw [Nat.zero_mul] at heq
    exact ⟨_, heq, hpaged.paged hne, rfl⟩

end

end DiskVector
end MillenniumDB
