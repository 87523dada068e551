import MillenniumDB.DiskVector

/-!
# Merging sorted runs from disk

The merge reads its runs one block at a time.  However the runs are cut into blocks, it takes the
tuples of each run in order, and the tree it writes is the tree of all tuples in order.
-/

namespace MillenniumDB
namespace DiskVector

def RunSizes.blocksOf (sizes : RunSizes) (run : Nat) : Nat :=
  if run = sizes.totalRuns - 1 then sizes.blocksInLastRun else sizes.maxBlocksPerRun

def RunSizes.tuplesOf (sizes : RunSizes) (run : Nat) : Nat :=
  if run = sizes.totalRuns - 1 then sizes.tuplesInLastBlock else mdbPageSize

structure Sized (sizes : RunSizes) (file : List Tuple) : Prop where
  runs : 0 < sizes.totalRuns
  blocks : ∀ run, 0 < sizes.blocksOf run
  tuples : ∀ run, 0 < sizes.tuplesOf run ∧ sizes.tuplesOf run ≤ mdbPageSize
  length : ∀ run < sizes.totalRuns, (runOf sizes.bufferSize file run).length =
    (sizes.blocksOf run - 1) * mdbPageSize + sizes.tuplesOf run
  fits : ∀ run, sizes.blocksOf run * mdbPageSize ≤ sizes.bufferSize
  all : file.length ≤ sizes.bufferSize * sizes.totalRuns

theorem length_runOf (bufferSize : Nat) (file : List Tuple) (run : Nat) :
    (runOf bufferSize file run).length = min bufferSize (file.length - bufferSize * run) := by
  rw [runOf, List.length_take, List.length_drop]

theorem ite_mod_eq {a b : Nat} (ha : 0 < a) (hb : 0 < b) :
    (if a % b = 0 then b else a % b) = (a - 1) % b + 1 := by
  obtain ⟨x, rfl⟩ := Nat.exists_eq_add_one_of_ne_zero ha.ne'
  have hlt := Nat.mod_lt x hb
  rw [Nat.add_sub_cancel, ← Nat.mod_add_mod]
  by_cases hfull : x % b + 1 = b
  · rw [hfull, Nat.mod_self, if_pos rfl]
  · rw [Nat.mod_eq_of_lt (by omega), if_neg (by omega)]

/-- The sizes of a file that is not empty, by the last of its tuples: the run and the block of the
tuple, and its place there. -/
theorem sized_runSizes {v : DiskVector} {blocks : Nat}
    (hbuffer : v.bufferSize = blocks * mdbPageSize) (hblocks : 0 < blocks)
    (hfile : 0 < v.file.length) (htotal : v.totalTuples = v.file.length) :
    Sized v.runSizes v.file := by
  obtain ⟨last, hlast⟩ := Nat.exists_eq_add_one_of_ne_zero hfile.ne'
  have hpage : 0 < mdbPageSize := by decide
  have hruns : v.runSizes.totalRuns = last / mdbPageSize / blocks + 1 := by
    simp only [runSizes]
    rw [divisionRoundUp_eq hfile, hlast, hbuffer, Nat.add_sub_cancel, Nat.div_div_eq_div_mul,
      Nat.mul_comm]
  have hblocksInLastRun : v.runSizes.blocksInLastRun = last / mdbPageSize % blocks + 1 := by
    simp only [runSizes]
    rw [hbuffer, Nat.mul_div_cancel _ hpage, divisionRoundUp_eq hfile,
      ite_mod_eq (Nat.succ_pos _) hblocks, hlast, Nat.succ_sub_one, Nat.succ_sub_one]
  have htuples : v.runSizes.tuplesInLastBlock = last % mdbPageSize + 1 := by
    simp only [runSizes]
    rw [htotal, ite_mod_eq hfile hpage, hlast, Nat.add_sub_cancel]
  have hmax : v.runSizes.maxBlocksPerRun = blocks := by
    simp only [runSizes]
    rw [hbuffer, Nat.mul_div_cancel _ hpage]
  have hsize : v.runSizes.bufferSize = blocks * mdbPageSize := hbuffer
  have hblock := Nat.div_add_mod last mdbPageSize
  have hrun := Nat.div_add_mod (last / mdbPageSize) blocks
  have hinBlock := Nat.mod_lt last hpage
  have hinRun := Nat.mod_lt (last / mdbPageSize) hblocks
  generalize last / mdbPageSize / blocks = q at *
  generalize last / mdbPageSize % blocks = b at *
  generalize last / mdbPageSize = y at *
  generalize last % mdbPageSize = t at *
  have hoffset : ∀ run, blocks * mdbPageSize * run = mdbPageSize * (blocks * run) := by
    intro run
    rw [Nat.mul_assoc, Nat.mul_left_comm]
  simp only [mdbPageSize] at *
  constructor
  · omega
  · intro run
    simp only [RunSizes.blocksOf]
    split_ifs <;> omega
  · intro run
    simp only [RunSizes.tuplesOf, mdbPageSize]
    split_ifs <;> omega
  · intro run hlt
    rw [length_runOf, hsize, hoffset]
    simp only [RunSizes.blocksOf, RunSizes.tuplesOf, mdbPageSize]
    by_cases hrunLast : run = v.runSizes.totalRuns - 1
    · have hq : run = q := by omega
      rw [if_pos hrunLast, if_pos hrunLast, hq]
      omega
    · rw [if_neg hrunLast, if_neg hrunLast]
      have hle : blocks * (run + 1) ≤ blocks * q := Nat.mul_le_mul_left blocks (by omega)
      rw [Nat.mul_succ] at hle
      omega
  · intro run
    simp only [RunSizes.blocksOf, mdbPageSize]
    split_ifs <;> omega
  · rw [hsize, hoffset, hruns, Nat.mul_succ]
    omega

theorem flatMap_runOf (bufferSize : Nat) (file : List Tuple) (k : Nat) :
    (List.range k).flatMap (runOf bufferSize file) = file.take (bufferSize * k) := by
  induction k with
  | zero => rfl
  | succ k ih =>
    rw [List.range_succ, List.flatMap_append, ih, List.flatMap_singleton, runOf, Nat.mul_succ,
      List.take_add]

def runsOf (sizes : RunSizes) (file : List Tuple) (run : Nat) : List Tuple :=
  if run < sizes.totalRuns then runOf sizes.bufferSize file run else []

theorem flatMap_runsOf {sizes : RunSizes} {file : List Tuple} (hs : Sized sizes file) :
    (List.range sizes.totalRuns).flatMap (runsOf sizes file) = file := by
  have hruns : (List.range sizes.totalRuns).flatMap (runsOf sizes file) =
      (List.range sizes.totalRuns).flatMap (runOf sizes.bufferSize file) := by
    apply List.flatMap_congr
    intro run hrun
    exact if_pos (List.mem_range.mp hrun)
  rw [hruns, flatMap_runOf, List.take_of_length_le hs.all]

theorem readBlock_getD {sizes : RunSizes} {file : List Tuple} (run block pos : Nat)
    (hpos : pos < mdbPageSize) (hfits : block * mdbPageSize + pos < sizes.bufferSize) :
    (readBlock file (sizes.bufferSize * run + block * mdbPageSize)).getD pos [] =
      (runOf sizes.bufferSize file run).getD (block * mdbPageSize + pos) [] := by
  rw [List.getD_eq_getElem?_getD, List.getD_eq_getElem?_getD, readBlock, runOf,
    List.getElem?_take_of_lt hpos, List.getElem?_take_of_lt hfits, List.getElem?_drop,
    List.getElem?_drop, Nat.add_assoc]

structure Reads (sizes : RunSizes) (file : List Tuple) (number : Nat) (run : Run)
    (rest : List Tuple) : Prop where
  block : run.block = readBlock file (sizes.bufferSize * number + run.currentBlock * mdbPageSize)
  currentPos : run.currentPos < run.endPos
  endPos : run.endPos =
    if run.currentBlock + 1 = sizes.blocksOf number then sizes.tuplesOf number else mdbPageSize
  currentBlock : run.currentBlock < run.endBlock
  endBlock : run.endBlock = sizes.blocksOf number
  rest : rest = (runOf sizes.bufferSize file number).drop
    (run.currentBlock * mdbPageSize + run.currentPos)

section

variable {sizes : RunSizes} {file : List Tuple} {number : Nat} {run : Run} {a : Tuple}
  {rest : List Tuple}

theorem reads_startRun (hs : Sized sizes file) (number : Nat) :
    Reads sizes file number (startRun sizes file number) (runOf sizes.bufferSize file number) where
  block := by simp [startRun]
  currentPos := by
    have := hs.tuples (sizes.totalRuns - 1)
    simp only [RunSizes.tuplesOf, if_true] at this
    simp only [startRun]
    split_ifs
    · exact this.1
    · decide
  endPos := by
    simp only [startRun, RunSizes.blocksOf, RunSizes.tuplesOf, Nat.zero_add]
    split_ifs <;> omega
  currentBlock := hs.blocks number
  endBlock := rfl
  rest := by simp [startRun]

theorem Reads.endPos_le (h : Reads sizes file number run rest) (hs : Sized sizes file) :
    run.endPos ≤ mdbPageSize := by
  rw [h.endPos]
  split_ifs
  · exact (hs.tuples number).2
  · exact Nat.le_refl _

theorem Reads.lt_bufferSize (h : Reads sizes file number run rest) (hs : Sized sizes file)
    (pos : Nat) (hpos : pos < run.endPos) :
    run.currentBlock * mdbPageSize + pos < sizes.bufferSize := by
  have hfits := hs.fits number
  have hle := h.endPos_le hs
  have hblock : (run.currentBlock + 1) * mdbPageSize ≤ sizes.blocksOf number * mdbPageSize :=
    Nat.mul_le_mul_right _ (h.endBlock ▸ h.currentBlock)
  rw [Nat.succ_mul] at hblock
  omega

theorem Reads.getD_block (h : Reads sizes file number run (a :: rest)) (hs : Sized sizes file) :
    run.block.getD run.currentPos [] = a := by
  have hle := h.endPos_le hs
  have hpos := h.currentPos
  rw [h.block, readBlock_getD number _ _ (by omega) (h.lt_bufferSize hs _ hpos),
    List.getD_eq_getElem?_getD, ← List.head?_drop, ← h.rest]
  rfl

theorem Reads.length_rest (h : Reads sizes file number run rest) (hs : Sized sizes file)
    (hnumber : number < sizes.totalRuns) :
    rest.length + (run.currentBlock * mdbPageSize + run.currentPos) =
      (sizes.blocksOf number - 1) * mdbPageSize + sizes.tuplesOf number := by
  have hlength := hs.length number hnumber
  have hle := h.endPos_le hs
  have hpos := h.currentPos
  have hinside : run.currentBlock * mdbPageSize + run.currentPos ≤
      (sizes.blocksOf number - 1) * mdbPageSize + sizes.tuplesOf number := by
    have hblock := h.currentBlock
    rw [h.endBlock] at hblock
    by_cases hlast : run.currentBlock + 1 = sizes.blocksOf number
    · have hend := h.endPos
      rw [if_pos hlast] at hend
      rw [← hlast, Nat.add_sub_cancel]
      omega
    · have hmul : (run.currentBlock + 1) * mdbPageSize ≤
          (sizes.blocksOf number - 1) * mdbPageSize := Nat.mul_le_mul_right _ (by omega)
      rw [Nat.succ_mul] at hmul
      omega
  rw [h.rest, List.length_drop, hlength]
  omega

theorem Reads.drop_succ (h : Reads sizes file number run (a :: rest)) :
    rest = (runOf sizes.bufferSize file number).drop
      (run.currentBlock * mdbPageSize + (run.currentPos + 1)) := by
  rw [← Nat.add_assoc, ← List.drop_drop, ← h.rest]
  rfl

theorem reads_nextBlock (run : Run) (hs : Sized sizes file) (hblock : run.currentBlock < run.endBlock)
    (hendBlock : run.endBlock = sizes.blocksOf number)
    (hrest : rest = (runOf sizes.bufferSize file number).drop (run.currentBlock * mdbPageSize))
    (hread : run.block = readBlock file
      (sizes.bufferSize * number + run.currentBlock * mdbPageSize))
    (hpos : run.currentPos = 0) (hend : run.endPos = mdbPageSize) :
    Reads sizes file number
      (if number = sizes.totalRuns - 1 ∧ run.currentBlock = sizes.blocksInLastRun - 1 then
        { run with endPos := sizes.tuplesInLastBlock }
      else run) rest := by
  have hblocks := hs.blocks number
  have htuples := hs.tuples number
  by_cases hlast : number = sizes.totalRuns - 1
  · simp only [RunSizes.blocksOf, RunSizes.tuplesOf, if_pos hlast] at hblocks htuples hendBlock
    by_cases hlastBlock : run.currentBlock = sizes.blocksInLastRun - 1
    · rw [if_pos ⟨hlast, hlastBlock⟩]
      constructor
      · exact hread
      · show run.currentPos < sizes.tuplesInLastBlock
        omega
      · show sizes.tuplesInLastBlock = _
        simp only [RunSizes.blocksOf, RunSizes.tuplesOf, if_pos hlast]
        rw [if_pos (by omega)]
      · exact hblock
      · show run.endBlock = _
        rw [hendBlock, RunSizes.blocksOf, if_pos hlast]
      · show rest = List.drop (run.currentBlock * mdbPageSize + run.currentPos) _
        rw [hpos, Nat.add_zero, hrest]
    · rw [if_neg fun h => hlastBlock h.2]
      constructor
      · exact hread
      · rw [hpos, hend]
        decide
      · rw [hend, RunSizes.blocksOf, if_pos hlast, if_neg (by omega)]
      · exact hblock
      · rw [hendBlock, RunSizes.blocksOf, if_pos hlast]
      · rw [hpos, Nat.add_zero, hrest]
  · rw [if_neg fun h => hlast h.1]
    constructor
    · exact hread
    · rw [hpos, hend]
      decide
    · rw [hend, RunSizes.tuplesOf, if_neg hlast, ite_self]
    · exact hblock
    · exact hendBlock
    · rw [hpos, Nat.add_zero, hrest]

theorem Reads.nextTuple (h : Reads sizes file number run (a :: rest)) (hs : Sized sizes file)
    (hnumber : number < sizes.totalRuns) :
    (nextTuple sizes file number run).2 = rest.head? ∧
      (rest ≠ [] → Reads sizes file number (nextTuple sizes file number run).1 rest) := by
  have hlength := h.length_rest hs hnumber
  have hdrop := h.drop_succ
  have hblock := h.currentBlock
  have hend := h.endPos
  rw [List.length_cons] at hlength
  rw [h.endBlock] at hblock
  -- once a run is known to be at one of its tuples, that is the next one
  have hhead : ∀ run', Reads sizes file number run' rest → rest ≠ [] →
      some (run'.block.getD run'.currentPos []) = rest.head? := by
    intro run' hrun' hne
    cases rest with
    | nil => exact absurd rfl hne
    | cons b rest => rw [hrun'.getD_block hs, List.head?_cons]
  simp only [DiskVector.nextTuple]
  by_cases hblockEnd : run.currentPos + 1 = run.endPos
  · rw [if_pos hblockEnd]
    by_cases hrunEnd : run.currentBlock + 1 = run.endBlock
    · rw [if_pos hrunEnd]
      rw [h.endBlock] at hrunEnd
      rw [if_pos hrunEnd] at hend
      rw [← hrunEnd, Nat.add_sub_cancel] at hlength
      have hnil : rest = [] := List.length_eq_zero_iff.mp (by omega)
      rw [hnil]
      exact ⟨rfl, fun hne => absurd rfl hne⟩
    · rw [if_neg hrunEnd]
      rw [h.endBlock] at hrunEnd
      rw [if_neg hrunEnd] at hend
      have hmul : (run.currentBlock + 1) * mdbPageSize ≤
          (sizes.blocksOf number - 1) * mdbPageSize := Nat.mul_le_mul_right _ (by omega)
      rw [Nat.succ_mul] at hmul
      have hne : rest ≠ [] := by
        have := (hs.tuples number).1
        rw [← List.length_pos_iff]
        omega
      rw [hblockEnd, hend, ← Nat.succ_mul] at hdrop
      have hmore : run.currentBlock + 1 < run.endBlock := by
        rw [h.endBlock]
        omega
      have hreads := reads_nextBlock
        ⟨readBlock file (sizes.bufferSize * number + (run.currentBlock + 1) * mdbPageSize),
          0, run.endPos, run.currentBlock + 1, run.endBlock⟩
        hs hmore h.endBlock hdrop rfl rfl hend
      exact ⟨hhead _ hreads hne, fun _ => hreads⟩
  · rw [if_neg hblockEnd]
    have hreads : Reads sizes file number { run with currentPos := run.currentPos + 1 } rest := by
      have := h.currentPos
      exact ⟨h.block, by show run.currentPos + 1 < run.endPos; omega, h.endPos,
        h.currentBlock, h.endBlock, hdrop⟩
    have hne : rest ≠ [] := by
      have hpos := h.currentPos
      rw [← List.length_pos_iff]
      by_cases hlast : run.currentBlock + 1 = sizes.blocksOf number
      · rw [if_pos hlast] at hend
        rw [← hlast, Nat.add_sub_cancel] at hlength
        omega
      · rw [if_neg hlast] at hend
        have hmul : (run.currentBlock + 1) * mdbPageSize ≤
            (sizes.blocksOf number - 1) * mdbPageSize := Nat.mul_le_mul_right _ (by omega)
        rw [Nat.succ_mul] at hmul
        omega
    exact ⟨hhead _ hreads hne, fun _ => hreads⟩

end

theorem popQueue_eq_none {queue : List (Tuple × Nat)} (h : popQueue queue = none) :
    queue = [] := by
  cases queue with
  | nil => rfl
  | cons pair queue =>
    rw [popQueue] at h
    split at h
    · cases h
    · split_ifs at h

theorem popQueue_spec {queue others : List (Tuple × Nat)} {least : Tuple × Nat}
    (h : popQueue queue = some (least, others)) :
    queue.Perm (least :: others) ∧ ∀ pair ∈ queue, least.1 ≤ pair.1 := by
  induction queue generalizing least others with
  | nil => cases h
  | cons pair queue ih =>
    rw [popQueue] at h
    cases hpop : popQueue queue with
    | none =>
      rw [hpop] at h
      cases h
      rw [popQueue_eq_none hpop]
      exact ⟨.refl _, fun pair' hpair' => by rw [List.mem_singleton.mp hpair']⟩
    | some found =>
      obtain ⟨least', others'⟩ := found
      obtain ⟨hperm, hleast⟩ := ih hpop
      rw [hpop] at h
      simp only at h
      split_ifs at h with hle
      · cases h
        refine ⟨.refl _, fun pair' hpair' => ?_⟩
        rcases List.mem_cons.mp hpair' with rfl | hmem
        · exact le_refl _
        · exact le_trans hle (hleast pair' hmem)
      · cases h
        refine ⟨(hperm.cons pair).trans (.swap ..), fun pair' hpair' => ?_⟩
        rcases List.mem_cons.mp hpair' with rfl | hmem
        · exact le_of_lt (not_le.mp hle)
        · exact hleast pair' hmem

structure Merging (sizes : RunSizes) (file : List Tuple) (remaining : Nat → List Tuple)
    (queue : List (Tuple × Nat)) (runs : Nat → Run) : Prop where
  number : ∀ run, remaining run ≠ [] → run < sizes.totalRuns
  reads : ∀ run, remaining run ≠ [] → Reads sizes file run (runs run) (remaining run)
  queued : ∀ record run, (record, run) ∈ queue ↔ (remaining run).head? = some record
  nodup : (queue.map Prod.snd).Nodup

section

variable {σ : Type} (n : Nat) (process : σ → Tuple → σ) {sizes : RunSizes} {file : List Tuple}
  {remaining : Nat → List Tuple} {queue others : List (Tuple × Nat)} {runs : Nat → Run}
  {record : Tuple} {minRun : Nat}

theorem Merging.heads (h : Merging sizes file remaining queue runs) : Heads remaining queue :=
  ⟨h.queued, h.nodup⟩

theorem Merging.step (h : Merging sizes file remaining queue runs) (hs : Sized sizes file)
    (hpop : popQueue queue = some ((record, minRun), others)) :
    ∃ rest, remaining minRun = record :: rest ∧
      (∀ run b, (remaining run).head? = some b → record ≤ b) ∧
      Merging sizes file (Function.update remaining minRun rest)
        (match (nextTuple sizes file minRun (runs minRun)).2 with
          | none => others
          | some record => (record, minRun) :: others)
        (Function.update runs minRun (nextTuple sizes file minRun (runs minRun)).1) := by
  obtain ⟨hperm, hleast⟩ := popQueue_spec hpop
  obtain ⟨rest, hrest, hleast', hheads⟩ := h.heads.take hperm hleast
  have hne : remaining minRun ≠ [] := by simp [hrest]
  have hreads := h.reads minRun hne
  rw [hrest] at hreads
  obtain ⟨hnext, hreads'⟩ := hreads.nextTuple hs (h.number minRun hne)
  refine ⟨rest, hrest, hleast', ?_⟩
  have hqueue : (match (nextTuple sizes file minRun (runs minRun)).2 with
      | none => others
      | some record => (record, minRun) :: others) =
      (rest.head?.map fun b => (b, minRun)).toList ++ others := by
    rw [hnext]
    cases rest <;> rfl
  rw [hqueue]
  refine ⟨?_, ?_, hheads.queued, hheads.nodup⟩
  · intro run hrun
    by_cases heq : run = minRun
    · exact heq ▸ h.number minRun hne
    · rw [Function.update_of_ne heq] at hrun
      exact h.number run hrun
  · intro run hrun
    by_cases heq : run = minRun
    · subst heq
      rw [Function.update_self] at hrun ⊢
      rw [Function.update_self]
      exact hreads' hrun
    · rw [Function.update_of_ne heq] at hrun ⊢
      rw [Function.update_of_ne heq]
      exact h.reads run hrun

theorem Merging.run (h : Merging sizes file remaining queue runs) (hs : Sized sizes file)
    (leafLastBlock fuel : Nat)
    (hfuel : ((List.range sizes.totalRuns).flatMap remaining).length < fuel) :
    ∃ merged, Merges remaining merged ∧ ∀ out,
      mergeLoop n process sizes file leafLastBlock fuel queue runs out =
        merged.foldlM (output n process leafLastBlock) out := by
  induction fuel generalizing remaining queue runs with
  | zero => omega
  | succ fuel ih =>
    cases hpop : popQueue queue with
    | none =>
      have hnil := popQueue_eq_none hpop
      refine ⟨[], .nil fun run => ?_, fun out => ?_⟩
      · have hheads := h.heads
        rw [hnil] at hheads
        exact hheads.eq_nil run
      · rw [mergeLoop, hpop]
        rfl
    | some found =>
      obtain ⟨⟨record, minRun⟩, others⟩ := found
      obtain ⟨rest, hrest, hleast, hmerging⟩ := h.step hs hpop
      have hlt := h.number minRun (by simp [hrest])
      have hperm := Merges.flatMap_update_perm List.nodup_range (List.mem_range.mpr hlt) hrest
      have hlength := hperm.length_eq
      rw [List.length_cons] at hlength
      obtain ⟨merged, hmerges, hloop⟩ := ih hmerging (by omega)
      refine ⟨record :: merged, .cons hrest hleast hmerges, fun out => ?_⟩
      rw [mergeLoop, hpop, List.foldlM_cons]
      exact bind_congr hloop

theorem merging_start (hs : Sized sizes file) :
    Merging sizes file (runsOf sizes file)
      ((List.range sizes.totalRuns).map fun run =>
        ((startRun sizes file run).block.getD 0 [], run))
      (startRun sizes file) := by
  have hne : ∀ run, run < sizes.totalRuns → runOf sizes.bufferSize file run ≠ [] := by
    intro run hlt
    have := (hs.tuples run).1
    rw [← List.length_pos_iff, hs.length run hlt]
    omega
  have hheads : Heads (runsOf sizes file) ((List.range sizes.totalRuns).map fun run =>
      ((startRun sizes file run).block.getD 0 [], run)) := by
    apply Heads.of_range _ _ (fun run hlt => ?_) fun run hle => if_neg (Nat.not_lt.mpr hle)
    obtain ⟨a, rest, hrun⟩ := List.exists_cons_of_ne_nil (hne run hlt)
    have hreads := reads_startRun hs run
    rw [hrun] at hreads
    rw [if_pos hlt, hrun]
    exact congrArg some (hreads.getD_block hs).symm
  refine ⟨fun run hrun => ?_, fun run hrun => ?_, hheads.queued, hheads.nodup⟩
  · by_contra hlt
    exact hrun (if_neg hlt)
  · simp only [runsOf] at hrun ⊢
    split_ifs at hrun ⊢
    · exact reads_startRun hs run
    · exact absurd rfl hrun

end

/-- The buffer holds a block of every run and a leaf besides, as `merge_sort` asserts. -/
def Fits (n bufferSize count : Nat) : Prop :=
  0 < bufferSize ∧ (count = 0 ∨
    divisionRoundUp count bufferSize * mdbPageSize + BPTLeafWriter.maxRecords n ≤ bufferSize)

section

variable {σ : Type} {n : Nat} (process : σ → Tuple → σ) {v : DiskVector}

theorem merged_eq_sort {sizes : RunSizes} {file merged : List Tuple} (hs : Sized sizes file)
    (hsorted : ∀ run, (runOf sizes.bufferSize file run).Pairwise (· ≤ ·))
    (hmerges : Merges (runsOf sizes file) merged) : merged = sort file := by
  have hbeyond : ∀ run, sizes.totalRuns ≤ run → runsOf sizes file run = [] :=
    fun run hle => if_neg (Nat.not_lt.mpr hle)
  have hperm := hmerges.perm hbeyond
  rw [flatMap_runsOf hs] at hperm
  apply eq_sort hperm
  apply hmerges.sorted
  intro run
  simp only [runsOf]
  split_ifs
  · exact hsorted run
  · exact .nil

/-- `merge_sort` writes the tree of all tuples in order, whether it merges or not. -/
theorem mergeSort_eq (hmax : 0 < BPTLeafWriter.maxRecords n) (stat : σ) {blocks : Nat}
    (hbuffer : v.bufferSize = blocks * mdbPageSize) (hfits : Fits n v.bufferSize v.file.length)
    (htotal : v.totalTuples = v.file.length)
    (hsorted : ∀ run, (runOf v.bufferSize v.file run).Pairwise (· ≤ ·)) :
    mergeSort n process stat v = bulkLoad n process stat (sort v.file) := by
  by_cases hfile : v.file = []
  · have hsort : sort v.file = [] := by
      rw [hfile]
      rfl
    rw [mergeSort, bulkLoad, if_pos (by rw [hfile]; rfl), if_pos hsort]
  · have hpos := List.length_pos_iff.mpr hfile
    have hblocks : 0 < blocks := by
      have := hfits.1
      rw [hbuffer] at this
      exact Nat.pos_of_mul_pos_right this
    have hs := sized_runSizes hbuffer hblocks hpos htotal
    have hsort : sort v.file ≠ [] := by
      rw [← List.length_pos_iff, length_sort]
      exact hpos
    have hassert : v.runSizes.totalRuns * mdbPageSize + BPTLeafWriter.maxRecords n ≤
        v.bufferSize := hfits.2.resolve_left hpos.ne'
    rw [bulkLoad, if_neg hsort, length_sort]
    simp only [mergeSort, if_neg hpos.ne', if_pos hassert]
    by_cases hsingle : v.runSizes.totalRuns = 1
    · -- the file is the run
      have hall := hs.all
      rw [hsingle, Nat.mul_one] at hall
      have hrun : (runOf v.runSizes.bufferSize v.file 0).Pairwise (· ≤ ·) := hsorted 0
      rw [runOf, Nat.mul_zero, List.drop_zero, List.take_of_length_le hall] at hrun
      rw [if_pos hsingle, ← eq_sort (.refl _) hrun, htotal]
    · rw [if_neg hsingle]
      obtain ⟨merged, hmerges, hloop⟩ := (merging_start hs).run n process hs
        (divisionRoundUp v.totalTuples (BPTLeafWriter.maxRecords n)) (v.totalTuples + 1)
        (by rw [flatMap_runsOf hs, htotal]; exact Nat.lt_succ_self _)
      have hmerged := merged_eq_sort hs hsorted hmerges
      have heq := finishOutput_eq_singleRun n process hmax v.totalTuples 0 (v.totalTuples + 1) []
        merged (TreeWriter.start stat) (Nat.zero_le _) (by rw [hmerged]; exact hsort)
        (by rw [hmerged, htotal]; simp) (by rw [hmerged, htotal]; simp)
      rw [Nat.zero_mul, List.nil_append] at heq
      rw [hloop, ← hmerged, ← htotal]
      exact heq

/-- The tuples of a vector are those pushed, with the columns in its order. -/
structure Holds (n : Nat) (original : List Nat) (tuples : List Tuple) (v : DiskVector) :
    Prop where
  file : v.file.Perm (tuples.map (columns original v.currentPermutation))
  total : v.totalTuples = v.file.length
  buffer : ∃ blocks, v.bufferSize = blocks * mdbPageSize
  fits : Fits n v.bufferSize tuples.length
  current : v.currentPermutation.length = n

theorem createBpt_eq (hn : 0 < n) (hle : n ≤ 4) {original new : List Nat} {tuples : List Tuple}
    (hv : Holds n original tuples v) (stat : σ) {reorder : Tuple → Tuple}
    (hreorder : reorderTuple n v.currentPermutation new = .ok reorder)
    (hnew : new.Perm v.currentPermutation) :
    ∃ v', Holds n original tuples v' ∧ v'.currentPermutation = new ∧
      createBpt n process stat new v =
        (bulkLoad n process stat (sort (tuples.map (columns original new)))).map (·, v') := by
  obtain ⟨file, heq, hperm, hsorted⟩ := reorderLoop_ok reorder hv.fits.1 _ v.file
    (Nat.lt_succ_self v.file.length)
  have hfile : file.Perm (tuples.map (columns original new)) := by
    apply hperm.trans
    apply (hv.file.map reorder).trans
    rw [List.map_map]
    have hcolumns : reorder ∘ columns original v.currentPermutation = columns original new := by
      funext t
      exact reorderTuple_columns hreorder hn hle hv.current hnew t
    rw [hcolumns]
  have hlength : file.length = v.file.length := by
    rw [hperm.length_eq, List.length_map]
  have hcount : file.length = tuples.length := by
    rw [hfile.length_eq, List.length_map]
  obtain ⟨blocks, hblocks⟩ := hv.buffer
  let v' : DiskVector := { v with file := file, currentPermutation := new }
  have hv' : Holds n original tuples v' :=
    ⟨hfile, hv.total.trans hlength.symm, ⟨blocks, hblocks⟩, hv.fits,
      hnew.length_eq.trans hv.current⟩
  refine ⟨v', hv', rfl, ?_⟩
  have hmerge := mergeSort_eq (v := v') process (BPTLeafWriter.maxRecords_pos hn hle) stat hblocks
    (hcount ▸ hv.fits) hv'.total hsorted
  have hsort : sort file = sort (tuples.map (columns original new)) :=
    eq_sort ((perm_sort file).trans hfile) (pairwise_sort file)
  rw [hsort] at hmerge
  simp only [createBpt, reorderCols, hreorder, heq, bind, Except.bind]
  rw [hmerge]
  cases bulkLoad n process stat (sort (tuples.map (columns original new))) <;> rfl

end

def filled (n maxBufferSize : Nat) (original : List Nat) (tuples : List Tuple) : DiskVector :=
  (tuples.foldl (fun v record => v.pushBack record) init).finishAppends.startIndexing n
    maxBufferSize original

def createBpts {σ : Type} (n : Nat) (process : σ → Tuple → σ) (stat : σ) :
    List (List Nat) → DiskVector → Except Failure (List (TreeWriter σ))
  | [], _ => .ok []
  | new :: news, v => do
    let (w, v) ← v.createBpt n process stat new
    let ws ← createBpts n process stat news v
    .ok (w :: ws)

theorem file_pushBack (record : Tuple) (v : DiskVector) :
    (v.pushBack record).file ++ (v.pushBack record).buffer = v.file ++ v.buffer ++ [record] := by
  simp only [pushBack]
  split_ifs <;> simp

theorem file_filled (n maxBufferSize : Nat) (original : List Nat) (tuples : List Tuple) :
    (filled n maxBufferSize original tuples).file = tuples := by
  have hfold : ∀ v : DiskVector,
      (tuples.foldl (fun v record => v.pushBack record) v).file ++
        (tuples.foldl (fun v record => v.pushBack record) v).buffer = v.file ++ v.buffer ++ tuples := by
    induction tuples with
    | nil => simp
    | cons record tuples ih =>
      intro v
      rw [List.foldl_cons, ih, file_pushBack, List.append_assoc, List.singleton_append]
  exact (hfold init).trans (List.nil_append tuples)

/-- The buffer size that `start_indexing` takes of the size it is given. -/
def bufferSizeOf (n maxBufferSize : Nat) : Nat := maxBufferSize / (mdbPageSize * n * 8) * mdbPageSize

theorem holds_filled {n maxBufferSize : Nat} {original : List Nat} {tuples : List Tuple}
    (horiginal : original.Nodup) (hlen : original.length = n) (htuples : ∀ t ∈ tuples, t.length = n)
    (hfits : Fits n (bufferSizeOf n maxBufferSize) tuples.length) :
    Holds n original tuples (filled n maxBufferSize original tuples) where
  file := by
    have hself : tuples.map (columns original original) = tuples := by
      conv_rhs => rw [← List.map_id tuples]
      apply List.map_congr_left
      intro t ht
      exact columns_self horiginal ((htuples t ht).trans hlen.symm)
    rw [file_filled]
    show tuples.Perm (tuples.map (columns original original))
    rw [hself]
  total := rfl
  buffer := ⟨_, rfl⟩
  fits := hfits
  current := hlen

/-- The orders of columns that `reorder_chunk` can bring the current one into. -/
def supported (n : Nat) (current : List Nat) : List (List Nat) :=
  if n = 1 then [current]
  else if n = 2 then [current, swap01 current]
  else if n = 3 then [current, rotate012 current, swap01 current, swap02 current]
  else [current, rotate012 current, swap12 current]

def Supported (n : Nat) : List Nat → List (List Nat) → Prop
  | _, [] => True
  | current, new :: news => new ∈ supported n current ∧ Supported n new news

theorem perm_swap01 (l : List Nat) : (swap01 l).Perm l := by
  match l with
  | [] => exact .refl _
  | [a] => exact .refl _
  | a :: b :: rest => exact .swap a b rest

theorem perm_swap12 (l : List Nat) : (swap12 l).Perm l := by
  match l with
  | [] => exact .refl _
  | [a] => exact .refl _
  | [a, b] => exact .refl _
  | a :: b :: c :: rest => exact (List.Perm.swap b c rest).cons a

theorem perm_rotate012 (l : List Nat) : (rotate012 l).Perm l := by
  match l with
  | [] => exact .refl _
  | [a] => exact .refl _
  | [a, b] => exact .refl _
  | a :: b :: c :: rest => exact ((List.Perm.swap a c rest).cons b).trans (.swap a b (c :: rest))

theorem perm_swap02 (l : List Nat) : (swap02 l).Perm l := by
  match l with
  | [] => exact .refl _
  | [a] => exact .refl _
  | [a, b] => exact .refl _
  | a :: b :: c :: rest =>
    exact (List.Perm.swap b c (a :: rest)).trans (perm_rotate012 (a :: b :: c :: rest))

theorem perm_of_mem_supported {n : Nat} {current new : List Nat} (h : new ∈ supported n current) :
    new.Perm current := by
  simp only [supported] at h
  split_ifs at h <;> simp only [List.mem_cons, List.not_mem_nil, or_false] at h
  · exact h ▸ .refl _
  · rcases h with rfl | rfl
    · exact .refl _
    · exact perm_swap01 current
  · rcases h with rfl | rfl | rfl | rfl
    · exact .refl _
    · exact perm_rotate012 current
    · exact perm_swap01 current
    · exact perm_swap02 current
  · rcases h with rfl | rfl | rfl
    · exact .refl _
    · exact perm_rotate012 current
    · exact perm_swap12 current

theorem reorderTuple_supported {n : Nat} {current new : List Nat} (hn : 0 < n) (hle : n ≤ 4)
    (hcurrent : current.length = n) (h : new ∈ supported n current) :
    ∃ reorder, reorderTuple n current new = .ok reorder := by
  interval_cases n
  · exact ⟨id, rfl⟩
  · obtain ⟨a, b, rfl⟩ := List.length_eq_two.mp hcurrent
    have hmem : new ∈ [[a, b], [b, a]] := h
    simp only [List.mem_cons, List.not_mem_nil, or_false] at hmem
    rcases hmem with rfl | rfl
    · exact ⟨id, by simp [reorderTuple]⟩
    · by_cases hab : a = b
      · exact ⟨id, by simp [reorderTuple, hab]⟩
      · exact ⟨swap01, by simp [reorderTuple, hab]⟩
  · obtain ⟨a, b, c, rfl⟩ := List.length_eq_three.mp hcurrent
    have hmem : new ∈ [[a, b, c], [b, c, a], [b, a, c], [c, b, a]] := h
    simp only [List.mem_cons, List.not_mem_nil, or_false] at hmem
    rcases hmem with rfl | rfl | rfl | rfl <;>
      simp only [reorderTuple, List.getD_cons_zero, List.getD_cons_succ, and_self, if_true] <;>
      norm_num <;> split_ifs <;> exact ⟨_, rfl⟩
  · obtain ⟨a, b, c, d, rfl⟩ := List.length_eq_four.mp hcurrent
    have hmem : new ∈ [[a, b, c, d], [b, c, a, d], [a, c, b, d]] := h
    simp only [List.mem_cons, List.not_mem_nil, or_false] at hmem
    rcases hmem with rfl | rfl | rfl <;>
      simp only [reorderTuple, List.getD_cons_zero, List.getD_cons_succ, and_self, if_true] <;>
      norm_num <;> split_ifs <;> exact ⟨_, rfl⟩

section

variable {σ : Type} {n : Nat} {process : σ → Tuple → σ} {stat : σ} {original : List Nat}
  {tuples : List Tuple}

def IsTree (n : Nat) (process : σ → Tuple → σ) (stat : σ) (original : List Nat)
    (tuples : List Tuple) (new : List Nat) (w : TreeWriter σ) : Prop :=
  bulkLoad n process stat (sort (tuples.map (columns original new))) = .ok w

theorem exists_trees (hmax : 0 < BPTLeafWriter.maxRecords n) (process : σ → Tuple → σ)
    (stat : σ) (original : List Nat) (tuples : List Tuple) (permutations : List (List Nat)) :
    ∃ ws, List.Forall₂ (IsTree n process stat original tuples) permutations ws := by
  induction permutations with
  | nil => exact ⟨[], .nil⟩
  | cons new news ih =>
    obtain ⟨ws, hws⟩ := ih
    obtain ⟨w, hw, _⟩ := bulkLoad_ok process hmax stat (sort (tuples.map (columns original new)))
    exact ⟨w :: ws, .cons hw hws⟩

theorem createBpts_eq (hn : 0 < n) (hle : n ≤ 4) {permutations : List (List Nat)}
    {ws : List (TreeWriter σ)}
    (hws : List.Forall₂ (IsTree n process stat original tuples) permutations ws)
    {v : DiskVector} (hv : Holds n original tuples v)
    (hsupported : Supported n v.currentPermutation permutations) :
    createBpts n process stat permutations v = .ok ws := by
  induction hws generalizing v with
  | nil => rfl
  | @cons new w news ws hw _ ih =>
    obtain ⟨hnew, hnews⟩ := hsupported
    obtain ⟨reorder, hreorder⟩ := reorderTuple_supported hn hle hv.current hnew
    obtain ⟨v', hv', hcurrent, heq⟩ :=
      createBpt_eq process hn hle hv stat hreorder (perm_of_mem_supported hnew)
    have hrest := ih hv' (hcurrent ▸ hnews)
    rw [hw] at heq
    simp only [createBpts, heq, Except.map, bind, Except.bind, hrest]

end

/-- The trees of a vector are right: each holds all tuples with the columns in its order, sorted,
in pages that say what they hold and which page is next; and its statistics are those of its
records. -/
def WritesTrees {σ : Type} (n : Nat) (process : σ → Tuple → σ) (stat : σ) (original : List Nat)
    (tuples : List Tuple) (permutations : List (List Nat)) (maxBufferSize : Nat)
    (ws : List (TreeWriter σ)) : Prop :=
  createBpts n process stat permutations (filled n maxBufferSize original tuples) = .ok ws ∧
    List.Forall₂ (fun new (w : TreeWriter σ) => ∃ records : List Tuple,
      records.Perm (tuples.map (columns original new)) ∧ records.Pairwise (· ≤ ·) ∧
        Paged n records w.tree.leaf ∧ w.stat = records.foldl process stat) permutations ws

/-- For every vector and every sequence of supported orders there are trees that are written
with every buffer that fits: with one that holds all tuples, and with one that holds a block of
every run. -/
theorem writesTrees_of_supported {σ : Type} {n : Nat} (hn : 0 < n) (hle : n ≤ 4)
    (process : σ → Tuple → σ) (stat : σ) {original : List Nat} (horiginal : original.Nodup)
    (hlen : original.length = n) {tuples : List Tuple} (htuples : ∀ t ∈ tuples, t.length = n)
    {permutations : List (List Nat)} (hsupported : Supported n original permutations) :
    ∃ ws, ∀ maxBufferSize, Fits n (bufferSizeOf n maxBufferSize) tuples.length →
      WritesTrees n process stat original tuples permutations maxBufferSize ws := by
  have hmax := BPTLeafWriter.maxRecords_pos hn hle
  obtain ⟨ws, hws⟩ := exists_trees hmax process stat original tuples permutations
  refine ⟨ws, fun maxBufferSize hfits => ⟨?_, ?_⟩⟩
  · exact createBpts_eq hn hle hws (holds_filled horiginal hlen htuples hfits) hsupported
  · apply hws.imp
    intro new w hw
    obtain ⟨w', hw', hpaged, hstat⟩ :=
      bulkLoad_ok process hmax stat (sort (tuples.map (columns original new)))
    cases hw.symm.trans hw'
    exact ⟨_, perm_sort _, pairwise_sort _, hpaged, hstat⟩

theorem writesTrees_pairs : ∃ ws, WritesTrees 2 (fun count _ => count + 1) 0 [0, 1]
    [[3, 1], [2, 5], [2, 4]] [[0, 1], [1, 0]] (2 ^ 30) ws :=
  (@writesTrees_of_supported Nat 2 (by decide) (by decide) (fun count _ => count + 1) 0 [0, 1]
    (by decide) rfl [[3, 1], [2, 5], [2, 4]] (by decide) [[0, 1], [1, 0]]
    ⟨by decide, by decide, trivial⟩).imp fun _ h => h _ ⟨by decide, .inr (by decide)⟩

/-- Three columns are not rotated to the right. -/
theorem not_writesTrees_rotated : ¬ ∃ ws, WritesTrees 3 (fun count _ => count + 1) 0 [0, 1, 2]
    [[5, 6, 7]] [[2, 0, 1]] (2 ^ 30) ws := by
  rintro ⟨ws, hws, _⟩
  have herror : createBpts 3 (fun count _ => count + 1) 0 [[2, 0, 1]]
      (filled 3 (2 ^ 30) [0, 1, 2] [[5, 6, 7]]) =
        .error (.invalidArgument "Unsuported permutation") := rfl
  rw [herror] at hws
  cases hws

end DiskVector
end MillenniumDB
