import Mathlib.Tactic.Ring
import MillenniumDB.OrderedFile

/-!
# Merging the pages of an ordered file

A pass merges the runs of one file, some at a time, into the other file, where each chunk takes the
pages that it had.  The passes leave one run, which holds all records in order.
-/

namespace MillenniumDB
namespace OrderedFile

open DiskVector (divisionRoundUp popQueue popQueue_spec popQueue_eq_none)
open OrderedFilePage (maxRecords permuted isFull)

structure Reads (cap : Nat) (all : List Tuple) (runLength lastPage first : Nat) (b : RunBuffer)
    (rest : List Tuple) : Prop where
  page : b.page = pageOf cap all (first + b.currentPage)
  currentPage : b.currentPage < runLength
  lastPage : first + b.currentPage ≤ lastPage
  currentPos : b.currentPos < b.page.length
  rest : rest = (all.take ((first + runLength) * cap)).drop
    ((first + b.currentPage) * cap + b.currentPos)

section

variable {cap runLength lastPage first p run : Nat} {all rest : List Tuple} {a : Tuple}
  {b : RunBuffer} {source : PageFile Tuple}

theorem Reads.length_page (h : Reads cap all runLength lastPage first b rest) :
    b.page.length = min cap (all.length - (first + b.currentPage) * cap) := by
  rw [h.page, length_pageOf]

theorem Reads.page_end_le (h : Reads cap all runLength lastPage first b rest) :
    (first + b.currentPage) * cap + cap ≤ (first + runLength) * cap := by
  have := h.currentPage
  rw [← Nat.add_one_mul]
  exact Nat.mul_le_mul_right cap (by omega)

theorem Reads.head? (h : Reads cap all runLength lastPage first b rest) :
    some (b.page.getD b.currentPos []) = rest.head? := by
  have hpos := h.currentPos
  have hlength := h.length_page
  have hend := h.page_end_le
  rw [h.rest, List.head?_drop, List.getElem?_take_of_lt (by omega),
    ← getElem?_pageOf (by omega), ← h.page, List.getD_eq_getElem _ _ hpos,
    List.getElem?_eq_getElem hpos]

theorem reads_startRun (hholds : HoldsPages cap (lastPage + 1) source all)
    (hfills : Fills cap (lastPage + 1) all) (hlength : 0 < runLength)
    (hlast : p + run * runLength ≤ lastPage) :
    Reads cap all runLength lastPage (p + run * runLength) (startRun source runLength p run)
      ((all.take ((p + run * runLength + runLength) * cap)).drop ((p + run * runLength) * cap)) where
  page := hholds _ (Nat.lt_succ_of_le hlast)
  currentPage := hlength
  lastPage := hlast
  currentPos := by
    have hpage := hfills.page_lt _ (Nat.lt_succ_of_le hlast)
    have hcap := hfills.cap_pos
    dsimp only [startRun]
    rw [hholds _ (Nat.lt_succ_of_le hlast), length_pageOf]
    omega
  rest := rfl

theorem Reads.nextRecord (hholds : HoldsPages cap (lastPage + 1) source all)
    (hfills : Fills cap (lastPage + 1) all)
    (h : Reads cap all runLength lastPage (p + run * runLength) b (a :: rest)) :
    (nextRecord source runLength lastPage p run b).2 = rest.head? ∧
      (rest ≠ [] → Reads cap all runLength lastPage (p + run * runLength)
        (nextRecord source runLength lastPage p run b).1 rest) := by
  obtain ⟨first, hfirst⟩ : ∃ first, first = p + run * runLength := ⟨_, rfl⟩
  rw [← hfirst] at h ⊢
  have hpos := h.currentPos
  have hlength := h.length_page
  have hend := h.page_end_le
  have hpage := h.currentPage
  have hlast := h.lastPage
  have hcap := hfills.cap_pos
  have hrest : rest = (all.take ((first + runLength) * cap)).drop
      ((first + b.currentPage) * cap + (b.currentPos + 1)) := by
    rw [← Nat.add_assoc, ← List.drop_drop, ← h.rest]
    rfl
  unfold OrderedFile.nextRecord
  rw [← hfirst]
  dsimp only
  by_cases hpageEnd : b.currentPos + 1 ≥ b.page.length
  · rw [if_pos hpageEnd]
    by_cases hrunEnd : b.currentPage + 1 ≥ runLength ∨ first + (b.currentPage + 1) > lastPage
    · -- behind the last page of the run, or of the file
      rw [if_pos hrunEnd]
      have hnil : rest = [] := by
        rw [hrest]
        apply List.drop_eq_nil_of_le
        rw [List.length_take]
        rcases hrunEnd with hrunEnd | hrunEnd
        · rw [show first + runLength = first + b.currentPage + 1 by omega, Nat.add_one_mul]
          omega
        · have hle := hfills.le
          rw [show lastPage + 1 = first + b.currentPage + 1 by omega, Nat.add_one_mul] at hle
          omega
      rw [hnil]
      exact ⟨rfl, fun hne => absurd rfl hne⟩
    · rw [if_neg hrunEnd]
      rw [not_or] at hrunEnd
      -- a page before another one is full
      have hnext := hfills.page_lt (first + (b.currentPage + 1)) (by omega)
      have hmul : (first + (b.currentPage + 1)) * cap = (first + b.currentPage) * cap + cap := by
        rw [← Nat.add_assoc, Nat.add_one_mul]
      have hreads : Reads cap all runLength lastPage first
          ⟨source (first + (b.currentPage + 1)), 0, b.currentPage + 1⟩ rest := by
        refine ⟨hholds _ (by omega), by dsimp only; omega, by dsimp only; omega, ?_, ?_⟩
        · dsimp only
          rw [hholds _ (by omega), length_pageOf]
          omega
        · rw [hrest]
          dsimp only
          rw [show (first + b.currentPage) * cap + (b.currentPos + 1) =
            (first + (b.currentPage + 1)) * cap + 0 by omega]
      exact ⟨hreads.head?, fun _ => hreads⟩
  · rw [if_neg hpageEnd]
    have hreads : Reads cap all runLength lastPage first
        ⟨b.page, b.currentPos + 1, b.currentPage⟩ rest :=
      ⟨h.page, hpage, hlast, by dsimp only; omega, hrest⟩
    exact ⟨hreads.head?, fun _ => hreads⟩

end

structure Merging (cap : Nat) (all : List Tuple) (runLength lastPage p runCount : Nat)
    (remaining : Nat → List Tuple) (queue : List (Tuple × Nat)) (runs : Nat → RunBuffer) :
    Prop where
  number : ∀ run, runCount ≤ run → remaining run = []
  reads : ∀ run, remaining run ≠ [] →
    Reads cap all runLength lastPage (p + run * runLength) (runs run) (remaining run)
  heads : Heads remaining queue

section

variable {n runLength lastPage p runCount : Nat} {all done : List Tuple}
  {remaining : Nat → List Tuple} {queue others : List (Tuple × Nat)} {runs : Nat → RunBuffer}
  {source : PageFile Tuple} {record : Tuple} {minRun : Nat}

theorem isFull_iff (k : Nat) : isFull n k = true ↔ maxRecords n ≤ k := decide_eq_true_iff

theorem Merging.step {cap : Nat} (hholds : HoldsPages cap (lastPage + 1) source all)
    (hfills : Fills cap (lastPage + 1) all)
    (h : Merging cap all runLength lastPage p runCount remaining queue runs)
    (hpop : popQueue queue = some ((record, minRun), others)) :
    ∃ rest, remaining minRun = record :: rest ∧
      (∀ run b, (remaining run).head? = some b → record ≤ b) ∧
      Merging cap all runLength lastPage p runCount (Function.update remaining minRun rest)
        (match (nextRecord source runLength lastPage p minRun (runs minRun)).2 with
          | none => others
          | some record => (record, minRun) :: others)
        (Function.update runs minRun
          (nextRecord source runLength lastPage p minRun (runs minRun)).1) := by
  obtain ⟨hperm, hleast⟩ := popQueue_spec hpop
  obtain ⟨rest, hrest, hleast', hheads⟩ := h.heads.take hperm hleast
  have hreads := h.reads minRun (by simp [hrest])
  rw [hrest] at hreads
  obtain ⟨hnext, hreads'⟩ := hreads.nextRecord hholds hfills
  have hqueue : (match (nextRecord source runLength lastPage p minRun (runs minRun)).2 with
      | none => others
      | some record => (record, minRun) :: others) =
      (rest.head?.map fun b => (b, minRun)).toList ++ others := by
    rw [hnext]
    cases rest <;> rfl
  rw [hqueue]
  refine ⟨rest, hrest, hleast', fun run hrun => ?_, fun run hrun => ?_, hheads⟩
  · have hne : run ≠ minRun := by
      intro heq
      rw [heq] at hrun
      rw [h.number minRun hrun] at hrest
      cases hrest
    rw [Function.update_of_ne hne, h.number run hrun]
  · by_cases heq : run = minRun
    · subst heq
      rw [Function.update_self] at hrun ⊢
      rw [Function.update_self]
      exact hreads' hrun
    · rw [Function.update_of_ne heq] at hrun ⊢
      rw [Function.update_of_ne heq]
      exact h.reads run hrun

theorem Merging.run (hholds : HoldsPages (maxRecords n) (lastPage + 1) source all)
    (hfills : Fills (maxRecords n) (lastPage + 1) all) (fuel : Nat) :
    ∀ {remaining : Nat → List Tuple} {queue : List (Tuple × Nat)} {runs : Nat → RunBuffer}
      {done : List Tuple} {out : PageWriter Tuple},
    Merging (maxRecords n) all runLength lastPage p runCount remaining queue runs →
    ((List.range runCount).flatMap remaining).length < fuel → Wrote (maxRecords n) done out →
    ∃ merged out', mergeLoop n source runLength lastPage p fuel queue runs out = some out' ∧
      Merges remaining merged ∧ Wrote (maxRecords n) (done ++ merged) out' := by
  induction fuel with
  | zero =>
    intro remaining queue runs done out _ hfuel
    exact absurd hfuel (Nat.not_lt_zero _)
  | succ fuel ih =>
    intro remaining queue runs done out h hfuel hwrote
    rw [mergeLoop]
    cases hpop : popQueue queue with
    | none =>
      have hheads := h.heads
      rw [popQueue_eq_none hpop] at hheads
      exact ⟨[], out, rfl, .nil hheads.eq_nil, by rw [List.append_nil]; exact hwrote⟩
    | some found =>
      obtain ⟨⟨record, minRun⟩, others⟩ := found
      obtain ⟨rest, hrest, hleast, hmerging⟩ := h.step hholds hfills hpop
      have hlt : minRun < runCount := by
        by_contra hge
        rw [h.number minRun (Nat.le_of_not_lt hge)] at hrest
        cases hrest
      have hlength :=
        (Merges.flatMap_update_perm List.nodup_range (List.mem_range.mpr hlt) hrest).length_eq
      rw [List.length_cons] at hlength
      obtain ⟨merged, out', hloop, hmerges, hwrote'⟩ := ih hmerging (by omega)
        (hwrote.append (x := record) hfills.cap_pos fun k _ => isFull_iff k)
      refine ⟨record :: merged, out', hloop, .cons hrest hleast hmerges, ?_⟩
      rw [List.append_assoc] at hwrote'
      exact hwrote'

structure Chunk (runLength maxRuns lastPage p runCount : Nat) : Prop where
  le : runCount ≤ maxRuns
  started : ∀ run < runCount, p + run * runLength ≤ lastPage
  all : runCount = maxRuns ∨ lastPage < p + runCount * runLength

theorem Chunk.merge {maxRuns k fuel : Nat} {out : PageWriter Tuple}
    (hholds : HoldsPages (maxRecords n) (lastPage + 1) source all)
    (hfills : Fills (maxRecords n) (lastPage + 1) all) (hlength : 0 < runLength)
    (hchunk : Chunk runLength maxRuns lastPage (k * runLength) runCount)
    (hruns : RunsSorted (· ≤ ·) (runLength * maxRecords n) all) (hfuel : all.length < fuel)
    (hwrote : Wrote (maxRecords n) done out) :
    ∃ merged out', mergeLoop n source runLength lastPage (k * runLength) fuel
        ((List.range runCount).map fun run =>
          ((startRun source runLength (k * runLength) run).page.getD 0 [], run))
        (startRun source runLength (k * runLength)) out = some out' ∧
      merged.Perm ((all.take ((k * runLength + runLength * maxRuns) * maxRecords n)).drop
        (k * runLength * maxRecords n)) ∧
      merged.Pairwise (· ≤ ·) ∧ Wrote (maxRecords n) (done ++ merged) out' := by
  obtain ⟨p, hp⟩ : ∃ p, p = k * runLength := ⟨_, rfl⟩
  -- the part of the list that each run has
  obtain ⟨part, hpart⟩ : ∃ part : Nat → List Tuple, part = fun run =>
      (all.take ((p + run * runLength + runLength) * maxRecords n)).drop
        ((p + run * runLength) * maxRecords n) := ⟨_, rfl⟩
  have hparts : ∀ count, (List.range count).flatMap part =
      (all.take ((p + count * runLength) * maxRecords n)).drop (p * maxRecords n) := by
    intro count
    induction count with
    | zero =>
      rw [Nat.zero_mul, Nat.add_zero, List.drop_take, Nat.sub_self]
      rfl
    | succ count ih =>
      have hle : p * maxRecords n ≤ (p + count * runLength) * maxRecords n :=
        Nat.mul_le_mul_right _ (Nat.le_add_right _ _)
      have hle' : (p + count * runLength) * maxRecords n ≤
          (p + count * runLength + runLength) * maxRecords n :=
        Nat.mul_le_mul_right _ (Nat.le_add_right _ _)
      rw [List.range_succ, List.flatMap_append, List.flatMap_singleton, ih, hpart,
        slice_append hle hle', Nat.add_one_mul, Nat.add_assoc]
  obtain ⟨remaining, hremaining⟩ : ∃ remaining : Nat → List Tuple, remaining = fun run =>
      if run < runCount then part run else [] := ⟨_, rfl⟩
  have hflat : (List.range runCount).flatMap remaining =
      (all.take ((p + runCount * runLength) * maxRecords n)).drop (p * maxRecords n) := by
    rw [← hparts]
    apply List.flatMap_congr
    intro run hrun
    rw [hremaining]
    exact if_pos (List.mem_range.mp hrun)
  have hreads : ∀ run < runCount, Reads (maxRecords n) all runLength lastPage (p + run * runLength)
      (startRun source runLength p run) (part run) := by
    intro run hrun
    rw [hpart]
    exact reads_startRun hholds hfills hlength (hp ▸ hchunk.started run hrun)
  have hmerging : Merging (maxRecords n) all runLength lastPage p runCount remaining
      ((List.range runCount).map fun run => ((startRun source runLength p run).page.getD 0 [], run))
      (startRun source runLength p) := by
    have hbeyond : ∀ run, runCount ≤ run → remaining run = [] := by
      intro run hrun
      rw [hremaining]
      exact if_neg (Nat.not_lt.mpr hrun)
    refine ⟨hbeyond, fun run hrun => ?_, Heads.of_range _ _ (fun run hrun => ?_) hbeyond⟩
    · by_cases hlt : run < runCount
      · rw [show remaining run = part run by rw [hremaining]; exact if_pos hlt]
        exact hreads run hlt
      · exact absurd (hbeyond run (Nat.le_of_not_lt hlt)) hrun
    · rw [show remaining run = part run by rw [hremaining]; exact if_pos hrun]
      exact (hreads run hrun).head?.symm
  rw [← hp]
  obtain ⟨merged, out', hloop, hmerges, hwrote'⟩ := hmerging.run hholds hfills fuel
    (by rw [hflat, List.length_drop, List.length_take]; omega) hwrote
  refine ⟨merged, out', hloop, ?_, hmerges.sorted fun run => ?_, hwrote'⟩
  · have hperm := hmerges.perm (k := runCount) hmerging.number
    rw [hflat] at hperm
    rcases hchunk.all with hall | hall
    · rw [hall, Nat.mul_comm maxRuns] at hperm
      exact hperm
    · -- both parts go to the end of the list
      have hle := hfills.le
      have hbehind : (lastPage + 1) * maxRecords n ≤ (p + runCount * runLength) * maxRecords n :=
        Nat.mul_le_mul_right _ (hp ▸ hall)
      have hmore : (p + runCount * runLength) * maxRecords n ≤
          (p + runLength * maxRuns) * maxRecords n := by
        rw [Nat.mul_comm runLength]
        exact Nat.mul_le_mul_right _ (Nat.add_le_add_left (Nat.mul_le_mul_right _ hchunk.le) _)
      rw [List.take_of_length_le (by omega)] at hperm ⊢
      exact hperm
  · rw [hremaining]
    dsimp only
    split
    · rw [hpart]
      have hrun := hruns (k + run)
      have hstart : (k + run) * (runLength * maxRecords n) =
          (p + run * runLength) * maxRecords n := by
        rw [hp]
        ring
      have hstop : (k + run + 1) * (runLength * maxRecords n) =
          (p + run * runLength + runLength) * maxRecords n := by
        rw [hp]
        ring
      rw [hstart, hstop] at hrun
      exact hrun.pairwise_slice
    · exact .nil

theorem lt_divisionRoundUp_iff {a b k : Nat} (hb : 0 < b) : k < divisionRoundUp a b ↔ k * b < a := by
  rcases Nat.eq_zero_or_pos a with rfl | ha
  · simp [divisionRoundUp]
  · rw [DiskVector.divisionRoundUp_eq ha, Nat.lt_succ_iff, Nat.le_div_iff_mul_le hb]
    omega

structure Passed (cap span : Nat) (all : List Tuple) (page : Nat) (done : List Tuple) : Prop where
  length_done : done.length = min (page * cap) all.length
  perm : done.Perm (all.take (page * cap))
  runs : RunsSorted (· ≤ ·) (span * cap) done

variable {maxRuns : Nat}

theorem Passed.beyond {cap span page page' : Nat} (h : Passed cap span all page done)
    (hpage : all.length ≤ page * cap) (hpage' : all.length ≤ page' * cap) :
    Passed cap span all page' done where
  length_done := by
    have := h.length_done
    omega
  perm := by
    have := h.perm
    rw [List.take_of_length_le hpage] at this
    rw [List.take_of_length_le hpage']
    exact this
  runs := h.runs

/-- The number of runs that a thread takes from a page on; it stops at the end of a chunk or of the
file. -/
theorem chunk_of_end {endPage j : Nat} (hlength : 0 < runLength) (hle : endPage ≤ lastPage)
    (hend : endPage = lastPage ∨ ∃ k, endPage + 1 = k * (runLength * maxRuns))
    (hp : j * (runLength * maxRuns) ≤ endPage) :
    Chunk runLength maxRuns lastPage (j * (runLength * maxRuns))
      (if j * (runLength * maxRuns) + runLength * maxRuns ≤ endPage then maxRuns
        else divisionRoundUp (endPage + 1 - j * (runLength * maxRuns)) runLength) := by
  obtain ⟨p, hpage⟩ : ∃ p, p = j * (runLength * maxRuns) := ⟨_, rfl⟩
  rw [← hpage] at hp ⊢
  have hcount : ∀ run, run * runLength < maxRuns * runLength ↔ run < maxRuns :=
    fun run => Nat.mul_lt_mul_right hlength
  have hspan : runLength * maxRuns = maxRuns * runLength := Nat.mul_comm _ _
  by_cases hmore : p + runLength * maxRuns ≤ endPage
  · rw [if_pos hmore]
    refine ⟨Nat.le_refl _, fun run hrun => ?_, Or.inl rfl⟩
    have := (hcount run).mpr hrun
    omega
  · rw [if_neg hmore]
    have hlast : endPage = lastPage ∨ endPage + 1 = p + runLength * maxRuns := by
      rcases hend with hend | ⟨k, hk⟩
      · exact Or.inl hend
      · have hjk : j < k := by
          apply Nat.lt_of_mul_lt_mul_right (a := runLength * maxRuns)
          omega
        have hmul : (j + 1) * (runLength * maxRuns) ≤ k * (runLength * maxRuns) :=
          Nat.mul_le_mul_right _ hjk
        rw [Nat.add_one_mul] at hmul
        omega
    have hiff : ∀ run, run < divisionRoundUp (endPage + 1 - p) runLength ↔
        run * runLength < endPage + 1 - p := fun run => lt_divisionRoundUp_iff hlength
    have hle' : divisionRoundUp (endPage + 1 - p) runLength ≤ maxRuns := by
      by_contra hgt
      have := (hiff maxRuns).mp (Nat.lt_of_not_le hgt)
      omega
    refine ⟨hle', fun run hrun => ?_, ?_⟩
    · have := (hiff run).mp hrun
      omega
    · rcases hlast with hlast | hlast
      · have := mt (hiff (divisionRoundUp (endPage + 1 - p) runLength)).mpr (Nat.lt_irrefl _)
        exact Or.inr (by omega)
      · left
        apply Nat.le_antisymm hle'
        by_contra hgt
        have hlt := (hiff _).not.mp (Nat.lt_irrefl (divisionRoundUp (endPage + 1 - p) runLength))
        have := (hcount (divisionRoundUp (endPage + 1 - p) runLength)).mpr (Nat.lt_of_not_le hgt)
        omega

theorem Passed.chunk (hfills : Fills (maxRecords n) (lastPage + 1) all) {j : Nat}
    {merged : List Tuple} (hp : j * (runLength * maxRuns) ≤ lastPage)
    (h : Passed (maxRecords n) (runLength * maxRuns) all (j * (runLength * maxRuns)) done)
    (hperm : merged.Perm
      ((all.take ((j * (runLength * maxRuns) + runLength * maxRuns) * maxRecords n)).drop
        (j * (runLength * maxRuns) * maxRecords n)))
    (hsorted : merged.Pairwise (· ≤ ·)) :
    Passed (maxRecords n) (runLength * maxRuns) all
      (j * (runLength * maxRuns) + runLength * maxRuns) (done ++ merged) := by
  have hstart := hfills.page_lt _ (Nat.lt_succ_of_le hp)
  have hdone := h.length_done
  have hmore : j * (runLength * maxRuns) * maxRecords n ≤
      (j * (runLength * maxRuns) + runLength * maxRuns) * maxRecords n :=
    Nat.mul_le_mul_right _ (Nat.le_add_right _ _)
  have hlength := hperm.length_eq
  rw [List.length_drop, List.length_take] at hlength
  refine ⟨?_, ?_, h.runs.append (k := j) ?_ hsorted ?_⟩
  · rw [List.length_append]
    omega
  · have happend : (all.take (j * (runLength * maxRuns) * maxRecords n)).drop 0 ++ _ = _ :=
      slice_append (Nat.zero_le _) hmore
    rw [List.drop_zero, List.drop_zero] at happend
    rw [← happend]
    exact h.perm.append hperm
  · rw [hdone, Nat.min_eq_left (Nat.le_of_lt hstart), Nat.mul_assoc]
  · rw [Nat.add_mul] at hlength
    omega

theorem mergeChunks_eq {endPage turns : Nat}
    (hholds : HoldsPages (maxRecords n) (lastPage + 1) source all)
    (hfills : Fills (maxRecords n) (lastPage + 1) all) (hlength : 0 < runLength)
    (hmaxRuns : 0 < maxRuns) (hruns : RunsSorted (· ≤ ·) (runLength * maxRecords n) all)
    (hturns : all.length < turns) (hle : endPage ≤ lastPage)
    (hend : endPage = lastPage ∨ ∃ k, endPage + 1 = k * (runLength * maxRuns)) (fuel : Nat) :
    ∀ (p : Nat) (done : List Tuple) (out : PageWriter Tuple), endPage < p + fuel →
    ((∃ j, p = j * (runLength * maxRuns)) ∧ p ≤ endPage ∧
        Passed (maxRecords n) (runLength * maxRuns) all p done ∨
      endPage < p ∧ Passed (maxRecords n) (runLength * maxRuns) all (endPage + 1) done) →
    Wrote (maxRecords n) done out →
    ∃ done' out', mergeChunks n source runLength maxRuns lastPage endPage turns fuel p out =
        some out' ∧ Passed (maxRecords n) (runLength * maxRuns) all (endPage + 1) done' ∧
      Wrote (maxRecords n) done' out' := by
  induction fuel with
  | zero =>
    intro p done out hfuel hstate hwrote
    rcases hstate with ⟨_, hp, _⟩ | ⟨hp, hpassed⟩
    · omega
    · rw [mergeChunks, if_neg (by omega)]
      exact ⟨done, out, rfl, hpassed, hwrote⟩
  | succ fuel ih =>
    intro p done out hfuel hstate hwrote
    rw [mergeChunks]
    rcases hstate with ⟨⟨j, rfl⟩, hp, hpassed⟩ | ⟨hp, hpassed⟩
    · rw [if_pos hp]
      have hspan : 0 < runLength * maxRuns := Nat.mul_pos hlength hmaxRuns
      have hchunk := chunk_of_end hlength hle hend hp
      have hmul : j * (runLength * maxRuns) = j * maxRuns * runLength := by ring
      dsimp only
      rw [hmul] at hchunk
      obtain ⟨merged, out', hloop, hperm, hsorted, hwrote'⟩ :=
        hchunk.merge hholds hfills hlength hruns hturns hwrote
      rw [← hmul] at hloop hperm
      have hnext := hpassed.chunk hfills (hp.trans hle) hperm hsorted
      rw [hloop, Option.bind_some]
      apply ih _ _ _ (by omega) _ hwrote'
      by_cases hmore : j * (runLength * maxRuns) + runLength * maxRuns ≤ endPage
      · exact Or.inl ⟨⟨j + 1, (Nat.add_one_mul _ _).symm⟩, hmore, hnext⟩
      · refine Or.inr ⟨by omega, ?_⟩
        rcases hend with hend | ⟨k, hk⟩
        · have hall := hfills.le
          apply hnext.beyond
          · exact hall.trans (Nat.mul_le_mul_right _ (by omega))
          · rw [hend]
            exact hall
        · have hjk : j < k := by
            apply Nat.lt_of_mul_lt_mul_right (a := runLength * maxRuns)
            omega
          have hmul' : (j + 1) * (runLength * maxRuns) ≤ k * (runLength * maxRuns) :=
            Nat.mul_le_mul_right _ hjk
          rw [Nat.add_one_mul] at hmul'
          rw [show endPage + 1 = j * (runLength * maxRuns) + runLength * maxRuns by omega]
          exact hnext
    · rw [if_neg (by omega)]
      exact ⟨done, out, rfl, hpassed, hwrote⟩

theorem mergeThreads_eq {maxMergesPerThread fuel : Nat}
    (hholds : HoldsPages (maxRecords n) (lastPage + 1) source all)
    (hfills : Fills (maxRecords n) (lastPage + 1) all) (hlength : 0 < runLength)
    (hmaxRuns : 0 < maxRuns) (hmerges : 0 < maxMergesPerThread)
    (hruns : RunsSorted (· ≤ ·) (runLength * maxRecords n) all) (hturns : all.length < fuel)
    (hpages : lastPage < fuel) (threads : Nat) :
    ∀ (t : Nat) (dest : PageFile Tuple) (done : List Tuple),
    (∀ s < t + threads, s * (runLength * maxRuns * maxMergesPerThread) ≤ lastPage) →
    lastPage < (t + threads) * (runLength * maxRuns * maxMergesPerThread) →
    Passed (maxRecords n) (runLength * maxRuns) all
      (min (t * (runLength * maxRuns * maxMergesPerThread)) (lastPage + 1)) done →
    HoldsPages (maxRecords n)
      (min (t * (runLength * maxRuns * maxMergesPerThread)) (lastPage + 1)) dest done →
    ∃ dest' done', mergeThreads n source runLength maxRuns lastPage maxMergesPerThread fuel threads
        (min (t * (runLength * maxRuns * maxMergesPerThread)) (lastPage + 1)) dest = some dest' ∧
      Passed (maxRecords n) (runLength * maxRuns) all (lastPage + 1) done' ∧
      HoldsPages (maxRecords n) (lastPage + 1) dest' done' := by
  obtain ⟨span, hspan⟩ : ∃ span, span = runLength * maxRuns * maxMergesPerThread := ⟨_, rfl⟩
  have hspanpos : 0 < span := hspan ▸ Nat.mul_pos (Nat.mul_pos hlength hmaxRuns) hmerges
  rw [← hspan]
  induction threads with
  | zero =>
    intro t dest done _ hend hpassed hdest
    rw [Nat.add_zero] at hend
    rw [Nat.min_eq_right hend] at hpassed hdest
    exact ⟨dest, done, rfl, hpassed, hdest⟩
  | succ threads ih =>
    intro t dest done hstarts hend hpassed hdest
    have hstart := hstarts t (by omega)
    rw [Nat.min_eq_left (by omega)] at hpassed hdest ⊢
    obtain ⟨endPage, hendPage⟩ : ∃ endPage, endPage =
        if t * span + span - 1 > lastPage then lastPage else t * span + span - 1 := ⟨_, rfl⟩
    have hnext : endPage + 1 = min ((t + 1) * span) (lastPage + 1) := by
      rw [Nat.add_one_mul]
      split at hendPage <;> omega
    have hendle : endPage ≤ lastPage := by omega
    have hbound : endPage = lastPage ∨ ∃ k, endPage + 1 = k * (runLength * maxRuns) := by
      split at hendPage
      · exact Or.inl hendPage
      · refine Or.inr ⟨(t + 1) * maxMergesPerThread, ?_⟩
        rw [show (t + 1) * maxMergesPerThread * (runLength * maxRuns) = (t + 1) * span by
          rw [hspan]; ring, Nat.add_one_mul]
        omega
    have hmul : t * span = t * maxMergesPerThread * (runLength * maxRuns) := by
      rw [hspan]
      ring
    have hpage := hfills.page_lt _ (Nat.lt_succ_of_le hstart)
    have hdone := hpassed.length_done
    obtain ⟨done', out, hchunks, hpassed', hwrote⟩ := mergeChunks_eq hholds hfills hlength hmaxRuns
      hruns hturns hendle hbound fuel (t * span) done (.start dest (t * span)) (by omega)
      (Or.inl ⟨⟨_, hmul⟩, by rw [Nat.add_one_mul] at hnext; omega, hpassed⟩)
      (.start (by omega) hdest)
    rw [mergeThreads]
    rw [← hspan, ← hendPage, hchunks, Option.bind_some, hnext]
    rw [hnext] at hpassed'
    apply ih (t + 1) out.file done' (fun s hs => hstarts s (by omega))
      (by rw [show t + 1 + threads = t + (threads + 1) by omega]; exact hend) hpassed'
    intro i hi
    rw [← hnext] at hi hpassed'
    -- the writer has come to each page that has records
    apply hwrote.holds
    have hlen := hpassed'.length_done
    have hroom := hwrote.room
    have hi' := hfills.page_lt i (hi.trans_le (Nat.succ_le_succ hendle))
    have hcap := hfills.cap_pos
    clear hbound
    have hmul' : (i + 1) * maxRecords n ≤ (endPage + 1) * maxRecords n :=
      Nat.mul_le_mul_right _ hi
    rw [Nat.add_one_mul i] at hmul'
    have hlt : i * maxRecords n < (out.page + 1) * maxRecords n := by omega
    exact Nat.le_of_lt_succ (Nat.lt_of_mul_lt_mul_right hlt)

theorem mergePasses_eq (maxRuns turns : Nat) (hcap : 0 < maxRecords n)
    (hle : all.length ≤ (lastPage + 1) * maxRecords n)
    (hmore : 0 < lastPage → lastPage * maxRecords n < all.length ∧ 2 ≤ maxRuns)
    (hturns : all.length < turns) (hpages : lastPage < turns) (fuel : Nat) :
    ∀ (runLength : Nat) (file helper : PageFile Tuple) (all' : List Tuple),
    lastPage < runLength + fuel → 0 < runLength → all'.Perm all →
    HoldsPages (maxRecords n) (lastPage + 1) file all' →
    RunsSorted (· ≤ ·) (runLength * maxRecords n) all' →
    ∃ files sorted, mergePasses n maxRuns lastPage turns fuel runLength file helper = some files ∧
      HoldsPages (maxRecords n) (lastPage + 1) files.1 sorted ∧ sorted.Perm all ∧
      sorted.Pairwise (· ≤ ·) := by
  have hwhole : ∀ {runLength : Nat} {sorted : List Tuple}, lastPage < runLength →
      sorted.Perm all → RunsSorted (· ≤ ·) (runLength * maxRecords n) sorted →
      sorted.Pairwise (· ≤ ·) := by
    intro runLength sorted hlast hperm hsorted
    apply hsorted.pairwise
    rw [hperm.length_eq]
    exact hle.trans (Nat.mul_le_mul_right _ hlast)
  induction fuel with
  | zero =>
    intro runLength file helper all' hfuel _ hperm hholds hruns
    rw [mergePasses, if_neg (by omega)]
    exact ⟨_, all', rfl, hholds, hperm, hwhole hfuel hperm hruns⟩
  | succ fuel ih =>
    intro runLength file helper all' hfuel hpos hperm hholds hruns
    rw [mergePasses]
    by_cases hlt : runLength < lastPage + 1
    · rw [if_pos hlt]
      obtain ⟨hlast, htwo⟩ := hmore (by omega)
      have hlength := hperm.length_eq
      have hfills : Fills (maxRecords n) (lastPage + 1) all' := by
        refine ⟨hcap, hlength ▸ hle, fun i hi => ?_⟩
        rw [hlength]
        exact Nat.lt_of_le_of_lt (Nat.mul_le_mul_right _ (Nat.le_of_lt_succ hi)) hlast
      have hspan : 0 < runLength * maxRuns := Nat.mul_pos hpos (by omega)
      dsimp only
      -- the merges are divided among the threads
      obtain ⟨needed, hneeded⟩ : ∃ needed, needed =
          divisionRoundUp (lastPage + 1) (runLength * maxRuns) := ⟨_, rfl⟩
      obtain ⟨perThread, hperThread⟩ : ∃ perThread, perThread =
          divisionRoundUp needed maxThreads := ⟨_, rfl⟩
      rw [← hneeded, ← hperThread]
      have hneeded' : ∀ k, k < needed ↔ k * (runLength * maxRuns) < lastPage + 1 :=
        fun k => hneeded ▸ lt_divisionRoundUp_iff hspan
      have hneededpos : 0 < needed := (hneeded' 0).mpr (by omega)
      have hperThreadpos : 0 < perThread :=
        hperThread ▸ (lt_divisionRoundUp_iff (by decide)).mpr (by omega)
      have hthreads : ∀ k, k < divisionRoundUp needed perThread ↔
          k * (runLength * maxRuns * perThread) < lastPage + 1 := by
        intro k
        rw [lt_divisionRoundUp_iff hperThreadpos, hneeded', Nat.mul_assoc, Nat.mul_comm perThread]
      obtain ⟨dest, done, hmerged, hpassed, hdest⟩ := mergeThreads_eq hholds hfills hpos
        (by omega) hperThreadpos hruns (hlength ▸ hturns) hpages
        (divisionRoundUp needed perThread) 0 helper []
        (fun s hs => Nat.le_of_lt_succ ((hthreads s).mp (by omega)))
        (by
          rw [Nat.zero_add]
          exact Nat.le_of_not_lt (mt (hthreads _).mpr (Nat.lt_irrefl _)))
        ⟨by simp, by simp, .nil⟩ fun i hi => by omega
      rw [Nat.zero_mul, Nat.zero_min] at hmerged
      rw [hmerged, Option.bind_some]
      have hperm' := hpassed.perm
      rw [List.take_of_length_le hfills.le] at hperm'
      have hgrown : runLength * 2 ≤ runLength * maxRuns := Nat.mul_le_mul_left _ htwo
      exact ih _ _ _ done (by omega) hspan (hperm'.trans hperm) hdest hpassed.runs
    · rw [if_neg hlt]
      exact ⟨_, all', rfl, hholds, hperm, hwhole (by omega) hperm hruns⟩

end

/-- What is relied on of `ceil(pow(n, 1.0 / r))`; the roots of a number come down to 2, and the
bound leaves room for rounding. -/
structure IsRoot (root : Nat → Nat → Nat) : Prop where
  one : ∀ r, 2 ≤ r → root 1 r = 1
  two_le : ∀ n r, 2 ≤ n → 2 ≤ r → 2 ≤ root n r
  le_two : ∀ n r, 2 ≤ r → n ≤ 2 ^ (r - 1) → root n r ≤ 2

/-- The pages of the file hold the records: each is full but the last one, and that has a record
unless there is no other page. -/
structure Filled (n : Nat) (f : OrderedFile) (records : List Tuple) : Prop where
  holds : HoldsPages (maxRecords n) (f.lastPage + 1) f.file records
  le : records.length ≤ (f.lastPage + 1) * maxRecords n
  more : 0 < f.lastPage → f.lastPage * maxRecords n < records.length
  columns : ∀ record ∈ records, record.length = n

def Ordered (n : Nat) (columnOrder : List Nat) (records : List Tuple) (f f' : OrderedFile) :
    Prop :=
  f'.lastPage = f.lastPage ∧ ∃ sorted, Filled n f' sorted ∧
    sorted.Perm (records.map (permuted n columnOrder)) ∧ sorted.Pairwise (· ≤ ·)

section

variable {n fuel poolSize totalPages : Nat} {columnOrder : List Nat} {records : List Tuple}
  {f : OrderedFile} {root : Nat → Nat → Nat}

theorem maxRecords_pos (hn : 0 < n) (hle : n ≤ 255) : 0 < maxRecords n :=
  Nat.div_pos (by simp only [mdbPageSize]; omega) (by omega)

/-- The number of runs is found, and is at least two where there is something to merge. -/
theorem chooseMaxRuns_eq (hroot : IsRoot root) (hpool : 3 ≤ poolSize ∨ 2 ≤ poolSize ∧ totalPages = 1)
    (fuel : Nat) : ∀ r, 2 ≤ r → totalPages ≤ 2 ^ (r + fuel - 1) → ∃ maxRuns,
      chooseMaxRuns root totalPages poolSize (fuel + 1) r = some maxRuns ∧
      (2 ≤ totalPages → 2 ≤ maxRuns) := by
  have hfound : ∀ r, 2 ≤ r → 2 ≤ totalPages → 2 ≤ root totalPages r :=
    fun r hr htwo => hroot.two_le _ r htwo hr
  induction fuel with
  | zero =>
    intro r hr hle
    have hless : root totalPages r < poolSize := by
      rcases hpool with hpool | ⟨hpool, hone⟩
      · exact Nat.lt_of_le_of_lt (hroot.le_two _ r hr hle) hpool
      · rw [hone, hroot.one r hr]
        exact hpool
    rw [chooseMaxRuns, if_pos hless]
    exact ⟨_, rfl, hfound r hr⟩
  | succ fuel ih =>
    intro r hr hle
    rw [chooseMaxRuns]
    by_cases hless : root totalPages r < poolSize
    · rw [if_pos hless]
      exact ⟨_, rfl, hfound r hr⟩
    · rw [if_neg hless]
      exact ih (r + 1) (by omega) (by rw [show r + 1 + fuel = r + (fuel + 1) by omega]; exact hle)

theorem chooseMaxRuns_eq_none (hroot : IsRoot root) (hpages : 0 < totalPages)
    (hpool : ¬ (3 ≤ poolSize ∨ 2 ≤ poolSize ∧ totalPages = 1)) (fuel : Nat) :
    ∀ r, 2 ≤ r → chooseMaxRuns root totalPages poolSize fuel r = none := by
  induction fuel with
  | zero => exact fun r _ => rfl
  | succ fuel ih =>
    intro r hr
    have hless : ¬ root totalPages r < poolSize := by
      rcases Nat.lt_or_ge totalPages 2 with hone | htwo
      · have hone : totalPages = 1 := by omega
        rw [hone, hroot.one r hr]
        omega
      · have := hroot.two_le _ r htwo hr
        omega
    rw [chooseMaxRuns, if_neg hless]
    exact ih (r + 1) (by omega)

theorem order_eq_none {uninitialized : Nat → Nat → Nat} {sharedBufferPoolSize : Nat}
    (h : chooseMaxRuns root (f.lastPage + 1) (sharedBufferPoolSize / (2 * maxThreads)) fuel 2 =
      none) : f.order n root sharedBufferPoolSize uninitialized fuel columnOrder = none := by
  unfold order
  dsimp only
  rw [h]
  exact Option.bind_fun_none _

theorem firstStep_eq (hfilled : Filled n f records)
    (horder : columnOrder.Perm (List.range n)) (uninitialized : Nat → Nat → Nat)
    (hfuel : f.lastPage < fuel) : ∃ file all,
    orderPages (fun p => orderPage n columnOrder (uninitialized p)) f.lastPage
      (divisionRoundUp (f.lastPage + 1)
        (if maxThreads < f.lastPage + 1 then maxThreads else f.lastPage + 1)) fuel 0 f.file =
        some file ∧
      HoldsPages (maxRecords n) (f.lastPage + 1) file all ∧
      all.Perm (records.map (permuted n columnOrder)) ∧
      RunsSorted (· ≤ ·) (1 * maxRecords n) all := by
  have hthreads : 0 < divisionRoundUp (f.lastPage + 1)
      (if maxThreads < f.lastPage + 1 then maxThreads else f.lastPage + 1) := by
    apply (lt_divisionRoundUp_iff (by split <;> simp [maxThreads])).mpr
    omega
  obtain ⟨file, hfile⟩ : ∃ file : PageFile Tuple, file = fun p =>
      if 0 ≤ p ∧ p ≤ f.lastPage then orderPage n columnOrder (uninitialized p) (f.file p)
      else f.file p := ⟨_, rfl⟩
  -- a page of the file after the first step
  have hspec : ∀ p ≤ f.lastPage,
      (file p).Perm ((pageOf (maxRecords n) records p).map (permuted n columnOrder)) ∧
        (file p).Pairwise (· ≤ ·) := by
    intro p hp
    have hcolumns : ∀ record ∈ pageOf (maxRecords n) records p, record.length = n :=
      fun record hrecord => hfilled.columns record
        (List.mem_of_mem_drop (List.mem_of_mem_take hrecord))
    rw [hfile]
    dsimp only
    rw [if_pos ⟨Nat.zero_le p, hp⟩, hfilled.holds p (Nat.lt_succ_of_le hp)]
    exact orderPage_spec horder (uninitialized p) hcolumns
  have hsizes : ∀ i < f.lastPage + 1,
      (file i).length = (pageOf (maxRecords n) records i).length := by
    intro i hi
    rw [(hspec i (Nat.le_of_lt_succ hi)).1.length_eq, List.length_map]
  obtain ⟨hholds, hlength⟩ := holdsPages_flatMap hsizes
  rw [Nat.min_eq_right hfilled.le] at hlength
  refine ⟨file, (List.range (f.lastPage + 1)).flatMap file, ?_, hholds, ?_, ?_⟩
  · rw [orderPages_eq _ hthreads fuel 0 f.file (by omega), hfile]
  · have hperm := List.Perm.flatMap_left (List.range (f.lastPage + 1))
      (f := file) (g := fun p => (pageOf (maxRecords n) records p).map (permuted n columnOrder))
      fun p hp => (hspec p (Nat.le_of_lt_succ (List.mem_range.mp hp))).1
    rw [← List.map_flatMap, flatMap_pageOf, List.take_of_length_le hfilled.le] at hperm
    exact hperm
  · rw [Nat.one_mul]
    apply RunsSorted.of_pages
    intro i
    by_cases hi : i < f.lastPage + 1
    · rw [← hholds i hi]
      exact (hspec i (Nat.le_of_lt_succ hi)).2
    · rw [pageOf_of_length_le]
      · exact .nil
      · rw [hlength]
        exact hfilled.le.trans (Nat.mul_le_mul_right _ (Nat.le_of_not_lt hi))

theorem order_of_pool (hn : 0 < n) (hle : n ≤ 255) (hroot : IsRoot root)
    (hfilled : Filled n f records) (horder : columnOrder.Perm (List.range n))
    (uninitialized : Nat → Nat → Nat) {sharedBufferPoolSize : Nat}
    (hpool : 3 ≤ sharedBufferPoolSize / (2 * maxThreads) ∨
      2 ≤ sharedBufferPoolSize / (2 * maxThreads) ∧ f.lastPage + 1 = 1)
    (hfuel : records.length + f.lastPage + 2 ≤ fuel) :
    ∃ f', f.order n root sharedBufferPoolSize uninitialized fuel columnOrder = some f' ∧
      Ordered n columnOrder records f f' := by
  have hcap := maxRecords_pos hn hle
  obtain ⟨file, all, hfirst, hholds, hperm, hruns⟩ :=
    firstStep_eq hfilled horder uninitialized (show f.lastPage < fuel by omega)
  have hlength : all.length = records.length := hperm.length_eq.trans (List.length_map ..)
  obtain ⟨turns, rfl⟩ : ∃ turns, fuel = turns + 1 := ⟨fuel - 1, by omega⟩
  have hpower : f.lastPage + 1 ≤ 2 ^ (2 + turns - 1) :=
    (Nat.le_of_lt Nat.lt_two_pow_self).trans
      (Nat.pow_le_pow_right (by decide) (by omega))
  obtain ⟨maxRuns, hchoose, htwo⟩ :=
    chooseMaxRuns_eq hroot hpool turns 2 (Nat.le_refl 2) hpower
  obtain ⟨files, sorted, hpasses, hholds', hperm', hsorted⟩ := mergePasses_eq maxRuns (turns + 1)
    hcap (hlength ▸ hfilled.le)
    (fun hpos => ⟨hlength ▸ hfilled.more hpos, htwo (by omega)⟩) (by omega) (by omega) (turns + 1)
    1 file f.helper all (by omega) Nat.one_pos (.refl all) hholds hruns
  have hsame := hperm'.length_eq.trans hlength
  refine ⟨⟨files.1, files.2, f.lastPage⟩, ?_, rfl, sorted, ⟨hholds', ?_, ?_, ?_⟩,
    hperm'.trans hperm, hsorted⟩
  · unfold order
    dsimp only
    rw [hfirst, hchoose]
    dsimp only [bind, Option.bind]
    rw [hpasses]
  · rw [hsame]
    exact hfilled.le
  · rw [hsame]
    exact hfilled.more
  · intro record hrecord
    obtain ⟨record', _, rfl⟩ := List.mem_map.mp ((hperm'.trans hperm).mem_iff.mp hrecord)
    rw [permuted, List.length_map, List.length_range]

end

/-- `order` leaves the records with permuted columns in order exactly when the buffer has pages
enough: 48 of them, or 32 if the file has one page.  With fewer it never returns. -/
theorem orders_iff {n : Nat} (hn : 0 < n) (hle : n ≤ 255) {root : Nat → Nat → Nat}
    (hroot : IsRoot root) {f : OrderedFile} {records : List Tuple} (hfilled : Filled n f records)
    {columnOrder : List Nat} (horder : columnOrder.Perm (List.range n))
    (uninitialized : Nat → Nat → Nat) (sharedBufferPoolSize : Nat) :
    (∃ enough, ∀ fuel ≥ enough, ∃ f',
      f.order n root sharedBufferPoolSize uninitialized fuel columnOrder = some f' ∧
        Ordered n columnOrder records f f') ↔
    48 ≤ sharedBufferPoolSize ∨ 32 ≤ sharedBufferPoolSize ∧ f.lastPage = 0 := by
  have hpool : (3 ≤ sharedBufferPoolSize / (2 * maxThreads) ∨
      2 ≤ sharedBufferPoolSize / (2 * maxThreads) ∧ f.lastPage + 1 = 1) ↔
      48 ≤ sharedBufferPoolSize ∨ 32 ≤ sharedBufferPoolSize ∧ f.lastPage = 0 := by
    simp only [maxThreads]
    omega
  rw [← hpool]
  constructor
  · intro hreturns
    obtain ⟨enough, henough⟩ := hreturns
    obtain ⟨f', hsome, _⟩ := henough enough (Nat.le_refl enough)
    by_contra hsmall
    rw [order_eq_none (chooseMaxRuns_eq_none hroot (Nat.succ_pos _) hsmall enough 2
      (Nat.le_refl 2))] at hsome
    cases hsome
  · intro hlarge
    exact ⟨_, fun fuel hfuel =>
      order_of_pool hn hle hroot hfilled horder uninitialized hlarge hfuel⟩

def leastRoot (n r : Nat) : Nat := ((List.range (n + 1)).find? fun k => n ≤ k ^ r).getD n

theorem leastRoot_spec {n r : Nat} (hr : 0 < r) :
    n ≤ leastRoot n r ^ r ∧ ∀ k, n ≤ k ^ r → leastRoot n r ≤ k := by
  unfold leastRoot
  cases hfind : (List.range (n + 1)).find? fun k => n ≤ k ^ r with
  | none =>
    have hnone := List.find?_eq_none.mp hfind n (List.mem_range.mpr (Nat.lt_succ_self n))
    exact absurd (decide_eq_true (Nat.le_self_pow hr.ne' n)) hnone
  | some found =>
    obtain ⟨hfound, _, hleast⟩ := List.find?_range_eq_some.mp hfind
    refine ⟨of_decide_eq_true hfound, fun k hk => ?_⟩
    by_contra hlt
    have hbefore := hleast k (Nat.lt_of_not_le hlt)
    rw [decide_eq_true hk] at hbefore
    cases hbefore

theorem isRoot_leastRoot : IsRoot leastRoot where
  one r hr := by
    obtain ⟨hle, hleast⟩ := leastRoot_spec (n := 1) (r := r) (by omega)
    apply Nat.le_antisymm (hleast 1 (Nat.one_pow r).ge)
    apply Nat.pos_of_ne_zero
    intro hzero
    rw [hzero, Nat.zero_pow (by omega)] at hle
    cases hle
  two_le n r hn hr := by
    obtain ⟨hle, _⟩ := leastRoot_spec (n := n) (r := r) (by omega)
    by_contra hlt
    have hone := Nat.pow_le_pow_left (Nat.le_of_lt_succ (Nat.lt_of_not_le hlt)) r
    rw [Nat.one_pow] at hone
    omega
  le_two n r hr hn :=
    (leastRoot_spec (by omega)).2 2 (hn.trans (Nat.pow_le_pow_right (by decide) (by omega)))

/-- Records for two pages, which are in order by one column and not by the other. -/
def pairs : List Tuple := (List.range 256).map fun i => [i, 255 - i]

def twoPages : OrderedFile := ⟨pageOf (maxRecords 2) pairs, fun _ => [], 1⟩

theorem filled_twoPages : Filled 2 twoPages pairs where
  holds _ _ := rfl
  le := by simp [pairs, twoPages, BPTLeafWriter.maxRecords, mdbPageSize]
  more _ := by simp [pairs, twoPages, BPTLeafWriter.maxRecords, mdbPageSize]
  columns record hrecord := by
    obtain ⟨i, _, rfl⟩ := List.mem_map.mp hrecord
    rfl

theorem orders_twoPages :
    (∃ enough, ∀ fuel ≥ enough, ∃ f',
      twoPages.order 2 leastRoot 48 (fun _ _ => 0) fuel [1, 0] = some f' ∧
        Ordered 2 [1, 0] pairs twoPages f') ↔ 48 ≤ 48 ∨ 32 ≤ 48 ∧ twoPages.lastPage = 0 :=
  orders_iff (by decide) (by decide) isRoot_leastRoot filled_twoPages (by decide) (fun _ _ => 0) 48

/-- With a buffer of 47 pages two pages are never ordered. -/
theorem order_twoPages_of_small_pool : Filled 2 twoPages pairs ∧
    ∀ fuel, twoPages.order 2 leastRoot 47 (fun _ _ => 0) fuel [1, 0] = none :=
  ⟨filled_twoPages, fun fuel => order_eq_none
    (chooseMaxRuns_eq_none isRoot_leastRoot (by decide) (by decide) fuel 2 (Nat.le_refl 2))⟩

end OrderedFile
end MillenniumDB
