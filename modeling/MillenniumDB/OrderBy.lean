import Mathlib.Data.Finset.Sort
import Mathlib.Tactic.Ring
import MillenniumDB.TupleCollection

/-!
# Ordering the bindings of a query

`OrderBy` writes the bindings of its child to pages, sorts each page, and merges neighbouring runs
from one file into another until there is one run, which is then read page by page.
-/

namespace MillenniumDB

open TupleCollection

/-- The operator: the variables that it keeps, and the order with a flag for each variable. -/
structure OrderBy where
  savedVars : Finset Nat
  orderVars : List Nat
  ascending : List Bool
  order_saved : ∀ var ∈ orderVars, var ∈ savedVars
  length_ascending : orderVars.length = ascending.length

namespace OrderBy

def savedList (O : OrderBy) : List Nat := O.savedVars.sort (· ≤ ·)

section

variable {G : Type*} [Inhabited G] (O : OrderBy) (less : G → G → Bool)

/-- The loop of `has_priority`. -/
def priorityBy : List (Nat × Bool) → List G → List G → Bool
  | [], _, _ => true
  | (var, ascending) :: rest, lhs, rhs =>
    let left := lhs.getD (O.savedList.idxOf var) default
    let right := rhs.getD (O.savedList.idxOf var) default
    if less left right then ascending
    else if less right left then !ascending
    else priorityBy rest lhs rhs

def hasPriority (lhs rhs : List G) : Bool :=
  O.priorityBy less (O.orderVars.zip O.ascending) lhs rhs

def tupleOf (binding : Nat → G) : List G := O.savedList.map binding

/-- `is_full` for a number of tuples. -/
def isFull (count : Nat) : Bool := decide (8 + 16 * O.savedVars.card * (1 + count) > 4096)

/-- The loop of `begin` for one binding: a full page is sorted, and the next one is begun. -/
def save (rand : Nat → Rand) (tuple : List G) (run : PageWriter (List G)) : PageWriter (List G) :=
  if O.isFull (run.file run.page).length then
    ⟨Function.update (Function.update run.file run.page
      (sort (O.hasPriority less) (rand run.page) (run.file run.page))) (run.page + 1) [tuple],
      run.page + 1⟩
  else run.append O.isFull tuple

def firstRuns (rand : Nat → Rand) (bindings : List (Nat → G)) (firstFile : PageFile (List G)) :
    PageFile (List G) × Nat :=
  let run := bindings.foldl (fun run binding => O.save less rand (O.tupleOf binding) run)
    (PageWriter.start firstFile 0)
  (Function.update run.file run.page
    (sort (O.hasPriority less) (rand run.page) (run.file run.page)), run.page + 1)

end

section

variable {α : Type*} [Inhabited α] (hasPriority : α → α → Bool) (full : Nat → Bool) (turns : Nat)

/-- The inner loop of `merge_sort`, which goes over the runs. -/
def mergeRuns (totalPages runsToMerge : Nat) : Nat → Nat → Nat → Nat → PageFile α → PageFile α →
    Option (PageFile α × PageFile α)
  | 0, startPage, _, _, source, dest => if startPage < totalPages then none else some (source, dest)
  | fuel + 1, startPage, middle, endPage, source, dest =>
    if startPage < totalPages then
      let merged :=
        if startPage = endPage then some (copyPage source startPage dest)
        else (merge hasPriority full source turns startPage middle (middle + 1) endPage dest).map
          fun dest => (source, dest)
      let start := endPage + 1
      let stop := if endPage + runsToMerge ≥ totalPages then totalPages - 1
        else endPage + runsToMerge
      let middle := if start + runsToMerge / 2 - 1 ≥ stop then (start + stop) / 2
        else start + runsToMerge / 2 - 1
      merged.bind fun files => mergeRuns totalPages runsToMerge fuel start middle stop files.1 files.2
    else some (source, dest)

/-- `merge_sort` from the length of the runs on; the file with the last runs. -/
def mergeSort (totalPages : Nat) : Nat → Nat → PageFile α → PageFile α → Option (PageFile α)
  | 0, runsToMerge, source, _ => if runsToMerge < totalPages then none else some source
  | fuel + 1, runsToMerge, source, dest =>
    if runsToMerge < totalPages then
      let middle := runsToMerge * 2 / 2 - 1
      let runs := if runsToMerge * 2 > totalPages then totalPages else runsToMerge * 2
      (mergeRuns hasPriority full turns totalPages runs fuel 0 middle (runs - 1) source dest).bind
        fun files => mergeSort totalPages fuel runs files.2 files.1
    else some source

end

section

variable {G : Type*} [Inhabited G] (O : OrderBy) (less : G → G → Bool)

/-- `begin`: the file with the tuples in order, and the number of pages. -/
def begin (rand : Nat → Rand) (fuel : Nat) (bindings : List (Nat → G))
    (firstFile secondFile : PageFile (List G)) : Option (PageFile (List G) × Nat) :=
  let runs := O.firstRuns less rand bindings firstFile
  (mergeSort (O.hasPriority less) O.isFull fuel runs.2 fuel 1 runs.1 secondFile).map
    fun output => (output, runs.2)

end

/-- What `next` changes: the page that is read and the position on it. -/
structure Scan where
  currentPage : Nat
  runPage : Nat
  pagePosition : Nat

/-- `next`, with the tuple in `saved_objects` if it returns true. -/
def next {α : Type*} [Inhabited α] (output : PageFile α) (totalPages : Nat) (s : Scan) :
    Option α × Scan :=
  if s.pagePosition = (output s.runPage).length then
    if s.currentPage + 1 ≥ totalPages then (none, { s with currentPage := s.currentPage + 1 })
    else
      (some (readTuple output (s.currentPage + 1) 0),
        ⟨s.currentPage + 1, s.currentPage + 1, 1⟩)
  else (some (readTuple output s.runPage s.pagePosition),
    { s with pagePosition := s.pagePosition + 1 })

/-- The answers of some calls of `next`. -/
def answers {α : Type*} [Inhabited α] (output : PageFile α) (totalPages : Nat) : Nat → Scan →
    List (Option α)
  | 0, _ => []
  | n + 1, s =>
    (next output totalPages s).1 :: answers output totalPages n (next output totalPages s).2

section

variable {α : Type*} [Inhabited α] {hasPriority : α → α → Bool} {full : Nat → Bool}
  {cap pages old turns : Nat} {all done : List α} {source dest : PageFile α}

structure Passing (hasPriority : α → α → Bool) (cap old : Nat) (all : List α) (startPage : Nat)
    (source dest : PageFile α) (done : List α) : Prop where
  length_done : done.length = min (startPage * cap) all.length
  written : ∀ i < startPage, dest i = pageOf cap done i
  unread : HoldsFrom cap startPage source all
  perm : done.Perm (all.take (startPage * cap))
  runs : RunsSorted (Before hasPriority) (2 * old * cap) done

/-- The pages of the next two runs, and where the second one begins; at the end of the file there
may be one run only, which is then cut in two. -/
structure Chunk (old pages startPage middle endPage : Nat) : Prop where
  start_le : startPage ≤ endPage
  end_eq : endPage + 1 = min (startPage + 2 * old) pages
  middle_mem : startPage < endPage → startPage ≤ middle ∧ middle < endPage
  cut : middle = startPage + old - 1 ∨ endPage ≤ startPage + old - 1

theorem Passing.chunk (full : Nat → Bool) (hpreorder : TotalPreorder hasPriority)
    (hfills : Fills cap pages all)
    (hfull : ∀ n ≤ all.length, full n = true ↔ cap ≤ n) (hturns : all.length ≤ turns)
    (hold : 0 < old) (hruns : RunsSorted (Before hasPriority) (old * cap) all)
    {j middle endPage : Nat} (hchunk : Chunk old pages (j * (2 * old)) middle endPage)
    (h : Passing hasPriority cap old all (j * (2 * old)) source dest done) :
    ∃ source' dest' done', (if j * (2 * old) = endPage then
        some (copyPage source (j * (2 * old)) dest)
      else (merge hasPriority full source turns (j * (2 * old)) middle (middle + 1) endPage dest).map
        fun dest => (source, dest)) = some (source', dest') ∧
      Passing hasPriority cap old all (endPage + 1) source' dest' done' := by
  have hendlt : endPage < pages := by
    have := hchunk.end_eq
    omega
  have hcap := hfills.cap_pos
  have hend := hfills.page_lt endPage hendlt
  have hstartle : j * (2 * old) * cap ≤ endPage * cap := Nat.mul_le_mul_right cap hchunk.start_le
  have hnext : (endPage + 1) * cap = endPage * cap + cap := Nat.add_one_mul endPage cap
  have hdone : done.length = j * (2 * old) * cap := by
    have := h.length_done
    omega
  have hmul : ∀ k m : Nat, k ≤ m → k * cap ≤ m * cap := fun k m hkm => Nat.mul_le_mul_right cap hkm
  -- the two old runs of the chunk
  have hfirstrun : SortedOn (Before hasPriority) (j * (2 * old) * cap)
      ((j * (2 * old) + old) * cap) all := by
    have := hruns (2 * j)
    rw [show 2 * j * (old * cap) = j * (2 * old) * cap by ring,
      show (2 * j + 1) * (old * cap) = (j * (2 * old) + old) * cap by ring] at this
    exact this
  have hsecondrun : SortedOn (Before hasPriority) ((j * (2 * old) + old) * cap)
      ((j * (2 * old) + 2 * old) * cap) all := by
    have := hruns (2 * j + 1)
    rw [show (2 * j + 1) * (old * cap) = (j * (2 * old) + old) * cap by ring,
      show (2 * j + 1 + 1) * (old * cap) = (j * (2 * old) + 2 * old) * cap by ring] at this
    exact this
  -- what is common to a copied page and to merged runs
  have hfinish : ∀ (source' dest' : PageFile α) (run : List α),
      (∀ i ≤ endPage, dest' i = pageOf cap (done ++ run) i) →
      HoldsFrom cap (endPage + 1) source' all →
      run.Perm ((all.take (min ((endPage + 1) * cap) all.length)).drop (j * (2 * old) * cap)) →
      run.Pairwise (Before hasPriority) →
      Passing hasPriority cap old all (endPage + 1) source' dest' (done ++ run) := by
    intro source' dest' run hwritten hunread hperm hsorted
    have hlength : run.length = min ((endPage + 1) * cap) all.length - j * (2 * old) * cap := by
      rw [hperm.length_eq, List.length_drop, List.length_take]
      omega
    refine ⟨?_, fun i hi => hwritten i (Nat.le_of_lt_succ hi), hunread, ?_, ?_⟩
    · rw [List.length_append, hlength, hdone]
      omega
    · have hsplit := List.take_append_drop (j * (2 * old) * cap)
        (all.take (min ((endPage + 1) * cap) all.length))
      rw [List.take_take, Nat.min_eq_left (by omega), take_min_length] at hsplit
      rw [take_min_length] at hperm
      have happend := h.perm.append hperm
      rw [hsplit] at happend
      exact happend
    · apply h.runs.append (k := j) (by rw [hdone]; ring) hsorted
      have hspan : (endPage + 1) * cap ≤ (j * (2 * old) + 2 * old) * cap := hmul _ _ (by
        have := hchunk.end_eq
        omega)
      rw [Nat.add_mul (j * (2 * old))] at hspan
      omega
  by_cases hsingle : j * (2 * old) = endPage
  · rw [if_pos hsingle]
    refine ⟨_, _, _, rfl, hfinish _ _ (pageOf cap all endPage) (fun i hi => ?_) (fun i hi hlt => ?_)
      ?_ ?_⟩
    · rw [← hsingle] at hi ⊢
      rcases Nat.lt_or_eq_of_le hi with hi | rfl
      · rw [Function.update_of_ne (Nat.ne_of_lt hi), h.written i hi,
          pageOf_append_left (hdone ▸ hmul _ _ hi)]
      · rw [Function.update_self, h.unread _ (Nat.le_refl _) (by omega), pageOf,
          pageOf, List.drop_left' hdone, List.take_take, Nat.min_self]
    · rw [Function.update_of_ne (by omega)]
      exact h.unread i (by omega) hlt
    · rw [hsingle, pageOf_eq_slice]
    · rw [pageOf_eq_slice]
      rw [hsingle] at hfirstrun
      exact (hfirstrun.mono (Nat.le_refl _) ((Nat.min_le_left _ _).trans
        (hmul _ _ (by omega)))).pairwise_slice
  · rw [if_neg hsingle]
    have hlt : j * (2 * old) < endPage := Nat.lt_of_le_of_ne hchunk.start_le hsingle
    obtain ⟨hmiddle, hmiddlelt⟩ := hchunk.middle_mem hlt
    have hleft : SortedOn (Before hasPriority) (j * (2 * old) * cap) ((middle + 1) * cap) all := by
      apply hfirstrun.mono (Nat.le_refl _) (hmul _ _ _)
      have := hchunk.cut
      omega
    have hright : SortedOn (Before hasPriority) ((middle + 1) * cap) ((endPage + 1) * cap) all := by
      have hend_eq := hchunk.end_eq
      rcases hchunk.cut with hcut | hcut
      · exact hsecondrun.mono (hmul _ _ (by omega)) (hmul _ _ (by omega))
      · exact hfirstrun.mono (hmul _ _ (by omega)) (hmul _ _ (by omega))
    obtain ⟨run, w, hw, hwrote, hperm, hsorted⟩ := merge_eq hpreorder h.unread hcap hmiddle
      hmiddlelt hend hdone h.written hfull hturns hleft hright
    rw [hw]
    refine ⟨_, _, _, rfl, hfinish _ _ run (fun i hi => hwrote.holds i (hi.trans ?_))
      (fun i hi hlt => h.unread i (by omega) hlt) hperm hsorted⟩
    -- the writer has come to the last page
    by_contra hpage
    have hroom := hwrote.room.trans (hmul _ _ (Nat.lt_of_not_le hpage))
    rw [List.length_append, hperm.length_eq, List.length_drop, List.length_take, hdone] at hroom
    omega

theorem mergeRuns_eq (full : Nat → Bool) (runsToMerge : Nat)
    (hpreorder : TotalPreorder hasPriority) (hfills : Fills cap pages all)
    (hfull : ∀ n ≤ all.length, full n = true ↔ cap ≤ n) (hturns : all.length ≤ turns)
    (hold : 0 < old) (hruns : RunsSorted (Before hasPriority) (old * cap) all)
    (hmerge : runsToMerge = 2 * old ∨ pages ≤ 2 * old) (fuel : Nat) :
    ∀ (startPage middle endPage : Nat) (source dest : PageFile α) (done : List α),
    pages ≤ startPage + fuel → startPage ≤ pages →
    (startPage < pages → ∃ j, startPage = j * (2 * old) ∧
      Chunk old pages startPage middle endPage) →
    Passing hasPriority cap old all startPage source dest done →
    ∃ source' dest' all', mergeRuns hasPriority full turns pages runsToMerge fuel startPage middle
        endPage source dest = some (source', dest') ∧ HoldsPages cap pages dest' all' ∧
      all'.Perm all ∧ RunsSorted (Before hasPriority) (2 * old * cap) all' := by
  have hdone : ∀ {startPage source dest done}, startPage = pages →
      Passing hasPriority cap old all startPage source dest done →
      HoldsPages cap pages dest done ∧ done.Perm all ∧
        RunsSorted (Before hasPriority) (2 * old * cap) done := by
    intro startPage source dest done heq h
    subst heq
    have hperm := h.perm
    rw [List.take_of_length_le hfills.le] at hperm
    exact ⟨h.written, hperm, h.runs⟩
  induction fuel with
  | zero =>
    intro startPage middle endPage source dest done hfuel hle _ h
    rw [mergeRuns, if_neg (by omega)]
    exact ⟨_, _, _, rfl, hdone (by omega) h⟩
  | succ fuel ih =>
    intro startPage middle endPage source dest done hfuel hle hchunk h
    rw [mergeRuns]
    by_cases hlt : startPage < pages
    · rw [if_pos hlt]
      obtain ⟨j, rfl, hchunk⟩ := hchunk hlt
      obtain ⟨source', dest', done', hmerged, hpassing⟩ :=
        h.chunk full hpreorder hfills hfull hturns hold hruns hchunk
      dsimp only
      rw [hmerged, Option.bind_some]
      have hend := hchunk.end_eq
      have hstart := hchunk.start_le
      apply ih _ _ _ _ _ _ (by omega) (by omega) _ hpassing
      intro hnext
      -- another chunk follows, so this one had its two runs
      have hruns : runsToMerge = 2 * old := hmerge.resolve_right (by omega)
      have hpage : endPage + 1 = (j + 1) * (2 * old) := by
        rw [Nat.add_one_mul]
        omega
      refine ⟨j + 1, hpage, ?_⟩
      rw [hruns, show 2 * old / 2 = old by omega]
      constructor
      · split <;> omega
      · split <;> omega
      · split <;> split <;> omega
      · split <;> split <;> omega
    · rw [if_neg hlt]
      exact ⟨_, _, _, rfl, hdone (by omega) h⟩

theorem mergeSort_eq (hpreorder : TotalPreorder hasPriority)
    (hfull : ∀ n ≤ all.length, full n = true ↔ cap ≤ n) (hturns : all.length ≤ turns)
    (hcap : 0 < cap) (hle : all.length ≤ pages * cap)
    (hpages : 1 < pages → ∀ i < pages, i * cap < all.length) (fuel : Nat) :
    ∀ (all' : List α) (runsToMerge : Nat) (source dest : PageFile α),
    pages + (pages - runsToMerge) ≤ fuel → 0 < runsToMerge → all'.Perm all →
    HoldsPages cap pages source all' →
    RunsSorted (Before hasPriority) (runsToMerge * cap) all' →
    ∃ output sorted, mergeSort hasPriority full turns pages fuel runsToMerge source dest =
        some output ∧ HoldsPages cap pages output sorted ∧ sorted.Perm all ∧
      sorted.Pairwise (Before hasPriority) := by
  have hwhole : ∀ {runs : Nat} {sorted : List α}, pages ≤ runs → sorted.Perm all →
      RunsSorted (Before hasPriority) (runs * cap) sorted →
      sorted.Pairwise (Before hasPriority) := by
    intro runs sorted hruns hperm hsorted
    apply hsorted.pairwise
    rw [hperm.length_eq]
    exact hle.trans (Nat.mul_le_mul_right cap hruns)
  induction fuel with
  | zero =>
    intro all' runsToMerge source dest hfuel _ hperm hholds hruns
    rw [mergeSort, if_neg (by omega)]
    exact ⟨_, all', rfl, hholds, hperm, hwhole (by omega) hperm hruns⟩
  | succ fuel ih =>
    intro all' runsToMerge source dest hfuel hpos hperm hholds hruns
    rw [mergeSort]
    by_cases hmore : runsToMerge < pages
    · rw [if_pos hmore]
      have hlength := hperm.length_eq
      have hfills : Fills cap pages all' := by
        refine ⟨hcap, hlength ▸ hle, fun i hi => ?_⟩
        rw [hlength]
        exact hpages (by omega) i hi
      have hstart : Passing hasPriority cap runsToMerge all' 0 source dest [] := by
        have hfrom := hholds.holdsFrom (hlength ▸ hle)
        exact ⟨by simp, fun i hi => absurd hi (Nat.not_lt_zero i), hfrom, by simp, .nil⟩
      obtain ⟨runs, hruns'⟩ : ∃ runs, runs =
          if runsToMerge * 2 > pages then pages else runsToMerge * 2 := ⟨_, rfl⟩
      have hpass := mergeRuns_eq full runs hpreorder hfills (hlength ▸ hfull)
        (hlength ▸ hturns) hpos hruns (by split at hruns' <;> omega) fuel 0
        (runsToMerge * 2 / 2 - 1) (runs - 1) source dest [] (by omega) (Nat.zero_le pages)
        (fun _ => ⟨0, by rw [Nat.zero_mul], by
          constructor
          all_goals split at hruns' <;> omega⟩) hstart
      obtain ⟨source', dest', sorted, hmerged, hholds', hperm', hsorted⟩ := hpass
      dsimp only
      rw [← hruns', hmerged, Option.bind_some]
      apply ih sorted runs dest' source' (by split at hruns' <;> omega)
        (by split at hruns' <;> omega) (hperm'.trans hperm) hholds'
      split at hruns'
      · exact RunsSorted.of_pairwise (hwhole (by omega) (hperm'.trans hperm) hsorted)
      · rw [hruns', Nat.mul_comm runsToMerge 2]
        exact hsorted
    · rw [if_neg hmore]
      exact ⟨_, all', rfl, hholds, hperm, hwhole (by omega) hperm hruns⟩

/-- The scan has returned some tuples and stands on the page of the last one, or it has gone
through all pages. -/
structure Scanned (cap pages : Nat) (all : List α) (output : PageFile α) (count : Nat) (s : Scan) :
    Prop where
  runPage_lt : s.runPage < pages
  place : s.runPage = s.currentPage ∧ s.runPage * cap + s.pagePosition = count ∧
      s.pagePosition ≤ (output s.runPage).length ∨
    pages ≤ s.currentPage ∧ s.pagePosition = (output s.runPage).length ∧ all.length ≤ count

theorem Scanned.next {output : PageFile α} (hcap : 0 < cap) (hle : all.length ≤ pages * cap)
    (hpages : 1 < pages → ∀ i < pages, i * cap < all.length)
    (hholds : HoldsPages cap pages output all) {count : Nat} {s : Scan}
    (h : Scanned cap pages all output count s) :
    (OrderBy.next output pages s).1 = all[count]? ∧
      Scanned cap pages all output (count + 1) (OrderBy.next output pages s).2 := by
  have hlt := h.runPage_lt
  have hfrom := hholds.holdsFrom hle
  have hlength : (output s.runPage).length = min cap (all.length - s.runPage * cap) := by
    rw [hholds _ hlt, length_pageOf]
  have hexpand : (s.runPage + 1) * cap = s.runPage * cap + cap := Nat.add_one_mul s.runPage cap
  unfold OrderBy.next
  rcases h.place with ⟨hpage, hcount, hposition⟩ | ⟨hover, hposition, hcount⟩
  · by_cases hend : s.pagePosition = (output s.runPage).length
    · rw [if_pos hend]
      by_cases hlast : s.currentPage + 1 ≥ pages
      · -- the last page has been read
        have heq : (s.runPage + 1) * cap = pages * cap := by
          rw [show s.runPage + 1 = pages by omega]
        have hall : all.length ≤ count := by omega
        rw [if_pos hlast, List.getElem?_eq_none hall]
        exact ⟨rfl, hlt, Or.inr ⟨hlast, hend, Nat.le_succ_of_le hall⟩⟩
      · have hnext := hpages (by omega) (s.runPage + 1) (by omega)
        have hread := readTuple_eq hfrom (s.currentPage + 1) 0 (Nat.zero_le _) hcap
          (by rw [← hpage]; omega)
        rw [← hpage] at hread hlast ⊢
        rw [if_neg hlast, ← hread]
        refine ⟨congrArg (fun k => all[k]?) (by omega), by dsimp only; omega,
          Or.inl ⟨rfl, by dsimp only; omega, ?_⟩⟩
        dsimp only
        rw [hholds _ (by omega), length_pageOf]
        omega
    · have hread := readTuple_eq hfrom s.runPage s.pagePosition (Nat.zero_le _) (by omega)
        (by omega)
      rw [if_neg hend, ← hread, hcount]
      exact ⟨rfl, hlt, Or.inl ⟨hpage, by dsimp only; omega, by dsimp only; omega⟩⟩
  · rw [if_pos hposition, if_pos (by omega), List.getElem?_eq_none hcount]
    exact ⟨rfl, hlt, Or.inr ⟨by dsimp only; omega, hposition, Nat.le_succ_of_le hcount⟩⟩

/-- The calls of `next` return the list, one element each, and then nothing. -/
theorem answers_eq {output : PageFile α} (hcap : 0 < cap) (hle : all.length ≤ pages * cap)
    (hpages : 1 < pages → ∀ i < pages, i * cap < all.length)
    (hholds : HoldsPages cap pages output all) : ∀ (n count : Nat) (s : Scan),
    Scanned cap pages all output count s →
    answers output pages n s = (List.range' count n).map fun k => all[k]?
  | 0, _, _, _ => rfl
  | n + 1, count, s, h => by
    obtain ⟨hanswer, hnext⟩ := h.next hcap hle hpages hholds
    rw [answers, List.range'_succ, List.map_cons, hanswer,
      answers_eq hcap hle hpages hholds n (count + 1) _ hnext]

end

/-- What `operator<` of the objects has to be: its negation is a total preorder. -/
structure WeakOrder {G : Type*} (less : G → G → Bool) : Prop where
  asymm : ∀ a b, less a b = true → less b a = false
  trans : ∀ a b c, less a b = false → less b c = false → less a c = false

section

variable {G : Type*} [Inhabited G] {O : OrderBy} {less : G → G → Bool}

theorem priorityBy_total (hless : WeakOrder less) : ∀ (order : List (Nat × Bool)) (x y : List G),
    O.priorityBy less order x y = false → O.priorityBy less order y x = true
  | [], _, _, h => absurd h Bool.true_eq_false.mp
  | (var, ascending) :: rest, x, y, h => by
    have ih := priorityBy_total hless rest x y
    unfold priorityBy at h ⊢
    dsimp only at h ⊢
    generalize x.getD (O.savedList.idxOf var) default = a at h ⊢
    generalize y.getD (O.savedList.idxOf var) default = b at h ⊢
    have hasymm := hless.asymm a b
    cases hab : less a b with
    | true =>
      rw [hab, if_pos rfl] at h
      rw [hasymm hab, if_neg Bool.false_ne_true, if_pos rfl, h, Bool.not_false]
    | false =>
      rw [hab, if_neg Bool.false_ne_true] at h
      cases hba : less b a with
      | true =>
        rw [hba, if_pos rfl] at h
        rw [if_pos rfl]
        simpa using h
      | false =>
        rw [hba, if_neg Bool.false_ne_true] at h
        rw [if_neg Bool.false_ne_true, if_neg Bool.false_ne_true]
        exact ih h

theorem priorityBy_trans (hless : WeakOrder less) : ∀ (order : List (Nat × Bool)) (x y z : List G),
    O.priorityBy less order x y = true → O.priorityBy less order y z = true →
    O.priorityBy less order x z = true
  | [], _, _, _, _, _ => rfl
  | (var, ascending) :: rest, x, y, z, hxy, hyz => by
    have ih := priorityBy_trans hless rest x y z
    unfold priorityBy at hxy hyz ⊢
    dsimp only at hxy hyz ⊢
    generalize x.getD (O.savedList.idxOf var) default = a at hxy ⊢
    generalize y.getD (O.savedList.idxOf var) default = b at hxy hyz
    generalize z.getD (O.savedList.idxOf var) default = c at hyz ⊢
    have hac := hless.trans a b c
    have hca := hless.trans c b a
    have hab := hless.trans a c b
    have hbc := hless.trans b a c
    have hba := hless.trans b c a
    have hcb := hless.trans c a b
    have hasymm := hless.asymm
    grind

theorem totalPreorder_hasPriority (hless : WeakOrder less) :
    TotalPreorder (O.hasPriority less) where
  trans := priorityBy_trans hless _
  total := priorityBy_total hless _

omit [Inhabited G] in
/-- One binding may come before another: at the first variable where neither object is less than the
other it does not matter, and else its object is the less one, or the greater one if the flag says
descending. -/
def InOrder (less : G → G → Bool) (order : List (Nat × Bool)) (x y : Nat → G) : Prop :=
  ∀ before var ascending after, order = before ++ (var, ascending) :: after →
    (∀ p ∈ before, less (x p.1) (y p.1) = false ∧ less (y p.1) (x p.1) = false) →
    if ascending then less (y var) (x var) = false else less (x var) (y var) = false

omit [Inhabited G] in
theorem inOrder_cons {var : Nat} {ascending : Bool} {rest : List (Nat × Bool)} {x y : Nat → G} :
    InOrder less ((var, ascending) :: rest) x y ↔
      (if ascending then less (y var) (x var) = false else less (x var) (y var) = false) ∧
      (less (x var) (y var) = false → less (y var) (x var) = false → InOrder less rest x y) := by
  constructor
  · intro h
    refine ⟨h [] var ascending rest rfl fun p hp => absurd hp List.not_mem_nil, fun hxy hyx => ?_⟩
    rintro before var' ascending' after rfl hties
    exact h ((var, ascending) :: before) var' ascending' after rfl
      (List.forall_mem_cons.mpr ⟨⟨hxy, hyx⟩, hties⟩)
  · rintro ⟨hfirst, hrest⟩ before var' ascending' after heq hties
    cases before with
    | nil =>
      obtain ⟨hhead, rfl⟩ := List.cons.inj heq
      obtain ⟨rfl, rfl⟩ := Prod.mk.inj hhead
      exact hfirst
    | cons p before =>
      obtain ⟨rfl, rfl⟩ := List.cons.inj heq
      obtain ⟨⟨hxy, hyx⟩, hties⟩ := List.forall_mem_cons.mp hties
      exact hrest hxy hyx before var' ascending' after rfl hties

theorem getD_tupleOf {var : Nat} (hsaved : var ∈ O.savedVars) (x : Nat → G) :
    (O.tupleOf x).getD (O.savedList.idxOf var) default = x var := by
  have hmem : var ∈ O.savedList := (Finset.mem_sort _).mpr hsaved
  rw [tupleOf, List.getD_eq_getElem?_getD, List.getElem?_map,
    List.getElem?_eq_getElem (List.idxOf_lt_length_of_mem hmem), List.getElem_idxOf]
  rfl

theorem priorityBy_iff (hless : WeakOrder less) (x y : Nat → G) : ∀ order : List (Nat × Bool),
    (∀ p ∈ order, p.1 ∈ O.savedVars) →
    (O.priorityBy less order (O.tupleOf x) (O.tupleOf y) = true ↔ InOrder less order x y)
  | [], _ => by
    simp only [priorityBy, true_iff]
    intro before _ _ _ heq
    exact absurd heq.symm (List.append_ne_nil_of_right_ne_nil _ (List.cons_ne_nil _ _))
  | (var, ascending) :: rest, hsaved => by
    obtain ⟨hvar, hsaved⟩ := List.forall_mem_cons.mp hsaved
    have ih := priorityBy_iff hless x y rest hsaved
    have hasymm := hless.asymm (x var) (y var)
    rw [inOrder_cons, priorityBy, getD_tupleOf hvar, getD_tupleOf hvar]
    dsimp only
    cases hxy : less (x var) (y var) with
    | true => cases ascending <;> simp [hasymm hxy]
    | false =>
      cases hyx : less (y var) (x var) with
      | true => cases ascending <;> simp
      | false => cases ascending <;> simpa using ih

/-- `has_priority` is the order of the variables, with their flags. -/
theorem hasPriority_iff (hless : WeakOrder less) (x y : Nat → G) :
    O.hasPriority less (O.tupleOf x) (O.tupleOf y) = true ↔
      InOrder less (O.orderVars.zip O.ascending) x y :=
  priorityBy_iff hless x y _ fun _ hp => O.order_saved _ (List.of_mem_zip hp).1

structure Saved (O : OrderBy) (less : G → G → Bool) (cap : Nat) (tuples done : List (List G))
    (run : PageWriter (List G)) : Prop where
  length_done : done.length = run.page * cap
  holds : ∀ i < run.page, run.file i = pageOf cap done i
  perm : (done ++ run.file run.page).Perm tuples
  runs : RunsSorted (Before (O.hasPriority less)) cap done
  room : (run.file run.page).length ≤ cap
  begun : 0 < run.page → run.file run.page ≠ []

theorem Saved.sorted {cap : Nat} {tuples done : List (List G)} {run : PageWriter (List G)}
    (hless : WeakOrder less) (rand : Rand) (h : O.Saved less cap tuples done run) :
    (done ++ sort (O.hasPriority less) rand (run.file run.page)).Perm tuples ∧
      RunsSorted (Before (O.hasPriority less)) cap
        (done ++ sort (O.hasPriority less) rand (run.file run.page)) ∧
      ∀ i ≤ run.page, Function.update run.file run.page
        (sort (O.hasPriority less) rand (run.file run.page)) i =
          pageOf cap (done ++ sort (O.hasPriority less) rand (run.file run.page)) i := by
  obtain ⟨hperm, hsorted⟩ := sort_spec (totalPreorder_hasPriority hless) rand (run.file run.page)
  refine ⟨(hperm.symm.append_left done).trans h.perm,
    h.runs.append h.length_done hsorted (hperm.length_eq ▸ h.room), fun i hi => ?_⟩
  rcases Nat.lt_or_eq_of_le hi with hi | rfl
  · rw [Function.update_of_ne (Nat.ne_of_lt hi), h.holds i hi,
      pageOf_append_left (h.length_done ▸ Nat.mul_le_mul_right cap hi)]
  · rw [Function.update_self, pageOf, List.drop_left' h.length_done,
      List.take_of_length_le (hperm.length_eq ▸ h.room)]

theorem Saved.save {cap : Nat} {tuples done : List (List G)} {run : PageWriter (List G)}
    (tuple : List G) (hless : WeakOrder less) (rand : Nat → Rand) (hcap : 0 < cap)
    (hfull : ∀ n ≤ tuples.length, O.isFull n = true ↔ cap ≤ n)
    (h : O.Saved less cap tuples done run) :
    ∃ done', O.Saved less cap (tuples ++ [tuple]) done' (O.save less rand tuple run) := by
  have hlength := h.perm.length_eq
  rw [List.length_append] at hlength
  have hiff := hfull (run.file run.page).length (by omega)
  unfold OrderBy.save
  split
  · next hpage =>
    have heq : (run.file run.page).length = cap := Nat.le_antisymm h.room (hiff.mp hpage)
    obtain ⟨hperm, hruns, hholds⟩ := h.sorted hless (rand run.page)
    have hsort := (sort_spec (totalPreorder_hasPriority (O := O) hless) (rand run.page)
      (run.file run.page)).1.length_eq
    refine ⟨_, ?_, fun i hi => ?_, ?_, hruns, ?_, fun _ => ?_⟩
    · rw [List.length_append, ← hsort, heq, h.length_done, Nat.add_one_mul]
    · dsimp only at hi ⊢
      rw [Function.update_of_ne (Nat.ne_of_lt hi)]
      exact hholds i (Nat.le_of_lt_succ hi)
    · dsimp only
      rw [Function.update_self]
      exact hperm.append_right [tuple]
    · dsimp only
      rw [Function.update_self]
      exact hcap
    · dsimp only
      rw [Function.update_self]
      exact List.cons_ne_nil _ _
  · next hpage =>
    have hlt := Nat.lt_of_not_le (mt hiff.mpr hpage)
    refine ⟨done, ?_⟩
    unfold PageWriter.append
    rw [if_neg hpage]
    refine ⟨h.length_done, fun i hi => ?_, ?_, h.runs, ?_, fun _ => ?_⟩
    · dsimp only at hi ⊢
      rw [Function.update_of_ne (Nat.ne_of_lt hi)]
      exact h.holds i hi
    · dsimp only
      rw [Function.update_self, ← List.append_assoc]
      exact h.perm.append_right [tuple]
    · dsimp only
      rw [Function.update_self, List.length_append]
      exact hlt
    · dsimp only
      rw [Function.update_self]
      exact List.append_ne_nil_of_right_ne_nil _ (List.cons_ne_nil _ _)

theorem Saved.foldl {cap : Nat} (hless : WeakOrder less) (rand : Nat → Rand) (hcap : 0 < cap) :
    ∀ (bindings : List (Nat → G)) (tuples done : List (List G)) (run : PageWriter (List G)),
    (∀ n ≤ tuples.length + bindings.length, O.isFull n = true ↔ cap ≤ n) →
    O.Saved less cap tuples done run →
    ∃ done', O.Saved less cap (tuples ++ bindings.map O.tupleOf) done'
      (bindings.foldl (fun run binding => O.save less rand (O.tupleOf binding) run) run)
  | [], tuples, done, run, _, h => ⟨done, by rw [List.map_nil, List.append_nil]; exact h⟩
  | binding :: bindings, tuples, done, run, hfull, h => by
    rw [List.length_cons] at hfull
    obtain ⟨done', h'⟩ := h.save (O.tupleOf binding) hless rand hcap
      (fun n hn => hfull n (by omega))
    have hrest := Saved.foldl hless rand hcap bindings _ done' _ (fun n hn => hfull n (by
      rw [List.length_append, List.length_singleton] at hn
      omega)) h'
    rw [List.append_assoc] at hrest
    exact hrest

/-- The number of tuples of a page, when one fits; without variables a page is never full. -/
theorem exists_cap (O : OrderBy) (hfits : 8 + 16 * O.savedVars.card ≤ 4096) (bound : Nat) :
    ∃ cap, 0 < cap ∧ ∀ n ≤ bound, O.isFull n = true ↔ cap ≤ n := by
  unfold isFull
  rcases Nat.eq_zero_or_pos O.savedVars.card with hzero | hpos
  · refine ⟨bound + 1, Nat.succ_pos bound, fun n hn => ?_⟩
    rw [hzero, decide_eq_true_iff]
    omega
  · refine ⟨4088 / (16 * O.savedVars.card), Nat.div_pos (by omega) (by omega), fun n _ => ?_⟩
    rw [decide_eq_true_iff, ← Nat.lt_add_one_iff, Nat.div_lt_iff_lt_mul (by omega),
      Nat.mul_comm (n + 1), Nat.add_comm n 1]
    omega

/-- Every binding of the child is returned once, and they are returned in order. -/
theorem returns_ordered (O : OrderBy) (less : G → G → Bool) (hless : WeakOrder less)
    (hfits : 8 + 16 * O.savedVars.card ≤ 4096) (rand : Nat → Rand) (bindings : List (Nat → G))
    (firstFile secondFile : PageFile (List G)) :
    ∃ enough, ∀ fuel ≥ enough, ∃ (output : PageFile (List G)) (pages : Nat)
        (rows : List (Nat → G)),
      O.begin less rand fuel bindings firstFile secondFile = some (output, pages) ∧
      rows.Perm bindings ∧ rows.Pairwise (InOrder less (O.orderVars.zip O.ascending)) ∧
      ∀ n, answers output pages n ⟨0, 0, 0⟩ =
        (List.range n).map fun k => rows[k]?.map O.tupleOf := by
  obtain ⟨cap, hcap, hfull⟩ := O.exists_cap hfits bindings.length
  have hstart : O.Saved less cap [] [] (PageWriter.start firstFile 0) := by
    have hnil : (PageWriter.start firstFile 0).file 0 = [] := by
      dsimp only [PageWriter.start]
      rw [Function.update_self]
    refine ⟨(Nat.zero_mul cap).symm, fun i hi => absurd hi (Nat.not_lt_zero i), ?_, .nil, ?_,
      fun h => absurd h (Nat.lt_irrefl 0)⟩
    · exact List.Perm.of_eq hnil
    · exact (congrArg List.length hnil).le.trans (Nat.zero_le cap)
  obtain ⟨done, hsaved⟩ := Saved.foldl hless rand hcap bindings [] [] _
    (fun n hn => hfull n (by simpa using hn)) hstart
  rw [List.nil_append] at hsaved
  generalize hrun : bindings.foldl (fun run binding => O.save less rand (O.tupleOf binding) run)
    (PageWriter.start firstFile 0) = run at hsaved
  obtain ⟨hperm, hruns, hholds⟩ := hsaved.sorted hless (rand run.page)
  have hsort := (sort_spec (totalPreorder_hasPriority (O := O) hless) (rand run.page)
    (run.file run.page)).1.length_eq
  generalize hall : done ++ sort (O.hasPriority less) (rand run.page) (run.file run.page) = all
    at hperm hruns hholds
  have hlength : all.length = bindings.length := by rw [hperm.length_eq, List.length_map]
  have hall_length : all.length = run.page * cap + (run.file run.page).length := by
    rw [← hall, List.length_append, hsaved.length_done, hsort]
  have hroom := hsaved.room
  have hle : all.length ≤ (run.page + 1) * cap := by
    rw [Nat.add_one_mul]
    omega
  have hpages : 1 < run.page + 1 → ∀ i < run.page + 1, i * cap < all.length := by
    intro hpage i hi
    have hbegun := List.length_pos_of_ne_nil (hsaved.begun (by omega))
    have := Nat.mul_le_mul_right cap (Nat.le_of_lt_succ hi)
    omega
  refine ⟨all.length + 2 * (run.page + 1), fun fuel hfuel => ?_⟩
  obtain ⟨output, returned, hmerged, hholds', hperm', hsorted⟩ := mergeSort_eq
    (totalPreorder_hasPriority (O := O) hless) (hlength ▸ hfull) (by omega : all.length ≤ fuel) hcap
    hle hpages fuel all 1 _ secondFile (by omega) Nat.one_pos (.refl all)
    (fun i hi => hholds i (Nat.le_of_lt_succ hi)) (by rw [Nat.one_mul]; exact hruns)
  have hreturned := hperm'.length_eq
  have hscan : Scanned cap (run.page + 1) returned output 0 ⟨0, 0, 0⟩ :=
    ⟨Nat.succ_pos _, Or.inl ⟨rfl, Nat.zero_mul cap, Nat.zero_le _⟩⟩
  -- the tuples that are returned are those of the bindings in another order
  have hrows : ∃ rows : List (Nat → G), returned = rows.map O.tupleOf ∧ rows.Perm bindings := by
    have hcomp := congrFun (congrFun (List.eq_map_comp_perm O.tupleOf) returned) bindings
    exact hcomp.mpr (hperm'.trans hperm)
  obtain ⟨rows, hreturned_eq, hrows⟩ := hrows
  refine ⟨output, run.page + 1, rows, ?_, hrows, ?_, fun n => ?_⟩
  · unfold OrderBy.begin firstRuns
    rw [hrun]
    dsimp only
    rw [hmerged, Option.map_some]
  · rw [hreturned_eq] at hsorted
    exact (List.pairwise_map.mp hsorted).imp fun h => (hasPriority_iff hless _ _).mp h
  · rw [answers_eq hcap (hreturned ▸ hle) (hreturned ▸ hpages) hholds' n 0 _ hscan,
      List.range_eq_range', hreturned_eq]
    simp only [List.getElem?_map]

def byFirst : OrderBy where
  savedVars := {0, 1}
  orderVars := [0]
  ascending := [false]
  order_saved := by decide
  length_ascending := rfl

theorem weakOrder_nat : WeakOrder fun a b : Nat => decide (a < b) where
  asymm a b h := by simpa using Nat.le_of_lt (of_decide_eq_true h)
  trans a b c hab hbc := by
    rw [decide_eq_false_iff_not, Nat.not_lt] at hab hbc ⊢
    exact hbc.trans hab

theorem returns_ordered_byFirst : ∃ enough, ∀ fuel ≥ enough,
    ∃ (output : PageFile (List Nat)) (pages : Nat) (rows : List (Nat → Nat)),
      byFirst.begin (fun a b => decide (a < b)) (fun _ _ => 0) fuel [id, (· + 5)] (fun _ => [])
        (fun _ => []) = some (output, pages) ∧
      rows.Perm [id, (· + 5)] ∧
      rows.Pairwise (InOrder (fun a b => decide (a < b)) [(0, false)]) ∧
      ∀ n, answers output pages n ⟨0, 0, 0⟩ =
        (List.range n).map fun k => rows[k]?.map byFirst.tupleOf :=
  returns_ordered byFirst _ weakOrder_nat (by decide) _ _ _ _

end

end OrderBy
end MillenniumDB
