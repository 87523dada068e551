import MillenniumDB.BptDirectory
import Mathlib.Order.Bounds.Defs

/-!
# The leapfrog iterator over a B+ tree

`LeapfrogBptIter` keeps a leaf and a stack of directory pages.  `internal_search` looks for a
record in the leaf, if that can be the right one, and otherwise climbs the stack only as far as a
page whose keys are around the record.
-/

namespace MillenniumDB

namespace BPlusTreeLeaf

def lastIndex (record : Tuple) (records : List Tuple) (start : Nat) : Nat :=
  let id := records.getD start []
  if record < id then start else if id < record then start + 1 else start

/-- The loop of `search_index`, with fuel for the records between the two bounds. -/
def searchIndexLoop (record : Tuple) (records : List Tuple) : Nat → Int → Int → Nat
  | 0, start, _ => lastIndex record records start.toNat
  | fuel + 1, start, stop =>
    if start < stop then
      let middle := (start + stop) / 2
      let id := records.getD middle.toNat []
      if record < id then searchIndexLoop record records fuel start (middle - 1)
      else if id < record then searchIndexLoop record records fuel (middle + 1) stop
      else middle.toNat
    else lastIndex record records start.toNat

/-- `search_index`: the position of the least record that is not below the given one. -/
def searchIndex (record : Tuple) (page : LeafPage) : Nat :=
  searchIndexLoop record page.records page.valueCount 0 ((page.valueCount : Int) - 1)

/-- `check_range`: whether the record lies between the first and the last one of the leaf. -/
def checkRange (r : Tuple) (page : LeafPage) : Bool :=
  if page.valueCount = 0 then false
  else decide (page.records.getD 0 [] ≤ r) &&
    decide (r ≤ page.records.getD (page.valueCount - 1) [])

end BPlusTreeLeaf

namespace BPlusTreeDir

/-- `check_range`: whether the record lies between the first and the last key of the page. -/
def checkRange (r : Tuple) (page : DirPage) : Bool :=
  if page.keyCount = 0 then false
  else decide (page.keys.getD 0 [] ≤ r) && decide (r ≤ page.keys.getD (page.keyCount - 1) [])

/-- `search_leaf` from the page on top of a stack, with fuel for the levels.  The pages on the way
are pushed. -/
def searchLeafStack (record : Tuple) (pages : List DirPage) :
    Nat → List Nat → Option (Nat × List Nat)
  | 0, _ => none
  | _, [] => none
  | fuel + 1, top :: stack =>
    let page := pages.getD top .zero
    let pagePointer := page.children.getD (searchChildIndex record page) 0
    if pagePointer < 0 then
      searchLeafStack record pages fuel (pagePointer.natAbs :: top :: stack)
    else some (pagePointer.toNat, top :: stack)

end BPlusTreeDir

structure BPlusTree where
  dir : List DirPage
  leaves : List LeafPage

namespace BPlusTree

def leaf (tree : BPlusTree) (n : Nat) : LeafPage := tree.leaves.getD n ⟨0, 0, []⟩

/-- The page and the position where a search that has reached a leaf ends: there may be no such
record in the leaf, then it is the first one of the next leaf. -/
def locate (tree : BPlusTree) (record : Tuple) (n : Nat) : Option (LeafPage × Nat) :=
  let page := tree.leaf n
  let index := BPlusTreeLeaf.searchIndex record page
  if page.valueCount ≤ index then
    if page.nextLeaf ≠ 0 then some (tree.leaf page.nextLeaf, 0) else none
  else some (page, index)

/-- A search from the root for the least record from `min` to `max`. -/
def freshSearch (tree : BPlusTree) (min max : Tuple) : Option (Option Tuple) :=
  (BPlusTreeDir.searchLeaf min tree.dir).map fun n =>
    (tree.locate min n).bind fun found =>
      let tuple := found.1.records.getD found.2 []
      if tuple ≤ max then some tuple else none

end BPlusTree

def uint64Max : Nat := 2 ^ 64 - 1

def minFrom (n : Nat) (pre : List Nat) : Tuple := pre ++ List.replicate (n - pre.length) 0

def maxFrom (n : Nat) (pre : List Nat) : Tuple := pre ++ List.replicate (n - pre.length) uint64Max

structure LeapfrogBptIter where
  level : Int
  currentTuple : Tuple
  currentLeaf : LeafPage
  currentPosInLeaf : Nat
  directoryStack : List Nat

/-- What a join calls of an iterator; the ranges of `open_terms` are taken from the binding. -/
inductive LeapfrogCall
  | openTerms (ranges : List (Nat × Nat))
  | down
  | up
  | next
  | seek (key : Nat)
  deriving DecidableEq

namespace LeapfrogBptIter

def popDirs (pages : List DirPage) (record : Tuple) : List Nat → List Nat
  | top :: below :: stack =>
    if BPlusTreeDir.checkRange record (pages.getD top .zero) then top :: below :: stack
    else popDirs pages record (below :: stack)
  | stack => stack

def internalSearch (tree : BPlusTree) (min max : Tuple) (s : LeapfrogBptIter) :
    Option (Bool × LeapfrogBptIter) :=
  if BPlusTreeLeaf.checkRange min s.currentLeaf then
    let newPos := BPlusTreeLeaf.searchIndex min s.currentLeaf
    if newPos < s.currentLeaf.valueCount then
      let newTuple := s.currentLeaf.records.getD newPos []
      if newTuple ≤ max then
        some (true, { s with currentTuple := newTuple, currentPosInLeaf := newPos })
      else some (false, s)
    else some (false, s)
  else
    let stack := popDirs tree.dir min s.directoryStack
    (BPlusTreeDir.searchLeafStack min tree.dir tree.dir.length stack).map fun found =>
      let s := { s with directoryStack := found.2 }
      match tree.locate min found.1 with
      | none => (false, s)
      | some (newLeaf, newPos) =>
        let newTuple := newLeaf.records.getD newPos []
        if newTuple ≤ max then
          (true, { s with
            currentTuple := newTuple, currentLeaf := newLeaf, currentPosInLeaf := newPos })
        else (false, s)

/-- The constructor.  In an empty tree the tuple is what the memory holds. -/
def create (n : Nat) (tree : BPlusTree) (memory : Tuple) : Option LeapfrogBptIter :=
  (BPlusTreeDir.searchLeafStack (minFrom n []) tree.dir tree.dir.length [0]).map fun found =>
    let page := tree.leaf found.1
    let index := BPlusTreeLeaf.searchIndex (minFrom n []) page
    { level := -1
      currentTuple := if index < page.valueCount then page.records.getD index [] else memory
      currentLeaf := page
      currentPosInLeaf := index
      directoryStack := found.2 }

def openTerms (n : Nat) (tree : BPlusTree) (ranges : List (Nat × Nat)) (s : LeapfrogBptIter) :
    Option (Bool × LeapfrogBptIter) :=
  internalSearch tree (minFrom n (ranges.map Prod.fst)) (maxFrom n (ranges.map Prod.snd))
    { s with level := (ranges.length : Int) - 1 }

def down (n : Nat) (tree : BPlusTree) (s : LeapfrogBptIter) : Option (Bool × LeapfrogBptIter) :=
  let s := { s with level := s.level + 1 }
  let pre := s.currentTuple.take s.level.toNat
  internalSearch tree (minFrom n pre) (maxFrom n pre) s

def up (s : LeapfrogBptIter) : LeapfrogBptIter := { s with level := s.level - 1 }

def next (n : Nat) (tree : BPlusTree) (s : LeapfrogBptIter) : Option (Bool × LeapfrogBptIter) :=
  let pre := s.currentTuple.take s.level.toNat
  let key := s.currentTuple.getD s.level.toNat 0
  internalSearch tree (minFrom n (pre ++ [(key + 1) % 2 ^ 64])) (maxFrom n pre) s

def seek (n : Nat) (tree : BPlusTree) (key : Nat) (s : LeapfrogBptIter) :
    Option (Bool × LeapfrogBptIter) :=
  let pre := s.currentTuple.take s.level.toNat
  internalSearch tree (minFrom n (pre ++ [key])) (maxFrom n pre) s

/-- One call, with its answer; `down` and `up` have none.  A level is an index into the tuple
where it is used as one. -/
def step (n : Nat) (tree : BPlusTree) (s : LeapfrogBptIter) :
    LeapfrogCall → Option (Option Bool × LeapfrogBptIter)
  | .openTerms ranges =>
    if ranges.length ≤ n then
      (openTerms n tree ranges s).map fun result => (some result.1, result.2)
    else none
  | .down =>
    if s.level + 1 < n then (down n tree s).map fun result => (none, result.2) else none
  | .up => if 0 ≤ s.level then some (none, s.up) else none
  | .next =>
    if 0 ≤ s.level then (next n tree s).map fun result => (some result.1, result.2) else none
  | .seek key =>
    if 0 ≤ s.level then (seek n tree key s).map fun result => (some result.1, result.2) else none

inductive Reached (n : Nat) (tree : BPlusTree) : LeapfrogBptIter → Prop
  | create {s : LeapfrogBptIter} (memory : Tuple) : create n tree memory = some s → Reached n tree s
  | step {s s' : LeapfrogBptIter} {call : LeapfrogCall} {answer : Option Bool} :
      Reached n tree s → step n tree s call = some (answer, s') → Reached n tree s'

end LeapfrogBptIter

namespace BPlusTree

/-- A tree as `check` wants it: the records of a leaf are in strict order, a separator lies above
all that is to its left and not above what is to its right, and each leaf knows the next one.  Only
the leaf of an empty tree is empty. -/
structure WellFormed (tree : BPlusTree) (sep : Nat → Tuple) (leaves : List Nat) : Prop where
  holds : ∃ h, BPlusTreeDir.PageHolds sep tree.dir Set.univ h 0 leaves
  valueCount : ∀ n ∈ leaves, (tree.leaf n).valueCount = (tree.leaf n).records.length
  sorted : ∀ n ∈ leaves, (tree.leaf n).records.Pairwise (· < ·)
  nonempty : ∀ n ∈ leaves, (tree.leaf n).records = [] → leaves = [n]
  apart : leaves.Pairwise fun n m => (∀ r ∈ (tree.leaf n).records, r < sep m) ∧
    ∀ r ∈ (tree.leaf m).records, sep m ≤ r
  next : ∀ before n m after, leaves = before ++ n :: m :: after →
    (tree.leaf n).nextLeaf = m ∧ m ≠ 0
  last : ∀ before n, leaves = before ++ [n] → (tree.leaf n).nextLeaf = 0

def stored (tree : BPlusTree) (leaves : List Nat) : List Tuple :=
  leaves.flatMap fun n => (tree.leaf n).records

end BPlusTree

namespace BPlusTreeLeaf

section

variable {record : Tuple} {records : List Tuple}

/-- The records below the given one are those before the position. -/
def Splits (record : Tuple) (records : List Tuple) (i : Nat) : Prop :=
  i ≤ records.length ∧ (∀ r ∈ records.take i, r < record) ∧ ∀ r ∈ records.drop i, record ≤ r

theorem splits_of_le (hsorted : records.Pairwise (· < ·)) {i : Nat} (hi : i < records.length)
    (hle : record ≤ records[i]) : ∀ r ∈ records.drop i, record ≤ r := by
  intro r hr
  have hdrop := hsorted.drop (i := i)
  rw [List.drop_eq_getElem_cons hi] at hr hdrop
  rcases List.mem_cons.mp hr with rfl | hr
  · exact hle
  · exact hle.trans (List.rel_of_pairwise_cons hdrop hr).le

theorem splits_of_lt (hsorted : records.Pairwise (· < ·)) {i : Nat} (hi : i < records.length)
    (hlt : records[i] < record) : ∀ r ∈ records.take (i + 1), r < record := by
  intro r hr
  have htake := hsorted.take (i := i + 1)
  rw [← List.take_append_getElem hi] at hr htake
  rcases List.mem_append.mp hr with hr | hr
  · exact ((List.pairwise_append.mp htake).2.2 r hr _ (by simp)).trans hlt
  · rw [List.mem_singleton.mp hr]
    exact hlt

theorem splits_of_eq (hsorted : records.Pairwise (· < ·)) {i : Nat} (hi : i < records.length)
    (heq : records[i] = record) : Splits record records i := by
  refine ⟨hi.le, fun r hr => ?_, splits_of_le hsorted hi heq.ge⟩
  have htake := hsorted.take (i := i + 1)
  rw [← List.take_append_getElem hi] at htake
  rw [← heq]
  exact (List.pairwise_append.mp htake).2.2 r hr _ (by simp)

theorem searchIndexLoop_splits (hsorted : records.Pairwise (· < ·)) (fuel : Nat) :
    ∀ {start stop : Int}, 0 ≤ start → start < records.length → stop < records.length →
      start ≤ stop + 1 → stop - start < fuel + 1 →
      (∀ r ∈ records.take start.toNat, r < record) →
      (∀ r ∈ records.drop (stop + 1).toNat, record ≤ r) →
      Splits record records (searchIndexLoop record records fuel start stop) := by
  have hget : ∀ {i : Nat} (hi : i < records.length), records.getD i [] = records[i] :=
    fun hi => (List.getElem_eq_getD []).symm
  -- with at most one record left the search looks at it
  have hlast : ∀ {start stop : Int}, 0 ≤ start → start < records.length → start ≤ stop + 1 →
      stop ≤ start → (∀ r ∈ records.take start.toNat, r < record) →
      (∀ r ∈ records.drop (stop + 1).toNat, record ≤ r) →
      Splits record records (lastIndex record records start.toNat) := by
    intro start stop hzero hlen hle hstop hlower hupper
    have hi : start.toNat < records.length := by omega
    rw [lastIndex, hget hi]
    by_cases hlt : record < records[start.toNat]
    · rw [if_pos hlt]
      exact ⟨hi.le, hlower, splits_of_le hsorted hi hlt.le⟩
    rw [if_neg hlt]
    by_cases hgt : records[start.toNat] < record
    · rw [if_pos hgt]
      refine ⟨hi, splits_of_lt hsorted hi hgt, ?_⟩
      by_cases heq : stop = start
      · subst heq
        rwa [Int.toNat_add hzero (by decide)] at hupper
      · -- then the record here is already known not to be below
        have hstart : (stop + 1).toNat = start.toNat := by omega
        rw [hstart, List.drop_eq_getElem_cons hi] at hupper
        exact absurd (hupper _ List.mem_cons_self) (not_le.mpr hgt)
    · rw [if_neg hgt]
      exact splits_of_eq hsorted hi (le_antisymm (not_lt.mp hlt) (not_lt.mp hgt))
  induction fuel with
  | zero =>
    intro start stop hzero hlen hlen' hle hfuel hlower hupper
    exact hlast hzero hlen hle (by omega) hlower hupper
  | succ fuel ih =>
    intro start stop hzero hlen hlen' hle hfuel hlower hupper
    rw [searchIndexLoop]
    by_cases hlt : start < stop
    · rw [if_pos hlt]
      dsimp only
      have hmiddle : start ≤ (start + stop) / 2 := by omega
      have hmiddle' : (start + stop) / 2 < stop := by omega
      generalize (start + stop) / 2 = m at hmiddle hmiddle'
      have hi : m.toNat < records.length := by omega
      rw [hget hi]
      by_cases hless : record < records[m.toNat]
      · rw [if_pos hless]
        refine ih hzero hlen (by omega) (by omega) (by omega) hlower ?_
        rw [Int.sub_add_cancel]
        exact splits_of_le hsorted hi hless.le
      rw [if_neg hless]
      by_cases hgreater : records[m.toNat] < record
      · rw [if_pos hgreater]
        refine ih (by omega) (by omega) hlen' (by omega) (by omega) ?_ hupper
        rw [Int.toNat_add (by omega) (by decide)]
        exact splits_of_lt hsorted hi hgreater
      · rw [if_neg hgreater]
        exact splits_of_eq hsorted hi (le_antisymm (not_lt.mp hless) (not_lt.mp hgreater))
    · rw [if_neg hlt]
      exact hlast hzero hlen hle (by omega) hlower hupper

/-- The position that `search_index` finds in a leaf with records. -/
theorem searchIndex_splits (record : Tuple) {page : LeafPage}
    (hcount : page.valueCount = page.records.length) (hsorted : page.records.Pairwise (· < ·)) (hne : page.records ≠ []) :
    Splits record page.records (searchIndex record page) := by
  have hpos := List.length_pos_of_ne_nil hne
  rw [searchIndex, hcount]
  apply searchIndexLoop_splits hsorted _ le_rfl (by omega) (by omega) (by omega) (by omega)
  · simp
  · simp

end
end BPlusTreeLeaf

namespace BPlusTree

section

variable {tree : BPlusTree} {sep : Nat → Tuple} {leaves before after part : List Nat}
  {record : Tuple} {n m : Nat}

def IsNext (tree : BPlusTree) (leaves : List Nat) (record found : Tuple) : Prop :=
  IsLeast {r | r ∈ tree.stored leaves ∧ record ≤ r} found

theorem mem_stored {r : Tuple} :
    r ∈ tree.stored leaves ↔ ∃ n ∈ leaves, r ∈ (tree.leaf n).records := List.mem_flatMap

theorem WellFormed.around (hwf : tree.WellFormed sep (before ++ n :: after))
    (hle : before ≠ [] → sep n ≤ record) (hlt : ∀ m ∈ after, record < sep m) :
    (∀ m ∈ before, ∀ r ∈ (tree.leaf m).records, r < record) ∧
      ∀ m ∈ after, ∀ r ∈ (tree.leaf m).records, record < r := by
  obtain ⟨_, hrest, hacross⟩ := List.pairwise_append.mp hwf.apart
  refine ⟨fun m hm r hr => ?_, fun m hm r hr => ?_⟩
  · exact ((hacross m hm n List.mem_cons_self).1 r hr).trans_le (hle (List.ne_nil_of_mem hm))
  · exact (hlt m hm).trans_le ((List.rel_of_pairwise_cons hrest hm).2 r hr)

/-- A search that has reached the right leaf ends at the next record, if there is one. -/
theorem WellFormed.locate (hwf : tree.WellFormed sep leaves)
    (hrouted : Routed sep record leaves n) :
    (∃ m ∈ leaves, ∃ i found, tree.locate record n = some (tree.leaf m, i) ∧
      (tree.leaf m).records[i]? = some found ∧ tree.IsNext leaves record found) ∨
    tree.locate record n = none ∧ ∀ r ∈ tree.stored leaves, r < record := by
  obtain ⟨before, after, rfl, hle, hlt⟩ := hrouted
  obtain ⟨hbefore, hafter⟩ := hwf.around hle hlt
  have hn : n ∈ before ++ n :: after := by simp
  have hcount := hwf.valueCount n hn
  -- a record that is not below is in the leaf or in a later one
  have hlater : ∀ r ∈ tree.stored (before ++ n :: after), record ≤ r →
      r ∈ (tree.leaf n).records ∨ ∃ m ∈ after, r ∈ (tree.leaf m).records := by
    intro r hr hrecord
    obtain ⟨m, hm, hmem⟩ := mem_stored.mp hr
    rcases List.mem_append.mp hm with hm | hm
    · exact absurd (hbefore m hm r hmem) (not_lt.mpr hrecord)
    · rcases List.mem_cons.mp hm with rfl | hm
      · exact Or.inl hmem
      · exact Or.inr ⟨m, hm, hmem⟩
  have hrest := (List.pairwise_append.mp hwf.apart).2.1
  by_cases hhere : BPlusTreeLeaf.searchIndex record (tree.leaf n) < (tree.leaf n).valueCount
  · left
    have hne : (tree.leaf n).records ≠ [] := by
      intro hnil
      rw [hcount, hnil] at hhere
      exact absurd hhere (Nat.not_lt_zero _)
    obtain ⟨_, hlower, hupper⟩ :=
      BPlusTreeLeaf.searchIndex_splits record hcount (hwf.sorted n hn) hne
    generalize hindex : BPlusTreeLeaf.searchIndex record (tree.leaf n) = i at hhere hlower hupper
    have hi : i < (tree.leaf n).records.length := by rwa [← hcount]
    refine ⟨n, hn, i, (tree.leaf n).records[i], ?_, List.getElem?_eq_getElem hi, ⟨?_, ?_⟩, ?_⟩
    · rw [BPlusTree.locate, hindex]
      exact if_neg (Nat.not_le.mpr hhere)
    · exact mem_stored.mpr ⟨n, hn, List.getElem_mem hi⟩
    · exact hupper _ (by rw [List.drop_eq_getElem_cons hi]; exact List.mem_cons_self)
    · rintro r ⟨hr, hrecord⟩
      rcases hlater r hr hrecord with hmem | ⟨m, hm, hmem⟩
      · have hsplit := (List.take_append_drop i (tree.leaf n).records).symm
        rw [hsplit] at hmem
        rcases List.mem_append.mp hmem with hmem | hmem
        · exact absurd (hlower r hmem) (not_lt.mpr hrecord)
        · have hdrop := (hwf.sorted n hn).drop (i := i)
          rw [List.drop_eq_getElem_cons hi] at hmem hdrop
          rcases List.mem_cons.mp hmem with rfl | hmem
          · exact le_rfl
          · exact (List.rel_of_pairwise_cons hdrop hmem).le
      · have hsep := List.rel_of_pairwise_cons hrest hm
        exact ((hsep.1 _ (List.getElem_mem hi)).trans_le (hsep.2 r hmem)).le
  · have hall : ∀ r ∈ (tree.leaf n).records, r < record := by
      intro r hr
      obtain ⟨_, hlower, _⟩ := BPlusTreeLeaf.searchIndex_splits record hcount
        (hwf.sorted n hn) (List.ne_nil_of_mem hr)
      apply hlower
      rwa [List.take_of_length_le]
      rw [← hcount]
      exact Nat.not_lt.mp hhere
    have hlocate : tree.locate record n = if (tree.leaf n).nextLeaf ≠ 0 then
        some (tree.leaf (tree.leaf n).nextLeaf, 0) else none := if_pos (Nat.not_lt.mp hhere)
    rw [hlocate]
    cases after with
    | nil =>
      right
      rw [hwf.last before n rfl]
      refine ⟨if_neg (by simp), fun r hr => not_le.mp fun hrecord => ?_⟩
      rcases hlater r hr hrecord with hmem | ⟨m, hm, _⟩
      · exact absurd (hall r hmem) (not_lt.mpr hrecord)
      · cases hm
    | cons m after =>
      left
      obtain ⟨hnext, hm⟩ := hwf.next before n m after rfl
      have hmem : m ∈ before ++ n :: m :: after := by simp
      have hne : (tree.leaf m).records ≠ [] := by
        intro hnil
        have hone := congrArg List.length (hwf.nonempty m hmem hnil)
        simp only [List.length_append, List.length_cons, List.length_nil] at hone
        omega
      obtain ⟨found, rest, hrecords⟩ := List.exists_cons_of_ne_nil hne
      have hfound : found ∈ (tree.leaf m).records := hrecords ▸ List.mem_cons_self
      refine ⟨m, hmem, 0, found, ?_, by rw [hrecords]; rfl, ⟨?_, ?_⟩, ?_⟩
      · rw [hnext]
        exact if_pos hm
      · exact mem_stored.mpr ⟨m, hmem, hfound⟩
      · exact (hafter m List.mem_cons_self found hfound).le
      · rintro r ⟨hr, hrecord⟩
        rcases hlater r hr hrecord with hhere | ⟨k, hk, hthere⟩
        · exact absurd (hall r hhere) (not_lt.mpr hrecord)
        · rcases List.mem_cons.mp hk with rfl | hk
          · have hsorted := hwf.sorted k hmem
            rw [hrecords] at hsorted hthere
            rcases List.mem_cons.mp hthere with rfl | hthere
            · exact le_rfl
            · exact (List.rel_of_pairwise_cons hsorted hthere).le
          · have hsep := List.rel_of_pairwise_cons hrest.of_cons hk
            exact ((hsep.1 _ hfound).trans_le (hsep.2 r hthere)).le

def InTree (tree : BPlusTree) (sep : Nat → Tuple) (leaves : List Nat) (p : Nat) : Prop :=
  ∃ h before part after, BPlusTreeDir.PageHolds sep tree.dir Set.univ h p part ∧
    leaves = before ++ part ++ after

theorem WellFormed.seps (hwf : tree.WellFormed sep leaves) :
    (leaves.tail.map sep).Pairwise (· < ·) := by
  rw [List.pairwise_map]
  apply List.Pairwise.imp_of_mem _ (List.Pairwise.sublist (List.tail_sublist _) hwf.apart)
  rintro n m hn hm ⟨hbelow, _⟩
  have hmem : n ∈ leaves := List.mem_of_mem_tail hn
  have hne : (tree.leaf n).records ≠ [] := by
    intro hnil
    rw [hwf.nonempty n hmem hnil] at hn
    cases hn
  obtain ⟨r, rest, hr⟩ := List.exists_cons_of_ne_nil hne
  have hr' : r ∈ (tree.leaf n).records := hr ▸ List.mem_cons_self
  -- `n` is not the first leaf, so its records are not below its separator
  obtain ⟨first, others, rfl⟩ : ∃ first others, leaves = first :: others :=
    List.exists_cons_of_ne_nil (List.ne_nil_of_mem hmem)
  exact ((List.rel_of_pairwise_cons hwf.apart hn).2 r hr').trans_lt (hbelow r hr')

theorem WellFormed.routed_of_checkRange (hwf : tree.WellFormed sep leaves) {p h : Nat}
    (hpage : BPlusTreeDir.PageHolds sep tree.dir Set.univ h p part)
    (hleaves : leaves = before ++ part ++ after)
    (hcheck : BPlusTreeDir.checkRange record (tree.dir.getD p .zero) = true)
    (hrouted : Routed sep record part n) : Routed sep record leaves n := by
  obtain ⟨page, hget, hunder⟩ := hpage
  rw [BPTDirWriter.getD_of_getElem? hget, BPlusTreeDir.checkRange] at hcheck
  have hkeys := hunder.keys_sublist fun _ _ => BPlusTreeDir.Holds.ne_nil
  have hcount : page.keyCount = page.keys.length := by simp [DirPage.keyCount, DirPage.keys]
  rw [hcount] at hcheck
  by_cases hzero : page.keys.length = 0
  · rw [if_pos hzero] at hcheck
    cases hcheck
  rw [if_neg hzero, Bool.and_eq_true, decide_eq_true_eq, decide_eq_true_eq] at hcheck
  have hkey : ∀ i < page.keys.length, ∃ m ∈ part.tail, sep m = page.keys.getD i [] := by
    intro i hi
    rw [← List.getElem_eq_getD (h := hi) []]
    exact List.mem_map.mp (hkeys.subset (List.getElem_mem hi))
  obtain ⟨low, hlow, hlowsep⟩ := hkey 0 (by omega)
  obtain ⟨high, hhigh, hhighsep⟩ := hkey (page.keys.length - 1) (by omega)
  rw [← hlowsep, ← hhighsep] at hcheck
  obtain ⟨front, back, rfl, hle, hlt⟩ := hrouted
  refine ⟨before ++ front, back ++ after, by rw [hleaves]; simp, fun _ => hle ?_, ?_⟩
  · -- otherwise the first key would be above the record
    rintro rfl
    exact absurd (hlt low hlow) (not_lt.mpr hcheck.1)
  · intro y hy
    rcases List.mem_append.mp hy with hy | hy
    · exact hlt y hy
    · apply hcheck.2.trans_lt
      have hseps := hwf.seps
      rw [hleaves, List.pairwise_map] at hseps
      obtain ⟨x, xs, hpart⟩ : ∃ x xs, front ++ n :: back = x :: xs :=
        List.exists_cons_of_ne_nil (by simp)
      rw [hpart, List.tail_cons] at hhigh
      rw [hpart] at hseps
      have hsub : (xs ++ after).Sublist (before ++ (x :: xs) ++ after).tail := by
        cases before with
        | nil => exact List.Sublist.refl _
        | cons b before =>
          simp only [List.cons_append, List.tail_cons, List.append_assoc]
          exact ((List.Sublist.refl _).cons x).trans (List.sublist_append_right before _)
      exact (List.pairwise_append.mp (List.Pairwise.sublist hsub hseps)).2.2 high hhigh y hy

end
end BPlusTree

namespace BPlusTreeDir

section

variable {tree : BPlusTree} {sep : Nat → Tuple} {leaves before after part : List Nat}
  {record : Tuple}

theorem searchLeafStack_routed (record : Tuple) {h p : Nat} (stack : List Nat)
    (hpage : PageHolds sep tree.dir Set.univ h p part) (hleaves : leaves = before ++ part ++ after)
    (hsorted : (part.tail.map sep).Pairwise (· ≤ ·)) {fuel : Nat} (hfuel : h < fuel) :
    ∃ n pushed, searchLeafStack record tree.dir fuel (p :: stack) =
        some (n, pushed ++ p :: stack) ∧
      Routed sep record part n ∧ ∀ q ∈ pushed, tree.InTree sep leaves q := by
  induction h generalizing p part before after stack fuel with
  | zero =>
    obtain ⟨fuel, rfl⟩ := Nat.exists_eq_add_one_of_ne_zero (by omega : fuel ≠ 0)
    obtain ⟨page, hget, hu⟩ := hpage
    obtain ⟨_, part, _, child, hchild, ⟨leaf, rfl, rfl⟩, rfl, hrouted⟩ :=
      hu.search record (fun _ _ => Holds.ne_nil) hsorted
    refine ⟨leaf, [], ?_, hrouted leaf (routed_singleton sep record leaf), by simp⟩
    simp only [searchLeafStack, BPTDirWriter.getD_of_getElem? hget, List.getD_eq_getElem?_getD,
      hchild, Option.getD_some]
    rw [if_neg (by omega), Int.toNat_natCast, List.nil_append]
  | succ h ih =>
    obtain ⟨fuel, rfl⟩ := Nat.exists_eq_add_one_of_ne_zero (by omega : fuel ≠ 0)
    obtain ⟨page, hget, hu⟩ := hpage
    obtain ⟨front, inner, back, child, hchild, ⟨q, page', rfl, hq, _, hget', hu'⟩, rfl, hrouted⟩ :=
      hu.search record (fun _ _ => Holds.ne_nil) hsorted
    have hinner : (inner.tail.map sep).Pairwise (· ≤ ·) := by
      refine List.Pairwise.sublist (List.Sublist.map _ ?_) hsorted
      rw [List.flatten_append, List.flatten_cons]
      exact ((List.sublist_append_left inner _).trans
        (List.sublist_append_right front.flatten _)).tail
    have hleaves' : leaves = (before ++ front.flatten) ++ inner ++ (back.flatten ++ after) := by
      rw [hleaves]
      simp
    obtain ⟨n, pushed, heq, hroute, hpushed⟩ :=
      ih (p :: stack) ⟨page', hget', hu'⟩ hleaves' hinner (by omega : h < fuel)
    refine ⟨n, pushed ++ [q], ?_, hrouted n hroute, ?_⟩
    · simp only [searchLeafStack, BPTDirWriter.getD_of_getElem? hget, List.getD_eq_getElem?_getD,
        hchild, Option.getD_some]
      rw [if_pos (by omega), Int.natAbs_neg, Int.natAbs_natCast, heq, List.append_assoc,
        List.singleton_append]
    · intro q' hq'
      rcases List.mem_append.mp hq' with hq' | hq'
      · exact hpushed q' hq'
      · rw [List.mem_singleton.mp hq']
        exact ⟨h, _, inner, _, ⟨page', hget', hu'⟩, hleaves'⟩

end
end BPlusTreeDir

namespace LeapfrogBptIter

section

variable {n : Nat} {tree : BPlusTree} {sep : Nat → Tuple} {leaves : List Nat} {min max : Tuple}
  {s s' : LeapfrogBptIter}

/-- What holds between two calls: the leaf is one of the tree, and the stack holds directories of
the tree, the root lowest. -/
structure Inv (tree : BPlusTree) (sep : Nat → Tuple) (leaves : List Nat) (s : LeapfrogBptIter) :
    Prop where
  leaf : ∃ n ∈ leaves, s.currentLeaf = tree.leaf n
  root : s.directoryStack.getLast? = some 0
  dirs : ∀ p ∈ s.directoryStack, tree.InTree sep leaves p

theorem routed_of_checkRange (hwf : tree.WellFormed sep leaves) {n : Nat} (hn : n ∈ leaves)
    (hcheck : BPlusTreeLeaf.checkRange min (tree.leaf n) = true) :
    Routed sep min leaves n ∧
      BPlusTreeLeaf.searchIndex min (tree.leaf n) < (tree.leaf n).valueCount := by
  have hcount := hwf.valueCount n hn
  rw [BPlusTreeLeaf.checkRange, hcount] at hcheck
  by_cases hzero : (tree.leaf n).records.length = 0
  · rw [if_pos hzero] at hcheck
    cases hcheck
  rw [if_neg hzero, Bool.and_eq_true, decide_eq_true_eq, decide_eq_true_eq,
    ← List.getElem_eq_getD (h := (by omega : 0 < (tree.leaf n).records.length)) [],
    ← List.getElem_eq_getD (h := (by omega :
      (tree.leaf n).records.length - 1 < (tree.leaf n).records.length)) []] at hcheck
  obtain ⟨hfirst, hlast⟩ := hcheck
  constructor
  · obtain ⟨before, after, rfl⟩ := List.append_of_mem hn
    obtain ⟨_, hrest, hacross⟩ := List.pairwise_append.mp hwf.apart
    refine ⟨before, after, rfl, fun hne => ?_, fun m hm => ?_⟩
    · obtain ⟨m, hm⟩ := List.exists_mem_of_ne_nil before hne
      exact ((hacross m hm n List.mem_cons_self).2 _ (List.getElem_mem _)).trans hfirst
    · exact hlast.trans_lt ((List.rel_of_pairwise_cons hrest hm).1 _ (List.getElem_mem _))
  · rw [hcount]
    have hne : (tree.leaf n).records ≠ [] := fun hnil => hzero (by rw [hnil]; rfl)
    obtain ⟨hle, hlower, _⟩ :=
      BPlusTreeLeaf.searchIndex_splits min hcount (hwf.sorted n hn) hne
    refine Nat.lt_of_le_of_ne hle fun heq => ?_
    -- otherwise even the last record would be below
    rw [heq, List.take_length] at hlower
    exact absurd (hlower _ (List.getElem_mem _)) (not_lt.mpr hlast)

theorem popDirs_spec (tree : BPlusTree) (min : Tuple) {stack : List Nat}
    (hroot : stack.getLast? = some 0) :
    ∃ top below, popDirs tree.dir min stack = top :: below ∧
      (BPlusTreeDir.checkRange min (tree.dir.getD top .zero) = true ∨ top = 0) ∧
      (top :: below).getLast? = some 0 ∧ ∀ p ∈ top :: below, p ∈ stack := by
  induction stack with
  | nil => cases hroot
  | cons p stack ih =>
    cases stack with
    | nil => exact ⟨p, [], rfl, Or.inr (Option.some.inj hroot), hroot, fun _ => id⟩
    | cons q stack =>
      rw [popDirs]
      by_cases hcheck : BPlusTreeDir.checkRange min (tree.dir.getD p .zero) = true
      · rw [if_pos hcheck]
        exact ⟨p, q :: stack, rfl, Or.inl hcheck, hroot, fun _ => id⟩
      · rw [if_neg hcheck]
        rw [List.getLast?_cons_cons] at hroot
        obtain ⟨top, below, heq, htop, hlast, hsub⟩ := ih hroot
        exact ⟨top, below, heq, htop, hlast, fun p' hp' => List.mem_cons_of_mem _ (hsub p' hp')⟩

/-- The climb and the way down reach the leaf that the record is routed to from the root. -/
theorem searchStack_routed (min : Tuple) (hwf : tree.WellFormed sep leaves)
    (hs : Inv tree sep leaves s) :
    ∃ n stack, BPlusTreeDir.searchLeafStack min tree.dir tree.dir.length
        (popDirs tree.dir min s.directoryStack) = some (n, stack) ∧
      Routed sep min leaves n ∧ stack.getLast? = some 0 ∧
      ∀ p ∈ stack, tree.InTree sep leaves p := by
  obtain ⟨top, below, heq, htop, hlast, hsub⟩ := popDirs_spec tree min hs.root
  have hdirs : ∀ p ∈ top :: below, tree.InTree sep leaves p := fun p hp => hs.dirs p (hsub p hp)
  have hroute : ∃ h before part after,
      BPlusTreeDir.PageHolds sep tree.dir Set.univ h top part ∧
      leaves = before ++ part ++ after ∧
      ∀ n, Routed sep min part n → Routed sep min leaves n := by
    rcases htop with hcheck | rfl
    · obtain ⟨h, before, part, after, hpage, hleaves⟩ := hdirs top List.mem_cons_self
      exact ⟨h, before, part, after, hpage, hleaves, fun n hn =>
        hwf.routed_of_checkRange hpage hleaves hcheck hn⟩
    · obtain ⟨h, hpage⟩ := hwf.holds
      exact ⟨h, [], leaves, [], hpage, by simp, fun n => id⟩
  obtain ⟨h, before, part, after, hpage, hleaves, hroute⟩ := hroute
  have hsorted : (part.tail.map sep).Pairwise (· ≤ ·) := by
    apply List.Pairwise.imp fun hlt => le_of_lt hlt
    refine List.Pairwise.sublist (List.Sublist.map _ ?_) hwf.seps
    rw [hleaves]
    exact ((List.sublist_append_right before part).trans
      (List.sublist_append_left _ after)).tail
  obtain ⟨n, pushed, heq', hrouted, hpushed⟩ :=
    BPlusTreeDir.searchLeafStack_routed min below hpage hleaves hsorted hpage.spine.height_lt
  refine ⟨n, pushed ++ top :: below, by rw [heq, heq'], hroute n hrouted, ?_, ?_⟩
  · rw [List.getLast?_append_of_ne_nil _ (List.cons_ne_nil _ _), hlast]
  · intro p hp
    exact (List.mem_append.mp hp).elim (hpushed p) (hdirs p)

theorem freshSearch_eq (hwf : tree.WellFormed sep leaves) {n : Nat}
    (hrouted : Routed sep min leaves n) : tree.freshSearch min max =
      some ((tree.locate min n).bind fun found =>
        if found.1.records.getD found.2 [] ≤ max then some (found.1.records.getD found.2 [])
        else none) := by
  obtain ⟨h, hpage⟩ := hwf.holds
  have hsorted : (leaves.tail.map sep).Pairwise (· ≤ ·) := hwf.seps.imp fun hlt => le_of_lt hlt
  obtain ⟨n', heq, hrouted'⟩ :=
    BPlusTreeDir.searchLeafAt_routed min hpage hsorted hpage.spine.height_lt
  rw [hrouted'.unique hrouted] at heq
  rw [BPlusTree.freshSearch, BPlusTreeDir.searchLeaf, heq, Option.map_some]

/-- The search in any state ends where the one from the root ends.  It moves there if it can. -/
theorem internalSearch_spec (hwf : tree.WellFormed sep leaves) (hs : Inv tree sep leaves s)
    (min max : Tuple) :
    ∃ found s', internalSearch tree min max s = some (found, s') ∧ Inv tree sep leaves s' ∧
      s'.level = s.level ∧
      ((found = true ∧ tree.freshSearch min max = some (some s'.currentTuple) ∧
          s'.currentLeaf.records[s'.currentPosInLeaf]? = some s'.currentTuple ∧
          tree.IsNext leaves min s'.currentTuple ∧ s'.currentTuple ≤ max) ∨
        (found = false ∧ tree.freshSearch min max = some none ∧
          s'.currentTuple = s.currentTuple ∧ s'.currentLeaf = s.currentLeaf ∧
          s'.currentPosInLeaf = s.currentPosInLeaf ∧
          ∀ r ∈ tree.stored leaves, min ≤ r → max < r)) := by
  have hgetD : ∀ {records : List Tuple} {i : Nat} {found : Tuple}, records[i]? = some found →
      records.getD i [] = found := by
    intro records i found hget
    rw [List.getD_eq_getElem?_getD, hget, Option.getD_some]
  by_cases hcheck : BPlusTreeLeaf.checkRange min s.currentLeaf = true
  · -- the search stays in the leaf
    obtain ⟨n, hn, hleaf⟩ := hs.leaf
    rw [internalSearch, if_pos hcheck]
    rw [hleaf] at hcheck
    obtain ⟨hrouted, hlt⟩ := routed_of_checkRange hwf hn hcheck
    have hlocate : tree.locate min n =
        some (tree.leaf n, BPlusTreeLeaf.searchIndex min (tree.leaf n)) := by
      rw [BPlusTree.locate]
      exact if_neg (Nat.not_le.mpr hlt)
    rw [freshSearch_eq hwf hrouted, hlocate, Option.bind_some, hleaf]
    rcases hwf.locate hrouted with ⟨m, _, i, found, heq, hget, hnext⟩ | ⟨hnone, _⟩
    · obtain ⟨hpage, hindex⟩ := Prod.mk.inj (Option.some.inj (hlocate.symm.trans heq))
      rw [← hpage, ← hindex] at hget
      simp only [hgetD hget, if_pos hlt]
      by_cases hmax : found ≤ max
      · rw [if_pos hmax, if_pos hmax]
        exact ⟨true, _, rfl, ⟨⟨n, hn, rfl⟩, hs.root, hs.dirs⟩, rfl,
          Or.inl ⟨rfl, rfl, hget, hnext, hmax⟩⟩
      · rw [if_neg hmax, if_neg hmax]
        refine ⟨false, s, rfl, hs, rfl, Or.inr ⟨rfl, rfl, rfl, hleaf, rfl, fun r hr hmin => ?_⟩⟩
        exact (not_le.mp hmax).trans_le (hnext.2 ⟨hr, hmin⟩)
    · rw [hlocate] at hnone
      cases hnone
  · rw [internalSearch, if_neg hcheck]
    obtain ⟨n, stack, heq, hrouted, hroot, hdirs⟩ := searchStack_routed min hwf hs
    have hinv : Inv tree sep leaves { s with directoryStack := stack } :=
      ⟨hs.leaf, hroot, hdirs⟩
    rw [freshSearch_eq hwf hrouted]
    dsimp only
    rw [heq, Option.map_some]
    rcases hwf.locate hrouted with ⟨m, hm, i, found, hlocate, hget, hnext⟩ | ⟨hnone, hall⟩
    · rw [hlocate, Option.bind_some]
      simp only [hgetD hget]
      by_cases hmax : found ≤ max
      · rw [if_pos hmax, if_pos hmax]
        exact ⟨true, _, rfl, ⟨⟨m, hm, rfl⟩, hroot, hdirs⟩, rfl,
          Or.inl ⟨rfl, rfl, hget, hnext, hmax⟩⟩
      · rw [if_neg hmax, if_neg hmax]
        refine ⟨false, _, rfl, hinv, rfl, Or.inr ⟨rfl, rfl, rfl, rfl, rfl, fun r hr hmin => ?_⟩⟩
        exact (not_le.mp hmax).trans_le (hnext.2 ⟨hr, hmin⟩)
    · rw [hnone, Option.bind_none]
      refine ⟨false, _, rfl, hinv, rfl, Or.inr ⟨rfl, rfl, rfl, rfl, rfl, fun r hr hmin => ?_⟩⟩
      exact absurd (hall r hr) (not_lt.mpr hmin)

theorem inv_create (hwf : tree.WellFormed sep leaves) {memory : Tuple}
    (hs : create n tree memory = some s) : Inv tree sep leaves s := by
  obtain ⟨h, hpage⟩ := hwf.holds
  have hsorted : (leaves.tail.map sep).Pairwise (· ≤ ·) := hwf.seps.imp fun hlt => le_of_lt hlt
  obtain ⟨m, pushed, heq, hrouted, hpushed⟩ :=
    BPlusTreeDir.searchLeafStack_routed (minFrom n []) [] hpage
      (by simp : leaves = [] ++ leaves ++ []) hsorted hpage.spine.height_lt
  rw [create, heq, Option.map_some] at hs
  obtain rfl := Option.some.inj hs
  refine ⟨⟨m, hrouted.mem, rfl⟩, by simp, fun p hp => ?_⟩
  rcases List.mem_append.mp hp with hp | hp
  · exact hpushed p hp
  · rw [List.mem_singleton.mp hp]
    exact ⟨h, [], leaves, [], hpage, by simp⟩

theorem Inv.level (hs : Inv tree sep leaves s) (level : Int) :
    Inv tree sep leaves { s with level := level } := ⟨hs.leaf, hs.root, hs.dirs⟩

theorem inv_internalSearch (hwf : tree.WellFormed sep leaves) (hs : Inv tree sep leaves s)
    {found : Bool} (heq : internalSearch tree min max s = some (found, s')) :
    Inv tree sep leaves s' := by
  obtain ⟨found', s'', heq', hinv, _⟩ := internalSearch_spec hwf hs min max
  rw [heq] at heq'
  obtain ⟨_, rfl⟩ := Prod.mk.inj (Option.some.inj heq')
  exact hinv

theorem inv_step (hwf : tree.WellFormed sep leaves) (hs : Inv tree sep leaves s)
    {call : LeapfrogCall} {answer : Option Bool} (hstep : step n tree s call = some (answer, s')) :
    Inv tree sep leaves s' := by
  have hmap : ∀ (f : Bool → Option Bool) {result : Option (Bool × LeapfrogBptIter)},
      (result.map fun result => (f result.1, result.2)) = some (answer, s') →
      ∃ found, result = some (found, s') := by
    intro f result hresult
    obtain ⟨⟨found, s''⟩, hsome, heq⟩ := Option.map_eq_some_iff.mp hresult
    obtain ⟨_, rfl⟩ := Prod.mk.inj heq
    exact ⟨found, hsome⟩
  cases call with
  | openTerms ranges =>
    obtain ⟨_, hstep⟩ := Option.ite_none_right_eq_some.mp hstep
    obtain ⟨found, heq⟩ := hmap some hstep
    exact inv_internalSearch hwf (hs.level _) heq
  | down =>
    obtain ⟨_, hstep⟩ := Option.ite_none_right_eq_some.mp hstep
    obtain ⟨found, heq⟩ := hmap (fun _ => none) hstep
    exact inv_internalSearch hwf (hs.level _) heq
  | up =>
    obtain ⟨_, hstep⟩ := Option.ite_none_right_eq_some.mp hstep
    obtain ⟨_, rfl⟩ := Prod.mk.inj (Option.some.inj hstep)
    exact hs.level _
  | next =>
    obtain ⟨_, hstep⟩ := Option.ite_none_right_eq_some.mp hstep
    obtain ⟨found, heq⟩ := hmap some hstep
    exact inv_internalSearch hwf hs heq
  | seek key =>
    obtain ⟨_, hstep⟩ := Option.ite_none_right_eq_some.mp hstep
    obtain ⟨found, heq⟩ := hmap some hstep
    exact inv_internalSearch hwf hs heq

theorem Reached.inv (hwf : tree.WellFormed sep leaves) (hs : Reached n tree s) :
    Inv tree sep leaves s := by
  induction hs with
  | create memory hs => exact inv_create hwf hs
  | step _ hstep ih => exact inv_step hwf ih hstep

/-- In a well-formed tree, after any calls: `internal_search` moves to the record that a search
from the root finds, the least one from `min` on if that is not above `max`, or it finds none,
and there is none, and the cursor stays where it was. -/
theorem internalSearch_fresh (hwf : tree.WellFormed sep leaves) (hs : Reached n tree s)
    (min max : Tuple) :
    ∃ found s', internalSearch tree min max s = some (found, s') ∧
      ((found = true ∧ tree.freshSearch min max = some (some s'.currentTuple) ∧
          s'.currentLeaf.records[s'.currentPosInLeaf]? = some s'.currentTuple ∧
          IsLeast {r | r ∈ tree.stored leaves ∧ min ≤ r} s'.currentTuple ∧
          s'.currentTuple ≤ max) ∨
        (found = false ∧ tree.freshSearch min max = some none ∧
          s'.currentTuple = s.currentTuple ∧ s'.currentLeaf = s.currentLeaf ∧
          s'.currentPosInLeaf = s.currentPosInLeaf ∧
          ∀ r ∈ tree.stored leaves, ¬(min ≤ r ∧ r ≤ max))) := by
  obtain ⟨found, s', heq, _, _, hcases⟩ := internalSearch_spec hwf (hs.inv hwf) min max
  refine ⟨found, s', heq, hcases.imp_right ?_⟩
  rintro ⟨hfound, hfresh, htuple, hleaf, hpos, hnone⟩
  refine ⟨hfound, hfresh, htuple, hleaf, hpos, ?_⟩
  rintro r hr ⟨hmin, hmax⟩
  exact absurd (hnone r hr hmin) (not_lt.mpr hmax)

def twoLeaves : BPlusTree :=
  ⟨[⟨0, [([3], 1)]⟩], [⟨2, 1, [[1], [2]]⟩, ⟨1, 0, [[3]]⟩]⟩

theorem wellFormed_twoLeaves : twoLeaves.WellFormed (fun _ => [3]) [0, 1] where
  holds := ⟨0, _, rfl, [[0], [1]], rfl, .cons ⟨0, rfl, rfl⟩ (.cons ⟨1, rfl, rfl⟩ .nil), rfl⟩
  valueCount := by decide
  sorted := by decide
  nonempty := by decide
  apart := by decide
  next := by
    rintro (_ | ⟨a, _ | ⟨b, before⟩⟩) n m after h
    · obtain ⟨rfl, rfl, rfl⟩ : n = 0 ∧ m = 1 ∧ after = [] := by simp_all
      decide
    · simp at h
    · simp at h
  last := by
    rintro (_ | ⟨a, _ | ⟨b, before⟩⟩) n h
    · simp at h
    · obtain ⟨rfl, rfl⟩ : a = 0 ∧ n = 1 := by simp_all
      rfl
    · simp at h

/-- From the first leaf the search goes to the second one. -/
theorem internalSearch_twoLeaves : ∃ s found s', Reached 1 twoLeaves s ∧
    internalSearch twoLeaves [3] [3] s = some (found, s') ∧ found = true ∧
    s'.currentTuple = [3] := by
  obtain ⟨s, hs⟩ : ∃ s, create 1 twoLeaves [] = some s := ⟨_, rfl⟩
  obtain ⟨found, s', heq, ⟨hfound, _, _, hleast, hmax⟩ | ⟨_, _, _, _, _, hnone⟩⟩ :=
    internalSearch_fresh wellFormed_twoLeaves (.create [] hs) [3] [3]
  · exact ⟨s, found, s', .create [] hs, heq, hfound, le_antisymm hmax hleast.1.2⟩
  · exact absurd ⟨le_rfl, le_rfl⟩ (hnone [3] (by decide))

end
end LeapfrogBptIter
end MillenniumDB
