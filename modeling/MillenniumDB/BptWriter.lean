import Mathlib.Data.List.Basic
import Mathlib.Order.Defs.LinearOrder
import Mathlib.Tactic.Positivity

/-!
# Writing a B+ tree in bulk

`BPTLeafWriter` appends the pages with the records of a tree, `BPTDirWriter` keeps the pages of
its directory.  The first record of each leaf after the first goes into the directory, always
behind everything that is there.
-/

namespace MillenniumDB

/-- `std::array<uint64_t, N>`; arrays and lists are both ordered lexicographically. -/
abbrev Tuple := List Nat

def mdbPageSize : Nat := 4096

inductive Failure
  | invalidArgument (what : String)
  | assertion
  | diverges
  deriving DecidableEq

structure LeafPage where
  valueCount : Nat
  nextLeaf : Nat
  records : List Tuple
  deriving DecidableEq

namespace BPTLeafWriter

def maxRecords (n : Nat) : Nat := (mdbPageSize - 2 * 4) / (8 * n)

def processBlock (bytes : List Tuple) (size nextBlock : Nat) (file : List LeafPage) :
    List LeafPage :=
  file ++ [⟨size, nextBlock, bytes.take size⟩]

def makeEmpty (file : List LeafPage) : List LeafPage := file ++ [⟨0, 0, []⟩]

theorem maxRecords_pos {n : Nat} (hn : 0 < n) (hle : n ≤ 4) : 0 < maxRecords n := by
  simp only [maxRecords, mdbPageSize]
  exact Nat.div_pos (by omega) (by omega)

theorem maxRecords_le {n : Nat} (hn : 0 < n) : maxRecords n ≤ 511 := by
  simp only [maxRecords, mdbPageSize]
  rw [Nat.div_le_iff_le_mul_add_pred (by omega)]
  omega

end BPTLeafWriter

/-- A page of the directory: a first child, then keys, each with the child to its right.  A
negative child is the number of another page of the directory, any other one that of a leaf. -/
structure DirPage where
  firstChild : Int
  entries : List (Tuple × Int)
  deriving DecidableEq

namespace DirPage

def zero : DirPage := ⟨0, []⟩

def keyCount (page : DirPage) : Nat := page.entries.length

/-- `children[*key_count]`. -/
def lastChild (page : DirPage) : Int :=
  match page.entries.getLast? with
  | none => page.firstChild
  | some entry => entry.2

def append (page : DirPage) (record : Tuple) (child : Int) : DirPage :=
  { page with entries := page.entries ++ [(record, child)] }

@[simp] theorem lastChild_append (page : DirPage) (record : Tuple) (child : Int) :
    (page.append record child).lastChild = child := by
  simp [lastChild, append]

@[simp] theorem lastChild_nil (child : Int) : (DirPage.mk child []).lastChild = child := rfl

@[simp] theorem lastChild_single (first child : Int) (record : Tuple) :
    (DirPage.mk first [(record, child)]).lastChild = child := rfl

end DirPage

structure SplitData where
  record : Tuple
  encodedPageNumber : Int

namespace BPTDirWriter

def maxRecords (n : Nat) : Nat := (mdbPageSize - 2 * 4) / (8 * n + 4)

def init : List DirPage := [.zero]

/-- The second half of `bulk_insert`: what comes up from the last child is added to the page. -/
def addSplit (n dirPageNumber : Nat) :
    Option SplitData × List DirPage → Option SplitData × List DirPage
  | (none, pages) => (none, pages)
  | (some split, pages) =>
    let page := pages.getD dirPageNumber .zero
    if page.keyCount < maxRecords n then
      (none, pages.set dirPageNumber (page.append split.record split.encodedPageNumber))
    else if dirPageNumber ≠ 0 then
      let newPageNumber := pages.length
      (some ⟨split.record, -newPageNumber⟩, pages ++ [⟨split.encodedPageNumber, []⟩])
    else
      -- the root keeps its number: what it held moves to a new page
      let lhsPageNumber := pages.length
      let rhsPageNumber := pages.length + 1
      let pages := pages ++ [page] ++ [⟨split.encodedPageNumber, []⟩]
      (none, pages.set dirPageNumber ⟨-lhsPageNumber, [(split.record, -rhsPageNumber)]⟩)

/-- `bulk_insert`, with fuel for the levels of the directory. -/
def bulkInsertAt (n : Nat) (record : Tuple) (leafPageNumber : Nat) :
    Nat → Nat → List DirPage → Except Failure (Option SplitData × List DirPage)
  | 0, _, _ => .error .diverges
  | fuel + 1, dirPageNumber, pages =>
    let child := (pages.getD dirPageNumber .zero).lastChild
    if child < 0 then
      (bulkInsertAt n record leafPageNumber fuel child.natAbs pages).map (addSplit n dirPageNumber)
    else .ok (addSplit n dirPageNumber (some ⟨record, leafPageNumber⟩, pages))

/-- `bulk_insert` into the root. -/
def bulkInsert (n : Nat) (record : Tuple) (leafPageNumber : Nat) (pages : List DirPage) :
    Except Failure (List DirPage) :=
  (bulkInsertAt n record leafPageNumber pages.length 0 pages).map Prod.snd

/- `bulk_insert` goes from a page to its last child until that is a leaf.  The way has an end, and
a page is on it once. -/

/-- From a page, the last children lead through `h` other pages to a leaf. -/
inductive Spine (pages : List DirPage) : Nat → Nat → Prop
  | leaf {p : Nat} {page : DirPage} : pages[p]? = some page → 0 ≤ page.lastChild →
      Spine pages p 0
  | dir {p c h : Nat} {page : DirPage} : pages[p]? = some page → page.lastChild = -c → 0 < c →
      Spine pages c h → Spine pages p (h + 1)

section

variable {record : Tuple} {p q h k : Nat} {pages new : List DirPage}
  {page : DirPage}

theorem Spine.lt_length (hs : Spine pages p h) : p < pages.length := by
  cases hs with
  | leaf hp _ => exact (List.getElem?_eq_some_iff.mp hp).1
  | dir hp _ _ _ => exact (List.getElem?_eq_some_iff.mp hp).1

theorem Spine.height_unique (hs : Spine pages p h) (hs' : Spine pages p k) : h = k := by
  induction hs generalizing k with
  | leaf hp hlast =>
    cases hs' with
    | leaf => rfl
    | dir hp' hlast' hc _ =>
      have heq := Option.some.inj (hp.symm.trans hp')
      subst heq
      omega
  | dir hp hlast hc _ ih =>
    cases hs' with
    | leaf hp' hlast' =>
      have heq := Option.some.inj (hp.symm.trans hp')
      subst heq
      omega
    | @dir _ c' _ _ hp' hlast' hc' hs' =>
      have heq := Option.some.inj (hp.symm.trans hp')
      subst heq
      have hcc : c' = _ := Int.natCast_inj.mp (Int.neg_inj.mp (hlast'.symm.trans hlast))
      rw [hcc] at hs'
      rw [ih hs']

theorem Spine.append (hs : Spine pages p h) (new : List DirPage) : Spine (pages ++ new) p h := by
  have hget : ∀ {i : Nat} {page}, pages[i]? = some page → (pages ++ new)[i]? = some page := by
    intro i page hi
    rw [List.getElem?_append_left (List.getElem?_eq_some_iff.mp hi).1, hi]
  induction hs with
  | leaf hp hlast => exact .leaf (hget hp) hlast
  | dir hp hlast hc _ ih => exact .dir (hget hp) hlast hc ih

theorem Spine.set_of_lt (hs : Spine pages q h) (hp : Spine pages p k) (hlt : h < k) :
    Spine (pages.set p page) q h := by
  have hget : ∀ {i j : Nat} {page'}, Spine pages i j → j < k → pages[i]? = some page' →
      (pages.set p page)[i]? = some page' := by
    intro i j page' hi hj hpage'
    have hne : p ≠ i := by
      intro heq
      subst heq
      have := hi.height_unique hp
      omega
    rw [List.getElem?_set_ne hne, hpage']
  induction hs with
  | leaf hp' hlast => exact .leaf (hget (.leaf hp' hlast) hlt hp') hlast
  | dir hp' hlast hc hs ih =>
    exact .dir (hget (.dir hp' hlast hc hs) hlt hp') hlast hc (ih (by omega))

/-- A child that a page of the given height can have as its last. -/
def Child (pages : List DirPage) : Int → Nat → Prop
  | child, 0 => 0 ≤ child
  | child, h + 1 => ∃ c : Nat, child = -c ∧ 0 < c ∧ Spine pages c h

theorem Child.append {child : Int} (hc : Child pages child h) (new : List DirPage) :
    Child (pages ++ new) child h := by
  cases h with
  | zero => exact hc
  | succ h =>
    obtain ⟨c, hchild, hpos, hs⟩ := hc
    exact ⟨c, hchild, hpos, hs.append new⟩

theorem Child.set {child : Int} (hc : Child pages child h) (hs : Spine pages p h) :
    Child (pages.set p page) child h := by
  cases h with
  | zero => exact hc
  | succ h =>
    obtain ⟨c, hchild, hpos, hc⟩ := hc
    exact ⟨c, hchild, hpos, hc.set_of_lt hs (Nat.lt_succ_self h)⟩

theorem Child.spine (hp : pages[p]? = some page) (hc : Child pages page.lastChild h) :
    Spine pages p h := by
  cases h with
  | zero => exact .leaf hp hc
  | succ h =>
    obtain ⟨c, hchild, hpos, hs⟩ := hc
    exact .dir hp hchild hpos hs

/-- What an insertion leaves of a page on the way: the way keeps its length and the pages above
are as they were, or everything is full and a new page is to be added above. -/
def Inserted (pages : List DirPage) (p h : Nat) : Option SplitData × List DirPage → Prop
  | (none, pages') => Spine pages' p h ∧ pages.length ≤ pages'.length ∧
      ∀ i k, Spine pages i k → h < k → pages'[i]? = pages[i]?
  | (some split, pages') =>
      (∃ new, pages' = pages ++ new) ∧ Child pages' split.encodedPageNumber (h + 1)

def Below (pages : List DirPage) (p h : Nat) : Option SplitData × List DirPage → Prop
  | (none, pages') => Inserted pages p h (none, pages')
  | (some split, pages') =>
      (∃ new, pages' = pages ++ new) ∧ Child pages' split.encodedPageNumber h

theorem getD_of_getElem? (hp : pages[p]? = some page) : pages.getD p .zero = page := by
  rw [List.getD_eq_getElem?_getD, hp, Option.getD_some]

theorem inserted_append (hs : Spine pages p h) {child : Int}
    (hchild : Child (pages ++ new) child h) :
    Inserted pages p h
      (none, (pages ++ new).set p ((pages ++ new).getD p .zero |>.append record child)) := by
  refine ⟨?_, by simp, ?_⟩
  · apply Child.spine (List.getElem?_set_self (hs.append new).lt_length)
    rw [DirPage.lastChild_append]
    exact hchild.set (hs.append new)
  · intro i k hi hk
    have hne : p ≠ i := by
      intro heq
      subst heq
      have := hi.height_unique hs
      omega
    rw [List.getElem?_set_ne hne, List.getElem?_append_left hi.lt_length]

theorem addSplit_inner (n : Nat) (hs : Spine pages p h) (hp : 0 < p) {result}
    (hbelow : Below pages p h result) : Inserted pages p h (addSplit n p result) := by
  obtain ⟨_ | split, pages'⟩ := result
  · exact hbelow
  obtain ⟨⟨new, rfl⟩, hchild⟩ := hbelow
  simp only [addSplit]
  by_cases hroom : ((pages ++ new).getD p .zero).keyCount < maxRecords n
  · rw [if_pos hroom]
    exact inserted_append hs hchild
  · rw [if_neg hroom, if_pos (by omega)]
    refine ⟨⟨new ++ [⟨split.encodedPageNumber, []⟩], by simp⟩, (pages ++ new).length, rfl, ?_, ?_⟩
    · have := (hs.append new).lt_length
      omega
    · exact Child.spine List.getElem?_concat_length (hchild.append _)

theorem bulkInsertAt_below (n : Nat) (record : Tuple) (leaf : Nat) (hs : Spine pages p h)
    (fuel : Nat) (hfuel : h < fuel) :
    ∃ result, bulkInsertAt n record leaf fuel p pages = .ok (addSplit n p result) ∧
      Below pages p h result := by
  induction hs generalizing fuel with
  | @leaf p page hpage hlast =>
    obtain ⟨fuel, rfl⟩ := Nat.exists_eq_add_one_of_ne_zero (by omega : fuel ≠ 0)
    simp only [bulkInsertAt, getD_of_getElem? hpage, if_neg (Int.not_lt.mpr hlast)]
    exact ⟨_, rfl, ⟨[], by simp⟩, Int.natCast_nonneg leaf⟩
  | @dir p c h page hpage hlast hc hs ih =>
    obtain ⟨fuel, rfl⟩ := Nat.exists_eq_add_one_of_ne_zero (by omega : fuel ≠ 0)
    obtain ⟨result, heq, hbelow⟩ := ih fuel (by omega)
    have hinserted := addSplit_inner n hs hc hbelow
    have hchild : page.lastChild.natAbs = c := by omega
    simp only [bulkInsertAt, getD_of_getElem? hpage, if_pos (by omega : page.lastChild < 0),
      hchild, heq, Except.map]
    refine ⟨_, rfl, ?_⟩
    generalize addSplit n c result = inserted at hinserted ⊢
    obtain ⟨_ | split, pages'⟩ := inserted
    · obtain ⟨hs', hlen, hframe⟩ := hinserted
      refine ⟨.dir ?_ hlast hc hs', hlen, fun i k hi hk => hframe i k hi (by omega)⟩
      rw [hframe p (h + 1) (.dir hpage hlast hc hs) (by omega), hpage]
    · exact hinserted

/-- The directory keeps a way to a leaf, shorter than it has pages. -/
def Grown (pages : List DirPage) : Prop := ∃ h, Spine pages 0 h ∧ h < pages.length

theorem grown_init : Grown init := ⟨0, .leaf rfl (by decide), by decide⟩

theorem addSplit_root (n : Nat) (hs : Spine pages 0 h) (hlen : h < pages.length) {result}
    (hbelow : Below pages 0 h result) : Grown (addSplit n 0 result).2 := by
  obtain ⟨_ | split, pages'⟩ := result
  · exact ⟨h, hbelow.1, Nat.lt_of_lt_of_le hlen hbelow.2.1⟩
  obtain ⟨⟨new, rfl⟩, hchild⟩ := hbelow
  simp only [addSplit]
  by_cases hroom : ((pages ++ new).getD 0 .zero).keyCount < maxRecords n
  · rw [if_pos hroom]
    exact ⟨h, (inserted_append hs hchild).1, by simp; omega⟩
  · rw [if_neg hroom, if_neg (by simp)]
    have hroot := hs.append new
    have hlen' : pages.length ≤ (pages ++ new).length := by simp
    generalize pages ++ new = pages' at hchild hroot hlen' ⊢
    -- the page with the new child is not the root, and neither is any page under it
    have hchild' := (hchild.append [pages'.getD 0 .zero]).append [⟨split.encodedPageNumber, []⟩]
    have hroot' := (hroot.append [pages'.getD 0 .zero]).append [⟨split.encodedPageNumber, []⟩]
    generalize hpages : pages' ++ [pages'.getD 0 .zero] ++ [⟨split.encodedPageNumber, []⟩] = all
      at hchild' hroot' ⊢
    have hget : (all.set 0 ⟨-(pages'.length : Int),
        [(split.record, -((pages'.length + 1 : Nat) : Int))]⟩)[pages'.length + 1]? =
          some ⟨split.encodedPageNumber, []⟩ := by
      rw [List.getElem?_set_ne (Nat.succ_ne_zero _).symm, ← hpages]
      simp
    refine ⟨h + 1, Child.spine (List.getElem?_set_self hroot'.lt_length)
      ⟨pages'.length + 1, rfl, Nat.succ_pos _, Child.spine hget (hchild'.set hroot')⟩, ?_⟩
    have hlen'' := congrArg List.length hpages
    have := hroot.lt_length
    simp only [List.length_append, List.length_cons, List.length_nil] at hlen''
    rw [List.length_set]
    omega

/-- `bulk_insert` always comes to an end. -/
theorem bulkInsert_ok (n : Nat) (record : Tuple) (leaf : Nat) (hg : Grown pages) :
    ∃ pages', bulkInsert n record leaf pages = .ok pages' ∧ Grown pages' := by
  obtain ⟨h, hs, hlen⟩ := hg
  obtain ⟨result, heq, hbelow⟩ := bulkInsertAt_below n record leaf hs _ hlen
  refine ⟨(addSplit n 0 result).2, ?_, addSplit_root n hs hlen hbelow⟩
  rw [bulkInsert, heq, Except.map]

end

end BPTDirWriter
end MillenniumDB
