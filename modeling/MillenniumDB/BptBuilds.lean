import MillenniumDB.BptDirectory
import Mathlib.Order.CompletePartialOrder

/-!
# Two builds of a directory

`BPTDirWriter` streams the directory of an imported tree to a file, `BPlusTree::bulk_import` grows
it in the pages of the buffer manager.  Both insert the first record of each leaf behind all that
is there, so the leaves come to stand in their order and all at one depth.
-/

namespace MillenniumDB

/-- Calls `bulk_insert` for leaves with consecutive numbers, with the first record of each. -/
def insertLeaves {σ : Type} (bulkInsert : Tuple → Nat → σ → Except Failure σ) :
    Nat → List (List Tuple) → σ → Except Failure σ
  | _, [], s => .ok s
  | leaf, records :: rest, s =>
    (bulkInsert (records.headD []) leaf s).bind (insertLeaves bulkInsert (leaf + 1) rest)

/-- The directory that an import writes: the first leaf does not go through `bulk_insert`. -/
def BPTDirWriter.build (n : Nat) (leaves : List (List Tuple)) : Except Failure (List DirPage) :=
  insertLeaves (BPTDirWriter.bulkInsert n) 1 leaves.tail BPTDirWriter.init

namespace BPlusTreeDir

def dirMaxRecords (n : Nat) : Nat := (mdbPageSize - 2 * 4) / (8 * n + 4)

/-- The pages of the directory file in the buffer, and how often `append_page` has been called. -/
structure DirFile where
  pages : List DirPage
  appended : Nat

/-- `append_page`: the page whose number is the count of pages that the file manager answers.  A
page beyond those in the buffer is new and full of zeros. -/
def appendPage (countPages : Nat → Nat) (file : DirFile) : Nat × DirFile :=
  let pageNumber := countPages file.appended
  (pageNumber, ⟨file.pages ++ List.replicate (pageNumber + 1 - file.pages.length) .zero,
    file.appended + 1⟩)

/-- The second half of `bulk_insert`. -/
def addSplit (n : Nat) (countPages : Nat → Nat) (pageNumber : Nat) :
    Option SplitData × DirFile → Option SplitData × DirFile
  | (none, file) => (none, file)
  | (some split, file) =>
    let page := file.pages.getD pageNumber .zero
    -- case 1: no need to split this node
    if page.keyCount < dirMaxRecords n then
      (none, { file with
        pages := file.pages.set pageNumber (page.append split.record split.encodedPageNumber) })
    -- case 2: this node is the root; the new pages are written step by step, for they could be one
    else if pageNumber = 0 then
      let (newLeftPage, file) := appendPage countPages file
      let (newRightPage, file) := appendPage countPages file
      let pages := file.pages.set newLeftPage page
      let pages := pages.modify newRightPage fun dir => { dir with
        firstChild := split.encodedPageNumber }
      let pages := pages.modify 0 fun dir => { dir with entries := dir.entries.take 1 }
      let pages := pages.modify newRightPage fun dir => { dir with entries := [] }
      let pages := pages.modify 0 fun dir =>
        ⟨-newLeftPage, dir.entries.set 0 (split.record, -newRightPage)⟩
      (none, { file with pages := pages })
    -- case 3: no-root split
    else
      let (newPage, file) := appendPage countPages file
      (some ⟨split.record, -newPage⟩, { file with
        pages := file.pages.set newPage ⟨split.encodedPageNumber, []⟩ })

/-- `bulk_insert`, with fuel for the levels of the directory. -/
def bulkInsertAt (n : Nat) (countPages : Nat → Nat) (record : Tuple) (leafPageNumber : Nat) :
    Nat → Nat → DirFile → Except Failure (Option SplitData × DirFile)
  | 0, _, _ => .error .diverges
  | fuel + 1, pageNumber, file =>
    let pagePointer := (file.pages.getD pageNumber .zero).lastChild
    if pagePointer < 0 then
      (bulkInsertAt n countPages record leafPageNumber fuel pagePointer.natAbs file).map
        (addSplit n countPages pageNumber)
    else .ok (addSplit n countPages pageNumber (some ⟨record, leafPageNumber⟩, file))

/-- `bulk_insert` into the root. -/
def bulkInsert (n : Nat) (countPages : Nat → Nat) (record : Tuple) (leafPageNumber : Nat)
    (file : DirFile) : Except Failure DirFile :=
  (bulkInsertAt n countPages record leafPageNumber file.pages.length 0 file).map Prod.snd

end BPlusTreeDir

/-- The leaves of a `BPlusTree`, each with the number of the next one. -/
def BPlusTree.leafPages (leaves : List (List Tuple)) : List LeafPage :=
  leaves.mapIdx fun page records =>
    ⟨records.length, if page + 1 < leaves.length then page + 1 else 0, records⟩

/-- `BPlusTree::bulk_import` into an empty tree: its leaves and its directory. -/
def BPlusTree.bulkImport (n : Nat) (countPages : Nat → Nat) (leaves : List (List Tuple)) :
    Except Failure (List LeafPage × List DirPage) :=
  (insertLeaves (BPlusTreeDir.bulkInsert n countPages) 1 leaves.tail ⟨[.zero], 0⟩).map
    fun file => (leafPages leaves, file.pages)

namespace BPlusTreeDir

section

variable {sep : Nat → Tuple} {pages pages' new : List DirPage} {own own' : Set Nat}
  {page : DirPage} {leaves : List Nat} {h p leaf n : Nat} {child : Int} {record : Tuple}

theorem Holds.mono (hh : Holds sep pages own h child leaves) (hown : own ⊆ own')
    (hpages : ∀ q ∈ own, ∀ page, pages[q]? = some page → pages'[q]? = some page) :
    Holds sep pages' own' h child leaves := by
  induction h generalizing child leaves with
  | zero => exact hh
  | succ h ih =>
    obtain ⟨p, page, hchild, hp, hmem, hget, parts, hleaves, hparts, hkeys⟩ := hh
    refine ⟨p, page, hchild, hp, hown hmem, hpages p hmem page hget, parts, hleaves, ?_, hkeys⟩
    exact hparts.imp fun _ _ => ih

/-- The leaves under a page that grows at its end: the pages under its last child are apart from
those under the other children. -/
def Open (sep : Nat → Tuple) (holds growing : Set Nat → Int → List Nat → Prop) (own : Set Nat)
    (p : Nat) (page : DirPage) (leaves : List Nat) : Prop :=
  ∃ (closed last : Set Nat) (parts : List (List Nat)) (part : List Nat),
    closed ⊆ own ∧ last ⊆ own ∧ p ∉ closed ∧ p ∉ last ∧ Disjoint closed last ∧
    leaves = parts.flatten ++ part ∧
    List.Forall₂ (holds closed) page.children.dropLast parts ∧ growing last page.lastChild part ∧
    page.keys = (parts ++ [part]).tail.map fun part => sep (part.headD 0)

/-- As `Holds`, for a child that grows at its end. -/
def Growing (sep : Nat → Tuple) (pages : List DirPage) : Nat → Set Nat → Int → List Nat → Prop
  | 0, _, child, leaves => ∃ leaf : Nat, child = leaf ∧ leaves = [leaf]
  | h + 1, own, child, leaves => ∃ (p : Nat) (page : DirPage), child = -p ∧ 0 < p ∧ p ∈ own ∧
      pages[p]? = some page ∧
      Open sep (fun own => Holds sep pages own h) (Growing sep pages h) own p page leaves

def PageGrows (sep : Nat → Tuple) (pages : List DirPage) (own : Set Nat) (h p : Nat)
    (leaves : List Nat) : Prop :=
  ∃ page, p ∈ own ∧ pages[p]? = some page ∧
    Open sep (fun own => Holds sep pages own h) (Growing sep pages h) own p page leaves

@[simp] theorem children_append (page : DirPage) (record : Tuple) (child : Int) :
    (page.append record child).children = page.children ++ [child] := by
  simp [DirPage.children, DirPage.append]

@[simp] theorem keys_append (page : DirPage) (record : Tuple) (child : Int) :
    (page.append record child).keys = page.keys ++ [record] := by
  simp [DirPage.keys, DirPage.append]

theorem Open.under {holds growing : Set Nat → Int → List Nat → Prop}
    (hopen : Open sep holds growing own p page leaves)
    (hholds : ∀ {own own' child leaves}, holds own child leaves → own ⊆ own' →
      holds own' child leaves)
    (hgrowing : ∀ {own child leaves}, growing own child leaves → holds own child leaves) :
    Under sep (holds own) page leaves := by
  obtain ⟨closed, last, parts, part, hclosed, hlast, _, _, _, rfl, hparts, hpart, hkeys⟩ := hopen
  refine ⟨parts ++ [part], by simp, ?_, hkeys⟩
  rw [children_eq page]
  apply List.rel_append
  · exact hparts.imp fun _ _ hchild => hholds hchild hclosed
  · exact .cons (hholds (hgrowing hpart) hlast) .nil

theorem Growing.holds (hg : Growing sep pages h own child leaves) :
    Holds sep pages own h child leaves := by
  induction h generalizing own child leaves with
  | zero => exact hg
  | succ h ih =>
    obtain ⟨p, page, hchild, hp, hmem, hget, hopen⟩ := hg
    refine ⟨p, page, hchild, hp, hmem, hget, ?_⟩
    exact hopen.under (fun hh hsub => hh.mono hsub fun _ _ _ => id) ih

theorem under_of_open (hopen : Open sep (fun own => Holds sep pages own h) (Growing sep pages h) own
    p page leaves) : Under sep (Holds sep pages own h) page leaves :=
  hopen.under (fun hh hsub => hh.mono hsub fun _ _ _ => id) Growing.holds

theorem Growing.mono (hg : Growing sep pages h own child leaves) (hown : own ⊆ own')
    (hpages : ∀ q ∈ own, ∀ page, pages[q]? = some page → pages'[q]? = some page) :
    Growing sep pages' h own' child leaves := by
  induction h generalizing own own' child leaves with
  | zero => exact hg
  | succ h ih =>
    obtain ⟨p, page, hchild, hp, hmem, hget, closed, last, parts, part, hclosed, hlast, hpc, hpl,
      hdisjoint, hleaves, hparts, hpart, hkeys⟩ := hg
    refine ⟨p, page, hchild, hp, hown hmem, hpages p hmem page hget, closed, last, parts, part,
      hclosed.trans hown, hlast.trans hown, hpc, hpl, hdisjoint, hleaves, ?_, ?_, hkeys⟩
    · exact hparts.imp fun _ _ hh => hh.mono subset_rfl fun q hq => hpages q (hclosed hq)
    · exact ih hpart subset_rfl fun q hq => hpages q (hlast hq)

theorem PageGrows.holds (hg : PageGrows sep pages own h p leaves) :
    PageHolds sep pages own h p leaves := by
  obtain ⟨page, _, hget, hopen⟩ := hg
  exact ⟨page, hget, under_of_open hopen⟩

theorem PageGrows.mem (hg : PageGrows sep pages own h p leaves) : p ∈ own := by
  obtain ⟨page, hmem, _⟩ := hg
  exact hmem

def fresh (pages pages' : List DirPage) : Set Nat := {q | pages.length ≤ q ∧ q < pages'.length}

/-- What an insertion leaves of a page: it has the leaf, and only pages of its own have changed, or
the leaf is under a new page that is to be added above. -/
def Inserted (sep : Nat → Tuple) (pages : List DirPage) (own : Set Nat) (h p leaf : Nat)
    (leaves : List Nat) : Option SplitData × List DirPage → Prop
  | (none, pages') => PageGrows sep pages' (own ∪ fresh pages pages') h p (leaves ++ [leaf]) ∧
      pages.length ≤ pages'.length ∧ ∀ q < pages.length, q ∉ own → pages'[q]? = pages[q]?
  | (some split, pages') => (∃ new, pages' = pages ++ new) ∧ split.record = sep leaf ∧
      Growing sep pages' (h + 1) (fresh pages pages') split.encodedPageNumber [leaf]

def Below (sep : Nat → Tuple) (pages : List DirPage) (own : Set Nat) (h p leaf : Nat)
    (leaves : List Nat) : Option SplitData × List DirPage → Prop
  | (none, pages') => Inserted sep pages own h p leaf leaves (none, pages')
  | (some split, pages') => (∃ new, pages' = pages ++ new) ∧ split.record = sep leaf ∧
      Growing sep pages' h (fresh pages pages') split.encodedPageNumber [leaf]

theorem getElem?_append {q : Nat} (hq : pages[q]? = some page) (new : List DirPage) :
    (pages ++ new)[q]? = some page := by
  rw [List.getElem?_append_left (List.getElem?_eq_some_iff.mp hq).1, hq]

theorem disjoint_fresh (hown : ∀ q ∈ own, q < pages.length) :
    Disjoint own (fresh pages pages') := by
  rw [Set.disjoint_left]
  intro q hq hfresh
  exact absurd (hown q hq) (Nat.not_lt.mpr hfresh.1)

theorem Growing.single (hg : Growing sep pages h own child [leaf])
    (hp : pages[p]? = some ⟨child, []⟩) (hpos : 0 < p) (hnot : p ∉ own) :
    Growing sep pages (h + 1) (insert p own) (-(p : Int)) [leaf] := by
  refine ⟨p, _, rfl, hpos, Set.mem_insert p own, hp, ∅, own, [], [leaf], Set.empty_subset _,
    Set.subset_insert p own, Set.notMem_empty p, hnot, Set.empty_disjoint own, rfl, .nil, hg, rfl⟩

theorem PageGrows.append (hg : PageGrows sep pages own h p leaves)
    (hown : ∀ q ∈ own, q < pages.length) {new : List DirPage}
    (hchild : Growing sep (pages ++ new) h (fresh pages (pages ++ new)) child [leaf]) :
    Inserted sep pages own h p leaf leaves (none, (pages ++ new).set p
      (((pages ++ new).getD p .zero).append (sep leaf) child)) := by
  obtain ⟨page, hmem, hget, closed, last, parts, part, hclosed, hlast, hpc, hpl, hdisjoint, rfl,
    hparts, hpart, hkeys⟩ := hg
  have hlt := hown p hmem
  have hget' := getElem?_append hget new
  rw [BPTDirWriter.getD_of_getElem? hget']
  have hkeep : ∀ {set : Set Nat}, p ∉ set → ∀ q ∈ set, ∀ page', (pages ++ new)[q]? = some page' →
      ((pages ++ new).set p (page.append (sep leaf) child))[q]? = some page' := by
    intro set hp q hq page' hpage'
    have hne : p ≠ q := fun heq => hp (by rw [heq]; exact hq)
    rw [List.getElem?_set_ne hne, hpage']
  have hnot : p ∉ fresh pages (pages ++ new) := fun hfresh => absurd hlt (Nat.not_lt.mpr hfresh.1)
  have hlength : fresh pages ((pages ++ new).set p (page.append (sep leaf) child)) =
      fresh pages (pages ++ new) := by
    simp only [fresh, List.length_set]
  have hfix : ∀ {set : Set Nat}, p ∉ set → ∀ q ∈ set, ∀ page', pages[q]? = some page' →
      ((pages ++ new).set p (page.append (sep leaf) child))[q]? = some page' :=
    fun hp q hq page' hpage' => hkeep hp q hq page' (getElem?_append hpage' new)
  refine ⟨⟨page.append (sep leaf) child, Or.inl hmem, ?_, closed ∪ last,
    fresh pages (pages ++ new), parts ++ [part], [leaf], ?_, ?_, ?_, hnot, ?_, by simp, ?_, ?_, ?_⟩,
    by simp, ?_⟩
  · rw [List.getElem?_set_self (List.getElem?_eq_some_iff.mp hget').1]
  · exact fun q hq => Or.inl (hq.elim (fun h => hclosed h) fun h => hlast h)
  · rw [hlength]
    exact Set.subset_union_right
  · exact fun hq => hq.elim hpc hpl
  · apply (disjoint_fresh hown).mono_left
    exact Set.union_subset hclosed hlast
  · -- what was the last child is closed from now on
    rw [children_append, List.dropLast_concat, children_eq page]
    apply List.rel_append
    · exact hparts.imp fun _ _ hh => hh.mono Set.subset_union_left (hfix hpc)
    · exact .cons (hpart.holds.mono Set.subset_union_right (hfix hpl)) .nil
  · rw [DirPage.lastChild_append]
    exact hchild.mono subset_rfl (hkeep hnot)
  · rw [keys_append, hkeys, List.tail_append_of_ne_nil (by simp : parts ++ [part] ≠ []),
      List.map_append]
    rfl
  · intro q hq hnotown
    have hne : p ≠ q := fun heq => hnotown (by rw [← heq]; exact hmem)
    rw [List.getElem?_set_ne hne, List.getElem?_append_left hq]

theorem addSplit_inserted (n : Nat) (hg : PageGrows sep pages own h p leaves) (hp : 0 < p)
    (hown : ∀ q ∈ own, q < pages.length) {result}
    (hbelow : Below sep pages own h p leaf leaves result) :
    Inserted sep pages own h p leaf leaves (BPTDirWriter.addSplit n p result) := by
  obtain ⟨_ | split, pages'⟩ := result
  · exact hbelow
  obtain ⟨⟨new, rfl⟩, hrecord, hchild⟩ := hbelow
  simp only [BPTDirWriter.addSplit]
  by_cases hroom : ((pages ++ new).getD p .zero).keyCount < BPTDirWriter.maxRecords n
  · rw [if_pos hroom, hrecord]
    exact hg.append hown hchild
  · rw [if_neg hroom, if_pos (by omega)]
    refine ⟨⟨new ++ [⟨split.encodedPageNumber, []⟩], by simp⟩, hrecord, ?_⟩
    have hlt := hown p hg.mem
    have hchild' := hchild.mono subset_rfl
      fun q _ page hq => getElem?_append hq [⟨split.encodedPageNumber, []⟩]
    apply (hchild'.single List.getElem?_concat_length (by simp; omega)
      fun hq => absurd hq.2 (lt_irrefl _)).mono _ fun _ _ _ => id
    rintro q (rfl | hq)
    · simp [fresh]
    · exact ⟨hq.1, hq.2.trans (by simp)⟩

theorem bulkInsertAt_below (n : Nat) (hrecord : record = sep leaf)
    (hg : PageGrows sep pages own h p leaves) (hown : ∀ q ∈ own, q < pages.length) {fuel : Nat}
    (hfuel : h < fuel) :
    ∃ result, BPTDirWriter.bulkInsertAt n record leaf fuel p pages =
      .ok (BPTDirWriter.addSplit n p result) ∧ Below sep pages own h p leaf leaves result := by
  induction h generalizing own p leaves fuel with
  | zero =>
    obtain ⟨fuel, rfl⟩ := Nat.exists_eq_add_one_of_ne_zero (by omega : fuel ≠ 0)
    obtain ⟨page, _, hget, _, _, _, _, _, _, _, _, _, _, _, ⟨leaf', hlast, _⟩, _⟩ := hg
    rw [BPTDirWriter.bulkInsertAt, BPTDirWriter.getD_of_getElem? hget, hlast,
      if_neg (Int.not_lt.mpr (Int.natCast_nonneg leaf'))]
    exact ⟨_, rfl, ⟨[], by simp⟩, hrecord, leaf, rfl, rfl⟩
  | succ h ih =>
    obtain ⟨fuel, rfl⟩ := Nat.exists_eq_add_one_of_ne_zero (by omega : fuel ≠ 0)
    obtain ⟨page, hmem, hget, closed, last, parts, part, hclosed, hlast, hpc, hpl, hdisjoint, rfl,
      hparts, hpart, hkeys⟩ := hg
    have hne := hpart.holds.ne_nil
    obtain ⟨c, page', hchild, hc, hmem', hget', hopen⟩ := hpart
    have hgc : PageGrows sep pages last h c part := ⟨page', hmem', hget', hopen⟩
    have hownc : ∀ q ∈ last, q < pages.length := fun q hq => hown q (hlast hq)
    obtain ⟨result, heq, hbelow⟩ := ih hgc hownc (by omega : h < fuel)
    have hinserted := addSplit_inserted n hgc hc hownc hbelow
    rw [BPTDirWriter.bulkInsertAt, BPTDirWriter.getD_of_getElem? hget, hchild, if_pos (by omega),
      Int.natAbs_neg, Int.natAbs_natCast, heq, Except.map]
    refine ⟨_, rfl, ?_⟩
    generalize BPTDirWriter.addSplit n c result = inserted at hinserted ⊢
    obtain ⟨_ | split, pages'⟩ := inserted
    · obtain ⟨⟨page'', hmem'', hget'', hopen''⟩, hlen, hframe⟩ := hinserted
      have hfix : ∀ q ∈ closed, ∀ page, pages[q]? = some page → pages'[q]? = some page := by
        intro q hq page hpage
        rw [hframe q (hown q (hclosed hq)) (Set.disjoint_left.mp hdisjoint hq), hpage]
      refine ⟨⟨page, Or.inl hmem, ?_, closed, last ∪ fresh pages pages', parts, part ++ [leaf],
        ?_, ?_, hpc, ?_, ?_, by simp, ?_, ?_, ?_⟩, hlen, ?_⟩
      · rw [hframe p (hown p hmem) hpl, hget]
      · exact fun q hq => Or.inl (hclosed hq)
      · exact Set.union_subset_union_left _ hlast
      · exact fun hp => hp.elim hpl fun hp => absurd (hown p hmem) (Nat.not_lt.mpr hp.1)
      · apply Set.disjoint_union_right.mpr ⟨hdisjoint, disjoint_fresh _⟩
        exact fun q hq => hown q (hclosed hq)
      · exact hparts.imp fun _ _ hh => hh.mono subset_rfl hfix
      · rw [hchild]
        exact ⟨c, page'', rfl, hc, hmem'', hget'', hopen''⟩
      · -- the separator of the part with the leaf is still that of its first leaf
        obtain ⟨x, xs, rfl⟩ := List.exists_cons_of_ne_nil hne
        rw [hkeys]
        cases parts <;> simp
      · exact fun q hq hnot => hframe q hq fun hq' => hnot (hlast hq')
    · exact hinserted

theorem PageGrows.mono (hg : PageGrows sep pages own h p leaves) (hown : own ⊆ own') :
    PageGrows sep pages own' h p leaves := by
  obtain ⟨page, hmem, hget, closed, last, parts, part, hclosed, hlast, hrest⟩ := hg
  exact ⟨page, hown hmem, hget, closed, last, parts, part, hclosed.trans hown, hlast.trans hown,
    hrest⟩

theorem PageGrows.split (hg : PageGrows sep pages own h 0 leaves) {lhs : Nat}
    (hown : ∀ q ∈ own, q < lhs) {all : List DirPage}
    (hroot : all[0]? = some ⟨-(lhs : Int), [(sep leaf, -((lhs + 1 : Nat) : Int))]⟩)
    (hlhs : all[lhs]? = pages[0]?) (hrhs : all[lhs + 1]? = some ⟨child, []⟩)
    (hkeep : ∀ q, q ≠ 0 → ∀ page, pages[q]? = some page → all[q]? = some page) {set : Set Nat}
    (hchild : Growing sep all h set child [leaf]) (hset : ∀ q ∈ set, q ∉ own ∧ q < lhs) :
    PageGrows sep all {q | q < lhs + 2} (h + 1) 0 (leaves ++ [leaf]) := by
  have hpos : 0 < lhs := hown 0 hg.mem
  have hzero := hg.mem
  obtain ⟨page, _, hget, closed, last, parts, part, hclosed, hlast, hpc, hpl, hdisjoint, hleaves,
    hparts, hpart, hkeys⟩ := hg
  have hunder : Under sep (Holds sep pages (closed ∪ last) h) page leaves :=
    under_of_open ⟨closed, last, parts, part, Set.subset_union_left, Set.subset_union_right, hpc,
      hpl, hdisjoint, hleaves, hparts, hpart, hkeys⟩
  have hsub : closed ∪ last ⊆ own := Set.union_subset hclosed hlast
  have hnotroot : ∀ q ∈ closed ∪ last, q ≠ 0 := by
    rintro q hq rfl
    exact hq.elim hpc hpl
  -- the new page on the left holds what the root held
  have hleft : Holds sep all (insert lhs (closed ∪ last)) (h + 1) (-(lhs : Int)) leaves := by
    obtain ⟨parts, hleaves, hparts, hkeys⟩ := hunder
    refine ⟨lhs, page, rfl, hpos, Set.mem_insert lhs _, hlhs.trans hget, parts, hleaves, ?_, hkeys⟩
    exact hparts.imp fun _ _ hh => hh.mono (Set.subset_insert lhs _) fun q hq =>
      hkeep q (hnotroot q hq)
  have hright : Growing sep all (h + 1) (insert (lhs + 1) set) (-((lhs + 1 : Nat) : Int)) [leaf] :=
    hchild.single hrhs (Nat.succ_pos lhs) fun hq => absurd (hset _ hq).2 (by omega)
  refine ⟨_, by simp, hroot, insert lhs (closed ∪ last), insert (lhs + 1) set, [leaves], [leaf],
    ?_, ?_, ?_, ?_, ?_, by simp, .cons hleft .nil, hright, rfl⟩
  · rintro q (rfl | hq)
    · simp
    · exact (hown q (hsub hq)).trans (by omega)
  · rintro q (rfl | hq)
    · simp
    · exact (hset q hq).2.trans (by omega)
  · rintro (hq | hq)
    · omega
    · exact hnotroot 0 hq rfl
  · rintro (hq | hq)
    · omega
    · exact (hset 0 hq).1 hzero
  · rw [Set.disjoint_left]
    rintro q (rfl | hq) (hq' | hq')
    · omega
    · exact absurd (hset _ hq').2 (lt_irrefl _)
    · have := hown q (hsub hq)
      omega
    · exact (hset q hq').1 (hsub hq)

def RootGrows (sep : Nat → Tuple) (pages : List DirPage) (leaves : List Nat) : Prop :=
  ∃ h, h < pages.length ∧ PageGrows sep pages {q | q < pages.length} h 0 leaves

theorem addSplit_root (n : Nat) (hg : PageGrows sep pages {q | q < pages.length} h 0 leaves)
    (hlen : h < pages.length) {result}
    (hbelow : Below sep pages {q | q < pages.length} h 0 leaf leaves result) :
    RootGrows sep (BPTDirWriter.addSplit n 0 result).2 (leaves ++ [leaf]) := by
  have hnone : ∀ {pages'}, Inserted sep pages {q | q < pages.length} h 0 leaf leaves (none, pages') →
      RootGrows sep pages' (leaves ++ [leaf]) := by
    rintro pages' ⟨hg', hle, _⟩
    refine ⟨h, by omega, hg'.mono ?_⟩
    rintro q (hq | hq)
    · exact Nat.lt_of_lt_of_le hq hle
    · exact hq.2
  obtain ⟨_ | split, pages'⟩ := result
  · exact hnone hbelow
  obtain ⟨⟨new, rfl⟩, hrecord, hchild⟩ := hbelow
  simp only [BPTDirWriter.addSplit]
  by_cases hroom : ((pages ++ new).getD 0 .zero).keyCount < BPTDirWriter.maxRecords n
  · rw [if_pos hroom, hrecord]
    exact hnone (hg.append (fun _ => id) hchild)
  rw [if_neg hroom, if_neg (by simp)]
  have hpos : 0 < pages.length := hg.mem
  have hget : pages[0]? = some ((pages ++ new).getD 0 .zero) := by
    rw [BPTDirWriter.getD_of_getElem? (getElem?_append (List.getElem?_eq_getElem hpos) new),
      List.getElem?_eq_getElem hpos]
  generalize (pages ++ new).getD 0 .zero = page at hget
  have hfresh : ∀ q ∈ fresh pages (pages ++ new), q ≠ 0 := fun q hq => by
    have := hq.1
    omega
  -- all pages but the root are as they were
  have hkeep : ∀ (root : DirPage) (q : Nat), q ≠ 0 → ∀ page', (pages ++ new)[q]? = some page' →
      (((pages ++ new) ++ [page] ++ [DirPage.mk split.encodedPageNumber []]).set 0 root)[q]? =
        some page' := by
    intro root q hq page' hpage'
    rw [List.getElem?_set_ne (Ne.symm hq)]
    exact getElem?_append (getElem?_append hpage' _) _
  have hlen' : (pages ++ new).length = pages.length + new.length := List.length_append
  refine ⟨h + 1, by simp; omega, ?_⟩
  have hown : ∀ q ∈ {q | q < pages.length}, q < (pages ++ new).length := by
    intro q hq
    have hq' : q < pages.length := hq
    omega
  apply (hg.split hown ?_ ?_ ?_ ?_
    (hchild.mono subset_rfl fun q hq => hkeep _ q (hfresh q hq)) ?_).mono
  · intro q hq
    simpa [Nat.add_assoc] using hq
  · rw [List.getElem?_set_self (by simp), hrecord]
  · rw [List.getElem?_set_ne (by omega), hget]
    exact getElem?_append List.getElem?_concat_length _
  · have hlast : (pages ++ new).length + 1 = ((pages ++ new) ++ [page]).length := by
      simp [Nat.add_assoc]
    rw [List.getElem?_set_ne (by omega), hlast, List.getElem?_concat_length]
  · exact fun q hq page' hpage' => hkeep _ q hq page' (getElem?_append hpage' new)
  · intro q hq
    refine ⟨fun hq' => ?_, hq.2⟩
    exact absurd hq' (Nat.not_lt.mpr hq.1)

theorem rootGrows_init (sep : Nat → Tuple) : RootGrows sep BPTDirWriter.init [0] := by
  refine ⟨0, by decide, .zero, by decide, rfl, ∅, ∅, [], [0], Set.empty_subset _,
    Set.empty_subset _, Set.notMem_empty 0, Set.notMem_empty 0, Set.disjoint_empty _, rfl, .nil,
    ⟨0, rfl, rfl⟩, rfl⟩

/-- One call of `bulk_insert` puts the leaf behind all others. -/
theorem bulkInsert_rootGrows (n : Nat) (hrecord : record = sep leaf)
    (hg : RootGrows sep pages leaves) :
    ∃ pages', BPTDirWriter.bulkInsert n record leaf pages = .ok pages' ∧
      RootGrows sep pages' (leaves ++ [leaf]) := by
  obtain ⟨h, hlen, hg⟩ := hg
  obtain ⟨result, heq, hbelow⟩ := bulkInsertAt_below n hrecord hg (fun _ => id) hlen
  refine ⟨(BPTDirWriter.addSplit n 0 result).2, ?_, addSplit_root n hg hlen hbelow⟩
  rw [BPTDirWriter.bulkInsert, heq, Except.map]

/-- The pages of a file in which `append_page` has made a new page each time. -/
def DirFile.ofPages (pages : List DirPage) : DirFile := ⟨pages, pages.length - 1⟩

section

variable {countPages : Nat → Nat} (hnew : ∀ k, countPages k = k + 1)

include hnew in
theorem appendPage_ofPages (hpos : 0 < pages.length) :
    appendPage countPages (.ofPages pages) = (pages.length, .ofPages (pages ++ [.zero])) := by
  have hcount : countPages (pages.length - 1) = pages.length := by
    rw [hnew]
    omega
  have hone : pages.length + 1 - pages.length = 1 := by omega
  simp only [appendPage, DirFile.ofPages, hcount, hone, List.replicate_one, List.length_append,
    List.length_singleton]
  congr 2
  omega

theorem modify_length_succ (f : DirPage → DirPage) (pages : List DirPage) (x y : DirPage) :
    (pages ++ [x, y]).modify (pages.length + 1) f = pages ++ [x, f y] := by
  induction pages with
  | nil => rfl
  | cons page pages ih =>
    rw [List.cons_append, List.length_cons, List.modify_succ_cons, ih, List.cons_append]

include hnew in
theorem addSplit_eq (hpos : 0 < pages.length) (hmax : 0 < dirMaxRecords n) (p : Nat)
    (split : Option SplitData) :
    addSplit n countPages p (split, .ofPages pages) =
      ((BPTDirWriter.addSplit n p (split, pages)).1,
        .ofPages (BPTDirWriter.addSplit n p (split, pages)).2) := by
  cases split with
  | none => rfl
  | some split =>
    have hpages : (DirFile.ofPages pages).pages = pages := rfl
    have hsame : BPTDirWriter.maxRecords n = dirMaxRecords n := rfl
    simp only [addSplit, BPTDirWriter.addSplit, hpages, hsame]
    by_cases hroom : (pages.getD p .zero).keyCount < dirMaxRecords n
    · rw [if_pos hroom, if_pos hroom]
      simp [DirFile.ofPages]
    · rw [if_neg hroom, if_neg hroom]
      rw [appendPage_ofPages hnew hpos]
      by_cases hroot : p = 0
      · subst hroot
        rw [if_pos rfl, if_neg (by simp)]
        rw [appendPage_ofPages hnew (by simp)]
        cases pages with
        | nil => exact absurd hpos (lt_irrefl 0)
        | cons root rest =>
          obtain ⟨first, _ | ⟨entry, entries⟩⟩ := root
          · exact absurd hmax hroom
          · simp [DirFile.ofPages, modify_length_succ]
      · rw [if_neg hroot, if_pos hroot]
        simp [DirFile.ofPages]

theorem addSplit_length (n p : Nat) (split : Option SplitData) :
    pages.length ≤ (BPTDirWriter.addSplit n p (split, pages)).2.length := by
  cases split with
  | none => exact le_rfl
  | some split =>
    simp only [BPTDirWriter.addSplit]
    split_ifs <;> simp

include hnew in
theorem bulkInsertAt_eq (hmax : 0 < dirMaxRecords n) (record : Tuple) (leaf fuel : Nat) :
    ∀ (p : Nat) {pages : List DirPage}, 0 < pages.length →
      bulkInsertAt n countPages record leaf fuel p (.ofPages pages) =
        (BPTDirWriter.bulkInsertAt n record leaf fuel p pages).map
          (fun result => (result.1, .ofPages result.2)) ∧
      ∀ result, BPTDirWriter.bulkInsertAt n record leaf fuel p pages = .ok result →
        0 < result.2.length := by
  induction fuel with
  | zero =>
    intro p pages hpos
    refine ⟨rfl, ?_⟩
    intro result h
    cases h
  | succ fuel ih =>
    intro p pages hpos
    have hpages : (DirFile.ofPages pages).pages = pages := rfl
    rw [bulkInsertAt, BPTDirWriter.bulkInsertAt, hpages]
    by_cases hchild : (pages.getD p .zero).lastChild < 0
    · rw [if_pos hchild, if_pos hchild]
      obtain ⟨heq, hlen⟩ := ih (pages.getD p .zero).lastChild.natAbs hpos
      rw [heq]
      cases hresult : BPTDirWriter.bulkInsertAt n record leaf fuel
          (pages.getD p .zero).lastChild.natAbs pages with
      | error e =>
        refine ⟨rfl, ?_⟩
        intro result h
        cases h
      | ok result =>
        obtain ⟨split, pages'⟩ := result
        have hpos' : 0 < pages'.length := hlen _ hresult
        refine ⟨?_, ?_⟩
        · simp only [Except.map]
          rw [addSplit_eq hnew hpos' hmax]
        · intro r hr
          obtain rfl := Except.ok.inj hr
          exact Nat.lt_of_lt_of_le hpos' (addSplit_length n p split)
    · rw [if_neg hchild, if_neg hchild]
      refine ⟨?_, ?_⟩
      · simp only [Except.map]
        rw [addSplit_eq hnew hpos hmax]
      · intro r hr
        obtain rfl := Except.ok.inj hr
        exact Nat.lt_of_lt_of_le hpos (addSplit_length n p _)

include hnew in
theorem insertLeaves_eq (hmax : 0 < dirMaxRecords n) (leaves : List (List Tuple)) :
    ∀ (leaf : Nat) {pages : List DirPage}, 0 < pages.length →
      insertLeaves (bulkInsert n countPages) leaf leaves (.ofPages pages) =
        (insertLeaves (BPTDirWriter.bulkInsert n) leaf leaves pages).map .ofPages := by
  induction leaves with
  | nil => exact fun _ _ _ => rfl
  | cons records leaves ih =>
    intro leaf pages hpos
    obtain ⟨heq, hlen⟩ := bulkInsertAt_eq hnew hmax (records.headD []) leaf pages.length 0 hpos
    have hpages : (DirFile.ofPages pages).pages = pages := rfl
    rw [insertLeaves, insertLeaves, bulkInsert, BPTDirWriter.bulkInsert, hpages, heq]
    cases hresult : BPTDirWriter.bulkInsertAt n (records.headD []) leaf pages.length 0 pages with
    | error e => rfl
    | ok result => exact ih (leaf + 1) (hlen result hresult)

end

theorem insertLeaves_rootGrows (n : Nat) (rest : List (List Tuple)) :
    ∀ {k : Nat} {pages : List DirPage},
      (∀ i records, rest[i]? = some records → sep (k + i) = records.headD []) →
      RootGrows sep pages (List.range k) →
      ∃ pages', insertLeaves (BPTDirWriter.bulkInsert n) k rest pages = .ok pages' ∧
        RootGrows sep pages' (List.range (k + rest.length)) := by
  induction rest with
  | nil => exact fun _ hg => ⟨_, rfl, hg⟩
  | cons records rest ih =>
    intro k pages hsep hg
    have hrecord : records.headD [] = sep k := (hsep 0 records rfl).symm
    obtain ⟨pages₁, heq, hg₁⟩ := bulkInsert_rootGrows n hrecord hg
    rw [← List.range_succ] at hg₁
    have hrest : ∀ i records', rest[i]? = some records' → sep (k + 1 + i) = records'.headD [] := by
      intro i records' hi
      rw [Nat.add_assoc, Nat.add_comm 1 i]
      exact hsep (i + 1) records' (by simpa using hi)
    obtain ⟨pages', heq', hg'⟩ := ih hrest hg₁
    refine ⟨pages', ?_, ?_⟩
    · rw [insertLeaves, heq]
      exact heq'
    · rw [List.length_cons, Nat.add_comm rest.length 1, ← Nat.add_assoc]
      exact hg'

def firstRecord (leaves : List (List Tuple)) (leaf : Nat) : Tuple := (leaves.getD leaf []).headD []

theorem map_firstRecord (leaves : List (List Tuple)) :
    (List.range leaves.length).map (firstRecord leaves) =
      leaves.map fun records => records.headD [] := by
  apply List.ext_getElem (by simp)
  intro i hi _
  rw [List.length_map, List.length_range] at hi
  simp [firstRecord, List.getD_eq_getElem?_getD, hi]

theorem routed_of_lt_next {leaves : List (List Tuple)}
    (hsorted : (leaves.map fun records => records.headD []).Pairwise (· ≤ ·)) {i : Nat}
    (hi : i < leaves.length) (hfirst : i = 0 ∨ firstRecord leaves i ≤ record)
    (hnext : ∀ next, leaves[i + 1]? = some next → record < next.headD []) :
    Routed (firstRecord leaves) record (List.range leaves.length) i := by
  refine ⟨List.range i, (List.range (leaves.length - (i + 1))).map (i + 1 + ·), ?_, ?_, ?_⟩
  · rw [← List.singleton_append, ← List.append_assoc, ← List.range_succ, ← List.range_add]
    congr 1
    omega
  · intro hne
    apply hfirst.resolve_left
    rintro rfl
    exact hne rfl
  · intro y hy
    obtain ⟨j, hj, rfl⟩ := List.mem_map.mp hy
    rw [List.mem_range] at hj
    have hlt : i + 1 < leaves.length := by omega
    have hget : ∀ k (hk : k < leaves.length), firstRecord leaves k = leaves[k].headD [] := by
      intro k hk
      rw [firstRecord, List.getD_eq_getElem?_getD, List.getElem?_eq_getElem hk, Option.getD_some]
    have hrecord := hnext _ (List.getElem?_eq_getElem hlt)
    rw [← hget _ hlt] at hrecord
    apply lt_of_lt_of_le hrecord
    rw [← map_firstRecord, List.pairwise_map] at hsorted
    rcases Nat.eq_zero_or_pos j with rfl | hj'
    · exact le_rfl
    · have := List.pairwise_iff_getElem.mp hsorted (i + 1) (i + 1 + j) (by simpa using hlt)
        (by simp; omega) (by omega)
      simpa using this

/-- Leaves whose first records do not decrease.  As long as `append_page` makes a new page each
time, the two builds write the same directory.  It has all leaves in order at one depth, with their
first records as separators, and routes a record to the last leaf that does not begin above it:
to the leaf that it is in, if the next leaf begins above it. -/
theorem bulk_builds {n : Nat} (hn : 0 < n) (hle : n ≤ 4) {countPages : Nat → Nat}
    (hnew : ∀ k, countPages k = k + 1) {leaves : List (List Tuple)} (hne : leaves ≠ [])
    (hsorted : (leaves.map fun records => records.headD []).Pairwise (· ≤ ·)) :
    ∃ pages, BPTDirWriter.build n leaves = .ok pages ∧
      BPlusTree.bulkImport n countPages leaves = .ok (BPlusTree.leafPages leaves, pages) ∧
      (∃ h, PageHolds (firstRecord leaves) pages Set.univ h 0 (List.range leaves.length)) ∧
      (∀ record, ∃ leaf, searchLeaf record pages = some leaf ∧
        Routed (firstRecord leaves) record (List.range leaves.length) leaf) ∧
      ∀ record i, i < leaves.length → (i = 0 ∨ firstRecord leaves i ≤ record) →
        (∀ next, leaves[i + 1]? = some next → record < next.headD []) →
        searchLeaf record pages = some i := by
  obtain ⟨first, rest, rfl⟩ := List.exists_cons_of_ne_nil hne
  have hmax : 0 < dirMaxRecords n := by
    simp only [dirMaxRecords, mdbPageSize]
    exact Nat.div_pos (by omega) (by omega)
  have hsep : ∀ i records, rest[i]? = some records →
      firstRecord (first :: rest) (1 + i) = records.headD [] := by
    intro i records hi
    rw [firstRecord, Nat.add_comm, List.getD_cons_succ, List.getD_eq_getElem?_getD, hi,
      Option.getD_some]
  obtain ⟨pages, hbuild, h, hlen, hg⟩ := insertLeaves_rootGrows n rest hsep (rootGrows_init _)
  have hrange : 1 + rest.length = (first :: rest).length := Nat.add_comm _ _
  rw [hrange] at hg
  have hholds := hg.holds
  have hsearch : ∀ record, ∃ leaf, searchLeaf record pages = some leaf ∧
      Routed (firstRecord (first :: rest)) record (List.range (first :: rest).length) leaf := by
    intro record
    apply searchLeafAt_routed record hholds _ hlen
    rw [← map_firstRecord] at hsorted
    exact List.Pairwise.sublist ((List.tail_sublist _).map _) hsorted
  refine ⟨pages, hbuild, ?_, ⟨h, ?_⟩, hsearch, ?_⟩
  · have hpos : 0 < BPTDirWriter.init.length := Nat.one_pos
    have heq := insertLeaves_eq hnew hmax rest 1 hpos
    have hinit : DirFile.ofPages BPTDirWriter.init = ⟨[.zero], 0⟩ := rfl
    rw [BPlusTree.bulkImport, List.tail_cons, ← hinit, heq, hbuild]
    rfl
  · obtain ⟨page, hget, parts, hleaves, hparts, hkeys⟩ := hholds
    exact ⟨page, hget, parts, hleaves,
      hparts.imp fun _ _ hh => hh.mono (Set.subset_univ _) fun _ _ _ => id, hkeys⟩
  · intro record i hi hfirst hnext
    obtain ⟨leaf, hleaf, hrouted⟩ := hsearch record
    rw [hleaf, hrouted.unique (routed_of_lt_next hsorted hi hfirst hnext)]

/-- Leaves of one record each. -/
def manyLeaves : List (List Tuple) := (List.range 120).map fun i => [[i, i, i, i]]

/-- More leaves than a page of the directory has room for. -/
theorem bulk_builds_many : ∃ pages, BPTDirWriter.build 4 manyLeaves = .ok pages ∧ pages.length = 3 ∧
    searchLeaf [100, 100, 100, 200] pages = some 100 := by
  have hsorted : (manyLeaves.map fun records => records.headD []).Pairwise (· ≤ ·) :=
    List.isChain_iff_pairwise.mp (by decide +kernel)
  have hlength : (BPTDirWriter.build 4 manyLeaves).toOption.map List.length = some 3 := by
    decide +kernel
  obtain ⟨pages, hbuild, _, _, _, hfind⟩ := bulk_builds (show 0 < 4 by decide) (Nat.le_refl 4)
    (fun k => (rfl : k.succ = k + 1)) (by decide : manyLeaves ≠ []) hsorted
  rw [hbuild] at hlength
  refine ⟨pages, hbuild, Option.some.inj hlength, ?_⟩
  refine hfind [100, 100, 100, 200] 100 (by decide) (Or.inr (by decide)) fun next hnext => ?_
  obtain rfl : [[101, 101, 101, 101]] = next := Option.some.inj hnext
  decide

/-- Two leaves that begin with the same record: a search for it does not reach the first one. -/
theorem bulk_builds_equal_records : ¬ ∀ leaves : List (List Tuple),
    (leaves.map fun records => records.headD []).Pairwise (· ≤ ·) →
    ∃ pages, BPTDirWriter.build 1 leaves = .ok pages ∧
      ∀ i records, leaves[i]? = some records → ∀ record ∈ records,
        searchLeaf record pages = some i := by
  intro h
  obtain ⟨pages, hbuild, hreached⟩ := h [[[1]], [[1]]] (by decide)
  have hpages : BPTDirWriter.build 1 [[[1]], [[1]]] = .ok [⟨0, [([1], 1)]⟩] := by rfl
  obtain rfl := Except.ok.inj (hpages.symm.trans hbuild)
  exact absurd (hreached 0 [[1]] rfl [1] List.mem_cons_self) (by decide)

end
end BPlusTreeDir
end MillenniumDB
