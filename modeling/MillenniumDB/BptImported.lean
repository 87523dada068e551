import MillenniumDB.BptReads
import MillenniumDB.LeafCheck

/-!
# Trees that an import writes

The import fills the leaves one after the other and adds each to the directory behind all others.  It
leaves full pages in the directory, but a page that is new begins without keys.  The trees are such
that insertions can go on with them.
-/

namespace MillenniumDB

namespace BPTDirWriter

section

variable {n p : Nat} {record : Tuple} {pages : List DirPage} {split : Option SplitData}

def Bounded (n : Nat) (pages : List DirPage) : Prop := ∀ page ∈ pages, page.keyCount ≤ maxRecords n

theorem Bounded.addSplit (hone : 1 ≤ maxRecords n) (hb : Bounded n pages) :
    Bounded n (addSplit n p (split, pages)).2 := by
  cases split with
  | none => exact hb
  | some split =>
    have hpage : (pages.getD p .zero).keyCount ≤ maxRecords n := by
      rw [List.getD_eq_getElem?_getD]
      cases hget : pages[p]? with
      | none => exact Nat.zero_le _
      | some page => exact hb page (List.mem_of_getElem? hget)
    have hnew : Bounded n [⟨split.encodedPageNumber, []⟩] := List.forall_mem_singleton.mpr (Nat.zero_le _)
    rw [BPTDirWriter.addSplit]
    dsimp only
    by_cases hroom : (pages.getD p .zero).keyCount < maxRecords n
    · rw [if_pos hroom]
      apply BPlusTreeDir.forall_mem_set hb
      rw [DirPage.append, DirPage.keyCount, List.length_append]
      exact hroom
    · rw [if_neg hroom]
      by_cases hp : p ≠ 0
      · rw [if_pos hp]
        exact List.forall_mem_append.mpr ⟨hb, hnew⟩
      · rw [if_neg hp]
        exact BPlusTreeDir.forall_mem_set (List.forall_mem_append.mpr ⟨List.forall_mem_append.mpr
          ⟨hb, List.forall_mem_singleton.mpr hpage⟩, hnew⟩) hone

theorem map_eq_ok {ε α β : Type} {x : Except ε α} {f : α → β} {b : β} (h : x.map f = .ok b) :
    ∃ a, x = .ok a ∧ f a = b := by
  cases x with
  | error e => cases h
  | ok a => exact ⟨a, rfl, Except.ok.inj h⟩

theorem Bounded.bulkInsertAt (hone : 1 ≤ maxRecords n) (hb : Bounded n pages) (fuel : Nat) {leaf : Nat}
    {result : Option SplitData × List DirPage}
    (hrun : bulkInsertAt n record leaf fuel p pages = .ok result) : Bounded n result.2 := by
  induction fuel generalizing p result with
  | zero => cases hrun
  | succ fuel ih =>
    rw [BPTDirWriter.bulkInsertAt] at hrun
    by_cases hneg : (pages.getD p .zero).lastChild < 0
    · rw [if_pos hneg] at hrun
      obtain ⟨below, hbelow, rfl⟩ := map_eq_ok hrun
      exact (ih hbelow).addSplit hone
    · rw [if_neg hneg] at hrun
      obtain rfl := Except.ok.inj hrun
      exact hb.addSplit hone

end

end BPTDirWriter

namespace DiskVector

open BPlusTreeDir

section

variable {σ : Type} {n leaf : Nat} (process : σ → Tuple → σ) {sep : Nat → Tuple}

def DirStands (n : Nat) (sep : Nat → Tuple) (pages : List DirPage) (leaf : Nat) : Prop :=
  RootGrows sep pages (List.range (max 1 leaf)) ∧ BPTDirWriter.Bounded n pages

theorem writeLeaf_stands (hone : 1 ≤ BPTDirWriter.maxRecords n) {block : List Tuple} {next : Nat}
    {w w' : TreeWriter σ} (hleaf : w.tree.leaf.length = leaf) (hblock : block.headD [] = sep leaf)
    (hdir : DirStands n sep w.tree.dir leaf) (hwrite : writeLeaf n block leaf next w = .ok w') :
    w'.tree.leaf.length = leaf + 1 ∧ DirStands n sep w'.tree.dir (leaf + 1) := by
  obtain ⟨hroot, hb⟩ := hdir
  rw [writeLeaf] at hwrite
  by_cases hpos : 0 < leaf
  · rw [Nat.max_eq_right hpos] at hroot
    obtain ⟨dir, hinsert, hroot'⟩ := bulkInsert_rootGrows n hblock hroot
    rw [if_pos hpos, hinsert] at hwrite
    obtain rfl := Except.ok.inj hwrite
    rw [BPTDirWriter.bulkInsert] at hinsert
    obtain ⟨result, hrun, rfl⟩ := BPTDirWriter.map_eq_ok hinsert
    rw [DirStands, Nat.max_eq_right (Nat.succ_pos leaf), List.range_succ]
    exact ⟨by simp [BPTLeafWriter.processBlock, hleaf], hroot', hb.bulkInsertAt hone _ hrun⟩
  · obtain rfl : leaf = 0 := by omega
    rw [if_neg hpos] at hwrite
    obtain rfl := Except.ok.inj hwrite
    exact ⟨by simp [BPTLeafWriter.processBlock, hleaf], hroot, hb⟩

def separator (n : Nat) (records : List Tuple) (leaf : Nat) : Tuple :=
  (records.drop (leaf * BPTLeafWriter.maxRecords n)).headD []

theorem singleRun_stands (hone : 1 ≤ BPTDirWriter.maxRecords n) (hmax : 0 < BPTLeafWriter.maxRecords n)
    {records rest : List Tuple} (fuel : Nat) {w w' : TreeWriter σ}
    (hleaf : w.tree.leaf.length = leaf) (hne : rest ≠ [])
    (hrest : rest = records.drop (leaf * BPTLeafWriter.maxRecords n))
    (hdir : DirStands n (separator n records) w.tree.dir leaf)
    (hrun : singleRun n process records.length fuel rest leaf (leaf * BPTLeafWriter.maxRecords n) w =
      .ok w') : DirStands n (separator n records) w'.tree.dir w'.tree.leaf.length := by
  induction fuel generalizing leaf rest w with
  | zero => cases hrun
  | succ fuel ih =>
    have hpos := List.length_pos_iff.mpr hne
    have hlength := congrArg List.length hrest
    rw [List.length_drop] at hlength
    have hhead : ∀ k, 0 < k → (rest.take k).headD [] = separator n records leaf := by
      intro k hk
      rw [separator, ← hrest, List.headD_eq_head?_getD, List.head?_take, if_neg hk.ne',
        List.headD_eq_head?_getD]
    rw [singleRun, if_pos (by omega)] at hrun
    dsimp only at hrun
    by_cases hmore : leaf * BPTLeafWriter.maxRecords n + BPTLeafWriter.maxRecords n < records.length
    · rw [if_pos hmore] at hrun
      obtain ⟨w₁, hwrite, hrun⟩ := Import.bind_eq_ok hrun
      obtain ⟨hleaf', hdir'⟩ := writeLeaf_stands hone hleaf (hhead _ hmax) hdir hwrite
      rw [← Nat.succ_mul] at hrun
      refine ih ?_ ?_ ?_ ?_ hrun
      · exact hleaf'
      · apply List.ne_nil_of_length_pos
        rw [List.length_drop]
        omega
      · rw [hrest, List.drop_drop, Nat.succ_mul]
      · exact hdir'
    · rw [if_neg hmore] at hrun
      obtain ⟨w₁, hwrite, hrun⟩ := Import.bind_eq_ok hrun
      rw [List.take_take] at hwrite
      obtain ⟨hleaf', hdir'⟩ := writeLeaf_stands hone hleaf (hhead _ (by omega)) hdir hwrite
      obtain rfl := Except.ok.inj hrun
      rw [← hleaf'] at hdir'
      exact hdir'

theorem dirStands_init (n : Nat) (sep : Nat → Tuple) : DirStands n sep BPTDirWriter.init 0 :=
  ⟨rootGrows_init sep, List.forall_mem_singleton.mpr (Nat.zero_le _)⟩

theorem bulkLoad_stands (hn : 0 < n) (hle : n ≤ 4) {stat : σ} {records : List Tuple}
    {w : TreeWriter σ} (hload : bulkLoad n process stat records = .ok w) :
    DirStands n (separator n records) w.tree.dir w.tree.leaf.length := by
  have hmax : 113 ≤ BPTDirWriter.maxRecords n := le_dirMaxRecords hn hle
  rw [bulkLoad] at hload
  by_cases hnil : records = []
  · rw [if_pos hnil] at hload
    obtain rfl := Except.ok.inj hload
    exact dirStands_init n _
  · rw [if_neg hnil] at hload
    have hrun : singleRun n process records.length (records.length + 1) records 0
        (0 * BPTLeafWriter.maxRecords n) (TreeWriter.start stat) = .ok w := by
      rwa [Nat.zero_mul]
    refine singleRun_stands process (by omega) (BPTLeafWriter.maxRecords_pos hn hle) _ ?_ hnil ?_ ?_
      hrun
    · rfl
    · rw [Nat.zero_mul, List.drop_zero]
    · exact dirStands_init n _

end

end DiskVector

namespace LeafPage

def padded (n : Nat) (page : LeafPage) : LeafPage :=
  { page with records := page.records ++
      List.replicate (BPlusTreeLeaf.leafMaxRecords n - page.records.length) (List.replicate n 0) }

end LeafPage

namespace BptFiles

open BPlusTreeDir BPlusTreeLeaf DiskVector

/-- The files of a tree that the import has written, before `append_page` is called for them. -/
def ofTree (n : Nat) (tree : Bpt) : BptFiles :=
  ⟨⟨tree.dir, 0⟩, ⟨tree.leaf.map (LeafPage.padded n), 0⟩⟩

def importedLeaf (n m : Nat) (page : LeafPage) : Leaf :=
  ⟨m, page.records, List.replicate (leafMaxRecords n - page.records.length) (List.replicate n 0)⟩

def importedLeaves (n : Nat) (pages : List LeafPage) : List Leaf :=
  pages.mapIdx (importedLeaf n)

theorem linked_of_getElem {n last : Nat} {file : LeafFile} {chain : List Leaf}
    (hpages : ∀ i (leaf : Leaf), chain[i]? = some leaf →
      file.page n leaf.number = leaf.page ((chain[i + 1]?.map Leaf.number).getD last)) :
    Linked n file last chain := by
  induction chain with
  | nil => trivial
  | cons leaf rest ih =>
    refine ⟨?_, ih fun i leaf' hget => ?_⟩
    · rw [hpages 0 leaf rfl, List.getElem?_cons_succ]
      cases rest <;> rfl
    · exact hpages (i + 1) leaf' (by rwa [List.getElem?_cons_succ])

section

variable {n : Nat} {records : List Tuple} {tree : Bpt}

theorem getElem?_importedLeaves {pages : List LeafPage} {m : Nat} {leaf : Leaf}
    (hget : (importedLeaves n pages)[m]? = some leaf) :
    ∃ page, pages[m]? = some page ∧ importedLeaf n m page = leaf := by
  rwa [importedLeaves, List.getElem?_mapIdx, Option.map_eq_some_iff] at hget

theorem numbers_importedLeaves (n : Nat) (pages : List LeafPage) :
    (importedLeaves n pages).map Leaf.number = List.range pages.length := by
  apply List.ext_getElem
  · simp [importedLeaves]
  · intro i hi hi'
    simp [importedLeaves, importedLeaf]

theorem stored_importedLeaves (n : Nat) (pages : List LeafPage) :
    stored (importedLeaves n pages) = pages.flatMap LeafPage.records := by
  have hlive : (importedLeaves n pages).map Leaf.live = pages.map LeafPage.records := by
    apply List.ext_getElem
    · simp [importedLeaves]
    · intro i hi hi'
      simp [importedLeaves, importedLeaf]
  rw [stored, List.flatMap_def, List.flatMap_def, hlive]

theorem linked_ofTree (hpaged : Paged n records tree.leaf) :
    Linked n (ofTree n tree).leaf 0 (importedLeaves n tree.leaf) := by
  -- each leaf names the next one, and the last one names 0
  apply linked_of_getElem
  intro m leaf hget
  obtain ⟨page, hpage, rfl⟩ := getElem?_importedLeaves hget
  have hmem := List.mem_of_getElem? hpage
  rw [LeafFile.page, ofTree, List.getD_eq_getElem?_getD, List.getElem?_map,
    show tree.leaf[(importedLeaf n m page).number]? = some page from hpage]
  rw [Option.map_some, Option.getD_some, LeafPage.padded, Leaf.page, hpaged.valueCount page hmem,
    hpaged.nextLeaf m page hpage]
  congr 1
  rw [importedLeaves, List.getElem?_mapIdx]
  by_cases hlast : m + 1 < tree.leaf.length
  · rw [if_pos hlast, List.getElem?_eq_getElem hlast]
    rfl
  · rw [if_neg hlast, List.getElem?_eq_none (not_lt.mp hlast)]
    rfl

theorem leavesStand_ofTree (hn : 0 < n) (hle : n ≤ 4) (hpaged : Paged n records tree.leaf)
    (hsorted : records.Pairwise (· < ·)) (hwidths : ∀ r ∈ records, r.length = n) :
    LeavesStand n (ofTree n tree).leaf (separator n records) (importedLeaves n tree.leaf) := by
  have hmax := BPTLeafWriter.maxRecords_pos hn hle
  have hpos : 0 < tree.leaf.length := by
    rw [hpaged.length]
    exact Nat.lt_of_lt_of_le Nat.one_pos (Nat.le_max_left ..)
  have hfirst : ∀ m page, 0 < m → tree.leaf[m]? = some page →
      page.records.head? = some (separator n records m) := by
    intro m page hm hget
    obtain ⟨hhead, hempty⟩ := hpaged.head? hmax hget
    have hne : page.records ≠ [] := fun hnil => hm.ne' (hempty hnil)
    obtain ⟨x, rest, hrecords⟩ := List.exists_cons_of_ne_nil hne
    rw [hrecords, List.head?_cons] at hhead ⊢
    rw [separator, List.headD_eq_head?_getD, List.head?_drop, ← hhead, Option.getD_some]
  have hleaves : ∀ leaf ∈ importedLeaves n tree.leaf, ∃ m page, tree.leaf[m]? = some page ∧
      importedLeaf n m page = leaf := by
    intro leaf hleaf
    obtain ⟨m, hget⟩ := List.mem_iff_getElem?.mp hleaf
    exact ⟨m, getElem?_importedLeaves hget⟩
  constructor
  · intro leaf hleaf
    obtain ⟨m, page, hpage, rfl⟩ := hleaves leaf hleaf
    exact (List.getElem?_eq_some_iff.mp hpage).1.trans_eq (List.length_map ..).symm
  · rw [numbers_importedLeaves]
    exact List.nodup_range
  · rw [numbers_importedLeaves, List.head?_range, if_neg hpos.ne']
  · intro leaf hleaf
    obtain ⟨m, page, hpage, rfl⟩ := hleaves leaf hleaf
    have hmem := List.mem_of_getElem? hpage
    have hbound := hpaged.bounded page hmem
    rw [hpaged.valueCount page hmem] at hbound
    refine ⟨?_, fun r hr => .inl (List.mem_replicate.mp hr).2⟩
    rw [importedLeaf, List.length_replicate]
    exact Nat.add_sub_cancel' hbound
  · rwa [stored_importedLeaves, hpaged.concat]
  · intro leaf hleaf
    obtain ⟨m, page, hpage, rfl⟩ := hleaves leaf hleaf
    by_cases hlast : m + 1 < tree.leaf.length
    · right
      have hfull := hpaged.full m page hpage hlast
      rw [hpaged.valueCount page (List.mem_of_getElem? hpage)] at hfull
      exact List.ne_nil_of_length_pos (hfull ▸ hmax)
    · rcases Nat.eq_zero_or_pos m with rfl | hm
      · left
        have hone : (importedLeaves n tree.leaf).length = 1 := by
          rw [importedLeaves, List.length_mapIdx]
          omega
        obtain ⟨x, hx⟩ := List.length_eq_one_iff.mp hone
        rw [hx] at hleaf ⊢
        rw [List.mem_singleton.mp hleaf]
      · right
        have hhead := hfirst m page hm hpage
        intro hnil
        rw [show page.records = [] from hnil] at hhead
        cases hhead
  · rwa [stored_importedLeaves, hpaged.concat]
  · intro leaf hleaf
    obtain ⟨m, hget⟩ := List.mem_iff_getElem?.mp hleaf
    rw [List.getElem?_tail] at hget
    obtain ⟨page, hpage, rfl⟩ := getElem?_importedLeaves hget
    exact hfirst (m + 1) page (Nat.succ_pos m) hpage
  · exact linked_ofTree hpaged

end

section

variable {σ : Type} {n width : Nat} {process : σ → Tuple → σ} {stat : σ} {w : TreeWriter σ}
  {countDirs countLeaves : Nat → Nat} {collected inserted : List Tuple} {files : BptFiles}

variable (process) in
theorem ofTree_stands (hn : 0 < n) (hle : n ≤ 4) {records : List Tuple}
    (hload : bulkLoad n process stat records = .ok w) (hsorted : records.Pairwise (· < ·))
    (hwidths : ∀ r ∈ records, r.length = n) :
    ∃ chain, (ofTree n w.tree).Stands n (separator n records) chain ∧
      BPTDirWriter.Bounded n w.tree.dir ∧ stored chain = records := by
  obtain ⟨w', hload', hpaged, _⟩ := bulkLoad_ok process (BPTLeafWriter.maxRecords_pos hn hle)
    stat records
  obtain rfl := Except.ok.inj (hload.symm.trans hload')
  obtain ⟨⟨h, _, hgrows⟩, hbounded⟩ := bulkLoad_stands process hn hle hload
  have hleaf := leavesStand_ofTree hn hle hpaged hsorted hwidths
  have hlength : max 1 w.tree.leaf.length = w.tree.leaf.length := by
    rw [hpaged.length]
    exact Nat.max_eq_right (Nat.le_max_left ..)
  refine ⟨importedLeaves n w.tree.leaf, ⟨⟨h, ?_⟩, hleaf⟩, hbounded, ?_⟩
  · rw [numbers_importedLeaves, ← hlength]
    obtain ⟨page, hget, parts, hnumbers, hparts, hkeys⟩ := hgrows.holds
    exact ⟨page, hget, parts, hnumbers,
      hparts.imp fun _ _ hh => hh.mono (Set.subset_univ _) fun _ _ _ => id, hkeys⟩
  · rw [stored_importedLeaves, hpaged.concat]

/-- An import of distinct records, with pages that are new from each `append_page` after it.  Where
the type has more than 32 bits, no page of the directory is without keys. -/
structure Imports (width n : Nat) (process : σ → Tuple → σ) (stat : σ) (collected : List Tuple)
    (countDirs countLeaves : Nat → Nat) (w : TreeWriter σ) : Prop where
  pos : 0 < n
  le : n ≤ 4
  load : bulkLoad n process stat (DiskVector.sort collected) = .ok w
  distinct : collected.Nodup
  widths : ∀ r ∈ collected, r.length = n
  wide : 32 ≤ width
  keyed : width = 32 ∨ ∀ page ∈ w.tree.dir, 0 < page.keyCount
  dirs : Appends countDirs 0 w.tree.dir.length
  leaves : Appends countLeaves 0 w.tree.leaf.length

theorem Imports.stands (hi : Imports width n process stat collected countDirs countLeaves w)
    (hreached : Reached width n countDirs countLeaves (ofTree n w.tree) files inserted) :
    ∃ sep chain, files.Stands n sep chain ∧ files.Ready False width n countDirs countLeaves ∧
      (stored chain).Perm (inserted ++ collected) := by
  have hperm := DiskVector.perm_sort collected
  obtain ⟨start, hs, hbounded, hstart⟩ := ofTree_stands process hi.pos hi.le hi.load
    (Import.pairwise_lt_sort.mpr hi.distinct) fun r hr => hi.widths r (hperm.mem_iff.mp hr)
  have hready : (ofTree n w.tree).Ready False width n countDirs countLeaves :=
    ⟨⟨fun page hmem => ⟨hbounded page hmem,
      .inr (hi.keyed.imp_right fun hkeys => hkeys page hmem)⟩, hi.dirs⟩,
      by simpa [ofTree] using hi.leaves⟩
  obtain ⟨sep, chain, hs, hready', hstored⟩ := hreached.stands hi.pos hi.le hi.wide hs hready
  rw [hstart] at hstored
  exact ⟨sep, chain, hs, hready', hstored.trans (hperm.append_left inserted)⟩

/-- A tree of the import and any run of insertions after it: a range has what was imported and what
came in between its bounds, in order and once. -/
theorem imported_scan (hi : Imports width n process stat collected countDirs countLeaves w)
    (hreached : Reached width n countDirs countLeaves (ofTree n w.tree) files inserted)
    (min : Tuple) {max : Tuple} (hmax : max.length = n) :
    ∃ it out, getRange n files min max = some it ∧ Exhausts (next n files) it out ∧
      out.Pairwise (· < ·) ∧ ∀ r, r ∈ out ↔ r ∈ inserted ++ collected ∧ min ≤ r ∧ r ≤ max := by
  obtain ⟨sep, chain, hs, _, hstored⟩ := hi.stands hreached
  obtain ⟨it, out, hrange, hout, hsorted, hmem⟩ := hs.scan min hmax
  exact ⟨it, out, hrange, hout, hsorted, fun r => by rw [hmem, hstored.mem_iff]⟩

theorem toOption_eq_some {ε α : Type} {x : Except ε α} {a : α} (h : x.toOption = some a) :
    x = .ok a := by
  cases x with
  | error e => cases h
  | ok b => exact congrArg Except.ok (Option.some.inj h)

def evenRecords : List Tuple := (List.range 254).map fun i => [2 * i, 0, 0, 0]

theorem exists_imports_evenRecords : ∃ (w : TreeWriter Nat) (files : BptFiles),
    Imports 64 4 (fun count _ => count + 1) 0 evenRecords (w.tree.dir.length + ·)
      (w.tree.leaf.length + ·) w ∧
    Reached 64 4 (w.tree.dir.length + ·) (w.tree.leaf.length + ·) (ofTree 4 w.tree) files
      [[1, 0, 0, 0]] ∧
    w.tree.leaf.length = 2 ∧ files.leaf.pages.length = 3 := by
  have hruns : (bulkLoad 4 (fun count _ => count + 1) 0 (DiskVector.sort evenRecords)).toOption.bind
      (fun w => ((ofTree 4 w.tree).insert 64 4 (w.tree.dir.length + ·) (w.tree.leaf.length + ·) []
        [1, 0, 0, 0]).toOption.map fun files =>
          (w.tree.leaf.length, w.tree.dir.all fun page => decide (0 < page.keyCount),
            files.leaf.pages.length)) = some (2, true, 3) := by
    decide +kernel
  obtain ⟨w, hload, hruns⟩ := Option.bind_eq_some_iff.mp hruns
  obtain ⟨files, hinsert, hsizes⟩ := Option.map_eq_some_iff.mp hruns
  rw [Prod.mk.injEq, Prod.mk.injEq, List.all_eq_true] at hsizes
  obtain ⟨hleaves, hkeyed, hsplit⟩ := hsizes
  have hnew : ∀ k, Appends (k + ·) 0 k := fun k i => congrArg (k + ·) i.zero_add
  refine ⟨w, files, ⟨by decide, le_rfl, ?_, ?_, ?_, by decide, .inr ?_, hnew _, hnew _⟩,
    Reached.start.insert (rfl : [1, 0, 0, 0].length = 4) (toOption_eq_some hinsert), hleaves, hsplit⟩
  · exact toOption_eq_some hload
  · refine List.nodup_range.map fun i j hij => ?_
    simpa using hij
  · exact List.forall_mem_map.mpr fun _ _ => rfl
  · exact fun page hpage => of_decide_eq_true (hkeyed page hpage)

/-- A record comes in that cuts the first of two full leaves. -/
theorem imported_scan_two : ∃ (w : TreeWriter Nat) (files : BptFiles) (it : BptIter)
    (out : List Tuple),
    w.tree.leaf.length = 2 ∧
    Reached 64 4 (w.tree.dir.length + ·) (w.tree.leaf.length + ·) (ofTree 4 w.tree) files
      [[1, 0, 0, 0]] ∧
    files.leaf.pages.length = 3 ∧
    getRange 4 files [0, 0, 0, 0] [300, 0, 0, 0] = some it ∧ Exhausts (next 4 files) it out ∧
    [0, 0, 0, 0] ∈ out ∧ [1, 0, 0, 0] ∈ out ∧ [300, 0, 0, 0] ∈ out ∧ [302, 0, 0, 0] ∉ out := by
  obtain ⟨w, files, himports, hreached, hleaves, hsplit⟩ := exists_imports_evenRecords
  obtain ⟨it, out, hrange, hout, _, hmem⟩ := imported_scan himports hreached [0, 0, 0, 0]
    (rfl : [300, 0, 0, 0].length = 4)
  have heven : ∀ i < 254, [2 * i, 0, 0, 0] ∈ [[1, 0, 0, 0]] ++ evenRecords := fun i hi =>
    List.mem_append_right _ (List.mem_map.mpr ⟨i, List.mem_range.mpr hi, rfl⟩)
  exact ⟨w, files, it, out, hleaves, hreached, hsplit, hrange, hout,
    (hmem _).mpr ⟨heven 0 (by decide), by decide⟩, (hmem _).mpr ⟨List.mem_cons_self, by decide⟩,
    (hmem _).mpr ⟨heven 150 (by decide), by decide⟩, fun h => absurd ((hmem _).mp h).2.2 (by decide)⟩

/-- The tree is as `check` wants it and holds what was imported and what came in.  The next insertion
fails exactly for a record that is there, or that the memory behind a full leaf looks like. -/
theorem imported_inserted (hi : Imports width n process stat collected countDirs countLeaves w)
    (hreached : Reached width n countDirs countLeaves (ofTree n w.tree) files inserted)
    (behind : Tuple) {record : Tuple} (hlength : record.length = n) :
    (∃ sep leaves, files.tree.WellFormed sep leaves ∧ (files.tree.stored leaves).Pairwise (· < ·) ∧
      (files.tree.stored leaves).Perm (inserted ++ collected)) ∧
    (files.insert width n countDirs countLeaves behind record = .error .duplicatedRecord ↔
      record ∈ inserted ++ collected ∨ files.Misreads n behind record) ∧
    (¬(record ∈ inserted ++ collected ∨ files.Misreads n behind record) →
      ∃ files', files.insert width n countDirs countLeaves behind record = .ok files') := by
  obtain ⟨sep, chain, hs, hready, hstored⟩ := hi.stands hreached
  have hnext := hs.insert_iff hi.pos hi.le hi.wide hready behind hlength
  rw [hstored.mem_iff] at hnext
  refine ⟨⟨sep, chain.map Leaf.number, hs.wellFormed, ?_, ?_⟩, hnext⟩
  · rw [hs.stored_eq]
    exact hs.leaf.sorted
  · rw [hs.stored_eq]
    exact hstored

theorem imported_inserted_again : ∃ (w : TreeWriter Nat) (files : BptFiles),
    Reached 64 4 (w.tree.dir.length + ·) (w.tree.leaf.length + ·) (ofTree 4 w.tree) files
      [[1, 0, 0, 0]] ∧
    w.tree.leaf.length = 2 ∧ files.leaf.pages.length = 3 ∧
    (∃ sep leaves, files.tree.WellFormed sep leaves ∧
      (files.tree.stored leaves).Perm ([1, 0, 0, 0] :: evenRecords)) ∧
    files.insert 64 4 (w.tree.dir.length + ·) (w.tree.leaf.length + ·) [] [1, 0, 0, 0] =
      .error .duplicatedRecord ∧
    ∃ files', files.insert 64 4 (w.tree.dir.length + ·) (w.tree.leaf.length + ·) [] [3, 0, 0, 0] =
      .ok files' := by
  obtain ⟨w, files, himports, hreached, hleaves, hsplit⟩ := exists_imports_evenRecords
  obtain ⟨⟨sep, leaves, hwell, _, hperm⟩, _, _⟩ := imported_inserted himports hreached []
    (rfl : [1, 0, 0, 0].length = 4)
  refine ⟨w, files, hreached, hleaves, hsplit, ⟨sep, leaves, hwell, hperm⟩, ?_, ?_⟩
  · obtain ⟨_, hduplicate, _⟩ := imported_inserted himports hreached []
      (rfl : [1, 0, 0, 0].length = 4)
    exact hduplicate.mpr (.inl List.mem_cons_self)
  · obtain ⟨_, _, hnew⟩ := imported_inserted himports hreached [] (rfl : [3, 0, 0, 0].length = 4)
    apply hnew
    rintro (hmem | ⟨_, _, _, _, hbehind⟩)
    · revert hmem
      decide +kernel
    · cases hbehind

end

end BptFiles
end MillenniumDB
