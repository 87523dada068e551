import MillenniumDB.BptInsertLeaves

/-!
# Runs of insertions

The tree stays well formed under insertions and holds what was inserted.  An insertion fails for a
record that is there already, and otherwise only if the memory behind a full leaf happens to be the
record, or if the loop over the keys of a page without keys leaves the page.
-/

namespace MillenniumDB.BptFiles

open BPlusTreeDir BPlusTreeLeaf

structure Stands (n : Nat) (files : BptFiles) (sep : Nat → Tuple) (chain : List Leaf) : Prop where
  dir : ∃ h, PageHolds sep files.dir.pages Set.univ h 0 (chain.map Leaf.number)
  leaf : LeavesStand n files.leaf sep chain

structure Ready (mayCrash : Prop) (width n : Nat) (countDirs countLeaves : Nat → Nat)
    (files : BptFiles) : Prop where
  dir : Kept mayCrash width n countDirs files.dir
  leaf : Appends countLeaves files.leaf.appended files.leaf.pages.length

/-- The memory behind the leaf that the search ends at looks like the record. -/
def Misreads (n : Nat) (files : BptFiles) (behind record : Tuple) : Prop :=
  ∃ m, searchLeaf record files.dir.pages = some m ∧
    BPlusTreeLeaf.Misreads n files.leaf m behind record

section

variable {mayCrash : Prop} {width n : Nat} {countDirs countLeaves : Nat → Nat}
  {behind record : Tuple} {files : BptFiles} {sep : Nat → Tuple} {chain : List Leaf} {leaf : Leaf}

theorem leaf_eq_of_page {number next : Nat} (hlt : number < files.leaf.pages.length)
    (hpage : files.leaf.page n number = leaf.page next) :
    files.tree.leaf number = ⟨leaf.live.length, next, leaf.live⟩ := by
  rw [LeafFile.page, List.getD_eq_getElem?_getD, List.getElem?_eq_getElem hlt,
    Option.getD_some] at hpage
  rw [BPlusTree.leaf, tree, List.getD_eq_getElem?_getD, List.getElem?_map,
    List.getElem?_eq_getElem hlt, Option.map_some, Option.getD_some, hpage, LeafPage.live, Leaf.page]
  exact congrArg (LeafPage.mk _ _) List.take_left

theorem Stands.leaf_eq {before after : List Leaf}
    (hs : files.Stands n sep (before ++ leaf :: after)) : files.tree.leaf leaf.number =
      ⟨leaf.live.length, (after.map Leaf.number).headD 0, leaf.live⟩ :=
  leaf_eq_of_page (hs.leaf.lt leaf (by simp)) hs.leaf.page_eq

theorem Stands.records_eq (hs : files.Stands n sep chain) (hleaf : leaf ∈ chain) :
    (files.tree.leaf leaf.number).records = leaf.live ∧
      (files.tree.leaf leaf.number).valueCount = leaf.live.length := by
  obtain ⟨before, after, rfl⟩ := List.append_of_mem hleaf
  rw [hs.leaf_eq]
  exact ⟨rfl, rfl⟩

theorem Stands.stored_eq (hs : files.Stands n sep chain) :
    files.tree.stored (chain.map Leaf.number) = stored chain := by
  rw [BPlusTree.stored, List.flatMap_map]
  exact List.flatMap_congr fun leaf hleaf => (hs.records_eq hleaf).1

/-- Such a tree is as `check` wants it. -/
theorem Stands.wellFormed (hs : files.Stands n sep chain) :
    files.tree.WellFormed sep (chain.map Leaf.number) where
  holds := hs.dir
  valueCount := List.forall_mem_map.mpr fun leaf hleaf => by
    rw [(hs.records_eq hleaf).1, (hs.records_eq hleaf).2]
  sorted := List.forall_mem_map.mpr fun leaf hleaf => by
    rw [(hs.records_eq hleaf).1]
    exact hs.leaf.leaf_sorted hleaf
  nonempty := List.forall_mem_map.mpr fun leaf hleaf hnil => by
    rw [(hs.records_eq hleaf).1] at hnil
    exact congrArg (List.map Leaf.number) ((hs.leaf.filled leaf hleaf).resolve_right (not_not.mpr hnil))
  apart := by
    refine List.pairwise_map.mpr (hs.leaf.apart.imp_of_mem fun hp hq hpq => ?_)
    rwa [(hs.records_eq hp).1, (hs.records_eq hq).1]
  next before p q after hnumbers := by
    obtain ⟨front, rest, rfl, rfl, hrest⟩ := List.map_eq_append_iff.mp hnumbers
    obtain ⟨leaf, rest, rfl, rfl, hrest'⟩ := List.map_eq_cons_iff.mp hrest
    obtain ⟨leaf', rest, rfl, rfl, _⟩ := List.map_eq_cons_iff.mp hrest'
    rw [hs.leaf_eq]
    refine ⟨rfl, fun hzero => ?_⟩
    -- leaf 0 is the first one
    have hnodup := hs.leaf.nodup
    have hhead := hs.leaf.head
    cases front with
    | nil => simp_all
    | cons first front => simp_all
  last before p hnumbers := by
    obtain ⟨front, rest, rfl, rfl, hrest⟩ := List.map_eq_append_iff.mp hnumbers
    obtain ⟨leaf, rest, rfl, rfl, hnil⟩ := List.map_eq_cons_iff.mp hrest
    obtain rfl := List.map_eq_nil_iff.mp hnil
    rw [hs.leaf_eq]
    rfl

theorem Stands.search (hs : files.Stands n sep chain) (record : Tuple) :
    ∃ before leaf after, chain = before ++ leaf :: after ∧
      searchLeaf record files.dir.pages = some leaf.number ∧
      Routed sep record (chain.map Leaf.number) leaf.number ∧
      Belongs sep record before leaf after := by
  obtain ⟨h, hpage⟩ := hs.dir
  obtain ⟨m, hsearch, hrouted⟩ := searchLeafAt_routed record hpage
    (hs.leaf.seps.imp le_of_lt) hpage.spine.height_lt
  obtain ⟨before, leaf, after, hchain, rfl, hbelongs⟩ := hs.leaf.exists_leaf hrouted
  exact ⟨before, leaf, after, hchain, hsearch, hrouted, hbelongs⟩

theorem Stands.insert_duplicate (hn : 0 < n) (hle : n ≤ 4) (hs : files.Stands n sep chain)
    (hlength : record.length = n)
    (hduplicate : record ∈ stored chain ∨ files.Misreads n behind record) :
    files.insert width n countDirs countLeaves behind record = .error .duplicatedRecord := by
  obtain ⟨before, leaf, after, rfl, hsearch, hrouted, hbelongs⟩ := hs.search record
  have hmax := le_leafMaxRecords hn hle
  have hduplicate' : record ∈ leaf.live ∨
      BPlusTreeLeaf.Misreads n files.leaf leaf.number behind record := by
    rcases hduplicate with hmem | ⟨m, hm, hmis⟩
    · exact .inl (hbelongs.mem_live hmem)
    · obtain rfl := Option.some.inj (hsearch.symm.trans hm)
      exact .inr hmis
  obtain ⟨h, hpage⟩ := hs.dir
  have hrun := insertAt_unsplit countDirs (.error .duplicatedRecord)
    (hs.leaf.insert_duplicate width countLeaves (by omega) hbelongs hlength hduplicate') hpage
    (hs.leaf.seps.imp le_of_lt) hrouted hpage.spine.height_lt
  rw [insert, hrun]
  rfl

theorem Stands.insert_new (hn : 0 < n) (hle : n ≤ 4) (hwidth : 32 ≤ width)
    (hs : files.Stands n sep chain) (hready : files.Ready mayCrash width n countDirs countLeaves)
    (hlength : record.length = n)
    (hnotMem : record ∉ stored chain) (hread : ¬files.Misreads n behind record) :
    (mayCrash ∧
      files.insert width n countDirs countLeaves behind record = .error .outsidePage) ∨
    ∃ files' sep' chain', files.insert width n countDirs countLeaves behind record = .ok files' ∧
      files'.Stands n sep' chain' ∧ files'.Ready mayCrash width n countDirs countLeaves ∧
      ∀ r, r ∈ stored chain' ↔ r = record ∨ r ∈ stored chain := by
  obtain ⟨before, leaf, after, rfl, hsearch, hrouted, hbelongs⟩ := hs.search record
  obtain ⟨o, leaf', chain', hleaf, htook, hstored, happends⟩ := hs.leaf.insert_new hn hle
    hwidth hbelongs hlength (fun hmem => hnotMem (by rw [stored_around]; simp [hmem]))
    (fun hmis => hread ⟨_, hsearch, hmis⟩) hready.leaf
  obtain ⟨h, hpage⟩ := hs.dir
  have hseps := hs.leaf.seps.imp le_of_lt
  have hnodup := hs.leaf.nodup
  have hfresh : files.leaf.pages.length ∉ (before ++ leaf :: after).map Leaf.number := by
    intro hmem
    obtain ⟨q, hq, hnumber⟩ := List.mem_map.mp hmem
    exact (hs.leaf.lt q hq).ne hnumber
  rw [List.map_append, List.map_cons] at hpage hseps hnodup hfresh hrouted
  cases o with
  | none =>
    obtain ⟨hstands, hnumbers⟩ := htook
    have hrun := insertAt_unsplit countDirs (.ok leaf') hleaf hpage hseps
      hrouted hpage.spine.height_lt
    refine .inr ⟨{ files with leaf := leaf' }, sep, chain', by rw [insert, hrun]; rfl,
      ⟨⟨h, hnumbers ▸ hpage⟩, hstands⟩, ⟨hready.dir, happends⟩, hstored⟩
  | some split =>
    obtain ⟨key, child⟩ := split
    obtain ⟨rfl, hstands, hnumbers⟩ := htook
    dsimp only at hleaf hstands
    have hseps' := hstands.seps
    rw [hnumbers] at hseps'
    -- the leaf is at one place
    have hplace : ∀ front back, before.map Leaf.number ++ leaf.number :: after.map Leaf.number =
        front ++ leaf.number :: back → before.map Leaf.number = front ∧ after.map Leaf.number = back := by
      intro front back heq
      have hnotMem := (List.nodup_cons.mp (List.perm_middle.nodup_iff.mp hnodup)).1
      rw [List.mem_append, not_or] at hnotMem
      exact ((List.append_cons_inj_of_notMem hnotMem.1 hnotMem.2).mp heq).imp_right And.right
    obtain ⟨page, hget, hu⟩ := hpage
    rcases insertAt_split hn hle hwidth hleaf hready.dir hget hu hnodup hseps hrouted hfresh
      (PageHolds.spine ⟨page, hget, hu⟩).height_lt (fun front back heq => by
        obtain ⟨rfl, rfl⟩ := hplace front back heq
        exact hseps') with
      ⟨hcrash, herror⟩ | ⟨o, dir, front, back, hrun, hsplit, hafter, hkept, hframes⟩
    · exact .inl ⟨hcrash, by rw [insert, herror]; rfl⟩
    obtain ⟨rfl, rfl⟩ := hplace front back hsplit
    have hget' : dir.pages[0]? = some page := by
      rw [hframes.2 h 0 _ ⟨page, hget, hu⟩ (.inr le_rfl), hget]
    rw [← hnumbers] at hafter hseps'
    cases o with
    | none =>
      exact .inr ⟨⟨dir, leaf'⟩, _, chain', by rw [insert, hrun]; rfl,
        ⟨⟨h, page, hget', hafter⟩, hstands⟩, ⟨hkept, happends⟩, hstored⟩
    | some split =>
      rcases placeSplit_spec hn hle hwidth hkept hget' hafter hseps' with
        ⟨hcrash, herror⟩ | ⟨o, dir', hplaced, htaken, hkept', _⟩
      · exact .inl ⟨hcrash, by rw [insert, hrun, takeUp, herror]; rfl⟩
      rw [if_pos rfl] at htaken
      refine .inr ⟨⟨dir', leaf'⟩, _, chain', ?_, ⟨htaken.2, hstands⟩, ⟨hkept', happends⟩, hstored⟩
      rw [insert, hrun, takeUp, hplaced]
      rfl

/-- The trees that insertions make of one, with the records that came in. -/
inductive Reached (width n : Nat) (countDirs countLeaves : Nat → Nat) (start : BptFiles) :
    BptFiles → List Tuple → Prop
  | start : Reached width n countDirs countLeaves start start []
  | insert {files files' : BptFiles} {inserted : List Tuple} {behind record : Tuple} :
      Reached width n countDirs countLeaves start files inserted → record.length = n →
      files.insert width n countDirs countLeaves behind record = .ok files' →
      Reached width n countDirs countLeaves start files' (record :: inserted)

theorem Stands.insert_iff (hn : 0 < n) (hle : n ≤ 4) (hwidth : 32 ≤ width)
    (hs : files.Stands n sep chain) (hready : files.Ready False width n countDirs countLeaves)
    (behind : Tuple) (hlength : record.length = n) :
    (files.insert width n countDirs countLeaves behind record = .error .duplicatedRecord ↔
      record ∈ stored chain ∨ files.Misreads n behind record) ∧
    (¬(record ∈ stored chain ∨ files.Misreads n behind record) →
      ∃ files', files.insert width n countDirs countLeaves behind record = .ok files') := by
  have hok : ¬(record ∈ stored chain ∨ files.Misreads n behind record) →
      ∃ files', files.insert width n countDirs countLeaves behind record = .ok files' := by
    intro hneither
    obtain ⟨files', _, _, hinsert, _⟩ := (hs.insert_new hn hle hwidth hready hlength
      (fun hmem => hneither (.inl hmem)) fun hmis => hneither (.inr hmis)).resolve_left And.left
    exact ⟨files', hinsert⟩
  refine ⟨⟨fun herror => ?_, hs.insert_duplicate hn hle hlength⟩, hok⟩
  by_contra hneither
  obtain ⟨files', hinsert⟩ := hok hneither
  rw [hinsert] at herror
  cases herror

theorem Reached.stands {start : BptFiles} (hn : 0 < n) (hle : n ≤ 4) (hwidth : 32 ≤ width)
    (hs : start.Stands n sep chain) (hready : start.Ready False width n countDirs countLeaves)
    {inserted : List Tuple}
    (hreached : Reached width n countDirs countLeaves start files inserted) :
    ∃ sep' chain', files.Stands n sep' chain' ∧ files.Ready False width n countDirs countLeaves ∧
      (stored chain').Perm (inserted ++ stored chain) := by
  induction hreached with
  | start => exact ⟨_, _, hs, hready, List.Perm.refl _⟩
  | @insert files files' inserted behind record _ hlength hinsert ih =>
    obtain ⟨sep', chain', hs', hready', hperm⟩ := ih
    -- an insertion that succeeds is one of a new record
    have hneither : ¬(record ∈ stored chain' ∨ files.Misreads n behind record) := by
      intro hor
      rw [hs'.insert_duplicate hn hle hlength hor] at hinsert
      cases hinsert
    rw [not_or] at hneither
    obtain ⟨files'', sep'', chain'', hinsert', hs'', hready'', hstored⟩ :=
      (hs'.insert_new hn hle hwidth hready' hlength hneither.1 hneither.2).resolve_left And.left
    obtain rfl := Except.ok.inj (hinsert'.symm.trans hinsert)
    refine ⟨sep'', chain'', hs'', hready'', ?_⟩
    have hnodup : (record :: stored chain').Nodup :=
      List.nodup_cons.mpr ⟨hneither.1, hs'.leaf.sorted.imp fun hlt => hlt.ne⟩
    have hcons := (List.perm_ext_iff_of_nodup (hs''.leaf.sorted.imp fun hlt => hlt.ne) hnodup).mpr
      fun r => (hstored r).trans List.mem_cons.symm
    exact hcons.trans (hperm.cons record)

end
end MillenniumDB.BptFiles
