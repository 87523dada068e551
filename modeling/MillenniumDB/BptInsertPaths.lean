import MillenniumDB.BptInsertDirs

/-!
# The way back of an insertion

A split goes up from the leaf until a page has room for it.  On every level the pages under the page
hold all leaves again, with the new leaf behind the one that was cut; if there is no room at all, the
root gets two new pages below it.
-/

namespace MillenniumDB

namespace BPlusTreeDir

section

variable {mayCrash : Prop} {width n h k p m : Nat} {sep : Nat → Tuple}
  {pages pages' : List DirPage} {page : DirPage}
  {leaves : List Nat} {split : SplitData} {countPages : Nat → Nat} {file : DirFile}

theorem appendPage_eq (hnew : Appends countPages file.appended k) (hlen : k = file.pages.length) :
    appendPage countPages file = (k, ⟨file.pages ++ [.zero], file.appended + 1⟩) := by
  have hone : k + 1 - file.pages.length = 1 := by omega
  simp only [appendPage, show countPages file.appended = k from hnew 0, hone, List.replicate_one]

/-- The sizes of the pages, and where the next ones come.  A page without keys makes the program
crash where the type has more than 32 bits. -/
structure Kept (mayCrash : Prop) (width n : Nat) (countPages : Nat → Nat) (file : DirFile) :
    Prop where
  sized : ∀ page ∈ file.pages, page.keyCount ≤ dirMaxRecords n ∧
    (mayCrash ∨ width = 32 ∨ 0 < page.keyCount)
  appends : Appends countPages file.appended file.pages.length

theorem forall_mem_set {P : DirPage → Prop} (hpages : ∀ page ∈ pages, P page) (hpage : P page) :
    ∀ page' ∈ pages.set p page, P page' := by
  intro page' hmem
  rcases List.mem_or_eq_of_mem_set hmem with hmem | rfl
  · exact hpages page' hmem
  · exact hpage

theorem Kept.set (hkept : Kept mayCrash width n countPages file)
    (hmax : page.keyCount ≤ dirMaxRecords n) (hpos : 0 < page.keyCount) :
    Kept mayCrash width n countPages { file with pages := file.pages.set p page } :=
  ⟨forall_mem_set hkept.sized ⟨hmax, .inr (.inr hpos)⟩, by simpa using hkept.appends⟩

theorem Kept.append (hkept : Kept mayCrash width n countPages file)
    (hmax : page.keyCount ≤ dirMaxRecords n) (hpos : 0 < page.keyCount) :
    Kept mayCrash width n countPages ⟨file.pages ++ [page], file.appended + 1⟩ where
  sized := List.forall_mem_append.mpr
    ⟨hkept.sized, List.forall_mem_singleton.mpr ⟨hmax, .inr (.inr hpos)⟩⟩
  appends := by simpa using hkept.appends.succ

theorem searchChildIndex_of_under {lower upper : List (Tuple × Int)}
    (hu : Under sep (Holds sep pages Set.univ h)
      ⟨page.firstChild, lower ++ (split.record, split.encodedPageNumber) :: upper⟩ leaves)
    (hentries : page.entries = lower ++ upper) (hsorted : (leaves.tail.map sep).Pairwise (· < ·)) :
    searchChildIndex split.record page = lower.length := by
  have hkeys := hsorted.sublist (hu.keys_sublist fun _ _ => Holds.ne_nil)
  simp only [DirPage.keys, List.map_append, List.map_cons] at hkeys
  obtain ⟨hlower, hupper, hacross⟩ := List.pairwise_append.mp hkeys
  have hpage : page.keys = lower.map Prod.fst ++ upper.map Prod.fst := by
    rw [DirPage.keys, hentries, List.map_append]
  have hlength : (lower.map Prod.fst).length = lower.length := List.length_map ..
  rw [← hlength]
  apply searchChildIndex_eq _ hpage
  · exact fun k hk => (hacross k hk _ List.mem_cons_self).le
  · exact fun k hk => List.rel_of_pairwise_cons hupper hk
  · rw [hpage]
    have hall := hkeys.sublist ((List.Sublist.refl _).append (List.sublist_cons_self _ _))
    exact hall.imp le_of_lt

theorem set_concat_two (x y z w : DirPage) :
    ((pages ++ [x] ++ [y]).set pages.length z).set (pages.length + 1) w = pages ++ [z, w] := by
  rw [List.append_assoc, List.set_append_right _ _ le_rfl, List.set_append_right _ _ (by omega)]
  simp

/-- A page takes what has come up, or is cut: the root into two new pages below it, any other page
into itself and a new one. -/
theorem placeSplit_spec (hn : 0 < n) (hle : n ≤ 4) (hwidth : 32 ≤ width)
    (hkept : Kept mayCrash width n countPages file) (hget : file.pages[p]? = some page)
    (hafter : PageAfter h sep file.pages page leaves (some split))
    (hsorted : (leaves.tail.map sep).Pairwise (· < ·)) :
    (mayCrash ∧ placeSplit width n countPages p split file = .error .outsidePage) ∨
    ∃ o file', placeSplit width n countPages p split file = .ok (o, file') ∧
      (if p = 0 then o = none ∧ ∃ h', PageHolds sep file'.pages Set.univ h' 0 leaves
        else ChildAfter (h + 1) sep file'.pages (-p) leaves o) ∧
      Kept mayCrash width n countPages file' ∧ file.pages.length ≤ file'.pages.length ∧
      ∀ q < file.pages.length, q ≠ p → file'.pages[q]? = file.pages[q]? := by
  obtain ⟨lower, upper, hentries, ⟨old, hold⟩, hu⟩ := hafter
  have hspine : BPTDirWriter.Spine file.pages p h := PageHolds.spine ⟨page, hget, hold⟩
  have hindex := searchChildIndex_of_under hu hentries hsorted
  have hpage : file.pages.getD p .zero = page := BPTDirWriter.getD_of_getElem? hget
  have hplt : p < file.pages.length := hspine.lt_length
  obtain ⟨hmax, hsized⟩ := hkept.sized page (List.mem_of_getElem? hget)
  have hcount : page.keyCount = lower.length + upper.length := by
    rw [DirPage.keyCount, hentries, List.length_append]
  by_cases hroom : page.keyCount < dirMaxRecords n
  · by_cases hkeyed : width = 32 ∨ 0 < page.keyCount
    swap
    · rw [not_or] at hkeyed
      refine .inl ⟨(hsized.resolve_right (not_or.mpr hkeyed)), ?_⟩
      exact placeSplit_outside countPages hn (by omega) hpage (by omega)
        (hindex.trans (by omega)) hroom
    right
    have hkeys : (DirPage.mk page.firstChild
        (lower ++ (split.record, split.encodedPageNumber) :: upper)).keyCount = page.keyCount + 1 := by
      rw [DirPage.keyCount, List.length_append, List.length_cons]
      omega
    have hplace : placeSplit width n countPages p split file = _ :=
      placeSplit_room hn hwidth hpage hentries hindex hroom hkeyed
    generalize DirPage.mk page.firstChild _ = newPage at hu hkeys hplace
    have hsame : ∀ q < file.pages.length, q ≠ p →
        (file.pages.set p newPage)[q]? = file.pages[q]? :=
      fun q _ hne => List.getElem?_set_ne hne.symm
    have hholds := hu.same hspine hsame
    have hget' : (file.pages.set p newPage)[p]? = some newPage := List.getElem?_set_self hplt
    refine ⟨none, _, hplace, ?_, hkept.set (hkeys.trans_le hroom) (hkeys.symm ▸ Nat.succ_pos _),
      by rw [List.length_set], hsame⟩
    by_cases hp : p = 0
    · subst hp
      rw [if_pos rfl]
      exact ⟨rfl, h, _, hget', hholds⟩
    · rw [if_neg hp]
      exact ⟨p, _, rfl, Nat.pos_of_ne_zero hp, Set.mem_univ p, hget', hholds⟩
  · right
    have hfull : page.keyCount = dirMaxRecords n := by omega
    have hmin := le_dirMaxRecords hn hle
    obtain ⟨cut, ⟨middleKey, middleChild⟩, rest, hall, hcut⟩ := exists_cut
      (lower ++ (split.record, split.encodedPageNumber) :: upper)
      (m := (dirMaxRecords n + 1) / 2) (by
        rw [List.length_append, List.length_cons]
        omega)
    have hrest := congrArg List.length hall
    simp only [List.length_append, List.length_cons] at hrest
    have hplace := placeSplit_full countPages hn hle hwidth hpage hentries hindex hfull hall hcut
    rw [hall] at hu
    obtain ⟨l₁, l₂, rfl, hleft, hright, hkey⟩ := hu.cut
    obtain ⟨hcutMax, hcutPos⟩ : (DirPage.mk page.firstChild cut).keyCount ≤ dirMaxRecords n ∧
        0 < cut.length := ⟨show cut.length ≤ _ by omega, by omega⟩
    obtain ⟨hrestMax, hrestPos⟩ : (DirPage.mk middleChild rest).keyCount ≤ dirMaxRecords n ∧
        0 < rest.length := ⟨show rest.length ≤ _ by omega, by omega⟩
    by_cases hp : p = 0
    · subst hp
      have hsecond : appendPage countPages ⟨file.pages ++ [.zero], file.appended + 1⟩ = _ :=
        appendPage_eq hkept.appends.succ (by simp)
      simp only [if_true, appendPage_eq hkept.appends rfl, hsecond, set_concat_two] at hplace
      have hsame : ∀ root : DirPage, ∀ q < file.pages.length, q ≠ 0 →
          ((file.pages ++ [DirPage.mk page.firstChild cut, ⟨middleChild, rest⟩]).set 0 root)[q]? =
            file.pages[q]? := by
        intro root q hq hne
        rw [List.getElem?_set_ne hne.symm, List.getElem?_append_left hq]
      refine ⟨none, _, hplace, ?_, ?_, by simp, hsame _⟩
      · rw [if_pos rfl]
        refine ⟨rfl, h + 1, _, List.getElem?_set_self (by simp), [l₁, l₂], by simp,
          .cons ⟨file.pages.length, _, rfl, hplt, Set.mem_univ _, ?_, hleft.same hspine (hsame _)⟩
          (.cons ⟨file.pages.length + 1, _, rfl, by omega, Set.mem_univ _, ?_,
            hright.same hspine (hsame _)⟩ .nil), ?_⟩
        · rw [List.getElem?_set_ne (by omega)]
          simp
        · rw [List.getElem?_set_ne (by omega)]
          simp
        · rw [hkey]
          rfl
      · have hboth := (hkept.append hcutMax hcutPos).append hrestMax hrestPos
        rw [List.append_assoc] at hboth
        exact hboth.set (show 1 ≤ dirMaxRecords n by omega) Nat.one_pos
    · rw [if_neg hp] at hplace
      simp only [appendPage_eq hkept.appends rfl, set_concat_length] at hplace
      have hsame : ∀ q < file.pages.length, q ≠ p →
          ((file.pages ++ [DirPage.mk middleChild rest]).set p ⟨page.firstChild, cut⟩)[q]? =
            file.pages[q]? := by
        intro q hq hne
        rw [List.getElem?_set_ne hne.symm, List.getElem?_append_left hq]
      refine ⟨_, _, hplace, ?_, (hkept.append hrestMax hrestPos).set hcutMax hcutPos, by simp, hsame⟩
      · rw [if_neg hp]
        refine ⟨l₁, l₂, rfl,
          ⟨p, _, rfl, Nat.pos_of_ne_zero hp, Set.mem_univ _, ?_, hleft.same hspine hsame⟩,
          ⟨file.pages.length, _, rfl, by omega, Set.mem_univ _, ?_, hright.same hspine hsame⟩, hkey⟩
        · exact List.getElem?_set_self (by simp; omega)
        · rw [List.getElem?_set_ne (by omega), List.getElem?_concat_length]

theorem sublist_tail_around (xs ys zs : List Nat) : ys.tail.Sublist (xs ++ (ys ++ zs)).tail :=
  ((List.sublist_append_left ys zs).trans (List.sublist_append_right xs _)).tail

theorem searchChildIndex_of_empty {record : Tuple} (hempty : page.keyCount = 0) :
    searchChildIndex record page = 0 := by
  rw [searchChildIndex, hempty, searchChildIndexLoop]

/-- Only pages above the leaf have changed, and none of them that is so high. -/
def Frames (sep : Nat → Tuple) (pages : List DirPage) (m h : Nat) (pages' : List DirPage) : Prop :=
  pages.length ≤ pages'.length ∧ ∀ k q part, PageHolds sep pages Set.univ k q part →
    m ∉ part ∨ h ≤ k → pages'[q]? = pages[q]?

theorem frames_refl : Frames sep pages m h pages := ⟨le_rfl, fun _ _ _ _ _ => rfl⟩

theorem Frames.step {pages'' : List DirPage} (hframes : Frames sep pages m h pages')
    (hpage : PageHolds sep pages Set.univ h p leaves) (hm : m ∈ leaves)
    (hlen : pages'.length ≤ pages''.length)
    (hsame : ∀ q < pages'.length, q ≠ p → pages''[q]? = pages'[q]?) :
    Frames sep pages m (h + 1) pages'' := by
  refine ⟨hframes.1.trans hlen, fun k q part hq hor => ?_⟩
  have hne : q ≠ p := by
    rintro rfl
    obtain ⟨rfl, rfl⟩ := hpage.unique hq
    rcases hor with hnotMem | hle
    · exact hnotMem hm
    · omega
  rw [hsame q (hq.spine.lt_length.trans_le hframes.1) hne]
  exact hframes.2 k q part hq (hor.imp_right (by omega))

variable {new : Nat} {key : Tuple}

theorem Frames.spanned (key : Tuple) {entries : List (Tuple × Int)} {parts : List (List Nat)} {k : Nat}
    (hframes : Frames sep pages m k pages')
    (hall : List.Forall₂ (Spanned sep (Holds sep pages Set.univ h)) entries parts)
    (hm : m ∉ parts.flatten) (hnew : new ∉ parts.flatten) :
    List.Forall₂ (Spanned (Function.update sep new key)
      (Holds (Function.update sep new key) pages' Set.univ h)) entries parts := by
  have hsep : ∀ leaf ∈ parts.flatten, Function.update sep new key leaf = sep leaf :=
    fun leaf hleaf => Function.update_of_ne (ne_of_mem_of_not_mem hleaf hnew) key sep
  apply spanned_mono hall (fun _ _ => Holds.ne_nil) _ hsep
  intro child part hsub hchild
  apply hchild.frame _ fun leaf hleaf => hsep leaf (hsub hleaf)
  exact fun k _ q part' hq hpart => hframes.2 k q part' hq (.inl fun hmem => hm (hsub (hpart hmem)))

theorem Frames.pageAfter {first : Tuple} {low high : List (Tuple × Int)} {entry : Tuple × Int}
    {lowParts highParts : List (List Nat)} {a b : List Nat} {k : Nat} {o : Option SplitData}
    (hframes : Frames sep pages m k pages')
    (hentries : (first, page.firstChild) :: page.entries = low ++ entry :: high)
    (hlow : List.Forall₂ (Spanned sep (Holds sep pages Set.univ h)) low lowParts)
    (hentry : Spanned sep (Holds sep pages Set.univ h) entry (a ++ m :: b))
    (hhigh : List.Forall₂ (Spanned sep (Holds sep pages Set.univ h)) high highParts)
    (hnodup : (lowParts.flatten ++ (a ++ m :: b ++ highParts.flatten)).Nodup)
    (hnew : new ∉ lowParts.flatten ++ (a ++ m :: b ++ highParts.flatten))
    (hchild : ChildAfter h (Function.update sep new key) pages' entry.2 (a ++ m :: new :: b) o) :
    PageAfter h (Function.update sep new key) pages' page
      (lowParts.flatten ++ a ++ m :: new :: (b ++ highParts.flatten)) o := by
  have hm : m ∈ a ++ m :: b := List.mem_append_right a List.mem_cons_self
  obtain ⟨_, hrest, hacross⟩ := List.nodup_append.mp hnodup
  rw [List.mem_append, List.mem_append, not_or, not_or] at hnew
  have hlow' := hframes.spanned key hlow
    (fun hmem => hacross m hmem m (List.mem_append_left _ hm) rfl) hnew.1
  have hhigh' := hframes.spanned key hhigh
    (fun hmem => (List.nodup_append.mp hrest).2.2 m hm m hmem rfl) hnew.2.2
  have hkey : entry.1 = Function.update sep new key ((a ++ m :: new :: b).headD 0) := by
    have hsep : ∀ leaf ∈ a ++ m :: b, sep leaf = Function.update sep new key leaf :=
      fun leaf hleaf => (Function.update_of_ne (ne_of_mem_of_not_mem hleaf hnew.2.1) key sep).symm
    rw [hentry.1]
    cases a with
    | nil => exact hsep m hm
    | cons x a => exact hsep x List.mem_cons_self
  have hafter := pageAfter_of_childAfter hentries hlow' hhigh' hkey hchild
  simpa using hafter

end
end BPlusTreeDir

namespace BptFiles

open BPlusTreeDir

section

variable {mayCrash : Prop} {width n h p m new fuel : Nat} {countDirs countLeaves : Nat → Nat}
  {behind record key : Tuple} {files : BptFiles} {sep : Nat → Tuple} {leaves : List Nat}
  {page : DirPage} {child : Int}

theorem insertAt_succ (hget : files.dir.pages[p]? = some page)
    (hchild : page.children[searchChildIndex record page]? = some child) :
    insertAt width n countDirs countLeaves behind record (fuel + 1) p files =
      (if child < 0 then insertAt width n countDirs countLeaves behind record fuel child.natAbs files
        else (BPlusTreeLeaf.insert width n countLeaves behind record child.toNat files.leaf).map
          fun result => (result.1, { files with leaf := result.2 })).bind
        (takeUp width n countDirs p) := by
  have hindex : (if 0 < page.keyCount then searchChildIndex record page else 0) =
      searchChildIndex record page := by
    by_cases hpos : 0 < page.keyCount
    · rw [if_pos hpos]
    · rw [if_neg hpos, searchChildIndex_of_empty (by omega)]
  simp only [insertAt, BPTDirWriter.getD_of_getElem? hget, hindex, List.getD_eq_getElem?_getD, hchild,
    Option.getD_some]

theorem insertAt_unsplit (countDirs : Nat → Nat)
    (result : Except InsertFailure BPlusTreeLeaf.LeafFile)
    (hleaf : BPlusTreeLeaf.insert width n countLeaves behind record m files.leaf =
      result.map (none, ·))
    (hpage : PageHolds sep files.dir.pages Set.univ h p leaves)
    (hsorted : (leaves.tail.map sep).Pairwise (· ≤ ·)) (hrouted : Routed sep record leaves m)
    (hfuel : h < fuel) :
    insertAt width n countDirs countLeaves behind record fuel p files =
      result.map fun leaf => (none, { files with leaf := leaf }) := by
  induction h generalizing p leaves fuel with
  | zero =>
    obtain ⟨fuel, rfl⟩ := Nat.exists_eq_add_one_of_ne_zero (by omega : fuel ≠ 0)
    obtain ⟨page, hget, hu⟩ := hpage
    obtain ⟨_, _, entry, _, _, _, _, _, hchild, _, ⟨_, leaf, hm, rfl⟩, _, _, hx⟩ :=
      hu.exists_child hsorted hrouted
    obtain rfl := List.mem_singleton.mp hx.mem
    rw [insertAt_succ hget hchild, hm, if_neg (by omega), Int.toNat_natCast, hleaf]
    cases result <;> rfl
  | succ h ih =>
    obtain ⟨fuel, rfl⟩ := Nat.exists_eq_add_one_of_ne_zero (by omega : fuel ≠ 0)
    obtain ⟨page, hget, hu⟩ := hpage
    obtain ⟨_, _, entry, _, _, part, _, _, hchild, _, ⟨_, q, page', hq, hpos, _, hget', hu'⟩, _,
      rfl, hx⟩ := hu.exists_child hsorted hrouted
    rw [insertAt_succ hget hchild, hq, if_pos (by omega), Int.natAbs_neg, Int.natAbs_natCast,
      ih ⟨page', hget', hu'⟩ (hsorted.sublist ((sublist_tail_around ..).map sep)) hx (by omega)]
    cases result <;> rfl

theorem insertAt_split (hn : 0 < n) (hle : n ≤ 4) (hwidth : 32 ≤ width)
    {leaf' : BPlusTreeLeaf.LeafFile}
    (hleaf : BPlusTreeLeaf.insert width n countLeaves behind record m files.leaf =
      .ok (some ⟨key, new⟩, leaf'))
    (hkept : Kept mayCrash width n countDirs files.dir) (hget : files.dir.pages[p]? = some page)
    (hu : Under sep (Holds sep files.dir.pages Set.univ h) page leaves) (hnodup : leaves.Nodup)
    (hsorted : (leaves.tail.map sep).Pairwise (· ≤ ·)) (hrouted : Routed sep record leaves m)
    (hfresh : new ∉ leaves) (hfuel : h < fuel)
    (hsorted' : ∀ before after, leaves = before ++ m :: after →
      ((before ++ m :: new :: after).tail.map (Function.update sep new key)).Pairwise (· < ·)) :
    (mayCrash ∧ insertAt width n countDirs countLeaves behind record fuel p files =
      .error .outsidePage) ∨
    ∃ o dir before after, insertAt width n countDirs countLeaves behind record fuel p files =
        takeUp width n countDirs p (o, ⟨dir, leaf'⟩) ∧ leaves = before ++ m :: after ∧
      PageAfter h (Function.update sep new key) dir.pages page (before ++ m :: new :: after) o ∧
      Kept mayCrash width n countDirs dir ∧ Frames sep files.dir.pages m h dir.pages := by
  induction h generalizing p page leaves fuel with
  | zero =>
    obtain ⟨fuel, rfl⟩ := Nat.exists_eq_add_one_of_ne_zero (by omega : fuel ≠ 0)
    obtain ⟨_, _, entry, _, lowParts, _, highParts, hentries, hchild, hlow, hentry, hhigh, rfl, hx⟩ :=
      hu.exists_child hsorted hrouted
    obtain ⟨leaf, hm, rfl⟩ := hentry.2
    obtain rfl := List.mem_singleton.mp hx.mem
    refine .inr ⟨some ⟨key, new⟩, files.dir, lowParts.flatten, highParts.flatten, ?_, rfl, ?_, hkept,
      frames_refl⟩
    · rw [insertAt_succ hget hchild, hm, if_neg (by omega), Int.toNat_natCast, hleaf]
      rfl
    · have hchild' : ChildAfter 0 (Function.update sep new key) files.dir.pages entry.2 [m, new]
          (some ⟨key, new⟩) :=
        ⟨[m], [new], rfl, ⟨m, hm, rfl⟩, ⟨new, rfl, rfl⟩, (Function.update_self new key sep).symm⟩
      have hframes : Frames sep files.dir.pages m 0 files.dir.pages := frames_refl
      have hafter := hframes.pageAfter (a := []) (b := []) hentries hlow hentry hhigh hnodup hfresh
        hchild'
      simpa using hafter
  | succ h ih =>
    obtain ⟨fuel, rfl⟩ := Nat.exists_eq_add_one_of_ne_zero (by omega : fuel ≠ 0)
    obtain ⟨_, _, entry, _, lowParts, part, highParts, hentries, hchild, hlow, hentry, hhigh, rfl,
      hx⟩ := hu.exists_child hsorted hrouted
    obtain ⟨q, page', hq, hpos, _, hget', hu'⟩ := hentry.2
    have hpage' : PageHolds sep files.dir.pages Set.univ h q part := ⟨page', hget', hu'⟩
    have hpart : ∀ a b, part = a ++ m :: b →
        ((a ++ m :: new :: b).tail.map (Function.update sep new key)).Pairwise (· < ·) := by
      intro a b hpart
      have hall := hsorted' (lowParts.flatten ++ a) (b ++ highParts.flatten) (by simp [hpart])
      refine hall.sublist (List.Sublist.map _ ?_)
      have hsub := sublist_tail_around lowParts.flatten (a ++ m :: new :: b) highParts.flatten
      simpa using hsub
    -- an error below goes up
    have hbelow : ∀ result, insertAt width n countDirs countLeaves behind record fuel q files =
        result → insertAt width n countDirs countLeaves behind record (fuel + 1) p files =
          result.bind (takeUp width n countDirs p) := by
      intro result hresult
      rw [insertAt_succ hget hchild, hq, if_pos (by omega), Int.natAbs_neg, Int.natAbs_natCast,
        hresult]
    rcases ih hget' hu' (List.nodup_append.mp (List.nodup_append.mp hnodup).2.1).1
      (hsorted.sublist ((sublist_tail_around ..).map sep)) hx
      (fun hmem => hfresh (List.mem_append_right _ (List.mem_append_left _ hmem)))
      (by omega : h < fuel) hpart with
      ⟨hcrash, herror⟩ | ⟨o, dir, a, b, hrun, rfl, hafter, hkept', hframes⟩
    · exact .inl ⟨hcrash, hbelow _ herror⟩
    have hget'' : dir.pages[q]? = some page' := by
      rw [hframes.2 h q _ hpage' (.inr le_rfl), hget']
    -- the page below takes what comes up to it
    have htaken : (mayCrash ∧ takeUp width n countDirs q (o, ⟨dir, leaf'⟩) = .error .outsidePage) ∨
        ∃ o' dir', takeUp width n countDirs q (o, ⟨dir, leaf'⟩) = .ok (o', ⟨dir', leaf'⟩) ∧
        ChildAfter (h + 1) (Function.update sep new key) dir'.pages entry.2 (a ++ m :: new :: b) o' ∧
        Kept mayCrash width n countDirs dir' ∧ Frames sep files.dir.pages m (h + 1) dir'.pages := by
      cases o with
      | none =>
        exact .inr ⟨none, dir, rfl, ⟨q, page', hq, hpos, Set.mem_univ q, hget'', hafter⟩, hkept',
          hframes.step hpage' hx.mem le_rfl fun _ _ _ => rfl⟩
      | some split =>
        rcases placeSplit_spec hn hle hwidth hkept' hget'' hafter (hpart a b rfl) with
          ⟨hcrash, herror⟩ | ⟨o', dir', hplace, hchild', hkept'', hlen, hsame⟩
        · exact .inl ⟨hcrash, by rw [takeUp, herror]; rfl⟩
        · rw [if_neg hpos.ne', ← hq] at hchild'
          exact .inr ⟨o', dir', by rw [takeUp, hplace]; rfl, hchild', hkept'',
            hframes.step hpage' hx.mem hlen hsame⟩
    rcases htaken with ⟨hcrash, herror⟩ | ⟨o', dir', htake, hchild', hkept'', hframes'⟩
    · exact .inl ⟨hcrash, by rw [hbelow _ hrun, herror]; rfl⟩
    refine .inr ⟨o', dir', lowParts.flatten ++ a, b ++ highParts.flatten, ?_, by simp,
      hframes'.pageAfter hentries hlow hentry hhigh hnodup hfresh hchild', hkept'', hframes'⟩
    rw [hbelow _ hrun, htake]
    rfl

end
end BptFiles
end MillenniumDB
