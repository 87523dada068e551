import MillenniumDB.BptInsertPaths

/-!
# The leaves under insertions

The slots of a leaf behind its records keep what was there before: zeros, or the records that a cut
moved to a later leaf.  A record that belongs to the leaf is none of them, so looking into a slot
that does not count does no harm.  Behind the last slot of a full leaf there is other memory.
-/

namespace MillenniumDB.BPlusTreeLeaf

def LeafFile.page (n : Nat) (file : LeafFile) (m : Nat) : LeafPage :=
  file.pages.getD m (.zero n (leafMaxRecords n))

structure Leaf where
  number : Nat
  live : List Tuple
  stale : List Tuple

namespace Leaf

def page (leaf : Leaf) (next : Nat) : LeafPage :=
  ⟨leaf.live.length, next, leaf.live ++ leaf.stale⟩

theorem live_page (leaf : Leaf) (next : Nat) : (leaf.page next).live.records = leaf.live :=
  List.take_left

end Leaf

section

variable {n : Nat} {record : Tuple} {stale : List Tuple}

theorem leafMaxRecords_le (hn : 0 < n) : leafMaxRecords n ≤ 511 := BPTLeafWriter.maxRecords_le hn

theorem le_leafMaxRecords (hn : 0 < n) (hle : n ≤ 4) : 127 ≤ leafMaxRecords n := by
  rw [leafMaxRecords, mdbPageSize, Nat.le_div_iff_mul_le (by omega)]
  omega

theorem replicate_zero_le (record : Tuple) : List.replicate record.length 0 ≤ record := by
  apply not_lt.mp
  induction record with
  | nil => exact lt_irrefl _
  | cons id ids ih =>
    rw [List.length_cons, List.replicate_succ, List.cons_lt_cons_iff]
    rintro (hlt | ⟨_, hlt⟩)
    · exact absurd hlt (Nat.not_lt_zero id)
    · exact ih hlt

theorem lastIndex_congr {xs ys : List Tuple} {i : Nat} (hget : xs.getD i [] = ys.getD i []) :
    lastIndex record xs i = lastIndex record ys i := by
  simp only [lastIndex, hget]

theorem searchIndexLoop_congr {xs ys : List Tuple} (count : Nat)
    (hget : ∀ i < count, xs.getD i [] = ys.getD i []) (fuel : Nat) {start stop : Int}
    (hzero : 0 ≤ start) (hlt : start < count) (hstop : stop < count) :
    searchIndexLoop record xs fuel start stop = searchIndexLoop record ys fuel start stop := by
  induction fuel generalizing start stop with
  | zero => exact lastIndex_congr (hget _ (by omega))
  | succ fuel ih =>
    rw [searchIndexLoop, searchIndexLoop]
    by_cases hless : start < stop
    · have hmiddle : start ≤ (start + stop) / 2 := by omega
      have hmiddle' : (start + stop) / 2 < stop := by omega
      rw [if_pos hless, if_pos hless]
      dsimp only
      rw [hget ((start + stop) / 2).toNat (by omega)]
      by_cases hbelow : record < ys.getD ((start + stop) / 2).toNat []
      · rw [if_pos hbelow, if_pos hbelow]
        exact ih hzero hlt (by omega)
      rw [if_neg hbelow, if_neg hbelow]
      by_cases habove : ys.getD ((start + stop) / 2).toNat [] < record
      · rw [if_pos habove, if_pos habove]
        exact ih (by omega) (by omega) hstop
      · rw [if_neg habove, if_neg habove]
    · rw [if_neg hless, if_neg hless]
      exact lastIndex_congr (hget _ (by omega))

namespace Leaf

/-- All slots of a page.  One that does not count holds zeros or one of the records. -/
structure Fits (n : Nat) (all : List Tuple) (leaf : Leaf) : Prop where
  length : leaf.live.length + leaf.stale.length = leafMaxRecords n
  stale : ∀ slot ∈ leaf.stale, slot = List.replicate n 0 ∨ slot ∈ all

theorem Fits.mono {all all' : List Tuple} {leaf : Leaf} (hfits : leaf.Fits n all)
    (hsub : all ⊆ all') : leaf.Fits n all' :=
  ⟨hfits.length, fun slot hslot => (hfits.stale slot hslot).imp_right fun h => hsub h⟩

theorem search (leaf : Leaf) (next : Nat) (record : Tuple) (hsorted : leaf.live.Pairwise (· < ·))
    (hne : leaf.live ≠ []) : ∃ a b, leaf.live = a ++ b ∧
      searchIndex record (leaf.page next) = a.length ∧ (∀ r ∈ a, r < record) ∧
      ∀ r ∈ b, record ≤ r := by
  have hpos := List.length_pos_of_ne_nil hne
  have hcongr : searchIndex record (leaf.page next) =
      searchIndex record ⟨leaf.live.length, 0, leaf.live⟩ := by
    have hcount : (leaf.page next).valueCount = leaf.live.length := rfl
    rw [searchIndex, searchIndex, hcount]
    apply searchIndexLoop_congr leaf.live.length _ _ (by omega) (by omega) (by omega)
    intro i hi
    rw [List.getD_eq_getElem?_getD, List.getD_eq_getElem?_getD, page, List.getElem?_append_left hi]
  have hsplits : Splits record leaf.live (searchIndex record ⟨leaf.live.length, 0, leaf.live⟩) :=
    searchIndex_splits record rfl hsorted hne
  obtain ⟨hlen, hbelow, habove⟩ := hsplits
  rw [hcongr]
  exact ⟨_, _, (List.take_append_drop _ leaf.live).symm,
    by rw [List.length_take, min_eq_left hlen], hbelow, habove⟩

end Leaf

variable {width m next : Nat} {countPages : Nat → Nat} {behind : Tuple} {file : LeafFile}
  {a b : List Tuple}

/-- A record that lies between two others of the leaf, or behind its last one, gets its place. -/
theorem insert_room (hn : 0 < n) (hwidth : 32 ≤ width) {slot : Tuple}
    (hpage : file.page n m = (Leaf.mk m (a ++ b) (slot :: stale)).page next)
    (hindex : a ++ b ≠ [] → searchIndex record (file.page n m) = a.length ∧
      equalRecord record (file.page n m) a.length behind = false)
    (hroom : (a ++ b).length < leafMaxRecords n) :
    insert width n countPages behind record m file = .ok (none, { file with
      pages := file.pages.set m ((Leaf.mk m (a ++ record :: b) stale).page next) }) := by
  have hlen : (a ++ record :: b).length = (a ++ b).length + 1 := by simp [Nat.add_assoc]
  rw [insert, Leaf.page, hlen]
  by_cases hne : a ++ b = []
  · -- the first record of an empty leaf
    obtain ⟨rfl, rfl⟩ := List.append_eq_nil_iff.mp hne
    rw [LeafFile.page] at hpage
    simp only [hpage]
    rfl
  · have hmax := leafMaxRecords_le hn
    obtain ⟨hindex, hequal⟩ := hindex hne
    have hpos := List.length_pos_of_ne_nil hne
    have hput := putShifting_append a b stale record slot (fastDifference width (a ++ b).length 1) (by
      rw [fastDifference_of_le hwidth (by omega) (by omega), List.length_append]
      push_cast
      omega)
    rw [hpage] at hindex hequal
    rw [LeafFile.page] at hpage
    simp only [hpage, hindex, hequal]
    simp only [Leaf.page, hput, if_pos hroom]
    rw [if_neg (by omega)]
    rfl

theorem insert_full (hn : 0 < n) (hle : n ≤ 4) (hwidth : 32 ≤ width)
    (hpage : file.page n m = (Leaf.mk m (a ++ b) []).page next)
    (hindex : searchIndex record (file.page n m) = a.length)
    (hequal : equalRecord record (file.page n m) a.length behind = false)
    (hfull : (a ++ b).length = leafMaxRecords n) {left right moved : List Tuple} {key last : Tuple}
    (hall : a ++ record :: b = left ++ key :: right) (hright : key :: right = moved ++ [last])
    (hleft : left.length = (leafMaxRecords n + 1) / 2)
    (hnew : countPages file.appended = file.pages.length) :
    insert width n countPages behind record m file = .ok (some ⟨key, file.pages.length⟩,
      ⟨(file.pages ++ [(Leaf.mk file.pages.length (key :: right) (List.replicate
          (leafMaxRecords n - (key :: right).length) (List.replicate n 0))).page next]).set
        m ((Leaf.mk m left moved).page file.pages.length), file.appended + 1⟩) := by
  have hmax := leafMaxRecords_le hn
  have hmin := le_leafMaxRecords hn hle
  have hsaved : a ++ record :: b = (left ++ moved) ++ [last] := by
    rw [hall, hright, List.append_assoc]
  have hlength := congrArg List.length hall
  have hlength' := congrArg List.length hright
  simp only [List.length_append, List.length_cons, List.length_nil] at hlength hlength' hfull
  have hput := putSaving_append (leafMaxRecords n) (fastDifference width (leafMaxRecords n) 2) hsaved
    hfull.symm (by rw [fastDifference_of_le hwidth (by omega) (by omega)]; omega)
  have happend : appendPage n countPages file = (file.pages.length,
      ⟨file.pages ++ [.zero n (leafMaxRecords n)], file.appended + 1⟩) := by
    have hone : file.pages.length + 1 - file.pages.length = 1 := by omega
    simp only [appendPage, hnew, hone, List.replicate_one]
  -- what moves is all from the middle on
  have hmoved : ((left ++ moved).drop ((leafMaxRecords n + 1) / 2)).take
      (leafMaxRecords n - (leafMaxRecords n + 1) / 2) ++ [last] = key :: right := by
    rw [← hleft, List.drop_left, List.take_of_length_le (by omega), hright]
  have hold : ((file.pages ++ [LeafPage.zero n (leafMaxRecords n)]).getD file.pages.length
      (.zero n (leafMaxRecords n))).records.drop (key :: right).length =
        List.replicate (leafMaxRecords n - (key :: right).length) (List.replicate n 0) := by
    rw [getD_append_length, List.headD_cons, LeafPage.zero, List.drop_replicate]
  have hcounts : leafMaxRecords n / 2 + 1 = (key :: right).length := by
    rw [List.length_cons]
    omega
  have hcount : (a ++ b).length = leafMaxRecords n := by rw [List.length_append, hfull]
  rw [hpage] at hindex hequal
  rw [LeafFile.page] at hpage
  rw [insert]
  simp only [hpage, hindex, hequal]
  simp only [Leaf.page, hcount, lt_irrefl, if_false, List.append_nil]
  rw [if_neg (by omega), if_neg (by decide), split]
  simp only [hput, happend, hmoved, hold, set_concat_length, hcounts, hleft]
  rfl

end

def stored (chain : List Leaf) : List Tuple := chain.flatMap Leaf.live

structure Belongs (sep : Nat → Tuple) (record : Tuple) (before : List Leaf) (leaf : Leaf)
    (after : List Leaf) : Prop where
  lower : before ≠ [] → sep leaf.number ≤ record
  before : ∀ r ∈ stored before, r < record
  after : ∀ r ∈ stored after, record < r

/-- Each leaf names the next one, and the last one what comes then. -/
def Linked (n : Nat) (file : LeafFile) (last : Nat) : List Leaf → Prop
  | [] => True
  | leaf :: rest => file.page n leaf.number = leaf.page ((rest.map Leaf.number).headD last) ∧
      Linked n file last rest

/-- The leaves of a tree as insertions keep them: each but the first begins with its separator. -/
structure LeavesStand (n : Nat) (file : LeafFile) (sep : Nat → Tuple) (chain : List Leaf) : Prop where
  lt : ∀ leaf ∈ chain, leaf.number < file.pages.length
  nodup : (chain.map Leaf.number).Nodup
  head : (chain.map Leaf.number).head? = some 0
  fits : ∀ leaf ∈ chain, leaf.Fits n (stored chain)
  widths : ∀ r ∈ stored chain, r.length = n
  filled : ∀ leaf ∈ chain, chain = [leaf] ∨ leaf.live ≠ []
  sorted : (stored chain).Pairwise (· < ·)
  heads : ∀ leaf ∈ chain.tail, leaf.live.head? = some (sep leaf.number)
  linked : Linked n file 0 chain

/-- The memory behind a leaf that is full is the record that would come behind its last one. -/
def Misreads (n : Nat) (file : LeafFile) (m : Nat) (behind record : Tuple) : Prop :=
  (file.page n m).valueCount = leafMaxRecords n ∧
    (∀ r ∈ (file.page n m).live.records, r < record) ∧ behind = record

section

variable {width n last : Nat} {countPages : Nat → Nat} {behind record key : Tuple}
  {file file' : LeafFile} {sep sep' : Nat → Tuple} {chain before after xs ys : List Leaf}
  {leaf leaf' : Leaf} {a b : List Tuple} {r : Tuple}

theorem linked_append : Linked n file last (xs ++ ys) ↔
    Linked n file ((ys.map Leaf.number).headD last) xs ∧ Linked n file last ys := by
  induction xs with
  | nil => simp [Linked]
  | cons leaf xs ih =>
    have hnext : ((xs ++ ys).map Leaf.number).headD last =
        (xs.map Leaf.number).headD ((ys.map Leaf.number).headD last) := by
      cases xs <;> simp
    rw [List.cons_append, Linked, Linked, ih, hnext, and_assoc]

theorem Linked.congr (hlinked : Linked n file last chain)
    (hpages : ∀ leaf ∈ chain, file'.page n leaf.number = file.page n leaf.number) :
    Linked n file' last chain := by
  induction chain with
  | nil => trivial
  | cons leaf chain ih =>
    obtain ⟨hpage, hlinked⟩ := hlinked
    rw [List.forall_mem_cons] at hpages
    exact ⟨hpages.1.trans hpage, ih hlinked hpages.2⟩

theorem stored_around : stored (before ++ leaf :: after) =
    stored before ++ (leaf.live ++ stored after) := by
  rw [stored, List.flatMap_append, List.flatMap_cons]
  rfl

theorem stored_cut (hlive : leaf.live = a ++ b) :
    stored (before ++ leaf :: after) = (stored before ++ a) ++ (b ++ stored after) := by
  rw [stored_around, hlive]
  simp

theorem LeavesStand.page_eq (hs : LeavesStand n file sep (before ++ leaf :: after)) :
    file.page n leaf.number = leaf.page ((after.map Leaf.number).headD 0) :=
  (linked_append.mp hs.linked).2.1

theorem LeavesStand.leaf_sorted (hs : LeavesStand n file sep chain) (hleaf : leaf ∈ chain) :
    leaf.live.Pairwise (· < ·) := (List.pairwise_flatMap.mp hs.sorted).1 leaf hleaf

theorem LeavesStand.sep_le (hs : LeavesStand n file sep chain) (hleaf : leaf ∈ chain.tail) :
    sep leaf.number ∈ leaf.live ∧ ∀ r ∈ leaf.live, sep leaf.number ≤ r := by
  have hsorted := hs.leaf_sorted (List.mem_of_mem_tail hleaf)
  have hhead := hs.heads leaf hleaf
  cases hlive : leaf.live with
  | nil =>
    rw [hlive] at hhead
    cases hhead
  | cons x rest =>
    rw [hlive] at hhead hsorted
    obtain rfl := Option.some.inj hhead
    refine ⟨List.mem_cons_self, fun r hr => ?_⟩
    rcases List.mem_cons.mp hr with rfl | hr
    · exact le_rfl
    · exact (List.rel_of_pairwise_cons hsorted hr).le

theorem LeavesStand.apart (hs : LeavesStand n file sep chain) :
    chain.Pairwise fun p q => (∀ r ∈ p.live, r < sep q.number) ∧ ∀ r ∈ q.live, sep q.number ≤ r := by
  have hlt := (List.pairwise_flatMap.mp hs.sorted).2
  have htail : chain.Pairwise fun _ q => q ∈ chain.tail := by
    cases chain with
    | nil => exact .nil
    | cons x rest =>
      refine List.pairwise_cons.mpr ⟨fun _ => id, ?_⟩
      exact List.pairwise_of_forall_mem_list fun _ _ q hq => hq
  refine (hlt.and htail).imp fun hpq => ?_
  obtain ⟨hmem, hle⟩ := hs.sep_le hpq.2
  exact ⟨fun r hr => hpq.1 r hr _ hmem, hle⟩

theorem LeavesStand.seps (hs : LeavesStand n file sep chain) :
    ((chain.map Leaf.number).tail.map sep).Pairwise (· < ·) := by
  rw [← List.map_tail, List.map_map]
  have hapart := hs.apart.sublist (List.tail_sublist chain)
  refine List.pairwise_map.mpr (hapart.imp_of_mem fun hp _ hpq => ?_)
  exact hpq.1 _ (hs.sep_le hp).1

theorem LeavesStand.exists_leaf {m : Nat} (hs : LeavesStand n file sep chain)
    (hrouted : Routed sep record (chain.map Leaf.number) m) :
    ∃ before leaf after, chain = before ++ leaf :: after ∧ leaf.number = m ∧
      Belongs sep record before leaf after := by
  obtain ⟨front, back, hnumbers, hle, hlt⟩ := hrouted
  obtain ⟨before, rest, rfl, rfl, hrest⟩ := List.map_eq_append_iff.mp hnumbers
  obtain ⟨leaf, after, rfl, rfl, rfl⟩ := List.map_eq_cons_iff.mp hrest
  obtain ⟨_, hafter, hbefore⟩ := List.pairwise_append.mp hs.apart
  refine ⟨before, leaf, after, rfl, rfl, fun hne => hle (by simpa), fun r hr => ?_, fun r hr => ?_⟩
  · obtain ⟨p, hp, hr⟩ := List.mem_flatMap.mp hr
    exact ((hbefore p hp leaf List.mem_cons_self).1 r hr).trans_le
      (hle (List.ne_nil_of_mem (List.mem_map_of_mem hp)))
  · obtain ⟨q, hq, hr⟩ := List.mem_flatMap.mp hr
    exact (hlt _ (List.mem_map_of_mem hq)).trans_le ((List.rel_of_pairwise_cons hafter hq).2 r hr)

theorem Belongs.mem_live (hbelongs : Belongs sep record before leaf after)
    (hmem : record ∈ stored (before ++ leaf :: after)) : record ∈ leaf.live := by
  rw [stored_around, List.mem_append, List.mem_append] at hmem
  rcases hmem with hmem | hmem | hmem
  · exact absurd (hbelongs.before record hmem) (lt_irrefl _)
  · exact hmem
  · exact absurd (hbelongs.after record hmem) (lt_irrefl _)

theorem LeavesStand.head_kept (hs : LeavesStand n file sep (before ++ leaf :: after))
    (hbelongs : Belongs sep record before leaf after) (hne : before ≠ [])
    (hlive : leaf.live = a ++ b) (hb : ∀ r ∈ b, record < r) :
    (a ++ record :: b).head? = some (sep leaf.number) := by
  have hfirst := hs.heads leaf (by cases before <;> simp_all)
  rw [hlive] at hfirst
  cases a with
  | cons y a => exact hfirst
  | nil =>
    have hmem : sep leaf.number ∈ b := List.mem_of_mem_head? (by simpa using hfirst)
    exact absurd (hbelongs.lower hne) (not_le.mpr (hb _ hmem))

/-- What `equal_record` says at the position of the search. -/
theorem LeavesStand.equalRecord_iff (hs : LeavesStand n file sep (before ++ leaf :: after))
    (behind : Tuple) (hbelongs : Belongs sep record before leaf after) (hlength : record.length = n)
    (hlive : leaf.live = a ++ b) (hne : leaf.live ≠ []) (ha : ∀ r ∈ a, r < record)
    (hb : ∀ r ∈ b, record ≤ r) :
    equalRecord record (file.page n leaf.number) a.length behind = true ↔
      record ∈ leaf.live ∨ Misreads n file leaf.number behind record := by
  have hleaf : leaf ∈ before ++ leaf :: after := by simp
  have hfits := hs.fits leaf hleaf
  have hnotMem : record ∉ a := fun hmem => lt_irrefl record (ha record hmem)
  rw [Misreads, hs.page_eq, Leaf.live_page, equalRecord, decide_eq_true_iff]
  cases b with
  | cons r b =>
    -- the record at the position is the least that is not below
    have hget : (leaf.live ++ leaf.stale).getD a.length behind = r := by
      rw [hlive, List.append_assoc, getD_append_length, List.cons_append, List.headD_cons]
    have hsorted := hs.leaf_sorted hleaf
    rw [hlive] at hsorted
    have hrest := (List.pairwise_append.mp hsorted).2.1
    have hr := hb r List.mem_cons_self
    rw [Leaf.page, hget, hlive]
    constructor
    · rintro rfl
      exact .inl (by simp)
    · rintro (hmem | ⟨_, hall, _⟩)
      · rcases List.mem_cons.mp ((List.mem_append.mp hmem).resolve_left hnotMem) with heq | hmem
        · exact heq.symm
        · exact absurd hr (not_le.mpr (List.rel_of_pairwise_cons hrest hmem))
      · exact absurd hr (not_le.mpr (hall r (by simp)))
  | nil =>
    obtain ⟨r, hr⟩ := List.exists_mem_of_ne_nil _ hne
    have hlen := hfits.length
    rw [List.append_nil] at hlive
    rw [← hlive] at ha hnotMem ⊢
    rw [Leaf.page, getD_append_length]
    cases hstale : leaf.stale with
    | cons slot stale =>
      have hslot : slot ≠ record := by
        rintro rfl
        rcases hfits.stale slot (hstale ▸ List.mem_cons_self) with hzero | hstored
        · apply absurd (ha r hr)
          rw [hzero, ← hs.widths r (List.mem_flatMap.mpr ⟨leaf, hleaf, hr⟩)]
          exact not_lt.mpr (replicate_zero_le r)
        · exact hnotMem (hbelongs.mem_live hstored)
      have hfull : leaf.live.length ≠ leafMaxRecords n := by
        rw [← hlen, hstale, List.length_cons]
        omega
      simp [hslot, hnotMem, hfull]
    | nil =>
      have hfull : leaf.live.length = leafMaxRecords n := by rw [← hlen, hstale]; rfl
      simp only [List.headD_nil, hnotMem, false_or, hfull, true_and]
      exact ⟨fun heq => ⟨ha, heq⟩, And.right⟩

/-- A leaf takes a record, perhaps with new leaves behind it: between them they have what the leaf had
and the record. -/
theorem LeavesStand.replace (hs : LeavesStand n file sep (before ++ leaf :: after)) (leaf' : Leaf)
    (fresh : List Leaf) (sep' : Nat → Tuple) (file' : LeafFile) (hnumber : leaf'.number = leaf.number)
    (hbelongs : Belongs sep record before leaf after) (hlength : record.length = n)
    (hlive : leaf.live = a ++ b)
    (ha : ∀ r ∈ a, r < record) (hb : ∀ r ∈ b, record < r)
    (hstored : stored (leaf' :: fresh) = a ++ record :: b) (hfilled : leaf'.live ≠ [])
    (hmono : file.pages.length ≤ file'.pages.length)
    (hlt : ∀ q ∈ fresh, file.pages.length ≤ q.number ∧ q.number < file'.pages.length)
    (hnodup : (fresh.map Leaf.number).Nodup)
    (hsep : ∀ q < file.pages.length, sep' q = sep q)
    (hfits : ∀ q ∈ leaf' :: fresh, q.Fits n (stored (leaf' :: fresh) ++ stored (before ++ leaf :: after)))
    (hheads : ∀ q ∈ fresh, q.live.head? = some (sep' q.number))
    (hlinked : Linked n file' ((after.map Leaf.number).headD 0) (leaf' :: fresh))
    (hother : ∀ q ∈ before ++ after, file'.page n q.number = file.page n q.number) :
    LeavesStand n file' sep' (before ++ (leaf' :: fresh ++ after)) ∧
      ∀ r, r ∈ stored (before ++ (leaf' :: fresh ++ after)) ↔
        r = record ∨ r ∈ stored (before ++ leaf :: after) := by
  have hold : ∀ q ∈ before ++ after, q ∈ before ++ leaf :: after := fun q hq =>
    List.perm_middle.mem_iff.mpr (List.mem_cons_of_mem leaf hq)
  have hcases : ∀ q ∈ before ++ (leaf' :: fresh ++ after), q ∈ leaf' :: fresh ∨ q ∈ before ++ after := by
    intro q hq
    simp only [List.mem_append] at hq ⊢
    tauto
  have hleaf : leaf ∈ before ++ leaf :: after := by simp
  have hstoredAll : stored (before ++ (leaf' :: fresh ++ after)) =
      (stored before ++ a) ++ record :: (b ++ stored after) := by
    rw [stored, List.flatMap_append, List.flatMap_append]
    change stored before ++ (stored (leaf' :: fresh) ++ stored after) = _
    rw [hstored]
    simp
  have hiff : ∀ r, r ∈ stored (before ++ (leaf' :: fresh ++ after)) ↔
      r = record ∨ r ∈ stored (before ++ leaf :: after) := by
    intro r
    rw [hstoredAll, stored_cut hlive, List.perm_middle.mem_iff, List.mem_cons]
  have hsub : stored (before ++ leaf :: after) ⊆ stored (before ++ (leaf' :: fresh ++ after)) :=
    fun r hr => (hiff r).mpr (.inr hr)
  refine ⟨?_, hiff⟩
  constructor
  · intro q hq
    rcases hcases q hq with hq | hq
    · rcases List.mem_cons.mp hq with rfl | hq
      · exact hnumber ▸ (hs.lt leaf hleaf).trans_le hmono
      · exact (hlt q hq).2
    · exact (hs.lt q (hold q hq)).trans_le hmono
  · have hperm : ((before ++ (leaf' :: fresh ++ after)).map Leaf.number).Perm
        (fresh.map Leaf.number ++ (before ++ leaf :: after).map Leaf.number) := by
      simp only [List.map_append, List.map_cons, hnumber]
      have hmove : ((before.map Leaf.number ++ [leaf.number]) ++ fresh.map Leaf.number).Perm
        (fresh.map Leaf.number ++ (before.map Leaf.number ++ [leaf.number])) := List.perm_append_comm
      simpa using hmove.append_right (after.map Leaf.number)
    rw [hperm.nodup_iff]
    refine List.nodup_append.mpr ⟨hnodup, hs.nodup, ?_⟩
    intro x hx y hy
    obtain ⟨q, hq, rfl⟩ := List.mem_map.mp hx
    obtain ⟨p, hp, rfl⟩ := List.mem_map.mp hy
    exact ((hs.lt p hp).trans_le (hlt q hq).1).ne'
  · have hhead := hs.head
    cases before with
    | nil => simpa [hnumber] using hhead
    | cons x before => exact hhead
  · intro q hq
    rcases hcases q hq with hq | hq
    · apply (hfits q hq).mono
      apply List.append_subset.mpr ⟨fun r hr => ?_, hsub⟩
      rw [hstored] at hr
      rw [hstoredAll]
      simp only [List.mem_append, List.mem_cons] at hr ⊢
      tauto
    · exact (hs.fits q (hold q hq)).mono hsub
  · intro r hr
    rcases (hiff r).mp hr with rfl | hr
    · exact hlength
    · exact hs.widths r hr
  · intro q hq
    right
    rcases hcases q hq with hq | hq
    · rcases List.mem_cons.mp hq with rfl | hq
      · exact hfilled
      · intro hnil
        have hhead := hheads q hq
        rw [hnil] at hhead
        cases hhead
    · refine (hs.filled q (hold q hq)).resolve_left fun hsingle => ?_
      have hcount := congrArg List.length hsingle
      have hpos := List.length_pos_of_mem hq
      simp only [List.length_append, List.length_cons, List.length_nil] at hcount hpos
      omega
  · rw [hstoredAll]
    have hsorted := hs.sorted
    rw [stored_cut hlive] at hsorted
    apply pairwise_lt_insert hsorted
    · exact List.forall_mem_append.mpr ⟨hbelongs.before, ha⟩
    · exact List.forall_mem_append.mpr ⟨hb, hbelongs.after⟩
  · have hkeep : ∀ q ∈ before ++ after, q ∈ (before ++ leaf :: after).tail →
        q.live.head? = some (sep' q.number) := by
      intro q hq htail
      rw [hsep _ (hs.lt q (hold q hq))]
      exact hs.heads q htail
    cases before with
    | nil =>
      intro q hq
      rcases List.mem_append.mp hq with hq | hq
      · exact hheads q hq
      · exact hkeep q hq hq
    | cons x before =>
      intro q hq
      simp only [List.cons_append, List.tail_cons, List.mem_append, List.mem_cons] at hq
      rcases hq with hq | rfl | hq | hq
      · exact hkeep q (by simp [hq]) (by simp [hq])
      · have hself := congrArg List.head? hstored
        rw [stored, List.flatMap_cons, List.head?_append_of_ne_nil _ hfilled] at hself
        rw [hself, hnumber, hsep _ (hs.lt leaf hleaf)]
        exact hs.head_kept hbelongs (List.cons_ne_nil x before) hlive hb
      · exact hheads q hq
      · exact hkeep q (by simp [hq]) (by simp [hq])
  · obtain ⟨hfront, _, hback⟩ := linked_append.mp hs.linked
    refine linked_append.mpr ⟨?_, linked_append.mpr ⟨hlinked, ?_⟩⟩
    · rw [List.cons_append, List.map_cons, List.headD_cons, hnumber]
      exact hfront.congr fun q hq => hother q (List.mem_append_left _ hq)
    · exact hback.congr fun q hq => hother q (List.mem_append_right _ hq)

theorem LeavesStand.insert_duplicate (width : Nat) (countPages : Nat → Nat)
    (hs : LeavesStand n file sep (before ++ leaf :: after)) (hmax : 0 < leafMaxRecords n)
    (hbelongs : Belongs sep record before leaf after) (hlength : record.length = n)
    (hduplicate : record ∈ leaf.live ∨ Misreads n file leaf.number behind record) :
    insert width n countPages behind record leaf.number file = .error .duplicatedRecord := by
  have hpage := hs.page_eq
  have hne : leaf.live ≠ [] := by
    intro hnil
    rcases hduplicate with hmem | ⟨hfull, _, _⟩
    · rw [hnil] at hmem
      exact absurd hmem List.not_mem_nil
    · rw [hpage, Leaf.page, hnil] at hfull
      exact hmax.ne hfull
  obtain ⟨a, b, hlive, hindex, ha, hb⟩ := leaf.search ((after.map Leaf.number).headD 0) record
    (hs.leaf_sorted (by simp)) hne
  have hequal := (hs.equalRecord_iff behind hbelongs hlength hlive hne ha hb).mpr hduplicate
  rw [hpage] at hequal
  rw [LeafFile.page] at hpage
  rw [insert]
  simp only [hpage, hindex, hequal, if_true]
  exact if_neg fun hzero => hne (List.eq_nil_of_length_eq_zero hzero)

theorem page_set_self {m : Nat} {pages : List LeafPage} {page : LeafPage} (k : Nat)
    (hm : m < pages.length) : (LeafFile.mk (pages.set m page) k).page n m = page := by
  rw [LeafFile.page, List.getD_eq_getElem?_getD, List.getElem?_set_self hm, Option.getD_some]

theorem page_set_ne {m q : Nat} {pages : List LeafPage} {page : LeafPage} (k : Nat) (hne : q ≠ m) :
    (LeafFile.mk (pages.set m page) k).page n q = (LeafFile.mk pages k).page n q := by
  rw [LeafFile.page, LeafFile.page, List.getD_eq_getElem?_getD, List.getElem?_set_ne hne.symm,
    List.getD_eq_getElem?_getD]

/-- What a new record leaves: the tree with the record in a leaf, or a leaf that was cut in two. -/
def Took (n : Nat) (file file' : LeafFile) (sep : Nat → Tuple) (front : List Nat) (m : Nat)
    (back : List Nat) (chain' : List Leaf) : Option SplitData → Prop
  | none => LeavesStand n file' sep chain' ∧ chain'.map Leaf.number = front ++ m :: back
  | some split => split.encodedPageNumber = file.pages.length ∧
      LeavesStand n file' (Function.update sep file.pages.length split.record) chain' ∧
      chain'.map Leaf.number = front ++ m :: file.pages.length :: back

theorem LeavesStand.insert_new (hn : 0 < n) (hle : n ≤ 4) (hwidth : 32 ≤ width)
    (hs : LeavesStand n file sep (before ++ leaf :: after))
    (hbelongs : Belongs sep record before leaf after) (hlength : record.length = n)
    (hnotMem : record ∉ leaf.live) (hread : ¬Misreads n file leaf.number behind record)
    (hnew : Appends countPages file.appended file.pages.length) :
    ∃ o file' chain', insert width n countPages behind record leaf.number file = .ok (o, file') ∧
      Took n file file' sep (before.map Leaf.number) leaf.number (after.map Leaf.number) chain' o ∧
      (∀ r, r ∈ stored chain' ↔ r = record ∨ r ∈ stored (before ++ leaf :: after)) ∧
      Appends countPages file'.appended file'.pages.length := by
  have hleaf : leaf ∈ before ++ leaf :: after := by simp
  have hpage := hs.page_eq
  have hmlt := hs.lt leaf hleaf
  have hfits := hs.fits leaf hleaf
  have hmin := le_leafMaxRecords hn hle
  have hother : ∀ q ∈ before ++ after, q.number ≠ leaf.number ∧ q.number < file.pages.length := by
    intro q hq
    refine ⟨fun heq => ?_, hs.lt q (List.perm_middle.mem_iff.mpr (List.mem_cons_of_mem leaf hq))⟩
    have hnodup := (List.perm_middle.map Leaf.number).nodup_iff.mp hs.nodup
    exact (List.nodup_cons.mp hnodup).1 (heq ▸ List.mem_map_of_mem hq)
  -- where the record belongs
  obtain ⟨a, b, hlive, ha, hb, hindex⟩ : ∃ a b, leaf.live = a ++ b ∧ (∀ r ∈ a, r < record) ∧
      (∀ r ∈ b, record < r) ∧ (a ++ b ≠ [] →
        searchIndex record (file.page n leaf.number) = a.length ∧
        equalRecord record (file.page n leaf.number) a.length behind = false) := by
    by_cases hne : leaf.live = []
    · exact ⟨[], [], hne, by simp, by simp, fun h => absurd rfl h⟩
    · obtain ⟨a, b, hlive, hindex, ha, hb⟩ := leaf.search ((after.map Leaf.number).headD 0) record
        (hs.leaf_sorted hleaf) hne
      refine ⟨a, b, hlive, ha, fun r hr => lt_of_le_of_ne (hb r hr) ?_, fun _ => ⟨hpage ▸ hindex, ?_⟩⟩
      · rintro rfl
        exact hnotMem (hlive ▸ List.mem_append_right a hr)
      · rw [Bool.eq_false_iff]
        intro hequal
        exact ((hs.equalRecord_iff behind hbelongs hlength hlive hne ha hb).mp hequal).elim
          hnotMem hread
  obtain ⟨m, live, stale⟩ := leaf
  obtain rfl : live = a ++ b := hlive
  dsimp only at hpage hmlt hother hindex ⊢
  obtain ⟨hlen, hstale⟩ := hfits
  have hcounts : (a ++ record :: b).length = (a ++ b).length + 1 := by simp [Nat.add_assoc]
  dsimp only at hlen hstale
  cases stale with
  | cons slot stale =>
    rw [List.length_cons] at hlen
    have hslots : ∀ all, Leaf.Fits n (all ++ stored (before ++ ⟨m, a ++ b, slot :: stale⟩ :: after))
        ⟨m, a ++ record :: b, stale⟩ := fun all => ⟨by dsimp only; omega, fun r hr =>
      (hstale r (List.mem_cons_of_mem _ hr)).imp_right (List.mem_append_right _)⟩
    obtain ⟨hstands, hstored⟩ := hs.replace ⟨m, a ++ record :: b, stale⟩ [] sep
      ⟨file.pages.set m _, file.appended⟩ rfl hbelongs hlength rfl ha hb
      (List.flatMap_singleton ..) (by simp) (List.length_set ..).ge (by simp) List.nodup_nil
      (fun _ _ => rfl) (List.forall_mem_singleton.mpr (hslots _)) (by simp)
      ⟨page_set_self _ hmlt, trivial⟩ fun q hq => page_set_ne _ (hother q hq).1
    exact ⟨none, _, _, insert_room hn hwidth hpage hindex (by omega), ⟨hstands, by simp⟩, hstored,
      by simpa using hnew⟩
  | nil =>
    have hlt : (leafMaxRecords n + 1) / 2 < (a ++ record :: b).length := by
      rw [List.length_nil] at hlen
      omega
    -- the records with the new one, cut in the middle
    obtain ⟨left, key, right, hall, hleft⟩ := exists_cut _ hlt
    obtain ⟨moved, last, hright⟩ : ∃ moved last, key :: right = moved ++ [last] :=
      ⟨_, _, (List.dropLast_append_getLast (List.cons_ne_nil key right)).symm⟩
    obtain ⟨hindex, hequal⟩ := hindex (List.ne_nil_of_length_pos (by
      rw [List.length_nil] at hlen
      omega))
    have hinsert := insert_full hn hle hwidth hpage hindex hequal hlen hall hright hleft (hnew 0)
    rw [hall] at hcounts
    have hmoved := congrArg List.length hright
    simp only [List.length_append, List.length_cons, List.length_nil] at hcounts hmoved hlen
    generalize hzeros : List.replicate _ (List.replicate n 0) = zeros at hinsert
    generalize hfile : LeafFile.mk _ (file.appended + 1) = file' at hinsert
    have hpages : file'.pages.length = file.pages.length + 1 := by
      rw [← hfile, List.length_set, List.length_append, List.length_singleton]
    have hstored' : stored [⟨m, left, moved⟩, ⟨file.pages.length, key :: right, zeros⟩] =
        a ++ record :: b := by simp [stored, hall]
    have hslots : ∀ all, Leaf.Fits n (a ++ record :: b ++ all) ⟨m, left, moved⟩ := by
      rw [hall, hright]
      exact fun all => ⟨by dsimp only; omega, fun r hr => .inr (by simp [show r ∈ moved from hr])⟩
    have hslots' : ∀ all, Leaf.Fits n all ⟨file.pages.length, key :: right, zeros⟩ := by
      rw [← hzeros]
      exact fun all => ⟨by simp; omega, fun r hr => .inl (List.mem_replicate.mp hr).2⟩
    have hself : file'.page n m = (Leaf.mk m left moved).page file.pages.length := by
      rw [← hfile]
      apply page_set_self
      rw [List.length_append]
      omega
    have hlast : file'.page n file.pages.length = (Leaf.mk file.pages.length (key :: right) zeros).page
        ((after.map Leaf.number).headD 0) := by
      rw [← hfile, page_set_ne _ hmlt.ne', LeafFile.page, getD_append_length, List.headD_cons]
    obtain ⟨hstands, hstored⟩ := hs.replace ⟨m, left, moved⟩
      [⟨file.pages.length, key :: right, zeros⟩] (Function.update sep file.pages.length key) file' rfl
      hbelongs hlength rfl ha hb hstored' (List.ne_nil_of_length_pos (by dsimp only; omega))
      (by omega) (List.forall_mem_singleton.mpr ⟨le_rfl, by dsimp only; omega⟩)
      (List.nodup_singleton _) (fun q hq => Function.update_of_ne hq.ne key sep)
      (List.forall_mem_cons.mpr ⟨hstored' ▸ hslots _, List.forall_mem_singleton.mpr (hslots' _)⟩)
      (by simp) ⟨hself, hlast, trivial⟩ (fun q hq => by
        rw [← hfile, page_set_ne _ (hother q hq).1, LeafFile.page, List.getD_eq_getElem?_getD,
          List.getElem?_append_left (hother q hq).2, ← List.getD_eq_getElem?_getD]
        rfl)
    refine ⟨some ⟨key, file.pages.length⟩, file', _, hinsert, ⟨rfl, hstands, by simp⟩, hstored, ?_⟩
    rw [hpages, ← hfile]
    exact hnew.succ

end

end MillenniumDB.BPlusTreeLeaf
