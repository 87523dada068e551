import MillenniumDB.BptInsertRuns
import MillenniumDB.IteratorEnds
import MillenniumDB.Lib.FallibleIterators

/-!
# Reading a tree after insertions

`get_range` looks for the first record of a range, and `BptIter` follows the leaves from there to its
last one.  In every tree that insertions make they find what came in.
-/

namespace MillenniumDB

theorem within_iff {record max : Tuple} (hlength : record.length = max.length) :
    IteratorEnds.within record max = true ↔ record ≤ max := by
  induction record generalizing max with
  | nil =>
    obtain rfl : max = [] := List.eq_nil_of_length_eq_zero hlength.symm
    exact ⟨fun _ => le_rfl, fun _ => rfl⟩
  | cons id ids ih =>
    cases max with
    | nil => cases hlength
    | cons id' ids' =>
      rw [IteratorEnds.within, ← not_lt, List.cons_lt_cons_iff]
      rcases lt_trichotomy id id' with hlt | rfl | hgt
      · simp [hlt, hlt.not_gt, hlt.ne']
      · simp [ih (Nat.succ.inj hlength)]
      · simp [hgt, hgt.not_gt]

theorem mem_takeWhile_le {records : List Tuple} (hsorted : records.Pairwise (· < ·)) {max r : Tuple} :
    r ∈ records.takeWhile (· ≤ max) ↔ r ∈ records ∧ r ≤ max := by
  induction records with
  | nil => simp
  | cons x records ih =>
    rw [List.takeWhile_cons]
    by_cases hle : x ≤ max
    · rw [if_pos (decide_eq_true hle), List.mem_cons, List.mem_cons, ih (List.Pairwise.of_cons hsorted),
        or_and_right]
      exact or_congr_left (iff_self_and.mpr fun heq => heq ▸ hle)
    · rw [if_neg (by simpa using hle), iff_false_left List.not_mem_nil]
      rintro ⟨hmem, hr⟩
      rcases List.mem_cons.mp hmem with rfl | hmem
      · exact hle hr
      · exact hle ((List.rel_of_pairwise_cons hsorted hmem).le.trans hr)

theorem Scans.BptIter.next_takeWhile (it : Scans.BptIter) :
    it.next.1 = (it.records.takeWhile (· ≤ it.max)).head? ∧
      it.next.2.records.takeWhile (· ≤ it.max) = (it.records.takeWhile (· ≤ it.max)).tail ∧
        it.next.2.max = it.max := by
  rw [next]
  cases hrecords : it.records with
  | nil => simp [hrecords]
  | cons r records =>
    by_cases hlt : it.max < r
    · simp [hrecords, hlt]
    · simp [hlt, not_lt.mp hlt]

namespace IteratorEnds.BptIter

/-- The records from the position on, as one list. -/
def scan (it : BptIter) : Scans.BptIter :=
  ⟨it.currentLeaf.drop it.currentPos ++ it.nextLeaves.flatten, it.max⟩

theorem check_scan {max record : Tuple} {leaf : List Tuple} {pos : Nat} {leaves : List (List Tuple)}
    (hrecord : leaf[pos]? = some record)
    (hlength : ∀ r ∈ leaf.drop pos ++ leaves.flatten, r.length = max.length) :
    Prod.map id scan (check ⟨leaf, pos, leaves, max⟩ record) =
      Scans.BptIter.next ⟨leaf.drop pos ++ leaves.flatten, max⟩ := by
  obtain ⟨hpos, rfl⟩ := List.getElem?_eq_some_iff.mp hrecord
  have hdrop := List.drop_eq_getElem_cons hpos
  rw [hdrop] at hlength
  have hwithin := within_iff (hlength leaf[pos] List.mem_cons_self)
  rw [check, Scans.BptIter.next]
  by_cases hle : leaf[pos] ≤ max
  · simp only [if_pos (hwithin.mpr hle), hdrop, List.cons_append, if_neg (not_lt.mpr hle)]
    rfl
  · simp only [if_neg (mt hwithin.mp hle), hdrop, List.cons_append, if_pos (not_le.mp hle),
      Prod.map, scan, id]

/-- The loop over the leaves is a walk along the list of their records. -/
theorem nextFrom_scan {max : Tuple} (leaves : List (List Tuple)) {leaf : List Tuple} {pos : Nat}
    (hlength : ∀ r ∈ leaf.drop pos ++ leaves.flatten, r.length = max.length) :
    Prod.map id scan (nextFrom max leaves leaf pos) =
      Scans.BptIter.next ⟨leaf.drop pos ++ leaves.flatten, max⟩ := by
  induction leaves generalizing leaf pos with
  | nil =>
    rw [nextFrom]
    cases hrecord : leaf[pos]? with
    | some record => exact check_scan hrecord hlength
    | none =>
      have hdrop := List.drop_eq_nil_of_le (List.getElem?_eq_none_iff.mp hrecord)
      simp [scan, hdrop, Scans.BptIter.next]
  | cons next leaves ih =>
    rw [nextFrom]
    cases hrecord : leaf[pos]? with
    | some record => exact check_scan hrecord hlength
    | none =>
      have hdrop := List.drop_eq_nil_of_le (List.getElem?_eq_none_iff.mp hrecord)
      rw [hdrop, List.nil_append, List.flatten_cons] at hlength ⊢
      exact @ih next 0 hlength

end IteratorEnds.BptIter

namespace BptFiles

/-- `BptIter`: the number of the leaf, the position in it and the last record of the range. -/
structure BptIter where
  currentLeaf : Nat
  currentPos : Nat
  max : Tuple

def getRange (n : Nat) (files : BptFiles) (min max : Tuple) : Option BptIter :=
  (BPlusTreeDir.searchLeaf min files.dir.pages).map fun m =>
    ⟨m, BPlusTreeLeaf.searchIndex min (files.leaf.page n m), max⟩

/-- The loop of `next`, with fuel for the leaves. -/
def nextFrom (n : Nat) (files : BptFiles) (max : Tuple) : Nat → Nat → Nat → Option (Option Tuple × BptIter)
  | 0, _, _ => none
  | fuel + 1, m, pos =>
    let page := files.leaf.page n m
    if pos < page.valueCount then
      let record := page.records.getD pos []
      if IteratorEnds.within record max then some (some record, ⟨m, pos + 1, max⟩)
      else some (none, ⟨m, pos, max⟩)
    else if page.nextLeaf ≠ 0 then nextFrom n files max fuel page.nextLeaf 0
    else some (none, ⟨m, pos, max⟩)

def next (n : Nat) (files : BptFiles) (it : BptIter) : Option (Option Tuple × BptIter) :=
  nextFrom n files it.max files.leaf.pages.length it.currentLeaf it.currentPos

open BPlusTreeLeaf

section

variable {n pos : Nat} {files : BptFiles} {sep : Nat → Tuple}
  {chain before after : List Leaf} {leaf : Leaf} {min max : Tuple} {it : BptIter} {out : List Tuple}

def At (chain : List Leaf) (it : BptIter) (it' : IteratorEnds.BptIter) : Prop :=
  ∃ before leaf after, chain = before ++ leaf :: after ∧
    it = ⟨leaf.number, it'.currentPos, it'.max⟩ ∧ it'.currentLeaf = leaf.live ∧
    it'.nextLeaves = after.map Leaf.live

/-- The loop of `next` over the pages of the leaves. -/
theorem nextFrom_leaves (hs : files.Stands n sep chain) (hchain : chain = before ++ leaf :: after)
    {fuel : Nat} (hfuel : after.length < fuel) :
    ∃ it, nextFrom n files max fuel leaf.number pos =
        some ((IteratorEnds.BptIter.nextFrom max (after.map Leaf.live) leaf.live pos).1, it) ∧
      At chain it (IteratorEnds.BptIter.nextFrom max (after.map Leaf.live) leaf.live pos).2 := by
  induction fuel generalizing before leaf pos after with
  | zero => omega
  | succ fuel ih =>
    have hpage := (hchain ▸ hs.leaf).page_eq
    have hcount : (leaf.page ((after.map Leaf.number).headD 0)).valueCount = leaf.live.length := rfl
    rw [nextFrom, hpage]
    dsimp only
    rw [hcount]
    by_cases hlt : pos < leaf.live.length
    · have hget : (leaf.live ++ leaf.stale).getD pos [] = leaf.live[pos] := by
        rw [List.getD_eq_getElem?_getD, List.getElem?_append_left hlt, List.getElem?_eq_getElem hlt,
          Option.getD_some]
      have hcheck : IteratorEnds.BptIter.nextFrom max (after.map Leaf.live) leaf.live pos =
          IteratorEnds.BptIter.check ⟨leaf.live, pos, after.map Leaf.live, max⟩ leaf.live[pos] := by
        cases after <;> simp [IteratorEnds.BptIter.nextFrom, List.getElem?_eq_getElem hlt]
      rw [if_pos hlt, Leaf.page, hget, hcheck, IteratorEnds.BptIter.check]
      split_ifs
      · exact ⟨_, rfl, before, leaf, after, hchain, rfl, rfl, rfl⟩
      · exact ⟨_, rfl, before, leaf, after, hchain, rfl, rfl, rfl⟩
    · have hnone : leaf.live[pos]? = none := List.getElem?_eq_none (not_lt.mp hlt)
      rw [if_neg hlt]
      cases after with
      | nil =>
        simp only [List.map_nil, IteratorEnds.BptIter.nextFrom, hnone]
        exact ⟨_, rfl, before, leaf, [], hchain, rfl, rfl, rfl⟩
      | cons q after =>
        have hwf := (hs.wellFormed.next (before.map Leaf.number) leaf.number q.number
          (after.map Leaf.number) (by simp [hchain])).2
        have hnext : (leaf.page (((q :: after).map Leaf.number).headD 0)).nextLeaf = q.number := rfl
        simp only [List.map_cons, IteratorEnds.BptIter.nextFrom, hnone]
        rw [← List.map_cons, hnext, if_pos hwf]
        exact ih (hchain.trans (List.append_cons ..)) (by simpa using hfuel)

theorem next_leaves (hs : files.Stands n sep chain) {it' : IteratorEnds.BptIter}
    (hat : At chain it it') : ∃ it₁, next n files it = some (it'.next.1, it₁) ∧
      At chain it₁ it'.next.2 := by
  obtain ⟨before, leaf, after, hchain, rfl, hleaf, hleaves⟩ := hat
  rw [next, IteratorEnds.BptIter.next, hleaf, hleaves]
  apply nextFrom_leaves hs hchain
  -- there are no more leaves than pages
  have hsub : chain.map Leaf.number ⊆ List.range files.leaf.pages.length := by
    intro m hm
    obtain ⟨leaf, hleaf, rfl⟩ := List.mem_map.mp hm
    exact List.mem_range.mpr (hs.leaf.lt leaf hleaf)
  have hlen := (hs.leaf.nodup.subperm hsub).length_le
  rw [List.length_range, List.length_map, hchain, List.length_append, List.length_cons] at hlen
  omega

/-- On the pages, on the leaves and on the list of the records, `next` returns the same. -/
theorem next_scan (hs : files.Stands n sep chain) {it' : IteratorEnds.BptIter}
    (hat : At chain it it') (hmax : it'.max.length = n) :
    ∃ it₁ it₁', next n files it = some (it'.scan.next.1, it₁) ∧ At chain it₁ it₁' ∧
      it₁'.scan = it'.scan.next.2 := by
  obtain ⟨it₁, hnext, hat'⟩ := next_leaves hs hat
  obtain ⟨before, leaf, after, hchain, rfl, hleaf, hleaves⟩ := hat
  have hlength : ∀ r ∈ it'.currentLeaf.drop it'.currentPos ++ it'.nextLeaves.flatten,
      r.length = it'.max.length := by
    intro r hr
    rw [hleaf, hleaves, ← List.flatMap_def] at hr
    rw [hmax]
    apply hs.leaf.widths
    rw [hchain, stored_around, List.mem_append, List.mem_append]
    exact .inr ((List.mem_append.mp hr).imp_left List.mem_of_mem_drop)
  have hscan := IteratorEnds.BptIter.nextFrom_scan it'.nextLeaves hlength
  refine ⟨it₁, it'.next.2, hnext.trans ?_, hat', ?_⟩
  · exact congrArg (fun result => some (result.1, it₁)) hscan
  · exact congrArg Prod.snd hscan

theorem Stands.scan (hs : files.Stands n sep chain) (min : Tuple) (hmax : max.length = n) :
    ∃ it out, getRange n files min max = some it ∧ Exhausts (next n files) it out ∧
      out.Pairwise (· < ·) ∧ ∀ r, r ∈ out ↔ r ∈ stored chain ∧ min ≤ r ∧ r ≤ max := by
  obtain ⟨before, leaf, after, rfl, hsearch, _, hbelongs⟩ := hs.search min
  -- the leaf that the search ends at, cut at the position
  obtain ⟨a, b, hlive, hdrop, ha, hb⟩ : ∃ a b, leaf.live = a ++ b ∧
      leaf.live.drop (searchIndex min (files.leaf.page n leaf.number)) = b ∧ (∀ r ∈ a, r < min) ∧
      ∀ r ∈ b, min ≤ r := by
    by_cases hne : leaf.live = []
    · exact ⟨[], [], hne, by rw [hne, List.drop_nil], by simp, by simp⟩
    · obtain ⟨a, b, hlive, hindex, ha, hb⟩ := leaf.search ((after.map Leaf.number).headD 0) min
        (hs.leaf.leaf_sorted (by simp)) hne
      exact ⟨a, b, hlive, by rw [hs.leaf.page_eq, hindex, hlive, List.drop_left], ha, hb⟩
  have hsorted := hs.leaf.sorted
  rw [stored_cut hlive] at hsorted
  have hsorted' := (List.pairwise_append.mp hsorted).2.1
  have hbelow : ∀ r ∈ stored before ++ a, r < min := List.forall_mem_append.mpr ⟨hbelongs.before, ha⟩
  have habove : ∀ r ∈ b ++ stored after, min ≤ r :=
    List.forall_mem_append.mpr ⟨hb, fun r hr => (hbelongs.after r hr).le⟩
  refine ⟨_, _, by rw [getRange, hsearch, Option.map_some], ?_,
    hsorted'.sublist (List.takeWhile_sublist (· ≤ max)), fun r => ?_⟩
  · refine Exhausts.of_relation (fun it out => ∃ it', At (before ++ leaf :: after) it it' ∧
      it'.max = max ∧ out = it'.scan.records.takeWhile (· ≤ max)) ?_
      ⟨⟨leaf.live, _, after.map Leaf.live, max⟩, ⟨before, leaf, after, rfl, rfl, rfl, rfl⟩, rfl, ?_⟩
    · rintro it _ ⟨it', hat, hmax', rfl⟩
      obtain ⟨it₁, it₁', hnext, hat', hscan⟩ := next_scan hs hat (hmax' ▸ hmax)
      obtain ⟨hhead, htail, hlast⟩ := it'.scan.next_takeWhile
      have hlast' : it'.scan.max = max := hmax'
      rw [hlast'] at hhead htail hlast
      rw [← hscan] at htail hlast
      exact ⟨it₁, hnext.trans (by rw [hhead]), it₁', hat', hlast, htail.symm⟩
    · rw [← hdrop]
      rfl
  · rw [mem_takeWhile_le hsorted', stored_cut hlive, List.mem_append (s := stored before ++ a), ← and_assoc]
    apply and_congr_left
    intro _
    constructor
    · exact fun hr => ⟨.inr hr, habove r hr⟩
    · rintro ⟨hr | hr, hmin⟩
      · exact absurd hmin (not_le.mpr (hbelow r hr))
      · exact hr

end

end BptFiles
end MillenniumDB
