import MillenniumDB.BptInserts

/-!
# The directory under insertions

A leaf that is cut in two hands a key and a new leaf to the page above, and a page that is cut does
the same.  The pages under different children stay apart, so what happens under one child leaves the
others as they were.
-/

namespace MillenniumDB

section

variable {width count minus : Nat}

theorem fastDifference_of_le (hwidth : 32 ≤ width) (hle : minus ≤ count) (hlt : count < 2 ^ 31) :
    fastDifference width count minus = (count : Int) - minus := by
  have hmod : (count + 2 ^ 32 - minus) % 2 ^ 32 = count - minus := by omega
  have hpow : (2 : Nat) ^ 32 ≤ 2 ^ width := Nat.pow_le_pow_right (by decide) hwidth
  rw [fastDifference, hmod, Int.bmod_eq_of_le (by omega) (by omega)]
  omega

end

/-- `append_page` makes a new page each time. -/
def Appends (countPages : Nat → Nat) (appended pages : Nat) : Prop :=
  ∀ k, countPages (appended + k) = pages + k

theorem Appends.succ {countPages : Nat → Nat} {appended pages : Nat}
    (hnew : Appends countPages appended pages) : Appends countPages (appended + 1) (pages + 1) := by
  intro k
  rw [Nat.add_right_comm, Nat.add_assoc, hnew]
  omega

namespace BPlusTreeDir

section

variable {width n : Nat} {page : DirPage} {lower upper : List (Tuple × Int)} {split : SplitData}
  {record : Tuple} {saved : List (Tuple × Int)} {last : Tuple × Int}

theorem dirMaxRecords_le (hn : 0 < n) : dirMaxRecords n ≤ 340 := by
  rw [dirMaxRecords, mdbPageSize, Nat.div_le_iff_le_mul_add_pred (by omega)]
  omega

theorem le_dirMaxRecords (hn : 0 < n) (hle : n ≤ 4) : 113 ≤ dirMaxRecords n := by
  rw [dirMaxRecords, mdbPageSize, Nat.le_div_iff_mul_le (by omega)]
  omega

/-- `search_child_index` counts the keys that are not above the record. -/
theorem searchChildIndex_eq (hsorted : page.keys.Pairwise (· ≤ ·)) {before after : List Tuple}
    (hkeys : page.keys = before ++ after) (hbefore : ∀ k ∈ before, k ≤ record)
    (hafter : ∀ k ∈ after, record < k) : searchChildIndex record page = before.length := by
  have hcount : ∀ {xs ys : List Tuple}, page.keys = xs ++ ys → (∀ k ∈ xs, k ≤ record) →
      (∀ k ∈ ys, record < k) → page.keys.countP (· ≤ record) = xs.length := by
    intro xs ys heq hxs hys
    rw [heq, List.countP_append, List.countP_eq_length.mpr (by simpa using hxs),
      List.countP_eq_zero.mpr (by simpa using hys), Nat.add_zero]
  obtain ⟨lower, upper, hsplit, hindex, hlower, hupper⟩ := searchChildIndex_spec record hsorted
  rw [← hindex, ← hcount hsplit hlower hupper, hcount hkeys hbefore hafter]

theorem ofArrays_entries (first : Int) (entries : List (Tuple × Int)) (keys : List Tuple)
    (children : List Int) : ofArrays entries.length (entries.map Prod.fst ++ keys)
      (first :: (entries.map Prod.snd ++ children)) = ⟨first, entries⟩ := by
  rw [ofArrays, List.headD_cons, List.tail_cons, List.zip_append (by simp)]
  congr 1
  rw [List.take_left' (by simp)]
  exact (List.zip_of_prod rfl rfl).symm

theorem putEntry_eq (hn : 0 < n) (hentries : page.entries = lower ++ upper)
    (hroom : page.keyCount < dirMaxRecords n) (hwidth : 32 ≤ width)
    (hkeyed : width = 32 ∨ 0 < page.keyCount) :
    putEntry width n split lower.length page =
      some ⟨page.firstChild, lower ++ (split.record, split.encodedPageNumber) :: upper⟩ := by
  have hmax := dirMaxRecords_le hn
  have hcount : page.keyCount = lower.length + upper.length := by
    rw [DirPage.keyCount, hentries, List.length_append]
  obtain ⟨room, hr⟩ : ∃ room, dirMaxRecords n - page.keyCount = room + 1 :=
    Nat.exists_eq_add_one_of_ne_zero (by omega)
  have hone : fastDifference width page.keyCount 1 + 1 = lower.length + upper.length := by
    rcases Nat.eq_zero_or_pos page.keyCount with hzero | hpos
    · obtain rfl : width = 32 := by omega
      rw [hzero, show fastDifference 32 0 1 = -1 by decide]
      omega
    · rw [fastDifference_of_le hwidth hpos (by omega)]
      omega
  have hkeys := putShifting_append (lower.map Prod.fst) (upper.map Prod.fst)
    (List.replicate room []) split.record [] (fastDifference width page.keyCount 1)
    (by rw [List.length_map, List.length_map, hone])
  have hchildren := putShifting_append (page.firstChild :: lower.map Prod.snd)
    (upper.map Prod.snd) (List.replicate room 0) split.encodedPageNumber 0
    (fastDifference width page.keyCount 0) (by
      rw [fastDifference_of_le hwidth (Nat.zero_le _) (by omega), List.length_cons,
        List.length_map, List.length_map, hcount]
      push_cast
      omega)
  have hlen : (page.firstChild :: lower.map Prod.snd).length = lower.length + 1 := by simp
  have harray : page.keyCount + 1 =
      (lower ++ (split.record, split.encodedPageNumber) :: upper).length := by
    rw [hcount, List.length_append, List.length_cons]
    omega
  rw [List.length_map] at hkeys
  rw [hlen] at hchildren
  rw [putEntry, hr, List.replicate_succ, List.replicate_succ, DirPage.keys, DirPage.children,
    hentries, List.map_append, List.map_append, hkeys, Option.bind_some, ← List.cons_append,
    hchildren, Option.map_some, harray]
  have heq := ofArrays_entries page.firstChild
    (lower ++ (split.record, split.encodedPageNumber) :: upper) (List.replicate room [])
    (List.replicate room 0)
  simp only [List.map_append, List.map_cons] at heq
  rw [← heq]
  simp

/-- In a page without keys the loop begins far behind the page. -/
theorem putEntry_outside (hn : 0 < n) (hwidth : 32 < width) (hempty : page.keyCount = 0) :
    putEntry width n split 0 page = none := by
  have hmax := dirMaxRecords_le hn
  have hpow : (2 : Nat) ^ 33 ≤ 2 ^ width := Nat.pow_le_pow_right (by decide) hwidth
  have hstop : fastDifference width page.keyCount 1 = 2 ^ 32 - 1 := by
    rw [hempty, fastDifference, Int.bmod_eq_of_le (by omega) (by omega)]
    rfl
  have hkeys : page.keys.length = page.keyCount := List.length_map ..
  rw [putEntry, hstop, putShifting_outside _ (by decide), Option.bind_none]
  rw [List.length_append, List.length_replicate, hkeys, hempty]
  omega

theorem putSavingEntry_eq (hn : 0 < n) (hentries : page.entries = lower ++ upper)
    (hall : lower ++ (split.record, split.encodedPageNumber) :: upper = saved ++ [last])
    (hmin : 2 ≤ page.keyCount) (hmax : page.keyCount ≤ dirMaxRecords n) (hwidth : 32 ≤ width) :
    putSavingEntry width split lower.length page =
      some (saved.map Prod.fst, last.1, page.firstChild :: saved.map Prod.snd, last.2) := by
  have hle := dirMaxRecords_le hn
  have hcount : page.keyCount = lower.length + upper.length := by
    rw [DirPage.keyCount, hentries, List.length_append]
  have hkeys := congrArg (List.map Prod.fst) hall
  have hchildren := congrArg (fun entries => page.firstChild :: entries.map Prod.snd) hall
  simp only [List.map_append, List.map_cons, List.map_nil, ← List.cons_append] at hkeys hchildren
  have hputKeys := putSaving_append page.keyCount (fastDifference width page.keyCount 2) hkeys
    (by rw [List.length_map, List.length_map, hcount])
    (by rw [fastDifference_of_le hwidth hmin (by omega)]; omega)
  have hputChildren := putSaving_append (page.keyCount + 1)
    (fastDifference width page.keyCount 1) hchildren
    (by rw [List.length_cons, List.length_map, List.length_map, hcount]; omega)
    (by rw [fastDifference_of_le hwidth (by omega) (by omega)]; push_cast; omega)
  rw [List.length_map] at hputKeys
  rw [List.length_cons, List.length_map, List.cons_append] at hputChildren
  rw [putSavingEntry, DirPage.keys, DirPage.children, hentries, List.map_append, List.map_append,
    hputKeys, Option.bind_some, hputChildren, Option.map_some]

variable {countPages : Nat → Nat} {file : DirFile} {p : Nat} {cut rest : List (Tuple × Int)}
  {middleKey : Tuple} {middleChild : Int}

theorem placeSplit_room (hn : 0 < n) (hwidth : 32 ≤ width) (hpage : file.pages.getD p .zero = page)
    (hentries : page.entries = lower ++ upper)
    (hindex : searchChildIndex split.record page = lower.length)
    (hroom : page.keyCount < dirMaxRecords n) (hkeyed : width = 32 ∨ 0 < page.keyCount) :
    placeSplit width n countPages p split file = .ok (none, { file with
      pages := file.pages.set p
        ⟨page.firstChild, lower ++ (split.record, split.encodedPageNumber) :: upper⟩ }) := by
  rw [placeSplit]
  simp only [hpage, hindex, if_pos hroom, putEntry_eq hn hentries hroom hwidth hkeyed]

theorem placeSplit_outside (countPages : Nat → Nat) (hn : 0 < n) (hwidth : 32 < width)
    (hpage : file.pages.getD p .zero = page) (hempty : page.keyCount = 0)
    (hindex : searchChildIndex split.record page = 0) (hroom : page.keyCount < dirMaxRecords n) :
    placeSplit width n countPages p split file = .error .outsidePage := by
  rw [placeSplit]
  simp only [hpage, hindex, if_pos hroom, putEntry_outside hn hwidth hempty]

theorem parts_of_array {α : Type} (xs : List α) (x : α) (ys : List α) {m : Nat} (hlen : xs.length = m) :
    (xs ++ x :: ys).take m = xs ∧ (xs ++ x :: ys).drop m = x :: ys ∧
      (xs ++ x :: ys).drop (m + 1) = ys ∧ ∀ y, (xs ++ x :: ys).getD m y = x := by
  subst hlen
  refine ⟨List.take_left, List.drop_left, ?_, fun y => ?_⟩
  · rw [List.append_cons, List.drop_left' (by simp)]
  · simp

theorem placeSplit_full (countPages : Nat → Nat) (hn : 0 < n) (hle : n ≤ 4) (hwidth : 32 ≤ width)
    (hpage : file.pages.getD p .zero = page) (hentries : page.entries = lower ++ upper)
    (hindex : searchChildIndex split.record page = lower.length)
    (hfull : page.keyCount = dirMaxRecords n)
    (hall : lower ++ (split.record, split.encodedPageNumber) :: upper =
      cut ++ (middleKey, middleChild) :: rest)
    (hcut : cut.length = (dirMaxRecords n + 1) / 2) :
    placeSplit width n countPages p split file =
      if p = 0 then
        let appended := appendPage countPages file
        let appended' := appendPage countPages appended.2
        .ok (none, { appended'.2 with
          pages := ((appended'.2.pages.set appended.1 ⟨page.firstChild, cut⟩).set appended'.1
            ⟨middleChild, rest⟩).set p ⟨-appended.1, [(middleKey, -appended'.1)]⟩ })
      else
        let appended := appendPage countPages file
        .ok (some ⟨middleKey, -appended.1⟩, { appended.2 with
          pages := (appended.2.pages.set appended.1 ⟨middleChild, rest⟩).set p
            ⟨page.firstChild, cut⟩ }) := by
  have hmin := le_dirMaxRecords hn hle
  have hlength := congrArg List.length hall
  have hcount : page.keyCount = lower.length + upper.length := by
    rw [DirPage.keyCount, hentries, List.length_append]
  rw [List.length_append, List.length_append, List.length_cons, List.length_cons] at hlength
  obtain ⟨rest, last, rfl⟩ : ∃ rest' last, rest = rest' ++ [last] := by
    rcases List.eq_nil_or_concat rest with rfl | ⟨rest', last, hlast⟩
    · rw [List.length_nil] at hlength
      omega
    · exact ⟨rest', last, by rw [hlast, List.concat_eq_append]⟩
  rw [List.length_append, List.length_singleton] at hlength
  have hsaved : lower ++ (split.record, split.encodedPageNumber) :: upper =
      (cut ++ (middleKey, middleChild) :: rest) ++ [last] := by
    rw [hall, List.append_assoc, List.cons_append]
  have hleft := ofArrays_entries page.firstChild cut [] []
  have hright := ofArrays_entries middleChild (rest ++ [last]) [] []
  -- the arrays of the halves
  obtain ⟨hcutKeys, _, hkeys, hmiddle⟩ := parts_of_array (cut.map Prod.fst) middleKey
    (rest.map Prod.fst) (by simpa using hcut)
  obtain ⟨hcutChildren, hchildren, _, _⟩ := parts_of_array (cut.map Prod.snd) middleChild
    (rest.map Prod.snd) (by simpa using hcut)
  have hkeysLength : (rest.map Prod.fst).take
      (dirMaxRecords n - ((dirMaxRecords n + 1) / 2 + 1)) = rest.map Prod.fst := by
    rw [List.take_of_length_le (by simp; omega)]
  have hchildrenLength : (middleChild :: rest.map Prod.snd).take
      (dirMaxRecords n - (dirMaxRecords n + 1) / 2) = middleChild :: rest.map Prod.snd := by
    rw [List.take_of_length_le (by simp; omega)]
  have hrestLength : dirMaxRecords n - (dirMaxRecords n + 1) / 2 = (rest ++ [last]).length := by
    rw [List.length_append, List.length_singleton]
    omega
  simp only [List.append_nil, List.map_append, List.map_cons, List.map_nil] at hleft hright
  rw [placeSplit]
  simp only [hpage, hindex, hfull, lt_irrefl, if_false, List.map_append, List.map_cons,
    putSavingEntry_eq hn hentries hsaved (by omega) hfull.le hwidth, hkeys, hmiddle, hcutKeys,
    List.take_succ_cons, List.drop_succ_cons, hcutChildren, hchildren, hkeysLength, hchildrenLength]
  rw [hrestLength, List.cons_append, hright, ← hcut, hleft]

end
def Spanned (sep : Nat → Tuple) (holds : Int → List Nat → Prop) (entry : Tuple × Int)
    (part : List Nat) : Prop :=
  entry.1 = sep (part.headD 0) ∧ holds entry.2 part

theorem forall₂_append_left {α β : Type} {R : α → β → Prop} {xs ys : List α} {zs : List β}
    (hall : List.Forall₂ R (xs ++ ys) zs) :
    ∃ front back, zs = front ++ back ∧ List.Forall₂ R xs front ∧ List.Forall₂ R ys back := by
  induction xs generalizing zs with
  | nil => exact ⟨[], zs, rfl, .nil, hall⟩
  | cons x xs ih =>
    cases hall with
    | cons hx hall =>
      obtain ⟨front, back, rfl, hfront, hback⟩ := ih hall
      exact ⟨_ :: front, back, rfl, .cons hx hfront, hback⟩

section

variable {h k p q : Nat} {sep sep' : Nat → Tuple} {pages pages' : List DirPage} {own : Set Nat}
  {page : DirPage} {child : Int} {leaves leaves' : List Nat} {holds holds' : Int → List Nat → Prop}
  {entries : List (Tuple × Int)} {parts : List (List Nat)}

theorem forall₂_spanned : List.Forall₂ (Spanned sep holds) entries parts ↔
    List.Forall₂ holds (entries.map Prod.snd) parts ∧
      entries.map Prod.fst = parts.map fun part => sep (part.headD 0) := by
  induction entries generalizing parts with
  | nil => cases parts <;> simp
  | cons entry entries ih =>
    cases parts with
    | nil => simp
    | cons part parts =>
      simp only [List.forall₂_cons, ih, Spanned, List.map_cons, List.cons.injEq]
      tauto

/-- The first child is given a key too, the separator of all that is below the page. -/
theorem under_iff : Under sep holds page leaves ↔ ∃ key parts, leaves = parts.flatten ∧
    List.Forall₂ (Spanned sep holds) ((key, page.firstChild) :: page.entries) parts := by
  constructor
  · rintro ⟨parts, rfl, hchildren, hkeys⟩
    cases parts with
    | nil => cases hchildren
    | cons part parts =>
      refine ⟨sep (part.headD 0), _, rfl, forall₂_spanned.mpr ⟨hchildren, ?_⟩⟩
      exact congrArg (sep (part.headD 0) :: ·) hkeys
  · rintro ⟨key, parts, rfl, hall⟩
    obtain ⟨hchildren, hkeys⟩ := forall₂_spanned.mp hall
    exact ⟨parts, rfl, hchildren, (congrArg List.tail hkeys).trans (List.map_tail ..).symm⟩

theorem spanned_mono (hall : List.Forall₂ (Spanned sep holds) entries parts)
    (hne : ∀ child part, holds child part → part ≠ [])
    (hholds : ∀ child part, part ⊆ parts.flatten → holds child part → holds' child part)
    (hsep : ∀ leaf ∈ parts.flatten, sep' leaf = sep leaf) :
    List.Forall₂ (Spanned sep' holds') entries parts := by
  induction hall with
  | nil => exact .nil
  | @cons entry part entries parts hentry _ ih =>
    obtain ⟨x, xs, rfl⟩ := List.exists_cons_of_ne_nil (hne _ _ hentry.2)
    rw [List.flatten_cons] at hholds hsep
    refine .cons ⟨?_, hholds _ _ (List.subset_append_left _ _) hentry.2⟩ (ih ?_ ?_)
    · rw [hentry.1, List.headD_cons, hsep x (by simp)]
    · exact fun child part hsub => hholds child part (List.subset_append_of_subset_right _ hsub)
    · exact fun leaf hleaf => hsep leaf (List.mem_append_right _ hleaf)

theorem Under.mono (hu : Under sep holds page leaves)
    (hne : ∀ child part, holds child part → part ≠ [])
    (hholds : ∀ child part, part ⊆ leaves → holds child part → holds' child part)
    (hsep : ∀ leaf ∈ leaves, sep' leaf = sep leaf) : Under sep' holds' page leaves := by
  obtain ⟨key, parts, rfl, hall⟩ := under_iff.mp hu
  exact under_iff.mpr ⟨key, parts, rfl, spanned_mono hall hne hholds hsep⟩

theorem Holds.unique : Relator.RightUnique (Holds sep pages own h) := by
  induction h with
  | zero =>
    intro child leaves leaves' hh hh'
    obtain ⟨leaf, hleaf, rfl⟩ := hh
    obtain ⟨leaf', hleaf', rfl⟩ := hh'
    rw [Int.natCast_inj.mp (hleaf.symm.trans hleaf')]
  | succ h ih =>
    intro child leaves leaves' hh hh'
    obtain ⟨p, page, hp, _, _, hget, parts, rfl, hparts, _⟩ := hh
    obtain ⟨p', page', hp', _, _, hget', parts', rfl, hparts', _⟩ := hh'
    obtain rfl : p = p' := by omega
    obtain rfl := Option.some.inj (hget.symm.trans hget')
    rw [List.right_unique_forall₂' ih hparts hparts']

theorem PageHolds.unique (hpage : PageHolds sep pages own h p leaves)
    (hpage' : PageHolds sep pages own k p leaves') : h = k ∧ leaves = leaves' := by
  obtain rfl := hpage.spine.height_unique hpage'.spine
  obtain ⟨page, hget, parts, rfl, hparts, _⟩ := hpage
  obtain ⟨page', hget', parts', rfl, hparts', _⟩ := hpage'
  obtain rfl := Option.some.inj (hget.symm.trans hget')
  exact ⟨rfl, by rw [List.right_unique_forall₂' Holds.unique hparts hparts']⟩

/-- What is under a child depends on the pages there and on the separators of its leaves. -/
theorem Holds.frame (hh : Holds sep pages own h child leaves)
    (hpages : ∀ k < h, ∀ q part, PageHolds sep pages own k q part → part ⊆ leaves →
      pages'[q]? = pages[q]?)
    (hsep : ∀ leaf ∈ leaves, sep' leaf = sep leaf) : Holds sep' pages' own h child leaves := by
  induction h generalizing child leaves with
  | zero => exact hh
  | succ h ih =>
    obtain ⟨p, page, hchild, hp, hown, hget, hu⟩ := hh
    refine ⟨p, page, hchild, hp, hown, ?_, ?_⟩
    · rw [hpages h (Nat.lt_succ_self h) p leaves ⟨page, hget, hu⟩ (List.Subset.refl _), hget]
    · apply hu.mono (fun _ _ => Holds.ne_nil) _ hsep
      intro child part hsub hchild
      apply ih hchild
      · exact fun k hk q part' hq hpart => hpages k (by omega) q part' hq (List.Subset.trans hpart hsub)
      · exact fun leaf hleaf => hsep leaf (hsub hleaf)

/-- A page is not below itself, so what is under its children does not depend on it. -/
theorem Under.same (hu : Under sep (Holds sep pages own h) page leaves)
    (hspine : BPTDirWriter.Spine pages p h)
    (hsame : ∀ q < pages.length, q ≠ p → pages'[q]? = pages[q]?) :
    Under sep (Holds sep pages' own h) page leaves := by
  apply hu.mono (fun _ _ => Holds.ne_nil) _ fun _ _ => rfl
  intro child part _ hchild
  apply hchild.frame _ fun _ _ => rfl
  intro k hk q part' hq _
  apply hsame q hq.spine.lt_length
  rintro rfl
  have := hq.spine.height_unique hspine
  omega

theorem Under.cut {first middleChild : Int} {middleKey : Tuple} {front rest : List (Tuple × Int)}
    (hu : Under sep (Holds sep pages own h) ⟨first, front ++ (middleKey, middleChild) :: rest⟩ leaves) :
    ∃ l₁ l₂, leaves = l₁ ++ l₂ ∧ Under sep (Holds sep pages own h) ⟨first, front⟩ l₁ ∧
      Under sep (Holds sep pages own h) ⟨middleChild, rest⟩ l₂ ∧ middleKey = sep (l₂.headD 0) := by
  obtain ⟨key, parts, rfl, hall⟩ := under_iff.mp hu
  rw [← List.cons_append] at hall
  obtain ⟨left, right, rfl, hleft, hright⟩ := forall₂_append_left hall
  refine ⟨_, _, List.flatten_append, under_iff.mpr ⟨key, left, rfl, hleft⟩,
    under_iff.mpr ⟨middleKey, right, rfl, hright⟩, ?_⟩
  cases hright with
  | cons hmiddle _ =>
    obtain ⟨x, xs, rfl⟩ := List.exists_cons_of_ne_nil hmiddle.2.ne_nil
    exact hmiddle.1

theorem Under.exists_child {record : Tuple} {m : Nat}
    (hu : Under sep (Holds sep pages own h) page leaves)
    (hsorted : (leaves.tail.map sep).Pairwise (· ≤ ·)) (hrouted : Routed sep record leaves m) :
    ∃ key low entry high lowParts part highParts,
      (key, page.firstChild) :: page.entries = low ++ entry :: high ∧
      page.children[searchChildIndex record page]? = some entry.2 ∧
      List.Forall₂ (Spanned sep (Holds sep pages own h)) low lowParts ∧
      Spanned sep (Holds sep pages own h) entry part ∧
      List.Forall₂ (Spanned sep (Holds sep pages own h)) high highParts ∧
      leaves = lowParts.flatten ++ (part ++ highParts.flatten) ∧ Routed sep record part m := by
  obtain ⟨_, part, _, child, hget, hchild, _, hlift⟩ :=
    hu.search record (fun _ _ => Holds.ne_nil) hsorted
  obtain ⟨x, hx⟩ := exists_routed sep record hchild.ne_nil
  obtain rfl : x = m := (hlift x hx).unique hrouted
  obtain ⟨key, parts, rfl, hall⟩ := under_iff.mp hu
  have hget' : (((key, page.firstChild) :: page.entries).map Prod.snd)[searchChildIndex record page]? =
    some child := hget
  rw [List.getElem?_map] at hget'
  obtain ⟨entry, hentry, rfl⟩ := Option.map_eq_some_iff.mp hget'
  obtain ⟨hlt, hentry⟩ := List.getElem?_eq_some_iff.mp hentry
  have hsplit := (List.take_append_drop (searchChildIndex record page)
    ((key, page.firstChild) :: page.entries)).symm
  rw [List.drop_eq_getElem_cons hlt, hentry] at hsplit
  rw [hsplit] at hall
  obtain ⟨lowParts, rest, rfl, hlow, hrest⟩ := forall₂_append_left hall
  cases hrest with
  | @cons _ part' _ highParts hpart hhigh =>
    obtain rfl := Holds.unique hpart.2 hchild
    exact ⟨key, _, entry, _, lowParts, part', highParts, hsplit, hget, hlow, hpart, hhigh,
      by simp, hx⟩

/-- A child with the leaves under it: it holds them all, or only the first of them, and what comes up
holds the others. -/
def ChildAfter (h : Nat) (sep : Nat → Tuple) (pages : List DirPage) (child : Int)
    (leaves : List Nat) : Option SplitData → Prop
  | none => Holds sep pages Set.univ h child leaves
  | some split => ∃ l₁ l₂, leaves = l₁ ++ l₂ ∧ Holds sep pages Set.univ h child l₁ ∧
      Holds sep pages Set.univ h split.encodedPageNumber l₂ ∧ split.record = sep (l₂.headD 0)

/-- A page with the leaves under its children: it is as it has to be, or it has to take what has come
up between two of its entries. -/
def PageAfter (h : Nat) (sep : Nat → Tuple) (pages : List DirPage) (page : DirPage)
    (leaves : List Nat) : Option SplitData → Prop
  | none => Under sep (Holds sep pages Set.univ h) page leaves
  | some split => ∃ lower upper, page.entries = lower ++ upper ∧
      (∃ old, Under sep (Holds sep pages Set.univ h) page old) ∧
      Under sep (Holds sep pages Set.univ h)
        ⟨page.firstChild, lower ++ (split.record, split.encodedPageNumber) :: upper⟩ leaves

theorem pageAfter_of_childAfter {key : Tuple} {low high : List (Tuple × Int)} {entry : Tuple × Int}
    {lowParts highParts : List (List Nat)} {part : List Nat} {o : Option SplitData}
    (hentries : (key, page.firstChild) :: page.entries = low ++ entry :: high)
    (hlow : List.Forall₂ (Spanned sep (Holds sep pages Set.univ h)) low lowParts)
    (hhigh : List.Forall₂ (Spanned sep (Holds sep pages Set.univ h)) high highParts)
    (hkey : entry.1 = sep (part.headD 0)) (hchild : ChildAfter h sep pages entry.2 part o) :
    PageAfter h sep pages page (lowParts.flatten ++ (part ++ highParts.flatten)) o := by
  cases o with
  | none =>
    refine under_iff.mpr ⟨key, lowParts ++ part :: highParts, by simp, ?_⟩
    rw [hentries]
    exact List.rel_append hlow (.cons ⟨hkey, hchild⟩ hhigh)
  | some split =>
    obtain ⟨l₁, l₂, rfl, hleft, hright, hrecord⟩ := hchild
    obtain ⟨x, xs, rfl⟩ := List.exists_cons_of_ne_nil hleft.ne_nil
    have hold : Spanned sep (Holds sep pages Set.univ h) entry (x :: xs) := ⟨hkey, hleft⟩
    have hbefore := List.rel_append hlow (.cons hold hhigh)
    dsimp only at hbefore
    rw [← hentries] at hbefore
    obtain ⟨front, hfront⟩ : ∃ front, low ++ [entry] = (key, page.firstChild) :: front := by
      cases low with
      | nil => exact ⟨[], by rw [(List.cons.inj hentries).1, List.nil_append]⟩
      | cons first low => exact ⟨low ++ [entry], by rw [(List.cons.inj hentries).1, List.cons_append]⟩
    rw [List.append_cons, hfront, List.cons_append] at hentries
    refine ⟨front, high, (List.cons.inj hentries).2, ⟨_, under_iff.mpr ⟨key, _, rfl, hbefore⟩⟩,
      under_iff.mpr ⟨key, lowParts ++ (x :: xs) :: l₂ :: highParts, by simp, ?_⟩⟩
    have hnew : Spanned sep (Holds sep pages Set.univ h) (split.record, split.encodedPageNumber) l₂ :=
      ⟨hrecord, hright⟩
    have hall := List.rel_append hlow (.cons hold (.cons hnew hhigh))
    dsimp only at hall
    rwa [List.append_cons, hfront, List.cons_append] at hall

end

end BPlusTreeDir
end MillenniumDB
