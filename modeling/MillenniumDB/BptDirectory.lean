import MillenniumDB.BptWriter
import MillenniumDB.Lib.Routing
import Mathlib.Data.List.Forall2
import Mathlib.Data.Set.Insert
import Mathlib.Data.Fintype.Card
import Mathlib.Tactic.Choose

/-!
# Searching the directory of a B+ tree

`search_leaf` follows the children of directory pages down to a leaf.  A directory holds the leaves
of a tree in order, all at one depth, and a key in it separates the leaf behind it from the one
before.
-/

namespace MillenniumDB

namespace DirPage

def keys (page : DirPage) : List Tuple := page.entries.map Prod.fst

def children (page : DirPage) : List Int := page.firstChild :: page.entries.map Prod.snd

end DirPage

namespace BPlusTreeDir

/-- The loop of `search_child_index`, with fuel for the keys between the two bounds. -/
def searchChildIndexLoop (record : Tuple) (keys : List Tuple) : Nat → Nat → Nat → Nat
  | 0, dirFrom, _ => dirFrom
  | fuel + 1, dirFrom, dirTo =>
    if dirFrom = dirTo then dirFrom
    else
      let middleDir := (dirFrom + dirTo + 1) / 2
      let middleRecord := middleDir - 1
      if record < keys.getD middleRecord [] then
        searchChildIndexLoop record keys fuel dirFrom middleRecord
      else searchChildIndexLoop record keys fuel (middleRecord + 1) dirTo

def searchChildIndex (record : Tuple) (page : DirPage) : Nat :=
  searchChildIndexLoop record page.keys page.keyCount 0 page.keyCount

/-- `search_leaf` from a page, with fuel for the levels: the number of the leaf. -/
def searchLeafAt (record : Tuple) (pages : List DirPage) : Nat → Nat → Option Nat
  | 0, _ => none
  | fuel + 1, dirPageNumber =>
    let page := pages.getD dirPageNumber .zero
    let pagePointer := page.children.getD (searchChildIndex record page) 0
    if pagePointer < 0 then searchLeafAt record pages fuel pagePointer.natAbs
    else some pagePointer.toNat

/-- `search_leaf` from the root. -/
def searchLeaf (record : Tuple) (pages : List DirPage) : Option Nat :=
  searchLeafAt record pages pages.length 0

theorem children_eq (page : DirPage) :
    page.children = page.children.dropLast ++ [page.lastChild] := by
  obtain ⟨first, entries⟩ := page
  induction entries using List.reverseRecOn with
  | nil => rfl
  | append_singleton entries entry _ =>
    simp only [DirPage.children, DirPage.lastChild, List.map_append, List.map_cons, List.map_nil,
      List.getLast?_concat]
    rw [← List.cons_append, List.dropLast_concat]

section

variable {record : Tuple} {keys : List Tuple}

/-- Everything before the outcome is not above the record, everything from it on is. -/
theorem searchChildIndexLoop_spec (hsorted : keys.Pairwise (· ≤ ·)) (fuel : Nat) :
    ∀ {dirFrom dirTo : Nat}, dirFrom ≤ dirTo → dirTo ≤ keys.length → dirTo - dirFrom ≤ fuel →
      (∀ k ∈ keys.take dirFrom, k ≤ record) → (∀ k ∈ keys.drop dirTo, record < k) →
      ∃ lower upper, keys = lower ++ upper ∧
        lower.length = searchChildIndexLoop record keys fuel dirFrom dirTo ∧
        (∀ k ∈ lower, k ≤ record) ∧ ∀ k ∈ upper, record < k := by
  have hdone : ∀ {i : Nat}, i ≤ keys.length → (∀ k ∈ keys.take i, k ≤ record) →
      (∀ k ∈ keys.drop i, record < k) → ∃ lower upper, keys = lower ++ upper ∧
        lower.length = i ∧ (∀ k ∈ lower, k ≤ record) ∧ ∀ k ∈ upper, record < k := by
    intro i hi hlower hupper
    exact ⟨_, _, (List.take_append_drop i keys).symm, by simpa using hi, hlower, hupper⟩
  induction fuel with
  | zero =>
    intro dirFrom dirTo hle hlen hfuel hlower hupper
    obtain rfl : dirFrom = dirTo := by omega
    exact hdone hlen hlower hupper
  | succ fuel ih =>
    intro dirFrom dirTo hle hlen hfuel hlower hupper
    rw [searchChildIndexLoop]
    by_cases heq : dirFrom = dirTo
    · rw [if_pos heq]
      subst heq
      exact hdone hlen hlower hupper
    rw [if_neg heq]
    dsimp only
    have hmiddle : dirFrom ≤ (dirFrom + dirTo + 1) / 2 - 1 := by omega
    have hmiddle' : (dirFrom + dirTo + 1) / 2 - 1 < dirTo := by omega
    generalize (dirFrom + dirTo + 1) / 2 - 1 = m at hmiddle hmiddle'
    have hm : m < keys.length := by omega
    have hget : keys.getD m [] = keys[m] := (List.getElem_eq_getD []).symm
    rw [hget]
    by_cases hlt : record < keys[m]
    · rw [if_pos hlt]
      apply ih hmiddle hm.le (by omega) hlower
      intro k hk
      rw [List.drop_eq_getElem_cons hm] at hk
      rcases List.mem_cons.mp hk with rfl | hk
      · exact hlt
      · apply lt_of_lt_of_le hlt
        have hdrop := hsorted.drop (i := m)
        rw [List.drop_eq_getElem_cons hm] at hdrop
        exact List.rel_of_pairwise_cons hdrop hk
    · rw [if_neg hlt]
      apply ih hmiddle' hlen (by omega) ?_ hupper
      intro k hk
      rw [← List.take_append_getElem hm, List.mem_append, List.mem_singleton] at hk
      rcases hk with hk | rfl
      · have htake := hsorted.take (i := m + 1)
        rw [← List.take_append_getElem hm] at htake
        exact ((List.pairwise_append.mp htake).2.2 k hk _ (by simp)).trans (not_lt.mp hlt)
      · exact not_lt.mp hlt

theorem searchChildIndex_spec (record : Tuple) {page : DirPage}
    (hsorted : page.keys.Pairwise (· ≤ ·)) :
    ∃ lower upper, page.keys = lower ++ upper ∧ lower.length = searchChildIndex record page ∧
      (∀ k ∈ lower, k ≤ record) ∧ ∀ k ∈ upper, record < k := by
  have hlen : page.keyCount = page.keys.length := by simp [DirPage.keyCount, DirPage.keys]
  rw [searchChildIndex, hlen]
  apply searchChildIndexLoop_spec hsorted _ (Nat.zero_le _) le_rfl (by omega)
  · simp
  · simp

end

/- `Holds` is about a child of a page: a leaf by itself, or the leaves under a page of the directory.
The pages under a child lie in a set, so that it is clear which pages may change. -/

section

variable {sep : Nat → Tuple} {pages : List DirPage} {own : Set Nat} {record : Tuple}
  {page : DirPage} {leaves : List Nat} {h p : Nat} {child : Int}

/-- The children of a page hold the leaves, and each key is the separator of the child after it. -/
def Under (sep : Nat → Tuple) (holds : Int → List Nat → Prop) (page : DirPage)
    (leaves : List Nat) : Prop :=
  ∃ parts : List (List Nat), leaves = parts.flatten ∧ List.Forall₂ holds page.children parts ∧
    page.keys = parts.tail.map fun part => sep (part.headD 0)

/-- The leaves under a child, all of them `h` levels below. -/
def Holds (sep : Nat → Tuple) (pages : List DirPage) (own : Set Nat) :
    Nat → Int → List Nat → Prop
  | 0, child, leaves => ∃ leaf : Nat, child = leaf ∧ leaves = [leaf]
  | h + 1, child, leaves => ∃ (p : Nat) (page : DirPage), child = -p ∧ 0 < p ∧ p ∈ own ∧
      pages[p]? = some page ∧ Under sep (Holds sep pages own h) page leaves

def PageHolds (sep : Nat → Tuple) (pages : List DirPage) (own : Set Nat) (h p : Nat)
    (leaves : List Nat) : Prop :=
  ∃ page, pages[p]? = some page ∧ Under sep (Holds sep pages own h) page leaves

theorem parts_ne_nil {holds : Int → List Nat → Prop} {children : List Int}
    {parts : List (List Nat)} (hne : ∀ child part, holds child part → part ≠ [])
    (hparts : List.Forall₂ holds children parts) : ∀ part ∈ parts, part ≠ [] := by
  induction hparts with
  | nil => simp
  | cons hpart _ ih => exact List.forall_mem_cons.mpr ⟨hne _ _ hpart, ih⟩

theorem Under.ne_nil {holds : Int → List Nat → Prop}
    (hne : ∀ child part, holds child part → part ≠ []) (hu : Under sep holds page leaves) :
    leaves ≠ [] := by
  obtain ⟨parts, rfl, hchildren, _⟩ := hu
  cases hchildren with
  | cons hfirst _ =>
    rw [List.flatten_cons]
    exact List.append_ne_nil_of_left_ne_nil (hne _ _ hfirst) _

theorem Holds.ne_nil (hh : Holds sep pages own h child leaves) : leaves ≠ [] := by
  induction h generalizing child leaves with
  | zero =>
    obtain ⟨leaf, _, rfl⟩ := hh
    exact List.cons_ne_nil _ _
  | succ h ih =>
    obtain ⟨p, page, _, _, _, _, hu⟩ := hh
    exact hu.ne_nil fun child part => ih

theorem heads_sublist_flatten {parts : List (List Nat)} (hne : ∀ part ∈ parts, part ≠ []) :
    (parts.map fun part => part.headD 0).Sublist parts.flatten := by
  induction parts with
  | nil => exact .slnil
  | cons part parts ih =>
    cases part with
    | nil => exact absurd rfl (hne [] List.mem_cons_self)
    | cons x part =>
      rw [List.map_cons, List.flatten_cons, List.cons_append]
      apply List.Sublist.cons_cons
      exact (ih fun q hq => hne q (List.mem_cons_of_mem _ hq)).trans
        (List.sublist_append_right part _)

theorem Under.keys_sublist {holds : Int → List Nat → Prop}
    (hne : ∀ child part, holds child part → part ≠ []) (hu : Under sep holds page leaves) :
    page.keys.Sublist (leaves.tail.map sep) := by
  obtain ⟨parts, rfl, hchildren, hkeys⟩ := hu
  have hparts := parts_ne_nil hne hchildren
  rw [hkeys]
  cases parts with
  | nil => exact List.Sublist.refl _
  | cons part parts =>
    rw [List.tail_cons, ← Function.comp_def sep, ← List.map_map]
    apply List.Sublist.map
    refine (heads_sublist_flatten fun q hq => hparts q (List.mem_cons_of_mem _ hq)).trans ?_
    cases part with
    | nil => exact absurd rfl (hparts [] List.mem_cons_self)
    | cons x part =>
      rw [List.flatten_cons, List.cons_append, List.tail_cons]
      exact List.sublist_append_right part _

theorem append_cons_of_forall₂ {R : Int → List Nat → Prop} {xs : List Int}
    {before after : List (List Nat)} {part : List Nat}
    (hall : List.Forall₂ R xs (before ++ part :: after)) :
    ∃ x, xs[before.length]? = some x ∧ R x part := by
  induction before generalizing xs with
  | nil =>
    cases hall with
    | cons hx _ => exact ⟨_, rfl, hx⟩
  | cons first before ih =>
    cases hall with
    | cons _ hall => simpa using ih hall

/-- The child that `search_child_index` finds in a page, and where its leaves lie. -/
theorem Under.search (record : Tuple) {holds : Int → List Nat → Prop}
    (hne : ∀ child part, holds child part → part ≠ []) (hu : Under sep holds page leaves)
    (hsorted : (leaves.tail.map sep).Pairwise (· ≤ ·)) :
    ∃ before part after child, page.children[searchChildIndex record page]? = some child ∧
      holds child part ∧ leaves = (before ++ part :: after).flatten ∧
      ∀ leaf, Routed sep record part leaf → Routed sep record leaves leaf := by
  obtain ⟨lower, upper, hsplit, hindex, hlower, hupper⟩ :=
    searchChildIndex_spec record (List.Pairwise.sublist (hu.keys_sublist hne) hsorted)
  obtain ⟨parts, rfl, hchildren, hkeys⟩ := hu
  have hparts := parts_ne_nil hne hchildren
  obtain ⟨first, rest, rfl⟩ : ∃ first rest, parts = first :: rest := by
    cases hchildren with
    | cons _ _ => exact ⟨_, _, rfl⟩
  rw [List.tail_cons] at hkeys
  -- the keys up to the index are those of `lower`
  obtain ⟨low, high, rfl, hlow, hhigh⟩ := List.map_eq_append_iff.mp (hkeys.symm.trans hsplit)
  obtain ⟨before, part, hbefore, hlast⟩ : ∃ before part, first :: low = before ++ [part] ∧
      before.length = lower.length := by
    refine ⟨(first :: low).dropLast, (first :: low).getLast (List.cons_ne_nil _ _),
      (List.dropLast_append_getLast _).symm, ?_⟩
    simp [← hlow]
  have hall : first :: (low ++ high) = before ++ part :: high := by
    rw [← List.cons_append, hbefore, List.append_assoc, List.singleton_append]
  rw [hall] at hchildren hparts hsorted ⊢
  obtain ⟨child, hget, hchild⟩ := append_cons_of_forall₂ hchildren
  refine ⟨before, part, high, child, by rw [← hindex, ← hlast, hget], hchild, rfl, ?_⟩
  intro leaf hleaf
  apply hleaf.flatten
  · -- what comes after the part comes after a first leaf
    apply List.Pairwise.sublist _ hsorted
    apply List.Sublist.map
    rw [List.flatten_append, List.flatten_cons, ← List.append_assoc]
    obtain ⟨x, xs, hx⟩ : ∃ x xs, before.flatten ++ part = x :: xs :=
      List.exists_cons_of_ne_nil (List.append_ne_nil_of_right_ne_nil _ (hparts part (by simp)))
    rw [hx, List.cons_append, List.tail_cons]
    exact List.sublist_append_right xs _
  · intro hbefore' y hy
    have hmem : part ∈ low := by
      cases before with
      | nil => exact absurd rfl hbefore'
      | cons q before =>
        obtain ⟨_, rfl⟩ := List.cons.inj hbefore
        simp
    apply hlower
    rw [← hlow, List.mem_map]
    exact ⟨part, hmem, by rw [List.headD_eq_head?_getD, hy, Option.getD_some]⟩
  · intro y hy
    cases high with
    | nil => simp at hy
    | cons q high =>
      have hq : q ≠ [] := hparts q (by simp)
      rw [List.flatten_cons, List.head?_append_of_ne_nil _ hq] at hy
      apply hupper
      rw [← hhigh, List.mem_map]
      exact ⟨q, List.mem_cons_self, by rw [List.headD_eq_head?_getD, hy, Option.getD_some]⟩

theorem searchLeafAt_routed (record : Tuple) (hpage : PageHolds sep pages own h p leaves)
    (hsorted : (leaves.tail.map sep).Pairwise (· ≤ ·)) {fuel : Nat} (hfuel : h < fuel) :
    ∃ leaf, searchLeafAt record pages fuel p = some leaf ∧ Routed sep record leaves leaf := by
  induction h generalizing p leaves fuel with
  | zero =>
    obtain ⟨fuel, rfl⟩ := Nat.exists_eq_add_one_of_ne_zero (by omega : fuel ≠ 0)
    obtain ⟨page, hget, hu⟩ := hpage
    obtain ⟨before, part, after, child, hchild, ⟨leaf, rfl, rfl⟩, rfl, hrouted⟩ :=
      hu.search record (fun _ _ => Holds.ne_nil) hsorted
    refine ⟨leaf, ?_, hrouted leaf (routed_singleton sep record leaf)⟩
    simp only [searchLeafAt, BPTDirWriter.getD_of_getElem? hget, List.getD_eq_getElem?_getD,
      hchild, Option.getD_some]
    rw [if_neg (by omega), Int.toNat_natCast]
  | succ h ih =>
    obtain ⟨fuel, rfl⟩ := Nat.exists_eq_add_one_of_ne_zero (by omega : fuel ≠ 0)
    obtain ⟨page, hget, hu⟩ := hpage
    obtain ⟨before, part, after, child, hchild, ⟨q, page', rfl, hq, _, hget', hu'⟩, rfl, hrouted⟩ :=
      hu.search record (fun _ _ => Holds.ne_nil) hsorted
    have hpart : (part.tail.map sep).Pairwise (· ≤ ·) := by
      refine List.Pairwise.sublist (List.Sublist.map _ ?_) hsorted
      rw [List.flatten_append, List.flatten_cons]
      exact ((List.sublist_append_left part _).trans
        (List.sublist_append_right before.flatten _)).tail
    obtain ⟨leaf, hleaf, hroute⟩ := ih ⟨page', hget', hu'⟩ hpart (by omega : h < fuel)
    refine ⟨leaf, ?_, hrouted leaf hroute⟩
    simp only [searchLeafAt, BPTDirWriter.getD_of_getElem? hget, List.getD_eq_getElem?_getD,
      hchild, Option.getD_some]
    rw [if_pos (by omega), Int.natAbs_neg, Int.natAbs_natCast, hleaf]

theorem Under.lastChild {holds : Int → List Nat → Prop} (hu : Under sep holds page leaves) :
    ∃ part, holds page.lastChild part := by
  have hmem : ∀ {children : List Int} {parts : List (List Nat)},
      List.Forall₂ holds children parts → ∀ child ∈ children, ∃ part, holds child part := by
    intro children parts hall
    induction hall with
    | nil => simp
    | cons hpart _ ih => exact List.forall_mem_cons.mpr ⟨⟨_, hpart⟩, ih⟩
  obtain ⟨parts, _, hparts, _⟩ := hu
  apply hmem hparts
  rw [children_eq page]
  simp

theorem PageHolds.spine (hpage : PageHolds sep pages own h p leaves) :
    BPTDirWriter.Spine pages p h := by
  induction h generalizing p leaves with
  | zero =>
    obtain ⟨page, hget, hu⟩ := hpage
    obtain ⟨part, leaf, hleaf, _⟩ := hu.lastChild
    exact .leaf hget (by omega)
  | succ h ih =>
    obtain ⟨page, hget, hu⟩ := hpage
    obtain ⟨part, q, page', hchild, hq, _, hget', hu'⟩ := hu.lastChild
    exact .dir hget hchild hq (ih ⟨page', hget', hu'⟩)

end
end BPlusTreeDir

namespace BPTDirWriter

theorem Spine.exists_of_le {pages : List DirPage} {p h : Nat} (hs : Spine pages p h) :
    ∀ k ≤ h, ∃ q, Spine pages q k := by
  induction hs with
  | leaf hp hlast =>
    intro k hk
    obtain rfl : k = 0 := by omega
    exact ⟨_, .leaf hp hlast⟩
  | dir hp hlast hc hs ih =>
    intro k hk
    rcases Nat.lt_or_eq_of_le hk with hlt | rfl
    · exact ih k (by omega)
    · exact ⟨_, .dir hp hlast hc hs⟩

theorem Spine.height_lt {pages : List DirPage} {p h : Nat} (hs : Spine pages p h) :
    h < pages.length := by
  choose q hq using hs.exists_of_le
  have hinj : Function.Injective fun k : Fin (h + 1) =>
      (⟨q k (Nat.le_of_lt_succ k.isLt), (hq k _).lt_length⟩ : Fin pages.length) := by
    intro j k heq
    have heq' := congrArg Fin.val heq
    dsimp only at heq'
    have hj := hq j (Nat.le_of_lt_succ j.isLt)
    rw [heq'] at hj
    exact Fin.ext (hj.height_unique (hq k (Nat.le_of_lt_succ k.isLt)))
  have hcard := Fintype.card_le_of_injective _ hinj
  rwa [Fintype.card_fin, Fintype.card_fin] at hcard

end BPTDirWriter
end MillenniumDB
