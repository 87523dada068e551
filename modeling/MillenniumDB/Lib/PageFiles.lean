import Mathlib.Order.Nat
import MillenniumDB.Lib.Rearranged

/-!
# Lists on the pages of a file

Pages of one capacity hold a list when each is full but the last.  A writer that goes to the next
page when one is full keeps to this, and a list that is sorted run by run becomes sorted in runs
twice as long when neighbours are merged.
-/

namespace MillenniumDB

abbrev PageFile (α : Type*) := Nat → List α

def pageOf {α : Type*} (cap : Nat) (all : List α) (page : Nat) : List α :=
  (all.drop (page * cap)).take cap

structure PageWriter (α : Type*) where
  file : PageFile α
  page : Nat

namespace PageWriter

def start {α : Type*} (file : PageFile α) (page : Nat) : PageWriter α :=
  ⟨Function.update file page [], page⟩

def append {α : Type*} (full : Nat → Bool) (x : α) (w : PageWriter α) : PageWriter α :=
  if full (w.file w.page).length then ⟨Function.update w.file (w.page + 1) [x], w.page + 1⟩
  else ⟨Function.update w.file w.page (w.file w.page ++ [x]), w.page⟩

end PageWriter

structure Wrote {α : Type*} (cap : Nat) (xs : List α) (w : PageWriter α) : Prop where
  begun : w.page * cap ≤ xs.length
  room : xs.length ≤ (w.page + 1) * cap
  holds : ∀ i ≤ w.page, w.file i = pageOf cap xs i

def HoldsFrom {α : Type*} (cap first : Nat) (file : PageFile α) (all : List α) : Prop :=
  ∀ i, first ≤ i → i * cap < all.length → file i = pageOf cap all i

def HoldsPages {α : Type*} (cap pages : Nat) (file : PageFile α) (all : List α) : Prop :=
  ∀ i < pages, file i = pageOf cap all i

structure Fills {α : Type*} (cap pages : Nat) (all : List α) : Prop where
  cap_pos : 0 < cap
  le : all.length ≤ pages * cap
  page_lt : ∀ i < pages, i * cap < all.length

def RunsSorted {α : Type*} (r : α → α → Prop) (length : Nat) (all : List α) : Prop :=
  ∀ k, SortedOn r (k * length) ((k + 1) * length) all

section

variable {α : Type*} {cap i k : Nat} {all xs ys : List α} {x : α}

theorem length_pageOf (cap : Nat) (all : List α) (i : Nat) :
    (pageOf cap all i).length = min cap (all.length - i * cap) := by
  rw [pageOf, List.length_take, List.length_drop]

theorem getElem?_pageOf (hk : k < cap) : (pageOf cap all i)[k]? = all[i * cap + k]? := by
  rw [pageOf, List.getElem?_take_of_lt hk, List.getElem?_drop]

theorem pageOf_of_length_le (h : xs.length ≤ i * cap) : pageOf cap xs i = [] := by
  rw [pageOf, List.drop_eq_nil_of_le h, List.take_nil]

theorem take_min_length (k : Nat) (all : List α) : all.take (min k all.length) = all.take k := by
  rw [← List.take_take, List.take_length]

theorem pageOf_eq_slice (cap : Nat) (all : List α) (i : Nat) :
    pageOf cap all i = (all.take (min ((i + 1) * cap) all.length)).drop (i * cap) := by
  rw [take_min_length, List.drop_take, Nat.add_one_mul, Nat.add_sub_cancel_left, pageOf]

theorem slice_append {lo middle hi : Nat} (hlo : lo ≤ middle) (hhi : middle ≤ hi) :
    (all.take middle).drop lo ++ (all.take hi).drop middle = (all.take hi).drop lo := by
  have htake : all.take middle = (all.take hi).take middle := by
    rw [List.take_take, Nat.min_eq_left hhi]
  rw [htake, List.drop_take]
  have hdrop : (all.take hi).drop middle = ((all.take hi).drop lo).drop (middle - lo) := by
    rw [List.drop_drop, Nat.add_sub_cancel' hlo]
  rw [hdrop, List.take_append_drop]

theorem pageOf_append_left (h : (i + 1) * cap ≤ xs.length) :
    pageOf cap (xs ++ ys) i = pageOf cap xs i := by
  rw [Nat.add_one_mul] at h
  rw [pageOf, List.drop_append_of_le_length (by omega), List.take_append_of_le_length]
  · rfl
  · rw [List.length_drop]
    omega

theorem pageOf_concat (hbegun : i * cap ≤ xs.length) (hroom : xs.length < (i + 1) * cap) :
    pageOf cap (xs ++ [x]) i = pageOf cap xs i ++ [x] := by
  rw [Nat.add_one_mul] at hroom
  have hshort : (xs.drop (i * cap)).length < cap := by
    rw [List.length_drop]
    omega
  rw [pageOf, pageOf, List.drop_append_of_le_length hbegun,
    List.take_of_length_le (Nat.le_of_lt hshort), List.take_of_length_le]
  rw [List.length_append, List.length_singleton]
  omega

theorem HoldsPages.holdsFrom {pages : Nat} {file : PageFile α} (h : HoldsPages cap pages file all)
    (hle : all.length ≤ pages * cap) : HoldsFrom cap 0 file all := by
  intro i _ hi
  apply h i
  by_contra hge
  have := Nat.mul_le_mul_right cap (Nat.le_of_not_lt hge)
  omega

theorem flatMap_pageOf (cap : Nat) (all : List α) (k : Nat) :
    (List.range k).flatMap (pageOf cap all) = all.take (k * cap) := by
  induction k with
  | zero => rw [Nat.zero_mul, List.take_zero]; rfl
  | succ k ih =>
    rw [List.range_succ, List.flatMap_append, List.flatMap_singleton, ih, pageOf, Nat.add_one_mul,
      List.take_add]

theorem holdsPages_flatMap {file : PageFile α} {pages : Nat}
    (hlength : ∀ i < pages, (file i).length = (pageOf cap all i).length) :
    HoldsPages cap pages file ((List.range pages).flatMap file) ∧
      ((List.range pages).flatMap file).length = min (pages * cap) all.length := by
  induction pages with
  | zero => exact ⟨fun i hi => absurd hi (Nat.not_lt_zero i), by simp⟩
  | succ k ih =>
    obtain ⟨hholds, htotal⟩ := ih fun i hi => hlength i (Nat.lt_succ_of_lt hi)
    have hpage := hlength k (Nat.lt_succ_self k)
    rw [length_pageOf] at hpage
    rw [List.range_succ, List.flatMap_append, List.flatMap_singleton]
    constructor
    · intro i hi
      by_cases hfull : k * cap ≤ all.length
      · rw [Nat.min_eq_left hfull] at htotal
        rcases Nat.lt_or_eq_of_le (Nat.le_of_lt_succ hi) with hi | rfl
        · rw [pageOf_append_left (htotal ▸ Nat.mul_le_mul_right cap hi)]
          exact hholds i hi
        · rw [pageOf, List.drop_left' htotal, List.take_of_length_le (by omega)]
      · -- behind the end of the list there are empty pages
        have hnil : file k = [] := List.length_eq_zero_iff.mp (by omega)
        rw [hnil, List.append_nil]
        rcases Nat.lt_or_eq_of_le (Nat.le_of_lt_succ hi) with hi | rfl
        · exact hholds i hi
        · rw [hnil, pageOf_of_length_le (by omega)]
    · rw [List.length_append, htotal, hpage, Nat.add_one_mul]
      omega

theorem Wrote.start {file : PageFile α} {page : Nat} (hlength : xs.length = page * cap)
    (h : ∀ i < page, file i = pageOf cap xs i) : Wrote cap xs (.start file page) where
  begun := hlength.ge
  room := by
    dsimp only [PageWriter.start]
    rw [Nat.add_one_mul]
    omega
  holds i hi := by
    rcases Nat.lt_or_eq_of_le hi with hi | rfl
    · dsimp only [PageWriter.start] at hi ⊢
      rw [Function.update_of_ne (Nat.ne_of_lt hi), h i hi]
    · dsimp only [PageWriter.start]
      rw [Function.update_self, pageOf_of_length_le hlength.le]

theorem Wrote.append {full : Nat → Bool} {w : PageWriter α} (h : Wrote cap xs w) (hcap : 0 < cap)
    (hfull : ∀ n ≤ xs.length, full n = true ↔ cap ≤ n) :
    Wrote cap (xs ++ [x]) (w.append full x) := by
  have hroom := h.room
  have hbegun := h.begun
  have hlength : (w.file w.page).length = xs.length - w.page * cap := by
    rw [h.holds _ (Nat.le_refl _), length_pageOf]
    rw [Nat.add_one_mul] at hroom
    omega
  have hbefore : ∀ i < w.page, pageOf cap (xs ++ [x]) i = pageOf cap xs i := fun i hi =>
    pageOf_append_left ((Nat.mul_le_mul_right cap hi).trans hbegun)
  have hiff := hfull (w.file w.page).length (by omega)
  rw [hlength] at hiff
  unfold PageWriter.append
  rw [hlength]
  by_cases hpage : cap ≤ xs.length - w.page * cap
  · -- the page is full
    have hxs : xs.length = (w.page + 1) * cap := by
      rw [Nat.add_one_mul] at hroom ⊢
      omega
    rw [if_pos (hiff.mpr hpage)]
    refine ⟨?_, ?_, fun i hi => ?_⟩
    · rw [List.length_append, hxs]
      exact Nat.le_add_right _ _
    · rw [List.length_append, List.length_singleton, hxs, Nat.add_one_mul (w.page + 1)]
      omega
    · dsimp only at hi ⊢
      rcases Nat.lt_or_eq_of_le hi with hi | rfl
      · rw [Function.update_of_ne (Nat.ne_of_lt hi), h.holds i (by omega),
          pageOf_append_left (hxs ▸ Nat.mul_le_mul_right cap hi)]
      · have hnext : xs.length < (w.page + 1 + 1) * cap := by
          rw [hxs, Nat.add_one_mul (w.page + 1)]
          exact Nat.lt_add_of_pos_right hcap
        rw [Function.update_self, pageOf_concat hxs.ge hnext, pageOf_of_length_le hxs.le,
          List.nil_append]
  · have hxs : xs.length < (w.page + 1) * cap := by
      rw [Nat.add_one_mul]
      omega
    rw [if_neg (mt hiff.mp hpage)]
    refine ⟨?_, ?_, fun i hi => ?_⟩
    · rw [List.length_append]
      exact hbegun.trans (Nat.le_add_right _ _)
    · rw [List.length_append]
      exact hxs
    · rcases Nat.lt_or_eq_of_le hi with hi | rfl
      · dsimp only at hi ⊢
        rw [Function.update_of_ne (Nat.ne_of_lt hi), h.holds i (Nat.le_of_lt hi), hbefore i hi]
      · dsimp only
        rw [Function.update_self, h.holds _ (Nat.le_refl _), pageOf_concat hbegun hxs]

variable {r : α → α → Prop} {lo hi length : Nat}

theorem SortedOn.pairwise_slice (h : SortedOn r lo hi all) :
    ((all.take hi).drop lo).Pairwise r := by
  rw [List.pairwise_iff_getElem]
  intro i j hi' hj' hij
  rw [List.length_drop, List.length_take] at hj'
  apply h (lo + i) (lo + j) _ _ (Nat.le_add_right lo i) (by omega) (by omega)
  · rw [List.getElem_drop, List.getElem_take]
    exact List.getElem?_eq_getElem (by omega)
  · rw [List.getElem_drop, List.getElem_take]
    exact List.getElem?_eq_getElem (by omega)

theorem SortedOn.mono {lo' hi' : Nat} (h : SortedOn r lo hi all) (hlo : lo ≤ lo')
    (hhi : hi' ≤ hi) : SortedOn r lo' hi' all :=
  fun i j x y hi hij hj => h i j x y (hlo.trans hi) hij (Nat.lt_of_lt_of_le hj hhi)

theorem RunsSorted.nil : RunsSorted r length ([] : List α) :=
  fun _ _ _ _ _ _ _ _ hx => absurd hx (by simp)

theorem RunsSorted.append (h : RunsSorted r length xs) (hxs : xs.length = k * length)
    (hys : ys.Pairwise r) (hlength : ys.length ≤ length) : RunsSorted r length (xs ++ ys) := by
  intro m i j x y hi hij hj hx hy
  rcases Nat.lt_trichotomy m k with hm | rfl | hm
  · have hle : (m + 1) * length ≤ xs.length := hxs ▸ Nat.mul_le_mul_right length hm
    rw [List.getElem?_append_left (by omega)] at hx hy
    exact h m i j x y hi hij hj hx hy
  · rw [List.getElem?_append_right (by omega)] at hx hy
    obtain ⟨hi', rfl⟩ := List.getElem?_eq_some_iff.mp hx
    obtain ⟨hj', rfl⟩ := List.getElem?_eq_some_iff.mp hy
    exact List.pairwise_iff_getElem.mp hys _ _ hi' hj' (by omega)
  · have hle : (k + 1) * length ≤ m * length := Nat.mul_le_mul_right length hm
    rw [Nat.add_one_mul] at hle
    rw [List.getElem?_eq_none (by rw [List.length_append]; omega)] at hx
    exact absurd hx (Option.some_ne_none x).symm

theorem RunsSorted.of_pairwise (h : all.Pairwise r) : RunsSorted r length all :=
  fun _ i j x y _ hij _ hx hy => sortedOn_iff_pairwise.mpr h i j x y (Nat.zero_le i) hij
    (List.getElem?_eq_some_iff.mp hy).1 hx hy

theorem RunsSorted.of_pages (h : ∀ i, (pageOf cap all i).Pairwise r) : RunsSorted r cap all := by
  intro m i j x y hi hij hj hx hy
  rw [Nat.add_one_mul] at hj
  rw [← Nat.add_sub_cancel' hi, ← getElem?_pageOf (by omega)] at hx
  rw [← Nat.add_sub_cancel' (hi.trans (Nat.le_of_lt hij)), ← getElem?_pageOf (by omega)] at hy
  obtain ⟨hi', rfl⟩ := List.getElem?_eq_some_iff.mp hx
  obtain ⟨hj', rfl⟩ := List.getElem?_eq_some_iff.mp hy
  exact List.pairwise_iff_getElem.mp (h m) _ _ hi' hj' (by omega)

theorem RunsSorted.pairwise (h : RunsSorted r length all) (hlength : all.length ≤ length) :
    all.Pairwise r := by
  apply sortedOn_iff_pairwise.mp
  exact (h 0).mono (Nat.zero_mul length).le (by rw [Nat.zero_add, Nat.one_mul]; exact hlength)

end
end MillenniumDB
