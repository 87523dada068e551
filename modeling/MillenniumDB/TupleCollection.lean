import Mathlib.Logic.Function.Basic
import MillenniumDB.Lib.PageFiles

/-!
# Sorting tuples on pages

A `TupleCollection` is a page of tuples that sorts itself by a quicksort with random pivots.
`MergeOrderedTupleCollection` merges two neighbouring runs of sorted pages into another file.
-/

namespace MillenniumDB
namespace TupleCollection

variable {α : Type*}

/-- The values of `rand`, each by the way to the call of `partition` that takes it: into the left
part or into the right one. -/
abbrev Rand := List Bool → Nat

/-- The loop of `partition`, from `j` on for `n` tuples; `next` is `low_el + 1`. -/
def splitBy (hasPriority : α → α → Bool) (pivot : α) : Nat → Nat → Nat → List α → List α × Nat
  | 0, _, next, tuples => (tuples, next)
  | n + 1, j, next, tuples =>
    if (tuples[j]?.map fun t => hasPriority t pivot).getD false then
      splitBy hasPriority pivot n (j + 1) (next + 1) (exchange next j tuples)
    else splitBy hasPriority pivot n (j + 1) next tuples

/-- `partition`: the tuples of the page, and the place of the pivot. -/
def partition (hasPriority : α → α → Bool) (rand : Nat) (i f : Nat) (tuples : List α) :
    List α × Nat :=
  let x := i + rand % (f - i + 1)
  match tuples[x]? with
  | none => (tuples, i)
  | some p =>
    let split := splitBy hasPriority p (f - i) i i (exchange x f tuples)
    (exchange split.2 f split.1, split.2)

theorem splitBy_bounds (hasPriority : α → α → Bool) (pivot : α) :
    ∀ n j next tuples, next ≤ (splitBy hasPriority pivot n j next tuples).2 ∧
      (splitBy hasPriority pivot n j next tuples).2 ≤ next + n
  | 0, _, _, _ => ⟨Nat.le_refl _, Nat.le_refl _⟩
  | n + 1, j, next, tuples => by
    unfold splitBy
    split
    · have h := splitBy_bounds hasPriority pivot n (j + 1) (next + 1) (exchange next j tuples)
      omega
    · have h := splitBy_bounds hasPriority pivot n (j + 1) next tuples
      omega

theorem partition_bounds (hasPriority : α → α → Bool) (rand : Nat) {i f : Nat} (h : i < f)
    (tuples : List α) : i ≤ (partition hasPriority rand i f tuples).2 ∧
      (partition hasPriority rand i f tuples).2 ≤ f := by
  unfold partition
  dsimp only
  split
  · exact ⟨Nat.le_refl i, Nat.le_of_lt h⟩
  · next p _ =>
    have hsplit := splitBy_bounds hasPriority p (f - i) i i
      (exchange (i + rand % (f - i + 1)) f tuples)
    dsimp only
    omega

def quicksort (hasPriority : α → α → Bool) (rand : Rand) (i f : Nat) (tuples : List α) : List α :=
  if h : i < f then
    have _bounds := partition_bounds hasPriority (rand []) h tuples
    let parts := partition hasPriority (rand []) i f tuples
    let left := quicksort hasPriority (fun way => rand (false :: way)) i (parts.2 - 1) parts.1
    quicksort hasPriority (fun way => rand (true :: way)) (parts.2 + 1) f left
  else tuples
termination_by f - i
decreasing_by all_goals omega

def sort (hasPriority : α → α → Bool) (rand : Rand) (tuples : List α) : List α :=
  quicksort hasPriority rand 0 (tuples.length - 1) tuples

section

variable {hasPriority : α → α → Bool} {i f : Nat} {a : List α} {pivot : α}

/-- What the loop leaves: tuples with priority over the pivot before the place, others behind. -/
structure Split (hasPriority : α → α → Bool) (pivot : α) (lo j : Nat) (a b : List α) (pos : Nat) :
    Prop where
  rearranged : Rearranged lo j a b
  first : ∀ i x, lo ≤ i → i < pos → b[i]? = some x → hasPriority x pivot = true
  rest : ∀ i x, pos ≤ i → i < j → b[i]? = some x → hasPriority x pivot = false

theorem splitBy_split (hasPriority : α → α → Bool) (pivot : α) :
    ∀ (n lo j next : Nat) (a : List α), lo ≤ next → next ≤ j → j + n ≤ a.length →
    (∀ i x, lo ≤ i → i < next → a[i]? = some x → hasPriority x pivot = true) →
    (∀ i x, next ≤ i → i < j → a[i]? = some x → hasPriority x pivot = false) →
    Split hasPriority pivot lo (j + n) a (splitBy hasPriority pivot n j next a).1
      (splitBy hasPriority pivot n j next a).2
  | 0, lo, j, next, a, _, _, _, hfirst, hrest => ⟨.refl _ _ _, hfirst, hrest⟩
  | n + 1, lo, j, next, a, hlo, hnext, hlen, hfirst, hrest => by
    have hj : j < a.length := by omega
    have hget : a[j]? = some a[j] := List.getElem?_eq_getElem hj
    have hsame : j + 1 + n = j + (n + 1) := by omega
    unfold splitBy
    rw [hget, Option.map_some, Option.getD_some]
    split
    · next hpriority =>
      have hnextlen : next < a.length := by omega
      have hfirst' : ∀ i x, lo ≤ i → i < next + 1 → (exchange next j a)[i]? = some x →
          hasPriority x pivot = true := by
        intro i x hi hin hx
        by_cases heq : i = next
        · rw [heq, exchange_left hnextlen hj, hget] at hx
          rw [← Option.some.inj hx]
          exact hpriority
        · rw [exchange_of_ne heq (by omega)] at hx
          exact hfirst i x hi (by omega) hx
      have hrest' : ∀ i x, next + 1 ≤ i → i < j + 1 → (exchange next j a)[i]? = some x →
          hasPriority x pivot = false := by
        intro i x hi hij hx
        by_cases heq : i = j
        · -- the tuple that was at the place of the next one
          rw [heq, exchange_right hnextlen hj] at hx
          exact hrest next x (Nat.le_refl next) (by omega) hx
        · rw [exchange_of_ne (by omega) heq] at hx
          exact hrest i x (by omega) (by omega) hx
      have ih := splitBy_split hasPriority pivot n lo (j + 1) (next + 1) (exchange next j a)
        (by omega) (by omega) (by rw [← (exchange_perm next j a).length_eq]; omega) hfirst' hrest'
      rw [hsame] at ih
      exact ⟨(Rearranged.exchange (by omega) (by omega) a).trans ih.rearranged, ih.first, ih.rest⟩
    · next hpriority =>
      have hrest' : ∀ i x, next ≤ i → i < j + 1 → a[i]? = some x →
          hasPriority x pivot = false := by
        intro i x hi hij hx
        by_cases heq : i = j
        · rw [heq, hget] at hx
          rw [← Option.some.inj hx]
          exact Bool.eq_false_iff.mpr hpriority
        · exact hrest i x hi (by omega) hx
      have ih := splitBy_split hasPriority pivot n lo (j + 1) next a hlo (by omega) (by omega)
        hfirst hrest'
      rw [hsame] at ih
      exact ih

structure Parted (hasPriority : α → α → Bool) (pivot : α) (lo hi : Nat) (a b : List α)
    (pos : Nat) : Prop where
  rearranged : Rearranged lo (hi + 1) a b
  pivot_at : b[pos]? = some pivot
  before : ∀ i x, lo ≤ i → i < pos → b[i]? = some x → hasPriority x pivot = true
  behind : ∀ i x, pos + 1 ≤ i → i < hi + 1 → b[i]? = some x → hasPriority x pivot = false

theorem partition_parted (hasPriority : α → α → Bool) (rand : Nat) (hif : i < f)
    (hlen : f < a.length) :
    ∃ pivot, Parted hasPriority pivot i f a (partition hasPriority rand i f a).1
      (partition hasPriority rand i f a).2 := by
  have hmod : rand % (f - i + 1) < f - i + 1 := Nat.mod_lt _ (Nat.succ_pos _)
  have hx : i + rand % (f - i + 1) < a.length := by omega
  obtain ⟨pivot, hpivot⟩ : ∃ pivot, a[i + rand % (f - i + 1)]? = some pivot :=
    ⟨_, List.getElem?_eq_getElem hx⟩
  have hswap : Rearranged i (f + 1) a (exchange (i + rand % (f - i + 1)) f a) :=
    .exchange (by omega) (by omega) a
  have hsplit := splitBy_split hasPriority pivot (f - i) i i i
    (exchange (i + rand % (f - i + 1)) f a) (Nat.le_refl i) (Nat.le_refl i)
    (by rw [hswap.length_eq]; omega) (fun _ _ _ _ => by omega) (fun _ _ _ _ => by omega)
  have hbounds := splitBy_bounds hasPriority pivot (f - i) i i
    (exchange (i + rand % (f - i + 1)) f a)
  have hlast : (exchange (i + rand % (f - i + 1)) f a)[f]? = some pivot := by
    rw [exchange_right hx hlen, hpivot]
  have hswaplen := hswap.length_eq
  rw [Nat.add_sub_cancel' (Nat.le_of_lt hif)] at hsplit
  unfold partition
  dsimp only
  rw [hpivot]
  dsimp only
  generalize exchange (i + rand % (f - i + 1)) f a = b at hswap hsplit hbounds hlast hswaplen ⊢
  generalize (splitBy hasPriority pivot (f - i) i i b).1 = d at hsplit ⊢
  generalize (splitBy hasPriority pivot (f - i) i i b).2 = pos at hsplit hbounds ⊢
  have hdlen : f < d.length := by
    rw [hsplit.rearranged.length_eq, hswaplen]
    exact hlen
  refine ⟨pivot, (hswap.trans (hsplit.rearranged.mono (Nat.le_refl i) (Nat.le_succ f))).trans
    (.exchange (by omega) (by omega) d), ?_, fun k y hi hk hy => ?_, fun k y hk hf hy => ?_⟩
  · rw [exchange_left (by omega) hdlen, hsplit.rearranged.outside f (Or.inr (Nat.le_refl f)), hlast]
  · rw [exchange_of_ne (by omega) (by omega)] at hy
    exact hsplit.first k y hi hk hy
  · by_cases hkf : k = f
    · rw [hkf, exchange_right (by omega) hdlen] at hy
      exact hsplit.rest pos y (Nat.le_refl pos) (by omega) hy
    · rw [exchange_of_ne (by omega) hkf] at hy
      exact hsplit.rest k y (by omega) (by omega) hy

structure TotalPreorder (hasPriority : α → α → Bool) : Prop where
  trans : ∀ x y z, hasPriority x y = true → hasPriority y z = true → hasPriority x z = true
  total : ∀ x y, hasPriority x y = false → hasPriority y x = true

abbrev Before (hasPriority : α → α → Bool) (x y : α) : Prop := hasPriority x y = true

theorem quicksort_of_le (rand : Rand) (h : f ≤ i) : quicksort hasPriority rand i f a = a := by
  rw [quicksort, dif_neg (Nat.not_lt_of_le h)]

theorem quicksort_spec (hpreorder : TotalPreorder hasPriority) (n : Nat) :
    ∀ (rand : Rand) (i f : Nat) (a : List α), f - i ≤ n → f < a.length →
    Rearranged i (f + 1) a (quicksort hasPriority rand i f a) ∧
      SortedOn (Before hasPriority) i (f + 1) (quicksort hasPriority rand i f a) := by
  induction n with
  | zero =>
    intro rand i f a hn _
    rw [quicksort_of_le rand (by omega)]
    exact ⟨.refl _ _ _, .of_le (by omega)⟩
  | succ n ih =>
    intro rand i f a hn hlen
    rcases Nat.lt_or_ge i f with hif | hif
    · have hbounds := partition_bounds hasPriority (rand []) hif a
      obtain ⟨pivot, hparted⟩ := partition_parted hasPriority (rand []) hif hlen
      rw [quicksort, dif_pos hif]
      dsimp only
      generalize (partition hasPriority (rand []) i f a).1 = b at hparted ⊢
      generalize (partition hasPriority (rand []) i f a).2 = pos at hparted hbounds ⊢
      have hblen : b.length = a.length := hparted.rearranged.length_eq
      have hleft : ∀ rand, Rearranged i pos b (quicksort hasPriority rand i (pos - 1) b) ∧
          SortedOn (Before hasPriority) i pos (quicksort hasPriority rand i (pos - 1) b) := by
        intro rand
        rcases Nat.eq_zero_or_pos pos with rfl | hpos
        · rw [quicksort_of_le rand (Nat.zero_le i)]
          exact ⟨.refl _ _ _, .of_le (by omega)⟩
        · have hleft := ih rand i (pos - 1) b (by omega) (by omega)
          rw [Nat.sub_add_cancel hpos] at hleft
          exact hleft
      have hsorted := hleft fun way => rand (false :: way)
      generalize quicksort hasPriority (fun way => rand (false :: way)) i (pos - 1) b = m
        at hsorted ⊢
      have hright := ih (fun way => rand (true :: way)) (pos + 1) f m (by omega)
        (by rw [hsorted.1.length_eq, hblen]; exact hlen)
      refine ⟨(hparted.rearranged.trans (hsorted.1.mono (Nat.le_refl i) (by omega))).trans
        (hright.1.mono (by omega) (Nat.le_refl _)), ?_⟩
      apply (sortedOn_iff_sides hpreorder.trans hbounds.1 (by omega) hparted.pivot_at
        (fun k y hk hf hy => hpreorder.total _ _ (hparted.behind k y hk hf hy)) hsorted.1
        hright.1).mpr
      exact ⟨hparted.before, hsorted.2, hright.2⟩
    · rw [quicksort_of_le rand hif]
      exact ⟨.refl _ _ _, .of_le (by omega)⟩

theorem sort_spec (hpreorder : TotalPreorder hasPriority) (rand : Rand) (a : List α) :
    a.Perm (sort hasPriority rand a) ∧ (sort hasPriority rand a).Pairwise (Before hasPriority) := by
  unfold sort
  rcases Nat.eq_zero_or_pos a.length with hzero | hpos
  · rw [hzero, quicksort_of_le rand (Nat.zero_le 0), List.length_eq_zero_iff.mp hzero]
    exact ⟨.refl _, .nil⟩
  · have hspec := quicksort_spec hpreorder (a.length - 1) rand 0 (a.length - 1) a (Nat.sub_le _ 0)
      (by omega)
    rw [Nat.sub_add_cancel hpos] at hspec
    have hpairwise := sortedOn_iff_pairwise (r := Before hasPriority)
      (a := quicksort hasPriority rand 0 (a.length - 1) a)
    rw [hspec.1.length_eq] at hpairwise
    exact ⟨hspec.1.perm, hpairwise.mp hspec.2⟩

end

/-- Where a run is read: the page and the tuple on it, the last page of the run, whether tuples are
left, and the tuple that was read there. -/
structure RunCursor (α : Type*) where
  start : Nat
  stop : Nat
  counter : Nat
  isOpen : Bool
  tuple : α

/-- The variables of `merge`. -/
structure Merging (α : Type*) where
  left : RunCursor α
  right : RunCursor α
  out : PageWriter α

section

variable [Inhabited α] (hasPriority : α → α → Bool) (full : Nat → Bool) (source : PageFile α)

/-- `get` of a page. -/
def readTuple (page counter : Nat) : α := (source page).getD counter default

def RunCursor.first (start stop : Nat) : RunCursor α :=
  ⟨start, stop, 0, true, readTuple source start 0⟩

def RunCursor.advance (c : RunCursor α) : RunCursor α :=
  if c.counter + 1 = (source c.start).length then
    if c.start + 1 ≤ c.stop then
      { c with start := c.start + 1, counter := 0, tuple := readTuple source (c.start + 1) 0 }
    else { c with start := c.start + 1, counter := c.counter + 1, isOpen := false }
  else { c with counter := c.counter + 1, tuple := readTuple source c.start (c.counter + 1) }

/-- One turn of the loop of `merge`. -/
def mergeTurn (s : Merging α) : Merging α :=
  let leftFirst := hasPriority s.left.tuple s.right.tuple
  if s.left.isOpen && (leftFirst || !s.right.isOpen) then
    { s with out := s.out.append full s.left.tuple, left := s.left.advance source }
  else if s.right.isOpen && (!leftFirst || !s.left.isOpen) then
    { s with out := s.out.append full s.right.tuple, right := s.right.advance source }
  else s

/-- The loop of `merge`; nothing is returned without enough turns. -/
def mergeLoop : Nat → Merging α → Option (PageFile α)
  | 0, s => if s.left.isOpen || s.right.isOpen then none else some s.out.file
  | n + 1, s =>
    if s.left.isOpen || s.right.isOpen then
      mergeLoop n (mergeTurn hasPriority full source s)
    else some s.out.file

def merge (fuel leftStart leftEnd rightStart rightEnd : Nat) (output : PageFile α) :
    Option (PageFile α) :=
  mergeLoop hasPriority full source fuel
    ⟨.first source leftStart leftEnd, .first source rightStart rightEnd, .start output leftStart⟩

/-- `copy_page`: the page is copied, and the page of the source is emptied. -/
def copyPage (page : Nat) (output : PageFile α) : PageFile α × PageFile α :=
  (Function.update source page [], Function.update output page (source page))

end

section

variable [Inhabited α] {hasPriority : α → α → Bool} {full : Nat → Bool} {source : PageFile α}
  {cap first : Nat} {all done : List α}

structure RunCursor.At (cap first : Nat) (all : List α) (stop stopPos pos : Nat)
    (c : RunCursor α) : Prop where
  stop_eq : c.stop = stop
  isOpen_iff : c.isOpen = true ↔ pos < stopPos
  pos_le : pos ≤ stopPos
  place : pos < stopPos → first ≤ c.start ∧ c.start * cap + c.counter = pos ∧ c.counter < cap ∧
    all[pos]? = some c.tuple

theorem readTuple_eq (hsource : HoldsFrom cap first source all) (page counter : Nat)
    (hpage : first ≤ page) (hcounter : counter < cap) (hpos : page * cap + counter < all.length) :
    all[page * cap + counter]? = some (readTuple source page counter) := by
  unfold readTuple
  rw [hsource page hpage (by omega), List.getD_eq_getElem?_getD, getElem?_pageOf hcounter,
    List.getElem?_eq_getElem hpos, Option.getD_some]

theorem RunCursor.at_first (hsource : HoldsFrom cap first source all) (hcap : 0 < cap)
    {start stop : Nat} (hfirst : first ≤ start) (hle : start ≤ stop)
    (hstop : stop * cap < all.length) :
    RunCursor.At cap first all stop (min ((stop + 1) * cap) all.length) (start * cap)
      (.first source start stop) := by
  have hstart : start * cap ≤ stop * cap := Nat.mul_le_mul_right cap hle
  have hend : start * cap < min ((stop + 1) * cap) all.length := by
    rw [Nat.add_one_mul]
    omega
  refine ⟨rfl, iff_of_true rfl hend, Nat.le_of_lt hend, fun _ => ⟨hfirst, rfl, hcap, ?_⟩⟩
  exact readTuple_eq hsource start 0 hfirst hcap (by omega)

theorem RunCursor.At.advance (hsource : HoldsFrom cap first source all) (hcap : 0 < cap)
    {stop pos : Nat} (hstop : stop * cap < all.length) {c : RunCursor α}
    (h : c.At cap first all stop (min ((stop + 1) * cap) all.length) pos)
    (hpos : pos < min ((stop + 1) * cap) all.length) :
    (c.advance source).At cap first all stop (min ((stop + 1) * cap) all.length) (pos + 1) := by
  obtain ⟨hfirst, hplace, hcounter, -⟩ := h.place hpos
  have hlength : (source c.start).length = min cap (all.length - c.start * cap) := by
    rw [hsource c.start hfirst (by omega), length_pageOf]
  have hopen := h.isOpen_iff.mpr hpos
  have hpage : c.start ≤ stop := by
    by_contra hgt
    have := Nat.mul_le_mul_right cap (Nat.lt_of_not_le hgt)
    rw [Nat.succ_eq_add_one] at this
    omega
  have hnext : (stop + 1) * cap = stop * cap + cap := Nat.add_one_mul stop cap
  unfold RunCursor.advance
  rw [hlength]
  split
  · next hlast =>
    split
    · next hmore =>
      -- a page before the last one is full
      have hmul : (c.start + 1) * cap ≤ stop * cap :=
        Nat.mul_le_mul_right cap (h.stop_eq ▸ hmore)
      have hexpand : (c.start + 1) * cap = c.start * cap + cap := Nat.add_one_mul c.start cap
      refine ⟨h.stop_eq, iff_of_true hopen (by omega), by omega, fun _ => ⟨by
        dsimp only
        omega, by
        dsimp only
        omega, hcap, ?_⟩⟩
      have hread := readTuple_eq hsource (c.start + 1) 0 (Nat.le_succ_of_le hfirst) hcap
        (by omega)
      rw [show (c.start + 1) * cap + 0 = pos + 1 by omega] at hread
      exact hread
    · next hmore =>
      have heq : c.start = stop := by
        have := h.stop_eq
        omega
      rw [heq] at hplace hlast
      refine ⟨h.stop_eq, iff_of_false Bool.false_ne_true (by omega), by omega, fun _ => by omega⟩
  · next hlast =>
    have hmul : c.start * cap ≤ stop * cap := Nat.mul_le_mul_right cap hpage
    refine ⟨h.stop_eq, iff_of_true hopen (by omega), by omega, fun _ => ⟨hfirst, by
      dsimp only
      omega, by
      dsimp only
      omega, ?_⟩⟩
    have hread := readTuple_eq hsource c.start (c.counter + 1) hfirst (by omega) (by omega)
    rw [show c.start * cap + (c.counter + 1) = pos + 1 by omega] at hread
    exact hread

omit [Inhabited α] in
theorem RunCursor.At.rest_eq {stop stopPos pos : Nat} {c : RunCursor α}
    (h : c.At cap first all stop stopPos pos) (hpos : pos < stopPos) :
    (all.take stopPos).drop pos = c.tuple :: (all.take stopPos).drop (pos + 1) := by
  have hget := (h.place hpos).2.2.2
  obtain ⟨hlt, htuple⟩ := List.getElem?_eq_some_iff.mp hget
  rw [List.drop_eq_getElem_cons (by rw [List.length_take]; omega), List.getElem_take, htuple]

omit [Inhabited α] in
theorem drop_take_of_not_lt {stopPos pos : Nat} (hpos : ¬ pos < stopPos) :
    (all.take stopPos).drop pos = [] := by
  apply List.drop_eq_nil_of_le
  rw [List.length_take]
  omega

/-- In the middle of a merge: what is written, followed by the merge of what is left. -/
structure Halfway (hasPriority : α → α → Bool) (cap first : Nat) (all done target : List α)
    (leftStop rightStop : Nat) (written : List α) (left right : Nat) (s : Merging α) : Prop where
  leftAt : s.left.At cap first all leftStop (min ((leftStop + 1) * cap) all.length) left
  rightAt : s.right.At cap first all rightStop (min ((rightStop + 1) * cap) all.length) right
  wrote : Wrote cap (done ++ written) s.out
  target_eq : target = written ++
    List.merge ((all.take (min ((leftStop + 1) * cap) all.length)).drop left)
      ((all.take (min ((rightStop + 1) * cap) all.length)).drop right) hasPriority

theorem Halfway.turn (full : Nat → Bool) (hsource : HoldsFrom cap first source all) (hcap : 0 < cap)
    {target written : List α} {leftStop rightStop left right : Nat} {s : Merging α}
    (h : Halfway hasPriority cap first all done target leftStop rightStop written left right s)
    (hleft : leftStop * cap < all.length) (hright : rightStop * cap < all.length)
    (hfull : ∀ n ≤ (done ++ target).length, full n = true ↔ cap ≤ n)
    (hopen : (s.left.isOpen || s.right.isOpen) = true) :
    ∃ x left' right', Halfway hasPriority cap first all done target leftStop rightStop
      (written ++ [x]) left' right' (mergeTurn hasPriority full source s) := by
  have hlength : (done ++ written).length ≤ (done ++ target).length := by
    rw [h.target_eq]
    simp only [List.length_append]
    omega
  have hfull' : ∀ n ≤ (done ++ written).length, full n = true ↔ cap ≤ n :=
    fun n hn => hfull n (hn.trans hlength)
  have htarget := h.target_eq
  by_cases hl : left < min ((leftStop + 1) * cap) all.length
  · have hlopen := h.leftAt.isOpen_iff.mpr hl
    by_cases hr : right < min ((rightStop + 1) * cap) all.length
    · have hropen := h.rightAt.isOpen_iff.mpr hr
      rw [h.leftAt.rest_eq hl, h.rightAt.rest_eq hr, List.cons_merge_cons] at htarget
      unfold mergeTurn
      dsimp only
      rw [hlopen, hropen]
      cases hpriority : hasPriority s.left.tuple s.right.tuple with
      | true =>
        rw [hpriority, if_pos rfl, List.append_cons, ← h.rightAt.rest_eq hr] at htarget
        exact ⟨_, _, _, h.leftAt.advance hsource hcap hleft hl, h.rightAt,
          by rw [← List.append_assoc]; exact h.wrote.append hcap hfull', htarget⟩
      | false =>
        rw [hpriority, if_neg Bool.false_ne_true, List.append_cons, ← h.leftAt.rest_eq hl]
          at htarget
        exact ⟨_, _, _, h.leftAt, h.rightAt.advance hsource hcap hright hr,
          by rw [← List.append_assoc]; exact h.wrote.append hcap hfull', htarget⟩
    · -- only the left run is open
      have hropen : s.right.isOpen = false :=
        Bool.eq_false_iff.mpr (mt h.rightAt.isOpen_iff.mp hr)
      rw [drop_take_of_not_lt hr, List.merge_right, h.leftAt.rest_eq hl, List.append_cons] at htarget
      unfold mergeTurn
      dsimp only
      rw [hlopen, hropen, Bool.not_false, Bool.or_true, Bool.true_and, if_pos rfl]
      refine ⟨_, _, _, h.leftAt.advance hsource hcap hleft hl, h.rightAt,
        by rw [← List.append_assoc]; exact h.wrote.append hcap hfull', ?_⟩
      rw [drop_take_of_not_lt hr, List.merge_right]
      exact htarget
  · have hlopen : s.left.isOpen = false := Bool.eq_false_iff.mpr (mt h.leftAt.isOpen_iff.mp hl)
    rw [hlopen, Bool.false_or] at hopen
    have hr := h.rightAt.isOpen_iff.mp hopen
    rw [drop_take_of_not_lt hl, List.nil_merge, h.rightAt.rest_eq hr, List.append_cons] at htarget
    unfold mergeTurn
    dsimp only
    rw [hlopen, hopen, Bool.false_and, if_neg Bool.false_ne_true, Bool.not_false, Bool.or_true,
      Bool.true_and, if_pos rfl]
    refine ⟨_, _, _, h.leftAt, h.rightAt.advance hsource hcap hright hr,
      by rw [← List.append_assoc]; exact h.wrote.append hcap hfull', ?_⟩
    rw [drop_take_of_not_lt hl, List.nil_merge]
    exact htarget

omit [Inhabited α] in
theorem Halfway.closed {target written : List α} {leftStop rightStop left right : Nat}
    {s : Merging α}
    (h : Halfway hasPriority cap first all done target leftStop rightStop written left right s)
    (hopen : ¬ (s.left.isOpen || s.right.isOpen) = true) : written = target := by
  rw [Bool.or_eq_true, not_or, h.leftAt.isOpen_iff, h.rightAt.isOpen_iff] at hopen
  rw [h.target_eq, drop_take_of_not_lt hopen.1, drop_take_of_not_lt hopen.2, List.nil_merge,
    List.append_nil]

theorem mergeLoop_eq (full : Nat → Bool) (hsource : HoldsFrom cap first source all) (hcap : 0 < cap)
    {target : List α} {leftStop rightStop : Nat} (hleft : leftStop * cap < all.length)
    (hright : rightStop * cap < all.length)
    (hfull : ∀ n ≤ (done ++ target).length, full n = true ↔ cap ≤ n) (fuel : Nat) :
    ∀ {written : List α} {left right : Nat} {s : Merging α},
    Halfway hasPriority cap first all done target leftStop rightStop written left right s →
    target.length ≤ written.length + fuel →
    ∃ w, mergeLoop hasPriority full source fuel s = some w.file ∧ Wrote cap (done ++ target) w := by
  induction fuel with
  | zero =>
    intro written left right s h hlength
    have hclosed : ¬ (s.left.isOpen || s.right.isOpen) = true := by
      intro hopen
      obtain ⟨x, left', right', hturn⟩ := h.turn full hsource hcap hleft hright hfull hopen
      have heq := congrArg List.length hturn.target_eq
      simp only [List.length_append, List.length_singleton] at heq
      omega
    have hwrote := h.wrote
    rw [h.closed hclosed] at hwrote
    exact ⟨s.out, if_neg hclosed, hwrote⟩
  | succ fuel ih =>
    intro written left right s h hlength
    unfold mergeLoop
    by_cases hopen : (s.left.isOpen || s.right.isOpen) = true
    · rw [if_pos hopen]
      obtain ⟨x, left', right', hturn⟩ := h.turn full hsource hcap hleft hright hfull hopen
      apply ih hturn
      rw [List.length_append, List.length_singleton]
      omega
    · have hwrote := h.wrote
      rw [h.closed hopen] at hwrote
      exact ⟨s.out, if_neg hopen, hwrote⟩

theorem merge_eq (hpreorder : TotalPreorder hasPriority) (hsource : HoldsFrom cap first source all)
    (hcap : 0 < cap) {output : PageFile α} {middle stop fuel : Nat} (hmiddle : first ≤ middle)
    (hstop : middle < stop) (hall : stop * cap < all.length) (hdone : done.length = first * cap)
    (houtput : ∀ i < first, output i = pageOf cap done i)
    (hfull : ∀ n ≤ all.length, full n = true ↔ cap ≤ n) (hfuel : all.length ≤ fuel)
    (hleft : SortedOn (Before hasPriority) (first * cap) ((middle + 1) * cap) all)
    (hright : SortedOn (Before hasPriority) ((middle + 1) * cap) ((stop + 1) * cap) all) :
    ∃ run w, merge hasPriority full source fuel first middle (middle + 1) stop output =
        some w.file ∧ Wrote cap (done ++ run) w ∧
      run.Perm ((all.take (min ((stop + 1) * cap) all.length)).drop (first * cap)) ∧
      run.Pairwise (Before hasPriority) := by
  have hmid : (middle + 1) * cap ≤ stop * cap := Nat.mul_le_mul_right cap hstop
  have hfirst : first * cap ≤ middle * cap := Nat.mul_le_mul_right cap hmiddle
  have hexpand : (middle + 1) * cap = middle * cap + cap := Nat.add_one_mul middle cap
  have hexpand' : (stop + 1) * cap = stop * cap + cap := Nat.add_one_mul stop cap
  have hmin : min ((middle + 1) * cap) all.length = (middle + 1) * cap := by omega
  obtain ⟨run, hrun⟩ : ∃ run, run = List.merge
      ((all.take (min ((middle + 1) * cap) all.length)).drop (first * cap))
      ((all.take (min ((stop + 1) * cap) all.length)).drop ((middle + 1) * cap)) hasPriority :=
    ⟨_, rfl⟩
  have hperm : run.Perm ((all.take (min ((stop + 1) * cap) all.length)).drop (first * cap)) := by
    have hmerged : run.Perm
        ((all.take (min ((middle + 1) * cap) all.length)).drop (first * cap) ++
          (all.take (min ((stop + 1) * cap) all.length)).drop ((middle + 1) * cap)) := by
      rw [hrun]
      exact List.merge_perm_append hasPriority
    rw [hmin, slice_append (by omega) (by omega)] at hmerged
    exact hmerged
  have hlength : (done ++ run).length ≤ all.length := by
    rw [List.length_append, hperm.length_eq, List.length_drop, List.length_take, hdone]
    omega
  have hsorted : run.Pairwise (Before hasPriority) := by
    rw [hrun, hmin]
    exact List.pairwise_merge hpreorder.trans (fun x y => by
      cases hxy : hasPriority x y with
      | true => rfl
      | false => exact hpreorder.total x y hxy) _ _ hleft.pairwise_slice
      (hright.mono (Nat.le_refl _) (Nat.min_le_left _ _)).pairwise_slice
  have hstart : Halfway hasPriority cap first all done run middle stop [] (first * cap)
      ((middle + 1) * cap) ⟨.first source first middle, .first source (middle + 1) stop,
        .start output first⟩ := by
    refine ⟨RunCursor.at_first hsource hcap (Nat.le_refl first) hmiddle (by omega),
      RunCursor.at_first hsource hcap (Nat.le_succ_of_le hmiddle) hstop hall, ?_, hrun⟩
    rw [List.append_nil]
    exact .start hdone houtput
  obtain ⟨w, hw, hwrote⟩ := mergeLoop_eq full hsource hcap (by omega) hall
    (fun n hn => hfull n (hn.trans hlength)) fuel hstart (by
      rw [List.length_append] at hlength
      rw [List.length_nil]
      omega)
  exact ⟨run, w, hw, hwrote, hperm, hsorted⟩

end
end TupleCollection
end MillenniumDB
