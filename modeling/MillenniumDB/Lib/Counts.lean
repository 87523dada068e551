import Mathlib.Algebra.BigOperators.Group.Finset.Basic
import Mathlib.Data.Finset.Card
import Mathlib.Data.List.AList
import Mathlib.Data.List.Sort
import Mathlib.Data.Prod.Lex
import Mathlib.Algebra.Ring.Nat

/-!
# Counters

Maps of counters, the counting of equal neighbours in a sorted list, and what a pass over a sorted
list adds up for its elements.
-/

namespace MillenniumDB

abbrev Counts (α : Type) := AList fun _ : α => Nat

namespace Counts

section

variable {α : Type} [DecidableEq α]

def get (m : Counts α) (k : α) : Nat := (m.lookup k).getD 0

def bump (k : α) (m : Counts α) : Counts α := m.insert k (m.get k + 1)

def insertNew (k : α) (n : Nat) (m : Counts α) : Counts α := if k ∈ m then m else m.insert k n

def size (m : Counts α) : Nat := m.keys.length

variable {m : Counts α} {k l : α} {n : Nat}

@[simp] theorem get_empty : get (∅ : Counts α) k = 0 := rfl

theorem get_bump : get (bump k m) l = get m l + if l = k then 1 else 0 := by
  by_cases h : l = k
  · subst h
    simp [get, bump]
  · simp [get, bump, h, AList.lookup_insert_ne h]

theorem get_of_notMem (h : k ∉ m) : get m k = 0 := by
  rw [get, AList.lookup_eq_none.mpr h, Option.getD_none]

theorem lookup_eq (m : Counts α) (k : α) :
    m.lookup k = if k ∈ m then some (m.get k) else none := by
  split_ifs with h
  · obtain ⟨n, hn⟩ := Option.isSome_iff_exists.mp (AList.lookup_isSome.mpr h)
    rw [get, hn, Option.getD_some]
  · exact AList.lookup_eq_none.mpr h

theorem get_insertNew (h : k ∉ m) : get (insertNew k n m) l = if l = k then n else get m l := by
  rw [insertNew, if_neg h]
  by_cases hl : l = k
  · subst hl
    simp [get]
  · simp [get, hl, AList.lookup_insert_ne hl]

theorem mem_insertNew : l ∈ insertNew k n m ↔ l = k ∨ l ∈ m := by
  rw [insertNew]
  split_ifs with h
  · constructor
    · exact Or.inr
    · intro hl
      rcases hl with rfl | hl
      · exact h
      · exact hl
  · exact AList.mem_insert m

end
end Counts

section

variable {α σ : Type} [LinearOrder α] {step : σ → α → σ} {pos : σ → α} {f : σ → Nat} {g : α → Nat}
  {Ok : σ → Prop}

theorem foldl_add_of_sorted
    (hok : ∀ s a, Ok s → pos s ≤ a → Ok (step s a) ∧ pos (step s a) = a)
    (hadd : ∀ s a, Ok s → pos s ≤ a → f (step s a) = f s + g a)
    {s : σ} (hs : Ok s) {l : List α} (hsorted : (pos s :: l).Pairwise (· ≤ ·)) :
    f (l.foldl step s) = f s + (l.map g).sum := by
  induction l generalizing s with
  | nil => rfl
  | cons a l ih =>
    have hle : pos s ≤ a := List.rel_of_pairwise_cons hsorted List.mem_cons_self
    obtain ⟨hs', hpos⟩ := hok s a hs hle
    have hrest : (pos (step s a) :: l).Pairwise (· ≤ ·) := by
      rw [hpos]
      exact hsorted.of_cons
    rw [List.foldl_cons, ih hs' hrest, hadd s a hs hle, List.map_cons, List.sum_cons,
      Nat.add_assoc]

theorem foldl_add_distinct
    (hok : ∀ s a, Ok s → pos s ≤ a → Ok (step s a) ∧ pos (step s a) = a)
    (hsame : ∀ s, Ok s → f (step s (pos s)) = f s)
    (hnew : ∀ s a, Ok s → pos s < a → f (step s a) = f s + g a)
    {s : σ} (hs : Ok s) {l : List α} (hsorted : (pos s :: l).Pairwise (· ≤ ·)) :
    f (l.foldl step s) = f s + ∑ a ∈ l.toFinset.erase (pos s), g a := by
  induction l generalizing s with
  | nil => rfl
  | cons a l ih =>
    have hle : pos s ≤ a := List.rel_of_pairwise_cons hsorted List.mem_cons_self
    obtain ⟨hs', hpos⟩ := hok s a hs hle
    have hrest : (pos (step s a) :: l).Pairwise (· ≤ ·) := by
      rw [hpos]
      exact hsorted.of_cons
    rw [List.foldl_cons, ih hs' hrest, hpos, List.toFinset_cons]
    rcases hle.eq_or_lt with heq | hlt
    · subst heq
      rw [hsame s hs, Finset.erase_insert_eq_erase]
    · -- what was passed before is less than all that follows
      have hnotMem : pos s ∉ insert a l.toFinset := by
        intro hmem
        rcases Finset.mem_insert.mp hmem with heq | hmem
        · exact hlt.ne heq
        · have := List.rel_of_pairwise_cons hsorted.of_cons (List.mem_toFinset.mp hmem)
          exact absurd hlt (not_lt.mpr this)
      have hinsert : insert a l.toFinset = insert a (l.toFinset.erase a) := by
        ext b
        by_cases hb : b = a <;> simp [hb]
      rw [hnew s a hs hlt, Finset.erase_eq_of_notMem hnotMem, hinsert,
        Finset.sum_insert (Finset.notMem_erase a _), Nat.add_assoc]

end

/-- The key that a pass over keys is at, how often it came, and the counts of the keys before.
Keys are counted only if they are not `blank`. -/
structure RunCount (α : Type) where
  current : α
  count : Nat
  dict : Counts α

namespace RunCount

section

variable {α : Type} [LinearOrder α] (blank : α)

def start : RunCount α := ⟨blank, 0, ∅⟩

def save (s : RunCount α) : Counts α :=
  if s.current ≠ blank then s.dict.insertNew s.current s.count else s.dict

def next (s : RunCount α) (key : α) : RunCount α :=
  if key = s.current then { s with count := s.count + 1 } else ⟨key, 1, s.save blank⟩

def Ascending (s : RunCount α) : Prop := ∀ k, s.current ≤ k → k ∉ s.dict

theorem ascending_start : (start blank).Ascending := fun _ _ => AList.notMem_empty _

variable {blank} {s : RunCount α} {key : α}

theorem Ascending.next (h : s.Ascending) (hle : s.current ≤ key) :
    (s.next blank key).Ascending ∧ (s.next blank key).current = key := by
  rw [RunCount.next]
  split_ifs with hkey
  · exact ⟨h, hkey.symm⟩
  · refine ⟨?_, rfl⟩
    intro k hk hmem
    have hlt : s.current < k := lt_of_lt_of_le (lt_of_le_of_ne hle (Ne.symm hkey)) hk
    simp only [save] at hmem
    split_ifs at hmem
    · rcases Counts.mem_insertNew.mp hmem with rfl | hmem
      · exact absurd hlt (lt_irrefl _)
      · exact h k hlt.le hmem
    · exact h k hlt.le hmem

theorem Ascending.get_save (h : s.Ascending) {k : α} : (s.save blank).get k =
    if k = s.current ∧ k ≠ blank then s.count else s.dict.get k := by
  simp only [save]
  by_cases hblank : s.current = blank
  · rw [if_neg (not_not_intro hblank), if_neg]
    rintro ⟨rfl, hk⟩
    exact hk hblank
  · rw [if_pos hblank, Counts.get_insertNew (h _ le_rfl)]
    by_cases hk : k = s.current
    · rw [if_pos hk, if_pos ⟨hk, hk ▸ hblank⟩]
    · rw [if_neg hk, if_neg fun hand => hk hand.1]

theorem mem_save {k : α} : k ∈ s.save blank ↔ k = s.current ∧ k ≠ blank ∨ k ∈ s.dict := by
  rw [save]
  by_cases hblank : s.current = blank
  · rw [if_neg (not_not_intro hblank), hblank]
    tauto
  · rw [if_pos hblank, Counts.mem_insertNew]
    apply or_congr_left
    constructor
    · rintro rfl
      exact ⟨rfl, hblank⟩
    · exact And.left

theorem mem_save_next {k : α} :
    k ∈ (s.next blank key).save blank ↔ k ∈ s.save blank ∨ k = key ∧ k ≠ blank := by
  rw [next]
  split_ifs with hkey
  · rw [mem_save, mem_save, hkey]
    tauto
  · rw [mem_save]
    exact Or.comm

theorem Ascending.get_save_next (h : s.Ascending) (hle : s.current ≤ key) {k : α} (hk : k ≠ blank) :
    ((s.next blank key).save blank).get k = (s.save blank).get k + if key = k then 1 else 0 := by
  have hnext := (@Ascending.next _ _ blank _ _ h hle).1
  by_cases hkey : key = s.current
  · have heq : s.next blank key = { s with count := s.count + 1 } := if_pos hkey
    rw [heq] at hnext ⊢
    rw [hnext.get_save, h.get_save]
    by_cases hcurrent : k = s.current
    · simp [hcurrent, hkey]
      split_ifs with hb
      · exact absurd (hcurrent.trans hb) hk
      · rfl
    · simp [hcurrent, hkey, Ne.symm hcurrent]
  · have heq : s.next blank key = ⟨key, 1, s.save blank⟩ := if_neg hkey
    rw [heq] at hnext ⊢
    rw [hnext.get_save]
    by_cases hcurrent : k = key
    · subst hcurrent
      have hlt : k ∉ s.save blank := hnext k le_rfl
      simp [hk, Counts.get_of_notMem hlt]
    · simp [hcurrent, Ne.symm hcurrent]

theorem get_save_foldl (h : s.Ascending) {keys : List α}
    (hsorted : (s.current :: keys).Pairwise (· ≤ ·)) {k : α} (hk : k ≠ blank) :
    ((keys.foldl (next blank) s).save blank).get k = (s.save blank).get k + keys.count k := by
  rw [@foldl_add_of_sorted _ _ _ _ current (fun s : RunCount α => (s.save blank).get k) _ _
    (fun s a hs hle => hs.next hle) (fun s a hs hle => hs.get_save_next hle hk) s h keys hsorted]
  congr 1
  induction keys with
  | nil => rfl
  | cons a keys ih =>
    rw [List.map_cons, List.sum_cons, List.count_cons, Nat.add_comm,
      ih (List.Pairwise.sublist ((List.sublist_cons_self a keys).cons_cons _) hsorted)]
    simp only [beq_iff_eq]

theorem mem_save_foldl {keys : List α} {k : α} :
    k ∈ (keys.foldl (next blank) s).save blank ↔ k ∈ s.save blank ∨ k ∈ keys ∧ k ≠ blank := by
  induction keys generalizing s with
  | nil => simp
  | cons a keys ih =>
    rw [List.foldl_cons, ih, mem_save_next, List.mem_cons]
    tauto

theorem notMem_save_start (k : α) : k ∉ (start blank).save blank := by
  rw [start, mem_save]
  simp

end
end RunCount
end MillenniumDB
