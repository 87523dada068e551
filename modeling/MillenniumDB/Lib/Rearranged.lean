import Mathlib.Data.List.Perm.Basic
import Mathlib.Tactic.Common

/-!
# Sorting a part of an array

A part of an array is put in another order and the rest stays.  Where every element before a place
is related to the one there, and that one to every element behind, sorting the two sides sorts the
whole.
-/

namespace MillenniumDB

/-- `b` is `a` with the elements from `lo` up to `hi` in another order. -/
structure Rearranged {α : Type*} (lo hi : Nat) (a b : List α) : Prop where
  perm : a.Perm b
  outside : ∀ i, i < lo ∨ hi ≤ i → b[i]? = a[i]?

def exchange {α : Type*} (i j : Nat) (a : List α) : List α :=
  match a[i]?, a[j]? with
  | some x, some y => (a.set i y).set j x
  | _, _ => a

/-- The elements from `lo` up to `hi` are in order. -/
def SortedOn {α : Type*} (r : α → α → Prop) (lo hi : Nat) (a : List α) : Prop :=
  ∀ i j x y, lo ≤ i → i < j → j < hi → a[i]? = some x → a[j]? = some y → r x y

section

variable {α : Type*} {a b m d : List α} {lo hi p : Nat} {r : α → α → Prop}

theorem exchange_eq {i j : Nat} (hi : i < a.length) (hj : j < a.length) :
    exchange i j a = (a.set i a[j]).set j a[i] := by
  simp only [exchange, List.getElem?_eq_getElem hi, List.getElem?_eq_getElem hj]

theorem exchange_left {i j : Nat} (hi : i < a.length) (hj : j < a.length) :
    (exchange i j a)[i]? = a[j]? := by
  rw [exchange_eq hi hj, List.getElem?_eq_getElem hj]
  by_cases hij : j = i
  · subst hij
    rw [List.getElem?_set_self (by rw [List.length_set]; exact hj)]
  · rw [List.getElem?_set_ne hij, List.getElem?_set_self hi]

theorem exchange_right {i j : Nat} (hi : i < a.length) (hj : j < a.length) :
    (exchange i j a)[j]? = a[i]? := by
  rw [exchange_eq hi hj, List.getElem?_set_self (by rw [List.length_set]; exact hj),
    List.getElem?_eq_getElem hi]

theorem exchange_of_ne {i j k : Nat} (hi : k ≠ i) (hj : k ≠ j) : (exchange i j a)[k]? = a[k]? := by
  unfold exchange
  split
  · rw [List.getElem?_set_ne hj.symm, List.getElem?_set_ne hi.symm]
  · rfl

theorem exchange_perm (i j : Nat) (a : List α) : a.Perm (exchange i j a) := by
  by_cases h : i < a.length ∧ j < a.length
  · rw [exchange_eq h.1 h.2]
    exact (List.set_set_perm h.1 h.2).symm
  · unfold exchange
    split
    · rename_i hi hj
      exact absurd ⟨(List.getElem?_eq_some_iff.mp hi).1, (List.getElem?_eq_some_iff.mp hj).1⟩ h
    · exact .refl a

namespace Rearranged

theorem exchange {i j : Nat} (hin : lo ≤ i ∧ i < hi) (hjn : lo ≤ j ∧ j < hi) (a : List α) :
    Rearranged lo hi a (exchange i j a) :=
  ⟨exchange_perm i j a, fun _ _ => exchange_of_ne (by omega) (by omega)⟩

theorem refl (lo hi : Nat) (a : List α) : Rearranged lo hi a a := ⟨.refl a, fun _ _ => rfl⟩

theorem trans (hab : Rearranged lo hi a b) (hbm : Rearranged lo hi b m) : Rearranged lo hi a m :=
  ⟨hab.perm.trans hbm.perm, fun i hi => (hbm.outside i hi).trans (hab.outside i hi)⟩

theorem mono (h : Rearranged lo hi a b) {lo' hi' : Nat} (hlo : lo' ≤ lo) (hhi : hi ≤ hi') :
    Rearranged lo' hi' a b :=
  ⟨h.perm, fun i hi => h.outside i (by omega)⟩

theorem length_eq (h : Rearranged lo hi a b) : b.length = a.length := h.perm.length_eq.symm

theorem symm (h : Rearranged lo hi a b) : Rearranged lo hi b a :=
  ⟨h.perm.symm, fun i hi => (h.outside i hi).symm⟩

theorem part (h : Rearranged lo hi a b) (hle : lo ≤ hi) :
    ((a.drop lo).take (hi - lo)).Perm ((b.drop lo).take (hi - lo)) := by
  have hsplit : ∀ l : List α, l = l.take lo ++ ((l.drop lo).take (hi - lo) ++ l.drop hi) := by
    intro l
    have hdrop : l.drop hi = (l.drop lo).drop (hi - lo) := by
      rw [List.drop_drop]
      congr 1
      omega
    rw [hdrop, List.take_append_drop, List.take_append_drop]
  have hfront : b.take lo = a.take lo := by
    apply List.ext_getElem?
    intro i
    by_cases hi : i < lo
    · rw [List.getElem?_take_of_lt hi, List.getElem?_take_of_lt hi, h.outside i (Or.inl hi)]
    · rw [List.getElem?_take_eq_none (by omega), List.getElem?_take_eq_none (by omega)]
  have hback : b.drop hi = a.drop hi := by
    apply List.ext_getElem?
    intro i
    rw [List.getElem?_drop, List.getElem?_drop, h.outside _ (Or.inr (Nat.le_add_right hi i))]
  have hperm := h.perm
  rw [hsplit a, hsplit b, hfront, hback, List.perm_append_left_iff,
    List.perm_append_right_iff] at hperm
  exact hperm

theorem getElem?_part {l : List α} {i : Nat} (hlo : lo ≤ i) (hhi : i < hi) :
    ((l.drop lo).take (hi - lo))[i - lo]? = l[i]? := by
  rw [List.getElem?_take_of_lt (by omega), List.getElem?_drop, Nat.add_sub_cancel' hlo]

theorem forall_part (h : Rearranged lo hi a b) {P : α → Prop}
    (hall : ∀ i x, lo ≤ i → i < hi → a[i]? = some x → P x) :
    ∀ i x, lo ≤ i → i < hi → b[i]? = some x → P x := by
  intro i x hlo hhi hget
  rw [← getElem?_part hlo hhi] at hget
  have hmem := (h.part (by omega)).mem_iff.mpr (List.mem_of_getElem? hget)
  obtain ⟨k, hk, rfl⟩ := List.mem_iff_getElem.mp hmem
  have hlen := hk
  rw [List.length_take] at hlen
  apply hall (lo + k) _ (Nat.le_add_right lo k) (by omega)
  rw [← getElem?_part (Nat.le_add_right lo k) (by omega : lo + k < hi), Nat.add_sub_cancel_left,
    List.getElem?_eq_getElem hk]

end Rearranged

/-- After the two sides of a place have been rearranged one after the other, the whole is sorted
just if both sides are and nothing before the place is greater than the element there. -/
theorem sortedOn_iff_sides (htrans : ∀ x y z, r x y → r y z → r x z) {pivot : α} (hlo : lo ≤ p)
    (hp : p < hi) (hpivot : b[p]? = some pivot)
    (hgreater : ∀ i x, p + 1 ≤ i → i < hi → b[i]? = some x → r pivot x)
    (hm : Rearranged lo p b m) (hd : Rearranged (p + 1) hi m d) :
    SortedOn r lo hi d ↔ (∀ i x, lo ≤ i → i < p → b[i]? = some x → r x pivot) ∧
      SortedOn r lo p m ∧ SortedOn r (p + 1) hi d := by
  have hbelow : ∀ {i}, i < p + 1 → d[i]? = m[i]? := fun hi => hd.outside _ (Or.inl hi)
  have hplace : d[p]? = some pivot := by
    rw [hbelow (Nat.lt_succ_self p), hm.outside p (Or.inr (Nat.le_refl p)), hpivot]
  constructor
  · intro h
    refine ⟨hm.symm.forall_part fun i x hi hip hget => ?_, fun i j x y hi hij hj hx hy => ?_,
      fun i j x y hi hij hj hx hy => h i j x y (by omega) hij hj hx hy⟩
    · rw [← hbelow (by omega)] at hget
      exact h i p x pivot hi hip hp hget hplace
    · rw [← hbelow (by omega)] at hx hy
      exact h i j x y hi hij (by omega) hx hy
  · intro ⟨hsmaller, hleft, hright⟩
    have hsmaller' : ∀ i x, lo ≤ i → i < p → d[i]? = some x → r x pivot := by
      intro i x hi hip hget
      rw [hbelow (Nat.lt_succ_of_lt hip)] at hget
      exact hm.forall_part hsmaller i x hi hip hget
    have hgreater' : ∀ i x, p + 1 ≤ i → i < hi → d[i]? = some x → r pivot x := by
      refine hd.forall_part fun i x hi hih hget => ?_
      rw [hm.outside i (Or.inr (Nat.le_of_succ_le hi))] at hget
      exact hgreater i x hi hih hget
    intro i j x y hi hij hj hx hy
    rcases Nat.lt_trichotomy j p with hjp | rfl | hjp
    · rw [hbelow (by omega)] at hx hy
      exact hleft i j x y hi hij hjp hx hy
    · rw [Option.some.inj (hy.symm.trans hplace)]
      exact hsmaller' i x hi hij hx
    · have hyp := hgreater' j y hjp hj hy
      rcases Nat.lt_trichotomy i p with hip | rfl | hip
      · exact htrans _ _ _ (hsmaller' i x hi hip hx) hyp
      · rw [Option.some.inj (hx.symm.trans hplace)]
        exact hyp
      · exact hright i j x y hip hij hj hx hy

theorem SortedOn.of_le (h : hi ≤ lo + 1) : SortedOn r lo hi a :=
  fun _ _ _ _ _ _ _ => by omega

theorem sortedOn_iff_pairwise : SortedOn r 0 a.length a ↔ a.Pairwise r := by
  rw [List.pairwise_iff_getElem]
  constructor
  · intro h i j hi hj hij
    exact h i j _ _ (Nat.zero_le i) hij hj (List.getElem?_eq_getElem hi)
      (List.getElem?_eq_getElem hj)
  · intro h i j x y _ hij hj hx hy
    obtain ⟨hi', rfl⟩ := List.getElem?_eq_some_iff.mp hx
    obtain ⟨hj', rfl⟩ := List.getElem?_eq_some_iff.mp hy
    exact h i j hi' hj' hij

end
end MillenniumDB
