import Mathlib.Data.Int.Order.Basic
import Mathlib.Data.List.Induction
import Mathlib.Data.List.Pairwise
import Mathlib.Order.Lattice

/-!
# Putting an element into an array

To make room at a position, the slots from there on are copied one place up, the last one first.
In an array that is full the last element is saved before it is overwritten.
-/

namespace MillenniumDB

section

variable {α : Type*}

/-- Copies the slots from `start` on, as many as given, one place up, the last of them first.  There
is no result if a slot lies outside the array. -/
def shiftSlots (start : Nat) : Nat → List α → Option (List α)
  | 0, slots => some slots
  | k + 1, slots =>
    slots[start + k]?.bind fun x =>
      if start + k + 1 < slots.length then shiftSlots start k (slots.set (start + k + 1) x) else none

/-- The loop from `stop` down to `start`. -/
def shiftRight (start : Nat) (stop : Int) (slots : List α) : Option (List α) :=
  shiftSlots start (stop + 1 - start).toNat slots

/-- Makes room at the position and writes `x` there. -/
def putShifting (index : Nat) (stop : Int) (x : α) (slots : List α) : Option (List α) :=
  (shiftRight index stop slots).map fun slots => slots.set index x

/-- As `putShifting` in an array with `count` elements that is full, together with the element that
no longer fits. -/
def putSaving (count index : Nat) (stop : Int) (x : α) (slots : List α) : Option (List α × α) :=
  if index = count then some (slots, x)
  else slots[count - 1]?.bind fun last =>
    (putShifting index stop x slots).map fun shifted => (shifted, last)

/-- The slots of `b` move up over `y`, and the first of them stays where it was too. -/
theorem shiftSlots_append (a b c : List α) (y : α) :
    shiftSlots a.length b.length (a ++ b ++ y :: c) = some (a ++ (b ++ [y]).head (by simp) :: b ++ c) := by
  induction b using List.reverseRecOn generalizing y c with
  | nil => simp [shiftSlots]
  | append_singleton b z ih =>
    have hget : (a ++ (b ++ [z]) ++ y :: c)[a.length + b.length]? = some z := by
      rw [List.append_assoc, List.append_assoc, List.getElem?_append_right (Nat.le_add_right _ _),
        Nat.add_sub_cancel_left, List.getElem?_append_right le_rfl]
      simp
    have hset : (a ++ (b ++ [z]) ++ y :: c).set (a.length + b.length + 1) z =
        a ++ b ++ z :: (z :: c) := by
      have hlen : a.length + b.length + 1 = (a ++ (b ++ [z])).length := by simp; omega
      rw [hlen, List.set_append_right _ _ le_rfl, Nat.sub_self]
      simp
    rw [List.length_append, List.length_singleton, shiftSlots, hget, Option.bind_some,
      if_pos (by simp; omega), hset, ih]
    cases b <;> simp

theorem putShifting_append (a b c : List α) (x y : α) (stop : Int)
    (hstop : stop + 1 = a.length + b.length) :
    putShifting a.length stop x (a ++ b ++ y :: c) = some (a ++ x :: b ++ c) := by
  have hcount : (stop + 1 - a.length).toNat = b.length := by omega
  rw [putShifting, shiftRight, hcount, shiftSlots_append, Option.map_some]
  simp

theorem putShifting_outside {index : Nat} {stop : Int} {slots : List α} (x : α)
    (hindex : index ≤ stop) (hstop : slots.length ≤ stop) : putShifting index stop x slots = none := by
  obtain ⟨k, hk⟩ : ∃ k, (stop + 1 - index).toNat = k + 1 :=
    Nat.exists_eq_add_one_of_ne_zero (by omega)
  rw [putShifting, shiftRight, hk, shiftSlots, List.getElem?_eq_none (by omega), Option.bind_none,
    Option.map_none]

theorem putSaving_append {a b saved : List α} {x last : α} (count : Nat) (stop : Int)
    (hall : a ++ x :: b = saved ++ [last]) (hcount : count = a.length + b.length)
    (hstop : stop + 2 = count) :
    putSaving count a.length stop x (a ++ b) = some (saved, last) := by
  rcases List.eq_nil_or_concat b with rfl | ⟨b, y, hb⟩
  · obtain ⟨rfl, hx⟩ := List.append_inj' hall rfl
    obtain rfl : x = last := List.singleton_inj.mp hx
    simp [putSaving, hcount]
  · rw [List.concat_eq_append] at hb
    subst hb
    rw [← List.cons_append, ← List.append_assoc] at hall
    obtain ⟨rfl, hy⟩ := List.append_inj' hall rfl
    obtain rfl : y = last := List.singleton_inj.mp hy
    rw [List.length_append, List.length_singleton] at hcount
    have hput := putShifting_append a b [] x y stop (by omega)
    have hget : (a ++ (b ++ [y]))[count - 1]? = some y := by
      have hindex : count - 1 = (a ++ b).length := by simp; omega
      rw [← List.append_assoc, hindex, List.getElem?_concat_length]
    rw [putSaving, if_neg (by omega), hget, Option.bind_some, ← List.append_assoc, hput,
      Option.map_some, List.append_nil]

theorem set_concat_length (xs : List α) (x y : α) : (xs ++ [x]).set xs.length y = xs ++ [y] := by
  simp

theorem getD_append_length (xs ys : List α) (y : α) : (xs ++ ys).getD xs.length y = ys.headD y := by
  cases ys <;> simp

theorem exists_cut (xs : List α) {m : Nat} (hlen : m < xs.length) :
    ∃ front x back, xs = front ++ x :: back ∧ front.length = m := by
  refine ⟨xs.take m, xs[m], xs.drop (m + 1), ?_, ?_⟩
  · exact (List.take_append_drop m xs).symm.trans (congrArg _ (List.drop_eq_getElem_cons hlen))
  · rw [List.length_take, min_eq_left hlen.le]

end

section

variable {α : Type*} [LinearOrder α] {a b : List α} {x : α}

theorem pairwise_lt_insert (hab : (a ++ b).Pairwise (· < ·)) (ha : ∀ y ∈ a, y < x)
    (hb : ∀ y ∈ b, x < y) : (a ++ x :: b).Pairwise (· < ·) := by
  obtain ⟨hleft, hright, hacross⟩ := List.pairwise_append.mp hab
  refine List.pairwise_append.mpr ⟨hleft, List.pairwise_cons.mpr ⟨hb, hright⟩, ?_⟩
  intro y hy z hz
  rcases List.mem_cons.mp hz with rfl | hz
  · exact ha y hy
  · exact hacross y hy z hz

end
end MillenniumDB
