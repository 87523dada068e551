import Mathlib.Data.List.Induction
import Mathlib.Data.List.Pairwise
import Mathlib.Order.Defs.LinearOrder
import Mathlib.Order.Lattice

/-!
# Routing by separators

A sequence of parts has a separator before each part but the first.  A key goes to the last part
whose separator is not above it, and to the first part if there is none.  In a sequence that is
cut into longer parts the key can be routed to the longer part first.
-/

namespace MillenniumDB

/-- `x` is the part of `xs` that the key belongs to. -/
def Routed {α β : Type*} [LE β] [LT β] (sep : α → β) (key : β) (xs : List α) (x : α) : Prop :=
  ∃ before after, xs = before ++ x :: after ∧ (before ≠ [] → sep x ≤ key) ∧
    ∀ y ∈ after, key < sep y

section

variable {α β : Type*} [LinearOrder β] {sep : α → β} {key : β} {xs : List α} {x y : α}

theorem routed_singleton (sep : α → β) (key : β) (x : α) : Routed sep key [x] x :=
  ⟨[], [], rfl, fun h => absurd rfl h, by simp⟩

theorem Routed.mem (h : Routed sep key xs x) : x ∈ xs := by
  obtain ⟨before, after, rfl, _, _⟩ := h
  simp

theorem exists_routed (sep : α → β) (key : β) (hne : xs ≠ []) : ∃ x, Routed sep key xs x := by
  induction xs using List.reverseRecOn with
  | nil => exact absurd rfl hne
  | append_singleton xs y ih =>
    by_cases hle : sep y ≤ key
    · exact ⟨y, xs, [], rfl, fun _ => hle, by simp⟩
    by_cases hnil : xs = []
    · subst hnil
      exact ⟨y, routed_singleton sep key y⟩
    · obtain ⟨x, before, after, rfl, hbefore, hafter⟩ := ih hnil
      refine ⟨x, before, after ++ [y], by simp, hbefore, fun z hz => ?_⟩
      rcases List.mem_append.mp hz with hz | hz
      · exact hafter z hz
      · rw [List.mem_singleton.mp hz]
        exact not_le.mp hle

theorem Routed.unique (hx : Routed sep key xs x) (hy : Routed sep key xs y) : x = y := by
  obtain ⟨before, after, rfl, hle, hlt⟩ := hx
  obtain ⟨before', after', heq, hle', hlt'⟩ := hy
  rcases List.append_eq_append_iff.mp heq with ⟨mid, rfl, hmid⟩ | ⟨mid, rfl, hmid⟩
  · cases mid with
    | nil => exact (List.cons.inj hmid).1
    | cons z mid =>
      -- then `y` comes after `x`, and its separator is not above the key
      obtain ⟨_, rfl⟩ := List.cons.inj hmid
      exact absurd (hlt y (by simp)) (not_lt.mpr (hle' (by simp)))
  · cases mid with
    | nil => exact (List.cons.inj hmid).1.symm
    | cons z mid =>
      obtain ⟨_, rfl⟩ := List.cons.inj hmid
      exact absurd (hlt' x (by simp)) (not_lt.mpr (hle (by simp)))

/-- Where the parts are put together to longer ones, each with the separator of its first part. -/
theorem Routed.flatten {before after : List (List α)} {part : List α} (h : Routed sep key part x)
    (hsorted : (after.flatten.map sep).Pairwise (· ≤ ·))
    (hbefore : before.flatten ≠ [] → ∀ y ∈ part.head?, sep y ≤ key)
    (hafter : ∀ y ∈ after.flatten.head?, key < sep y) :
    Routed sep key (before ++ part :: after).flatten x := by
  obtain ⟨front, back, rfl, hle, hlt⟩ := h
  refine ⟨before.flatten ++ front, back ++ after.flatten, by simp, ?_, ?_⟩
  · intro hne
    cases front with
    | nil => exact hbefore (by simpa using hne) x (by simp)
    | cons z front => exact hle (List.cons_ne_nil z front)
  · intro y hy
    rcases List.mem_append.mp hy with hy | hy
    · exact hlt y hy
    · cases hflat : after.flatten with
      | nil => simp [hflat] at hy
      | cons z rest =>
        rw [hflat] at hy hsorted hafter
        have hz : key < sep z := hafter z (by simp)
        rcases List.mem_cons.mp hy with rfl | hy
        · exact hz
        · apply lt_of_lt_of_le hz
          exact List.rel_of_pairwise_cons hsorted (List.mem_map_of_mem hy)

end
end MillenniumDB
