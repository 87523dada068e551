import Mathlib.Algebra.BigOperators.Group.Finset.Basic
import Mathlib.Data.Finset.Card
import Mathlib.Logic.Relation

/-!
# Exploring a graph with a stack

A depth-first search keeps a stack of states to look at and the states visited so far.
With fuel for every edge it visits exactly what is reachable from its source.
-/

namespace MillenniumDB

open Relation

section Explore

variable {α : Type*} [DecidableEq α] (succ : α → List α)

/-- The search: the successors of a newly visited state are pushed in order. -/
def explore : Nat → List α → List α → List α
  | 0, _, visited => visited
  | _ + 1, [], visited => visited
  | fuel + 1, x :: stack, visited =>
    if x ∈ visited then explore fuel stack visited
    else explore fuel ((succ x).reverse ++ stack) (x :: visited)

def exploreCost (univ : Finset α) (stack visited : List α) : Nat :=
  stack.length + ∑ x ∈ univ.filter (· ∉ visited), (succ x).length

variable {succ} {univ : Finset α} {fuel : Nat} {stack visited : List α} {x y : α}

theorem exploreCost_visit (hx : x ∉ visited) (huniv : x ∉ univ → succ x = []) :
    exploreCost succ univ ((succ x).reverse ++ stack) (x :: visited) + 1 =
      exploreCost succ univ (x :: stack) visited := by
  have hfilter : univ.filter (· ∉ x :: visited) = (univ.filter (· ∉ visited)).erase x := by
    ext y
    simp only [Finset.mem_filter, Finset.mem_erase, List.mem_cons, not_or]
    tauto
  unfold exploreCost
  rw [hfilter]
  by_cases hmem : x ∈ univ
  · have hsum := Finset.add_sum_erase (univ.filter (· ∉ visited)) (fun y => (succ y).length)
      (Finset.mem_filter.mpr ⟨hmem, hx⟩)
    simp only [List.length_append, List.length_reverse, List.length_cons]
    omega
  · rw [Finset.erase_eq_of_notMem (by simp [hmem]), huniv hmem]
    simp only [List.reverse_nil, List.nil_append, List.length_cons]
    omega

theorem visited_subset_explore (hy : y ∈ visited) : y ∈ explore succ fuel stack visited := by
  induction fuel generalizing stack visited with
  | zero => exact hy
  | succ fuel ih =>
    cases stack with
    | nil => exact hy
    | cons x stack =>
      rw [explore]
      split_ifs
      · exact ih hy
      · exact ih (List.mem_cons_of_mem x hy)

theorem explore_sound (hy : y ∈ explore succ fuel stack visited) :
    y ∈ visited ∨ ∃ x ∈ stack, ReflTransGen (fun a b => b ∈ succ a) x y := by
  induction fuel generalizing stack visited with
  | zero => exact .inl hy
  | succ fuel ih =>
    cases stack with
    | nil => exact .inl hy
    | cons x stack =>
      rw [explore] at hy
      split_ifs at hy with hx
      · rcases ih hy with h | ⟨z, hz, h⟩
        · exact .inl h
        · exact .inr ⟨z, List.mem_cons_of_mem x hz, h⟩
      · rcases ih hy with h | ⟨z, hz, h⟩
        · rcases List.mem_cons.mp h with rfl | h
          · exact .inr ⟨y, by simp, .refl⟩
          · exact .inl h
        · rcases List.mem_append.mp hz with hz | hz
          · exact .inr ⟨x, by simp, .head (List.mem_reverse.mp hz) h⟩
          · exact .inr ⟨z, List.mem_cons_of_mem x hz, h⟩

theorem explore_closed (huniv : ∀ x, x ∉ univ → succ x = [])
    (hfuel : exploreCost succ univ stack visited < fuel)
    (hinv : ∀ a ∈ visited, ∀ b ∈ succ a, b ∈ visited ∨ b ∈ stack) :
    (∀ b ∈ stack, b ∈ explore succ fuel stack visited) ∧
      ∀ a ∈ explore succ fuel stack visited, ∀ b ∈ succ a,
        b ∈ explore succ fuel stack visited := by
  induction fuel generalizing stack visited with
  | zero => exact absurd hfuel (Nat.not_lt_zero _)
  | succ fuel ih =>
    cases stack with
    | nil =>
      refine ⟨by simp, fun a ha b hb => ?_⟩
      exact (hinv a ha b hb).resolve_right List.not_mem_nil
    | cons x stack =>
      rw [explore]
      split_ifs with hx
      · have hcost : exploreCost succ univ (x :: stack) visited =
            exploreCost succ univ stack visited + 1 := by
          unfold exploreCost
          simp only [List.length_cons]
          omega
        have hinv' : ∀ a ∈ visited, ∀ b ∈ succ a, b ∈ visited ∨ b ∈ stack := by
          intro a ha b hb
          rcases hinv a ha b hb with h | h
          · exact .inl h
          · rcases List.mem_cons.mp h with rfl | h
            · exact .inl hx
            · exact .inr h
        obtain ⟨hstack, hclosed⟩ := ih (by omega) hinv'
        refine ⟨fun b hb => ?_, hclosed⟩
        rcases List.mem_cons.mp hb with rfl | hb
        · exact visited_subset_explore hx
        · exact hstack b hb
      · have hcost : exploreCost succ univ ((succ x).reverse ++ stack) (x :: visited) + 1 =
            exploreCost succ univ (x :: stack) visited := exploreCost_visit hx (huniv x)
        have hinv' : ∀ a ∈ x :: visited, ∀ b ∈ succ a,
            b ∈ x :: visited ∨ b ∈ (succ x).reverse ++ stack := by
          intro a ha b hb
          rcases List.mem_cons.mp ha with rfl | ha
          · exact .inr (List.mem_append_left _ (List.mem_reverse.mpr hb))
          · rcases hinv a ha b hb with h | h
            · exact .inl (List.mem_cons_of_mem x h)
            · rcases List.mem_cons.mp h with rfl | h
              · exact .inl (by simp)
              · exact .inr (List.mem_append_right _ h)
        obtain ⟨hstack, hclosed⟩ := ih (by omega) hinv'
        refine ⟨fun b hb => ?_, hclosed⟩
        rcases List.mem_cons.mp hb with rfl | hb
        · exact visited_subset_explore (by simp)
        · exact hstack b (List.mem_append_right _ hb)

theorem mem_explore_iff (huniv : ∀ x, x ∉ univ → succ x = [])
    (hfuel : 1 + ∑ x ∈ univ, (succ x).length < fuel) :
    y ∈ explore succ fuel [x] [] ↔ ReflTransGen (fun a b => b ∈ succ a) x y := by
  constructor
  · intro h
    rcases explore_sound h with h | ⟨z, hz, h⟩
    · exact absurd h List.not_mem_nil
    · exact List.mem_singleton.mp hz ▸ h
  · intro h
    have hcost : exploreCost succ univ [x] [] < fuel := by simpa [exploreCost] using hfuel
    obtain ⟨hstack, hclosed⟩ := explore_closed huniv hcost (by simp)
    induction h with
    | refl => exact hstack x (by simp)
    | tail _ hb ih => exact hclosed _ ih _ hb

end Explore

end MillenniumDB
