import Mathlib.Data.List.Perm.Basic
import Mathlib.Data.List.Nodup
import Mathlib.Order.Defs.LinearOrder

/-!
# Merging many sorted runs

A merge takes, again and again, a least one of the heads of its runs.  Whatever it takes among
equals, the outcome is a sorted permutation of what the runs held.  A queue of the heads says
which one to take.
-/

namespace MillenniumDB

/-- What merging leaves of the runs: the outcome is taken from the heads, a least one first. -/
inductive Merges {α : Type*} [LE α] : (Nat → List α) → List α → Prop
  | nil {runs} : (∀ i, runs i = []) → Merges runs []
  | cons {runs i a rest out} : runs i = a :: rest →
      (∀ j b, (runs j).head? = some b → a ≤ b) →
      Merges (Function.update runs i rest) out → Merges runs (a :: out)

namespace Merges

section

variable {α : Type*} {runs : Nat → List α} {i : Nat} {a : α} {rest out : List α}

theorem flatMap_update_perm {js : List Nat} (hjs : js.Nodup) (hi : i ∈ js)
    (hruns : runs i = a :: rest) :
    (js.flatMap runs).Perm (a :: js.flatMap (Function.update runs i rest)) := by
  induction js with
  | nil => cases hi
  | cons j js ih =>
    obtain ⟨hj, hjs⟩ := List.nodup_cons.mp hjs
    rw [List.flatMap_cons, List.flatMap_cons]
    by_cases hij : i = j
    · subst hij
      have hothers : js.flatMap (Function.update runs i rest) = js.flatMap runs := by
        apply List.flatMap_congr
        intro k hk
        apply Function.update_of_ne
        intro heq
        exact hj (heq ▸ hk)
      rw [hruns, Function.update_self, hothers, List.cons_append]
    · have hmem : i ∈ js := (List.mem_cons.mp hi).resolve_left hij
      rw [Function.update_of_ne (Ne.symm hij)]
      exact ((ih hjs hmem).append_left (runs j)).trans List.perm_middle

theorem flatMap_filter_perm (f : α → Nat) (k : Nat) {all : List α} (hall : ∀ x ∈ all, f x < k) :
    ((List.range k).flatMap fun i => all.filter fun x => decide (f x = i)).Perm all := by
  induction all with
  | nil =>
    have hempty : ((List.range k).flatMap fun i =>
        ([] : List α).filter fun x => decide (f x = i)) = [] := by
      rw [List.flatMap_eq_nil_iff]
      exact fun _ _ => rfl
    rw [hempty]
  | cons a rest ih =>
    have hlt := hall a List.mem_cons_self
    obtain ⟨runs, hruns⟩ : ∃ runs : Nat → List α,
        runs = fun i => (a :: rest).filter fun x => decide (f x = i) := ⟨_, rfl⟩
    have hhead : runs (f a) = a :: rest.filter fun x => decide (f x = f a) := by
      rw [hruns]
      exact List.filter_cons_of_pos (decide_eq_true rfl)
    have hothers : Function.update runs (f a) (rest.filter fun x => decide (f x = f a)) =
        fun i => rest.filter fun x => decide (f x = i) := by
      funext i
      by_cases hi : i = f a
      · rw [hi, Function.update_self]
      · rw [Function.update_of_ne hi, hruns]
        exact List.filter_cons_of_neg fun heq => hi (of_decide_eq_true heq).symm
    have hperm := flatMap_update_perm List.nodup_range (List.mem_range.mpr hlt) hhead
    rw [hothers] at hperm
    rw [← hruns]
    exact hperm.trans ((ih fun x hx => hall x (List.mem_cons_of_mem a hx)).cons a)

variable [LE α]

theorem perm (h : Merges runs out) {k : Nat} (hk : ∀ i, k ≤ i → runs i = []) :
    out.Perm ((List.range k).flatMap runs) := by
  induction h with
  | @nil runs hnil =>
    have hempty : (List.range k).flatMap runs = [] := by
      rw [List.flatMap_eq_nil_iff]
      exact fun i _ => hnil i
    rw [hempty]
  | @cons runs i a rest out hi _ _ ih =>
    have hlt : i < k := by
      by_contra hge
      rw [hk i (by omega)] at hi
      cases hi
    have hrest : ∀ j, k ≤ j → Function.update runs i rest j = [] := by
      intro j hj
      rw [Function.update_of_ne (by omega)]
      exact hk j hj
    have hperm := flatMap_update_perm List.nodup_range (List.mem_range.mpr hlt) hi
    exact ((ih hrest).cons a).trans hperm.symm

end

theorem sorted {α : Type*} [Preorder α] {runs : Nat → List α} {out : List α}
    (h : Merges runs out) (hruns : ∀ i, (runs i).Pairwise (· ≤ ·)) : out.Pairwise (· ≤ ·) := by
  -- everything that comes later stands in some run
  have hmem : ∀ {runs : Nat → List α} {out : List α}, Merges runs out →
      ∀ b ∈ out, ∃ i, b ∈ runs i := by
    intro runs out h
    induction h with
    | nil => simp
    | @cons runs i a rest out hi _ _ ih =>
      intro b hb
      rcases List.mem_cons.mp hb with rfl | hb
      · exact ⟨i, hi ▸ List.mem_cons_self⟩
      · obtain ⟨j, hj⟩ := ih b hb
        by_cases hji : j = i
        · subst hji
          rw [Function.update_self] at hj
          exact ⟨j, hi ▸ List.mem_cons_of_mem a hj⟩
        · rw [Function.update_of_ne hji] at hj
          exact ⟨j, hj⟩
  induction h with
  | nil => exact .nil
  | @cons runs i a rest out hi hleast hmerges ih =>
    have hrest : ∀ j, (Function.update runs i rest j).Pairwise (· ≤ ·) := by
      intro j
      by_cases hji : j = i
      · subst hji
        rw [Function.update_self]
        have hsorted := hruns j
        rw [hi] at hsorted
        exact hsorted.of_cons
      · rw [Function.update_of_ne hji]
        exact hruns j
    refine List.pairwise_cons.mpr ⟨fun b hb => ?_, ih hrest⟩
    obtain ⟨j, hj⟩ := hmem (.cons hi hleast hmerges) b (List.mem_cons_of_mem a hb)
    cases hrun : runs j with
    | nil =>
      rw [hrun] at hj
      cases hj
    | cons c cs =>
      have hac := hleast j c (by rw [hrun]; rfl)
      have hsorted := hruns j
      rw [hrun] at hj hsorted
      rcases List.mem_cons.mp hj with rfl | hj
      · exact hac
      · exact le_trans hac (List.rel_of_pairwise_cons hsorted hj)

end Merges

structure Heads {α : Type*} (runs : Nat → List α) (queue : List (α × Nat)) : Prop where
  queued : ∀ a i, (a, i) ∈ queue ↔ (runs i).head? = some a
  nodup : (queue.map Prod.snd).Nodup

namespace Heads

variable {α : Type*} {runs : Nat → List α} {queue others : List (α × Nat)} {a : α} {i : Nat}

theorem eq_nil (h : Heads runs []) (i : Nat) : runs i = [] := by
  cases hrun : runs i with
  | nil => rfl
  | cons a rest =>
    have hmem := (h.queued a i).mpr (by rw [hrun]; rfl)
    exact absurd hmem List.not_mem_nil

theorem of_range (k : Nat) (first : Nat → α) (hbelow : ∀ i < k, (runs i).head? = some (first i))
    (hbeyond : ∀ i, k ≤ i → runs i = []) :
    Heads runs ((List.range k).map fun i => (first i, i)) where
  queued a i := by
    simp only [List.mem_map, List.mem_range, Prod.mk.injEq]
    constructor
    · intro hmem
      obtain ⟨j, hj, rfl, rfl⟩ := hmem
      exact hbelow j hj
    · intro hhead
      have hlt : i < k := by
        by_contra hge
        rw [hbeyond i (Nat.le_of_not_lt hge)] at hhead
        cases hhead
      rw [hbelow i hlt] at hhead
      exact ⟨i, hlt, Option.some.inj hhead, rfl⟩
  nodup := by
    rw [List.map_map]
    have hid : Prod.snd ∘ (fun i => (first i, i)) = id := rfl
    rw [hid, List.map_id]
    exact List.nodup_range

theorem take [LE α] (h : Heads runs queue) (hperm : queue.Perm ((a, i) :: others))
    (hleast : ∀ pair ∈ queue, a ≤ pair.1) :
    ∃ rest, runs i = a :: rest ∧ (∀ j b, (runs j).head? = some b → a ≤ b) ∧
      Heads (Function.update runs i rest)
        ((rest.head?.map fun b => (b, i)).toList ++ others) := by
  have hmem : (a, i) ∈ queue := hperm.mem_iff.mpr List.mem_cons_self
  obtain ⟨rest, hrest⟩ : ∃ rest, runs i = a :: rest :=
    List.head?_eq_some_iff.mp ((h.queued a i).mp hmem)
  have hnodup : (i :: others.map Prod.snd).Nodup := (hperm.map Prod.snd).nodup_iff.mp h.nodup
  obtain ⟨hnew, hothers⟩ := List.nodup_cons.mp hnodup
  -- the others in the queue are those of the other runs
  have hothersMem : ∀ b j, (b, j) ∈ others ↔ j ≠ i ∧ (runs j).head? = some b := by
    intro b j
    rw [← h.queued, hperm.mem_iff, List.mem_cons]
    constructor
    · intro hmem'
      exact ⟨fun heq => hnew (heq ▸ List.mem_map_of_mem hmem'), .inr hmem'⟩
    · intro hmem'
      exact hmem'.2.resolve_left fun heq => hmem'.1 (congrArg Prod.snd heq)
  refine ⟨rest, hrest, fun j b hb => hleast (b, j) ((h.queued b j).mpr hb), ⟨?_, ?_⟩⟩
  · intro b j
    by_cases heq : j = i
    · subst heq
      rw [Function.update_self]
      cases rest with
      | nil => simp [hothersMem]
      | cons x rest => simp [hothersMem, eq_comm]
    · rw [Function.update_of_ne heq]
      cases rest with
      | nil => simp [hothersMem, heq]
      | cons x rest => simp [hothersMem, heq]
  · cases rest with
    | nil => exact hothers
    | cons x rest => exact hnodup

end Heads
end MillenniumDB
