import MillenniumDB.Lib.PageFiles

/-!
# Passes that merge two runs at a time

A list that is sorted run by run is merged, each run with its neighbour, and becomes sorted in runs
twice as long.  The other way round, what was not sorted in its runs does not become so.
-/

namespace MillenniumDB

/-- On the elements of a list the comparison follows the order; among equals it may say either. -/
def Compares {α : Type*} (lt : α → α → Bool) (r : α → α → Prop) (all : List α) : Prop :=
  ∀ x ∈ all, ∀ y ∈ all, (lt x y = true → r x y) ∧ (lt x y = false → r y x)

def mergedRuns {α : Type*} (lt : α → α → Bool) (length : Nat) (all : List α) (count : Nat) : List α :=
  (List.range count).flatMap fun k =>
    (pageOf length all (2 * k)).merge (pageOf length all (2 * k + 1)) lt

section

variable {α : Type*} {r : α → α → Prop} {lt : α → α → Bool} {xs ys all : List α}
  {length count k : Nat}

theorem sublist_merge (lt : α → α → Bool) (xs ys : List α) :
    List.Sublist xs (xs.merge ys lt) ∧ List.Sublist ys (xs.merge ys lt) := by
  induction xs generalizing ys with
  | nil =>
    rw [List.nil_merge]
    exact ⟨List.nil_sublist ys, List.Sublist.refl ys⟩
  | cons x xs ihx =>
    induction ys with
    | nil =>
      rw [List.merge_right]
      exact ⟨List.Sublist.refl _, List.nil_sublist _⟩
    | cons y ys ihy =>
      rw [List.cons_merge_cons]
      split
      · have htail := ihx (y :: ys)
        exact ⟨htail.1.cons_cons x, htail.2.cons x⟩
      · exact ⟨ihy.1.cons y, ihy.2.cons_cons y⟩

theorem pairwise_merge (htrans : ∀ x y z, r x y → r y z → r x z)
    (h : ∀ x ∈ xs, ∀ y ∈ ys, (lt x y = true → r x y) ∧ (lt x y = false → r y x))
    (hxs : xs.Pairwise r) (hys : ys.Pairwise r) : (xs.merge ys lt).Pairwise r := by
  induction xs generalizing ys with
  | nil =>
    rw [List.nil_merge]
    exact hys
  | cons x xs ihx =>
    induction ys with
    | nil =>
      rw [List.merge_right]
      exact hxs
    | cons y ys ihy =>
      obtain ⟨hx, hxs'⟩ := List.pairwise_cons.mp hxs
      obtain ⟨hy, hys'⟩ := List.pairwise_cons.mp hys
      have hhead := h x List.mem_cons_self y List.mem_cons_self
      rw [List.cons_merge_cons]
      split
      · next hlt =>
        -- all that follows is in one of the lists, behind x or behind y
        apply List.Pairwise.cons
        · intro z hz
          rcases List.mem_merge.mp hz with hz | hz
          · exact hx z hz
          · rcases List.mem_cons.mp hz with rfl | hz
            · exact hhead.1 hlt
            · exact htrans x y z (hhead.1 hlt) (hy z hz)
        · exact ihx (fun a ha => h a (List.mem_cons_of_mem x ha)) hxs' hys
      · next hlt =>
        have hle := hhead.2 (Bool.eq_false_iff.mpr hlt)
        apply List.Pairwise.cons
        · intro z hz
          rcases List.mem_merge.mp hz with hz | hz
          · rcases List.mem_cons.mp hz with rfl | hz
            · exact hle
            · exact htrans y x z hle (hx z hz)
          · exact hy z hz
        · exact ihy (fun a ha b hb => h a ha b (List.mem_cons_of_mem y hb)) hys'

theorem pairwise_merge_iff (htrans : ∀ x y z, r x y → r y z → r x z)
    (h : ∀ x ∈ xs, ∀ y ∈ ys, (lt x y = true → r x y) ∧ (lt x y = false → r y x)) :
    (xs.merge ys lt).Pairwise r ↔ xs.Pairwise r ∧ ys.Pairwise r := by
  have hsublist := sublist_merge lt xs ys
  exact ⟨fun hmerge => ⟨hmerge.sublist hsublist.1, hmerge.sublist hsublist.2⟩,
    fun hboth => pairwise_merge htrans h hboth.1 hboth.2⟩

theorem mem_of_mem_pageOf {x : α} (h : x ∈ pageOf length all k) : x ∈ all :=
  List.mem_of_mem_drop (List.mem_of_mem_take h)

theorem Compares.perm (h : Compares lt r xs) (hperm : ys.Perm xs) : Compares lt r ys :=
  fun x hx y hy => h x (hperm.mem_iff.mp hx) y (hperm.mem_iff.mp hy)

theorem pageOf_append (length : Nat) (all : List α) (k : Nat) :
    pageOf length all (2 * k) ++ pageOf length all (2 * k + 1) = pageOf (2 * length) all k := by
  have hstart : k * (2 * length) = 2 * k * length := by
    rw [← Nat.mul_assoc, Nat.mul_comm k 2]
  rw [pageOf, pageOf, pageOf, hstart, Nat.two_mul length, List.take_add, List.drop_drop,
    Nat.add_one_mul (2 * k)]

theorem mergedRuns_succ (lt : α → α → Bool) (length : Nat) (all : List α) (count : Nat) :
    mergedRuns lt length all (count + 1) = mergedRuns lt length all count ++
      (pageOf length all (2 * count)).merge (pageOf length all (2 * count + 1)) lt := by
  rw [mergedRuns, List.range_succ, List.flatMap_append, List.flatMap_singleton]
  rfl

theorem mergedRuns_perm (lt : α → α → Bool) (length : Nat) (all : List α) (count : Nat) :
    (mergedRuns lt length all count).Perm (all.take (count * (2 * length))) := by
  rw [← flatMap_pageOf]
  apply List.Perm.flatMap_left
  intro k _
  rw [← pageOf_append]
  exact List.merge_perm_append lt

theorem pageOf_mergedRuns (hk : k < count) : pageOf (2 * length) (mergedRuns lt length all count) k =
    (pageOf length all (2 * k)).merge (pageOf length all (2 * k + 1)) lt := by
  have hlengths : ∀ i < count, ((pageOf length all (2 * i)).merge (pageOf length all (2 * i + 1))
      lt).length = (pageOf (2 * length) all i).length := by
    intro i _
    rw [List.length_merge, ← List.length_append, pageOf_append]
  exact ((holdsPages_flatMap hlengths).1 k hk).symm

theorem runsSorted_iff_pageOf : RunsSorted r length all ↔ ∀ i, (pageOf length all i).Pairwise r := by
  refine ⟨fun h i => ?_, RunsSorted.of_pages⟩
  rw [pageOf_eq_slice]
  exact ((h i).mono (Nat.le_refl _) (Nat.min_le_left _ _)).pairwise_slice

theorem runsSorted_mergedRuns_iff (htrans : ∀ x y z, r x y → r y z → r x z)
    (hcompares : Compares lt r all) (hcount : all.length ≤ count * (2 * length)) :
    RunsSorted r (2 * length) (mergedRuns lt length all count) ↔ RunsSorted r length all := by
  have hpair : ∀ k < count, (pageOf (2 * length) (mergedRuns lt length all count) k).Pairwise r ↔
      (pageOf length all (2 * k)).Pairwise r ∧ (pageOf length all (2 * k + 1)).Pairwise r := by
    intro k hk
    rw [pageOf_mergedRuns hk]
    apply pairwise_merge_iff htrans
    exact fun x hx y hy => hcompares x (mem_of_mem_pageOf hx) y (mem_of_mem_pageOf hy)
  rw [runsSorted_iff_pageOf, runsSorted_iff_pageOf]
  constructor
  · intro h i
    by_cases hi : i / 2 < count
    · have hboth := (hpair (i / 2) hi).mp (h (i / 2))
      rcases Nat.mod_two_eq_zero_or_one i with heven | hodd
      · rw [show 2 * (i / 2) = i by omega] at hboth
        exact hboth.1
      · rw [show 2 * (i / 2) + 1 = i by omega] at hboth
        exact hboth.2
    · -- behind the end of the list
      have hle : count * (2 * length) ≤ i * length := by
        rw [← Nat.mul_assoc]
        exact Nat.mul_le_mul_right length (by omega)
      rw [pageOf_of_length_le (hcount.trans hle)]
      exact List.Pairwise.nil
  · intro h k
    by_cases hk : k < count
    · exact (hpair k hk).mpr ⟨h (2 * k), h (2 * k + 1)⟩
    · have hlength := (mergedRuns_perm lt length all count).length_eq
      rw [List.length_take, Nat.min_eq_right hcount] at hlength
      have hle : all.length ≤ k * (2 * length) :=
        hcount.trans (Nat.mul_le_mul_right _ (Nat.le_of_not_lt hk))
      rw [pageOf_of_length_le (hlength ▸ hle)]
      exact List.Pairwise.nil

end
end MillenniumDB
