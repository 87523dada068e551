import Mathlib.Data.Set.Lattice
import Mathlib.Data.Option.Basic
import Mathlib.Order.CompletePartialOrder

/-!
# Left outer joins of sets of mappings

A mapping assigns values to some variables.  The left outer join of two sets merges each
mapping of the left set with the compatible ones of the right set, and keeps it alone when
there is none.  `attach_leftOuterJoin` is the rule for an outer join that is evaluated inside
of another one: where the mappings of the two sides meet the outer mapping in variables of
the left side only, the outer mapping can be attached first.
-/

namespace MillenniumDB

abbrev Mapping (V A : Type*) := V → Option A

namespace Mapping

variable {V A : Type*} {f g h : Mapping V A} {M N : Set (Mapping V A)} {v : V} {a : A}

def dom (f : Mapping V A) : Set V := {v | (f v).isSome}

def Compatible (f g : Mapping V A) : Prop := ∀ v a b, f v = some a → g v = some b → a = b

def merge (f g : Mapping V A) : Mapping V A := fun v => (f v).or (g v)

/-- The mappings of a set that are compatible with `f`, merged with it. -/
def attach (f : Mapping V A) (M : Set (Mapping V A)) : Set (Mapping V A) :=
  {h | ∃ g ∈ M, Compatible f g ∧ h = merge f g}

/-- The same, with `f` alone when no mapping is compatible. -/
def attachOptional (f : Mapping V A) (M : Set (Mapping V A)) : Set (Mapping V A) :=
  {h | h ∈ attach f M ∨ attach f M = ∅ ∧ h = f}

def leftOuterJoin (M N : Set (Mapping V A)) : Set (Mapping V A) :=
  {h | ∃ f ∈ M, h ∈ attachOptional f N}

theorem mem_dom : v ∈ f.dom ↔ ∃ a, f v = some a := Option.isSome_iff_exists

theorem merge_of_some (hf : f v = some a) : merge f g v = some a := by simp [merge, hf]

theorem merge_of_none (hf : f v = none) : merge f g v = g v := by simp [merge, hf]

theorem Compatible.merge_right (hc : Compatible f g) (hg : g v = some a) : merge f g v = some a := by
  cases hf : f v with
  | none => rw [merge_of_none hf, hg]
  | some b => rw [merge_of_some hf, hc v b a hf hg]

theorem merge_assoc (f g h : Mapping V A) : merge (merge f g) h = merge f (merge g h) := by
  funext v
  cases hf : f v <;> simp [merge, hf]

@[simp] theorem dom_merge : (merge f g).dom = f.dom ∪ g.dom := by
  ext v
  simp [dom, merge]

theorem Compatible.merge_left_iff (hc : Compatible f g) :
    Compatible (merge f g) h ↔ Compatible f h ∧ Compatible g h := by
  constructor
  · intro hm
    refine ⟨fun v a b hf hh => hm v a b (merge_of_some hf) hh, fun v a b hg hh => ?_⟩
    exact hm v a b (hc.merge_right hg) hh
  · intro ⟨hfh, hgh⟩ v a b hm hh
    cases hf : f v with
    | none => exact hgh v a b (by rwa [merge_of_none hf] at hm) hh
    | some c =>
      rw [merge_of_some hf] at hm
      exact hfh v a b (hf.trans hm) hh

theorem Compatible.symm (hc : Compatible f g) : Compatible g f :=
  fun v a b hg hf => (hc v b a hf hg).symm

theorem compatible_merge_right_iff (hc : Compatible g h) :
    Compatible f (merge g h) ↔ Compatible f g ∧ Compatible f h := by
  constructor
  · intro hm
    have hm' := hc.merge_left_iff.mp hm.symm
    exact ⟨hm'.1.symm, hm'.2.symm⟩
  · intro ⟨hg, hh⟩
    exact (hc.merge_left_iff.mpr ⟨hg.symm, hh.symm⟩).symm

theorem merge_eq_left (hdom : g.dom ⊆ f.dom) : merge f g = f := by
  funext v
  cases hf : f v with
  | some a => exact merge_of_some hf
  | none =>
    rw [merge_of_none hf]
    by_contra hg
    obtain ⟨a, ha⟩ := Option.ne_none_iff_exists'.mp hg
    obtain ⟨b, hb⟩ := mem_dom.mp (hdom (mem_dom.mpr ⟨a, ha⟩))
    simp [hb] at hf

theorem attachOptional_of_nonempty (hM : (attach f M).Nonempty) : attachOptional f M = attach f M := by
  ext h
  simp [attachOptional, hM.ne_empty]

theorem attachOptional_of_empty (hM : attach f M = ∅) : attachOptional f M = {f} := by
  ext h
  simp [attachOptional, hM]

theorem attachOptional_nonempty (f : Mapping V A) (M : Set (Mapping V A)) :
    (attachOptional f M).Nonempty := by
  by_cases hM : attach f M = ∅
  · rw [attachOptional_of_empty hM]
    exact Set.singleton_nonempty f
  · have hM := Set.nonempty_iff_ne_empty.mpr hM
    rw [attachOptional_of_nonempty hM]
    exact hM

theorem dom_subset_of_mem_attachOptional (hh : h ∈ attachOptional f M) : f.dom ⊆ h.dom := by
  rcases hh with ⟨g, -, -, rfl⟩ | ⟨-, rfl⟩
  · rw [dom_merge]
    exact Set.subset_union_left
  · exact subset_rfl

/-- Whether a mapping can be attached behind `f` and `g` depends on `g` alone when it meets `f`
in variables of `g` only. -/
theorem compatible_of_guard (hc : Compatible f g) (hguard : f.dom ∩ h.dom ⊆ g.dom)
    (hgh : Compatible g h) : Compatible f h := by
  intro v a b hf hh
  obtain ⟨c, hg⟩ := mem_dom.mp (hguard ⟨mem_dom.mpr ⟨a, hf⟩, mem_dom.mpr ⟨b, hh⟩⟩)
  rw [hc v a c hf hg, hgh v c b hg hh]

theorem attach_merge (hc : Compatible f g) (hguard : ∀ k ∈ N, f.dom ∩ k.dom ⊆ g.dom) :
    attach (merge f g) N = merge f '' attach g N := by
  ext h
  constructor
  · intro ⟨k, hk, hck, heq⟩
    exact ⟨merge g k, ⟨k, hk, (hc.merge_left_iff.mp hck).2, rfl⟩, by rw [heq, merge_assoc]⟩
  · intro ⟨_, ⟨k, hk, hck, heq⟩, hh⟩
    have hfk := compatible_of_guard hc (hguard k hk) hck
    exact ⟨k, hk, hc.merge_left_iff.mpr ⟨hfk, hck⟩, by rw [← hh, heq, merge_assoc]⟩

theorem attachOptional_merge (hc : Compatible f g) (hguard : ∀ k ∈ N, f.dom ∩ k.dom ⊆ g.dom) :
    attachOptional (merge f g) N = merge f '' attachOptional g N := by
  have hattach := attach_merge hc hguard
  by_cases hN : attach g N = ∅
  · have hN' : attach (merge f g) N = ∅ := by rw [hattach, hN, Set.image_empty]
    rw [attachOptional_of_empty hN, attachOptional_of_empty hN', Set.image_singleton]
  · have hN := Set.nonempty_iff_ne_empty.mpr hN
    rw [attachOptional_of_nonempty hN, attachOptional_of_nonempty (hattach ▸ hN.image _), hattach]

theorem attach_leftOuterJoin (hguard : ∀ g ∈ M, ∀ k ∈ N, f.dom ∩ k.dom ⊆ g.dom) :
    attach f (leftOuterJoin M N) = {h | ∃ g ∈ attach f M, h ∈ attachOptional g N} := by
  ext h
  constructor
  · intro ⟨k, ⟨g, hg, hk⟩, hc, heq⟩
    have hcg : Compatible f g := by
      intro v a b hf hgv
      rcases hk with ⟨k', hk', hck, rfl⟩ | ⟨-, rfl⟩
      · exact hc v a b hf (merge_of_some hgv)
      · exact hc v a b hf hgv
    refine ⟨merge f g, ⟨g, hg, hcg, rfl⟩, ?_⟩
    rw [attachOptional_merge hcg (hguard g hg)]
    exact ⟨k, hk, heq.symm⟩
  · intro ⟨_, ⟨g, hg, hcg, rfl⟩, hh⟩
    rw [attachOptional_merge hcg (hguard g hg)] at hh
    obtain ⟨k, hk, rfl⟩ := hh
    refine ⟨k, ⟨g, hg, hk⟩, ?_, rfl⟩
    rcases hk with ⟨k', hk', hck, rfl⟩ | ⟨-, rfl⟩
    · exact (compatible_merge_right_iff hck).mpr
        ⟨hcg, compatible_of_guard hcg (hguard g hg k' hk') hck⟩
    · exact hcg

theorem dom_of_mem_leftOuterJoin {U W : Set V} (hM : ∀ f ∈ M, f.dom ⊆ U) (hN : ∀ g ∈ N, g.dom ⊆ W) :
    ∀ h ∈ leftOuterJoin M N, h.dom ⊆ U ∪ W := by
  intro h ⟨f, hf, hh⟩
  rcases hh with ⟨g, hg, -, rfl⟩ | ⟨-, rfl⟩
  · rw [dom_merge]
    exact Set.union_subset_union (hM f hf) (hN g hg)
  · exact (hM h hf).trans Set.subset_union_left

theorem leftOuterJoin_empty (hN : ∀ g : Mapping V A, g ∈ N ↔ g.dom = ∅) : leftOuterJoin M N = M := by
  have hattach : ∀ f, attach f N = {f} := by
    intro f
    ext h
    constructor
    · intro ⟨g, hg, _, heq⟩
      rw [heq, merge_eq_left (((hN g).mp hg).subset.trans (Set.empty_subset _))]
      rfl
    · intro hh
      refine ⟨fun _ => none, (hN _).mpr (by simp [dom]), fun v a b _ hb => by simp at hb, ?_⟩
      rw [merge_eq_left (by simp [dom])]
      exact hh
  ext h
  simp [leftOuterJoin, attachOptional, hattach]

theorem compatible_of_disjoint (hdisjoint : Disjoint f.dom g.dom) : Compatible f g := by
  intro v a b hf hg
  have hdom := Set.disjoint_left.mp hdisjoint (mem_dom.mpr ⟨a, hf⟩)
  exact absurd (mem_dom.mpr ⟨b, hg⟩) hdom

theorem leftOuterJoin_nonempty (hM : M.Nonempty) : (leftOuterJoin M N).Nonempty := by
  obtain ⟨f, hf⟩ := hM
  obtain ⟨h, hh⟩ := attachOptional_nonempty f N
  exact ⟨h, f, hf, hh⟩

theorem attachOptional_of_disjoint (hN : N.Nonempty) (hdisjoint : ∀ g ∈ N, Disjoint f.dom g.dom) :
    attachOptional f N = attach f N := by
  obtain ⟨g, hg⟩ := hN
  exact attachOptional_of_nonempty ⟨merge f g, g, hg, compatible_of_disjoint (hdisjoint g hg), rfl⟩

theorem leftOuterJoin_assoc {Q : Set (Mapping V A)} (hN : N.Nonempty)
    (hMN : ∀ f ∈ M, ∀ g ∈ N, Disjoint f.dom g.dom) (hMQ : ∀ f ∈ M, ∀ k ∈ Q, Disjoint f.dom k.dom) :
    leftOuterJoin M (leftOuterJoin N Q) = leftOuterJoin (leftOuterJoin M N) Q := by
  have hjoin : ∀ f ∈ M, attachOptional f (leftOuterJoin N Q) =
      {h | ∃ g ∈ attachOptional f N, h ∈ attachOptional g Q} := by
    intro f hf
    have hdisjoint : ∀ h ∈ leftOuterJoin N Q, Disjoint f.dom h.dom := by
      intro h hh
      refine Set.disjoint_compl_right_iff_subset.mpr subset_rfl |>.mono_right ?_
      have hsub := dom_of_mem_leftOuterJoin (U := f.domᶜ) (W := f.domᶜ)
        (fun g hg => (hMN f hf g hg).subset_compl_left) (fun k hk => (hMQ f hf k hk).subset_compl_left)
      simpa using hsub h hh
    have hguard : ∀ g ∈ N, ∀ k ∈ Q, f.dom ∩ k.dom ⊆ g.dom := by
      intro g _ k hk
      rw [(hMQ f hf k hk).inter_eq]
      exact Set.empty_subset _
    rw [attachOptional_of_disjoint (leftOuterJoin_nonempty hN) hdisjoint, attach_leftOuterJoin hguard,
      attachOptional_of_disjoint hN (hMN f hf)]
  ext h
  constructor
  · intro ⟨f, hf, hh⟩
    rw [hjoin f hf] at hh
    obtain ⟨g, hg, hh⟩ := hh
    exact ⟨g, ⟨f, hf, hg⟩, hh⟩
  · intro ⟨g, ⟨f, hf, hg⟩, hh⟩
    refine ⟨f, hf, ?_⟩
    rw [hjoin f hf]
    exact ⟨g, hg, hh⟩

end Mapping

end MillenniumDB
