import Mathlib.Data.Int.Order.Basic
import Mathlib.Data.Set.Defs
import Mathlib.Order.Basic
import Mathlib.Tactic.Common
import Mathlib.Order.Lattice

/-!
# Comparators

A comparator gives a negative number, zero or a positive number.  When its sign follows a key into
a linear order it is a total preorder, and it gives zero exactly where the keys are equal.
-/

namespace MillenniumDB
namespace Comparator

section

variable {α β : Type} [LinearOrder β] (cmp : α → α → Int) (key : α → β) (s : Set α)

/-- The signs turn around with the arguments, and "not greater" is transitive and total. -/
structure TotalPreorder : Prop where
  antisymm : ∀ a ∈ s, ∀ b ∈ s, (cmp a b).sign = -(cmp b a).sign
  trans : ∀ a ∈ s, ∀ b ∈ s, ∀ c ∈ s, cmp a b ≤ 0 → cmp b c ≤ 0 → cmp a c ≤ 0
  total : ∀ a ∈ s, ∀ b ∈ s, cmp a b ≤ 0 ∨ cmp b a ≤ 0

structure Follows : Prop where
  neg : ∀ a ∈ s, ∀ b ∈ s, cmp a b < 0 ↔ key a < key b
  pos : ∀ a ∈ s, ∀ b ∈ s, 0 < cmp a b ↔ key b < key a

variable {cmp key s}

theorem Follows.le_iff (h : Follows cmp key s) {a b : α} (ha : a ∈ s) (hb : b ∈ s) :
    cmp a b ≤ 0 ↔ key a ≤ key b := by
  rw [← not_lt, ← not_lt, h.pos a ha b hb]

theorem eq_zero_iff_of_sign {result : Int} {x y : β}
    (h : (result < 0 ↔ x < y) ∧ (0 < result ↔ y < x)) : result = 0 ↔ x = y := by
  obtain ⟨hneg, hpos⟩ := h
  constructor
  · intro hzero
    apply le_antisymm
    · exact not_lt.mp fun hlt => absurd (hpos.mpr hlt) (by omega)
    · exact not_lt.mp fun hlt => absurd (hneg.mpr hlt) (by omega)
  · intro heq
    rw [heq] at hneg hpos
    have h₁ := mt hneg.mp (lt_irrefl _)
    have h₂ := mt hpos.mp (lt_irrefl _)
    omega

theorem Follows.eq_zero_iff (h : Follows cmp key s) {a b : α} (ha : a ∈ s) (hb : b ∈ s) :
    cmp a b = 0 ↔ key a = key b :=
  eq_zero_iff_of_sign ⟨h.neg a ha b hb, h.pos a ha b hb⟩

theorem Follows.totalPreorder (h : Follows cmp key s) : TotalPreorder cmp s where
  antisymm a ha b hb := by
    rcases lt_trichotomy (key a) (key b) with hlt | heq | hlt
    · rw [Int.sign_eq_neg_one_of_neg ((h.neg a ha b hb).mpr hlt),
        Int.sign_eq_one_of_pos ((h.pos b hb a ha).mpr hlt)]
    · rw [(h.eq_zero_iff ha hb).mpr heq, (h.eq_zero_iff hb ha).mpr heq.symm]
      rfl
    · rw [Int.sign_eq_one_of_pos ((h.pos a ha b hb).mpr hlt),
        Int.sign_eq_neg_one_of_neg ((h.neg b hb a ha).mpr hlt)]
      rfl
  trans a ha b hb c hc hab hbc := by
    rw [h.le_iff ha hb] at hab
    rw [h.le_iff hb hc] at hbc
    rw [h.le_iff ha hc]
    exact hab.trans hbc
  total a ha b hb := by
    rw [h.le_iff ha hb, h.le_iff hb ha]
    exact le_total _ _

theorem TotalPreorder.neg (h : TotalPreorder cmp s) : TotalPreorder (fun a b => -cmp a b) s where
  antisymm a ha b hb := by
    rw [Int.sign_neg, Int.sign_neg, h.antisymm a ha b hb]
  trans a ha b hb c hc hab hbc := by
    have hba := h.antisymm a ha b hb
    have hcb := h.antisymm b hb c hc
    have hca := h.antisymm a ha c hc
    have hle := h.trans c hc b hb a ha
    have hsign : ∀ x y : Int, x.sign = -y.sign → (-x ≤ 0 ↔ y ≤ 0) := by
      intro x y hxy
      rcases Int.lt_trichotomy x 0 with hx | hx | hx <;>
        rcases Int.lt_trichotomy y 0 with hy | hy | hy <;>
          simp_all [Int.sign_eq_one_of_pos, Int.sign_eq_neg_one_of_neg] <;> omega
    rw [hsign _ _ hca]
    exact hle ((hsign _ _ hcb).mp hbc) ((hsign _ _ hba).mp hab)
  total a ha b hb := by
    have hba := h.antisymm a ha b hb
    rcases Int.lt_or_le 0 (cmp a b) with hpos | hle
    · exact .inl (by omega)
    · refine .inr ?_
      rcases Int.lt_or_le (cmp b a) 0 with hneg | hle'
      · rw [Int.sign_eq_neg_one_of_neg hneg] at hba
        have := Int.sign_eq_one_iff_pos.mp hba
        omega
      · omega

end

theorem TotalPreorder.congr {α : Type} {cmp cmp' : α → α → Int} {s : Set α}
    (h : TotalPreorder cmp s) (heq : ∀ a ∈ s, ∀ b ∈ s, cmp' a b = cmp a b) :
    TotalPreorder cmp' s where
  antisymm a ha b hb := by
    rw [heq a ha b hb, heq b hb a ha]
    exact h.antisymm a ha b hb
  trans a ha b hb c hc := by
    rw [heq a ha b hb, heq b hb c hc, heq a ha c hc]
    exact h.trans a ha b hb c hc
  total a ha b hb := by
    rw [heq a ha b hb, heq b hb a ha]
    exact h.total a ha b hb

theorem TotalPreorder.comap {α β : Type} {cmp : β → β → Int} {s : Set α} {t : Set β} {f : α → β}
    (h : TotalPreorder cmp t) (hf : ∀ a ∈ s, f a ∈ t) :
    TotalPreorder (fun a b => cmp (f a) (f b)) s where
  antisymm a ha b hb := h.antisymm _ (hf a ha) _ (hf b hb)
  trans a ha b hb c hc := h.trans _ (hf a ha) _ (hf b hb) _ (hf c hc)
  total a ha b hb := h.total _ (hf a ha) _ (hf b hb)

theorem TotalPreorder.of_groups {α γ : Type} [LinearOrder γ] {cmp : α → α → Int} {s : Set α}
    (group : α → γ)
    (hne : ∀ a ∈ s, ∀ b ∈ s, group a ≠ group b →
      (cmp a b < 0 ↔ group a < group b) ∧ (0 < cmp a b ↔ group b < group a))
    (hsame : ∀ g, TotalPreorder cmp {a | a ∈ s ∧ group a = g}) : TotalPreorder cmp s := by
  have hle : ∀ a ∈ s, ∀ b ∈ s, cmp a b ≤ 0 → group a ≤ group b := by
    intro a ha b hb hab
    by_contra hlt
    have := (hne a ha b hb fun heq => hlt heq.le).2.mpr (not_le.mp hlt)
    omega
  constructor
  · intro a ha b hb
    by_cases heq : group a = group b
    · exact (hsame (group b)).antisymm a ⟨ha, heq⟩ b ⟨hb, rfl⟩
    · rcases lt_or_gt_of_ne heq with hlt | hlt
      · rw [Int.sign_eq_neg_one_of_neg ((hne a ha b hb heq).1.mpr hlt),
          Int.sign_eq_one_of_pos ((hne b hb a ha (Ne.symm heq)).2.mpr hlt)]
      · rw [Int.sign_eq_one_of_pos ((hne a ha b hb heq).2.mpr hlt),
          Int.sign_eq_neg_one_of_neg ((hne b hb a ha (Ne.symm heq)).1.mpr hlt)]
        rfl
  · intro a ha b hb c hc hab hbc
    have hgab := hle a ha b hb hab
    have hgbc := hle b hb c hc hbc
    by_cases heq : group a = group c
    · have hbeq : group b = group c := le_antisymm hgbc (heq ▸ hgab)
      exact (hsame (group c)).trans a ⟨ha, heq⟩ b ⟨hb, hbeq⟩ c ⟨hc, rfl⟩ hab hbc
    · exact ((hne a ha c hc heq).1.mpr (lt_of_le_of_ne (hgab.trans hgbc) heq)).le
  · intro a ha b hb
    by_cases heq : group a = group b
    · exact (hsame (group b)).total a ⟨ha, heq⟩ b ⟨hb, rfl⟩
    · rcases lt_or_gt_of_ne heq with hlt | hlt
      · exact .inl ((hne a ha b hb heq).1.mpr hlt).le
      · exact .inr ((hne b hb a ha (Ne.symm heq)).1.mpr hlt).le

end Comparator
end MillenniumDB
