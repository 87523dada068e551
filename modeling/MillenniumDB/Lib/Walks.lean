import Mathlib.Computability.Language
import Mathlib.Logic.Relation
import MillenniumDB.Lib.Runs

/-!
# Walks of a language

A language over the labels of a transition relation relates the states that some run joins
whose labels are a word of it.  The operations on languages are those on relations: the product
is the composition, and the star is the reflexive transitive closure.
-/

namespace MillenniumDB

open Computability

variable {σ α : Type*}

/-- Some run from `p` to `q` is labelled by a word of the language. -/
def Walks (step : σ → α → σ → Prop) (L : Language α) (p q : σ) : Prop := ∃ w ∈ L, Run step p w q

section

variable {step : σ → α → σ → Prop} {L M : Language α} {p q : σ} {a : α}

theorem walks_one : Walks step 1 p q ↔ p = q := by
  constructor
  · intro ⟨w, hw, hrun⟩
    rw [(Language.mem_one w).mp hw, Run.nil_iff] at hrun
    exact hrun
  · intro h
    exact ⟨[], rfl, Run.nil_iff.mpr h⟩

theorem walks_singleton : Walks step {[a]} p q ↔ step p a q := by
  constructor
  · intro ⟨w, hw, hrun⟩
    obtain rfl : w = [a] := hw
    obtain ⟨r, hstep, hrun⟩ := Run.cons_iff.mp hrun
    rwa [Run.nil_iff.mp hrun] at hstep
  · intro h
    exact ⟨[a], rfl, .single h⟩

theorem walks_zero : ¬ Walks step 0 p q := fun ⟨w, hw, _⟩ => Language.notMem_zero w hw

theorem walks_add : Walks step (L + M) p q ↔ Walks step L p q ∨ Walks step M p q := by
  simp only [Walks, Language.mem_add, or_and_right, exists_or]

theorem walks_mul : Walks step (L * M) p q ↔ ∃ r, Walks step L p r ∧ Walks step M r q := by
  constructor
  · intro ⟨w, hw, hrun⟩
    obtain ⟨u, hu, v, hv, huv⟩ := Language.mem_mul.mp hw
    rw [← huv] at hrun
    obtain ⟨r, hpr, hrq⟩ := Run.append_iff.mp hrun
    exact ⟨r, ⟨u, hu, hpr⟩, v, hv, hrq⟩
  · intro ⟨r, ⟨u, hu, hpr⟩, v, hv, hrq⟩
    exact ⟨u ++ v, Language.mem_mul.mpr ⟨u, hu, v, hv, rfl⟩, hpr.append hrq⟩

theorem walks_kstar : Walks step (L∗) p q ↔ Relation.ReflTransGen (Walks step L) p q := by
  constructor
  · intro ⟨w, hw, hrun⟩
    obtain ⟨us, rfl, hus⟩ := Language.mem_kstar.mp hw
    clear hw
    -- one factor after the other
    induction us generalizing p with
    | nil =>
      rw [List.flatten_nil, Run.nil_iff] at hrun
      exact hrun ▸ .refl
    | cons u us ih =>
      rw [List.flatten_cons] at hrun
      obtain ⟨r, hpr, hrq⟩ := Run.append_iff.mp hrun
      obtain ⟨hu, hus⟩ := List.forall_mem_cons.mp hus
      exact .head ⟨u, hu, hpr⟩ (ih hus hrq)
  · intro h
    rw [← Language.one_add_self_mul_kstar_eq_kstar]
    induction h using Relation.ReflTransGen.head_induction_on with
    | refl => exact walks_add.mpr (.inl (walks_one.mpr rfl))
    | head hstep _ ih =>
      rw [Language.one_add_self_mul_kstar_eq_kstar] at ih
      exact walks_add.mpr (.inr (walks_mul.mpr ⟨_, hstep, ih⟩))

theorem walks_mul_kstar : Walks step (L * L∗) p q ↔ Relation.TransGen (Walks step L) p q := by
  rw [walks_mul, Relation.TransGen.head'_iff]
  simp only [walks_kstar]

end

end MillenniumDB
