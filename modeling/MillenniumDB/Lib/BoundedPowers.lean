import Mathlib.Computability.Language

/-!
# Bounded powers of a language

The words that consist of at least `min` and at most `max` words of a language.
-/

namespace MillenniumDB

variable {α β : Type*} {L : Language α} {w : List α} {min max n : Nat}

/-- The union of the powers from `min` to `max`. -/
def boundedPowers (L : Language α) (min max : Nat) : Language α :=
  {w | ∃ k, min ≤ k ∧ k ≤ max ∧ w ∈ L ^ k}

theorem mem_boundedPowers : w ∈ boundedPowers L min max ↔ ∃ k, min ≤ k ∧ k ≤ max ∧ w ∈ L ^ k :=
  Iff.rfl

theorem mem_one_add_pow : w ∈ (1 + L) ^ n ↔ ∃ k ≤ n, w ∈ L ^ k := by
  induction n generalizing w with
  | zero => simp
  | succ n ih =>
    rw [pow_succ', one_add_mul, Language.mem_add, ih, Language.mem_mul]
    constructor
    · rintro (⟨k, hk, hw⟩ | ⟨u, hu, v, hv, rfl⟩)
      · exact ⟨k, by omega, hw⟩
      · obtain ⟨k, hk, hv⟩ := ih.mp hv
        refine ⟨k + 1, by omega, ?_⟩
        rw [pow_succ']
        exact Language.append_mem_mul hu hv
    · intro ⟨k, hk, hw⟩
      cases k with
      | zero => exact Or.inl ⟨0, by omega, hw⟩
      | succ k =>
        rw [pow_succ', Language.mem_mul] at hw
        obtain ⟨u, hu, v, hv, huv⟩ := hw
        exact Or.inr ⟨u, hu, v, ih.mpr ⟨k, by omega, hv⟩, huv⟩

theorem pow_mul_one_add_pow (h : min ≤ max) :
    L ^ min * (1 + L) ^ (max - min) = boundedPowers L min max := by
  ext w
  rw [Language.mem_mul, mem_boundedPowers]
  constructor
  · intro ⟨u, hu, v, hv, huv⟩
    obtain ⟨k, hk, hv⟩ := mem_one_add_pow.mp hv
    refine ⟨min + k, by omega, by omega, ?_⟩
    rw [← huv, pow_add]
    exact Language.append_mem_mul hu hv
  · intro ⟨k, hmin, hmax, hw⟩
    rw [← Nat.add_sub_cancel' hmin, pow_add, Language.mem_mul] at hw
    obtain ⟨u, hu, v, hv, huv⟩ := hw
    exact ⟨u, hu, v, mem_one_add_pow.mpr ⟨k - min, by omega, hv⟩, huv⟩

theorem map_boundedPowers (f : α → β) :
    Language.map f (boundedPowers L min max) = boundedPowers (Language.map f L) min max := by
  ext w
  rw [mem_boundedPowers]
  constructor
  · intro ⟨u, ⟨k, hmin, hmax, hu⟩, huw⟩
    refine ⟨k, hmin, hmax, ?_⟩
    rw [← map_pow]
    exact ⟨u, hu, huw⟩
  · intro ⟨k, hmin, hmax, hw⟩
    rw [← map_pow] at hw
    obtain ⟨u, hu, huw⟩ := hw
    exact ⟨u, ⟨k, hmin, hmax, hu⟩, huw⟩

theorem reverse_boundedPowers :
    (boundedPowers L min max).reverse = boundedPowers L.reverse min max := by
  ext w
  rw [Language.mem_reverse, mem_boundedPowers, mem_boundedPowers]
  apply exists_congr
  intro k
  rw [← Language.reverse_pow, Language.mem_reverse]

theorem length_of_mem_pow {x : α} (h : w ∈ ({[x]} : Language α) ^ n) : w.length = n := by
  induction n generalizing w with
  | zero => simpa using h
  | succ n ih =>
    rw [pow_succ', Language.mem_mul] at h
    obtain ⟨u, hu, v, hv, huv⟩ := h
    obtain rfl : u = [x] := hu
    rw [← huv, List.singleton_append, List.length_cons, ih hv]

theorem replicate_mem_pow {x : α} : List.replicate n x ∈ ({[x]} : Language α) ^ n := by
  induction n with
  | zero => exact Language.nil_mem_one
  | succ n ih =>
    rw [pow_succ', List.replicate_succ]
    exact Language.append_mem_mul (Set.mem_singleton [x]) ih

end MillenniumDB
