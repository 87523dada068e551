import Mathlib.Data.Nat.Choose.Basic
import Mathlib.Data.Nat.Count

/-!
# Combinations as binary numbers

The subsets of `n` positions as lists of bits, with the lowest bit first.  In the order of the
numbers, the subsets with `k` positions that come before a given one are counted by the
combinatorial number system: `count_before` adds up one binomial for each position.
-/

namespace MillenniumDB
namespace Combinations

/-- The lowest `n` bits of `m`. -/
def bitsOf : Nat → Nat → List Bool
  | 0, _ => []
  | n + 1, m => decide (m % 2 = 1) :: bitsOf n (m / 2)

def ones (bits : List Bool) : Nat := bits.count true

@[simp] theorem length_bitsOf (n m : Nat) : (bitsOf n m).length = n := by
  induction n generalizing m with
  | zero => rfl
  | succ n ih => rw [bitsOf, List.length_cons, ih]

theorem bitsOf_succ_of_lt {n m : Nat} (hm : m < 2 ^ n) : bitsOf (n + 1) m = bitsOf n m ++ [false] := by
  induction n generalizing m with
  | zero =>
    have hzero : m = 0 := by simpa using hm
    rw [hzero]
    rfl
  | succ n ih => rw [bitsOf, ih (by omega), bitsOf, List.cons_append]

theorem bitsOf_succ_add {n m : Nat} (hm : m < 2 ^ n) :
    bitsOf (n + 1) (2 ^ n + m) = bitsOf n m ++ [true] := by
  induction n generalizing m with
  | zero =>
    have hzero : m = 0 := by simpa using hm
    rw [hzero]
    rfl
  | succ n ih =>
    have hparity : (2 ^ (n + 1) + m) % 2 = m % 2 := by omega
    have hhalf : (2 ^ (n + 1) + m) / 2 = 2 ^ n + m / 2 := by omega
    rw [bitsOf, hparity, hhalf, ih (by omega), bitsOf, List.cons_append]

theorem exists_bitsOf (bits : List Bool) : ∃ m < 2 ^ bits.length, bitsOf bits.length m = bits := by
  induction bits with
  | nil => exact ⟨0, by simp, rfl⟩
  | cons b bits ih =>
    obtain ⟨m, hm, hbits⟩ := ih
    refine ⟨2 * m + b.toNat, ?_, ?_⟩
    · have hb : b.toNat < 2 := b.toNat_lt
      rw [List.length_cons, pow_succ]
      omega
    · have hhalf : (2 * m + b.toNat) / 2 = m := by
        have hb : b.toNat < 2 := b.toNat_lt
        omega
      rw [List.length_cons, bitsOf, hhalf, hbits]
      cases b <;> simp

theorem ones_append (bits : List Bool) (b : Bool) : ones (bits ++ [b]) = ones bits + b.toNat := by
  cases b <;> simp [ones]

theorem bitsOf_zero (n : Nat) : bitsOf n 0 = List.replicate n false := by
  induction n with
  | zero => rfl
  | succ n ih =>
    rw [bitsOf, Nat.zero_div, ih]
    rfl

/-- The numbers below `m` whose lowest `n` bits have `k` ones. -/
def before (n k m : Nat) : Nat := Nat.count (fun m => ones (bitsOf n m) = k) m

theorem before_congr {n n' k k' m : Nat} (h : ∀ x < m, ones (bitsOf n x) = k ↔ ones (bitsOf n' x) = k') :
    before n k m = before n' k' m := by
  rw [before, before, Nat.count_eq_card_filter_range, Nat.count_eq_card_filter_range]
  congr 1
  apply Finset.filter_congr
  intro x hx
  exact h x (Finset.mem_range.mp hx)

theorem before_succ_of_le {n k m : Nat} (hm : m ≤ 2 ^ n) : before (n + 1) k m = before n k m := by
  apply before_congr
  intro x hx
  rw [bitsOf_succ_of_lt (hx.trans_le hm), ones_append]
  rfl

theorem before_succ_add {n k m : Nat} (hm : m ≤ 2 ^ n) :
    before (n + 1) (k + 1) (2 ^ n + m) = before n (k + 1) (2 ^ n) + before n k m := by
  rw [before, Nat.count_add]
  congr 1
  · exact before_succ_of_le le_rfl
  · rw [before, Nat.count_eq_card_filter_range, Nat.count_eq_card_filter_range]
    congr 1
    apply Finset.filter_congr
    intro x hx
    rw [bitsOf_succ_add ((Finset.mem_range.mp hx).trans_le hm), ones_append]
    simp

theorem before_zero_succ {n m : Nat} (hm : m ≤ 2 ^ n) :
    before (n + 1) 0 (2 ^ n + m) = before n 0 (2 ^ n) := by
  rw [before, Nat.count_add]
  have hnone : Nat.count (fun x => ones (bitsOf (n + 1) (2 ^ n + x)) = 0) m = 0 := by
    rw [Nat.count_iff_forall_not]
    intro x hx
    rw [bitsOf_succ_add (hx.trans_le hm), ones_append]
    simp
  rw [hnone, Nat.add_zero]
  exact before_succ_of_le le_rfl

theorem before_two_pow (n k : Nat) : before n k (2 ^ n) = n.choose k := by
  induction n generalizing k with
  | zero =>
    rw [pow_zero, before, Nat.count_one]
    cases k <;> simp [bitsOf, ones]
  | succ n ih =>
    have hpow : 2 ^ (n + 1) = 2 ^ n + 2 ^ n := by rw [pow_succ, Nat.mul_two]
    rw [hpow]
    cases k with
    | zero => rw [before_zero_succ le_rfl, ih, Nat.choose_zero_right, Nat.choose_zero_right]
    | succ k => rw [before_succ_add le_rfl, ih, ih, Nat.choose_succ_succ', Nat.add_comm]

/-- The binomials of the positions: the `j`-th of them at position `i` adds `i.choose j`. -/
def number (bits : List Bool) : Nat :=
  (bits.foldl (fun (i, k, sum) b => if b then (i + 1, k + 1, sum + i.choose (k + 1)) else (i + 1, k, sum))
    (0, 0, 0)).2.2

theorem number_spec (bits : List Bool) :
    bits.foldl (fun (i, k, sum) b =>
        if b then (i + 1, k + 1, sum + i.choose (k + 1)) else (i + 1, k, sum)) (0, 0, 0) =
      (bits.length, ones bits, number bits) := by
  induction bits using List.reverseRecOn with
  | nil => rfl
  | append_singleton bits b ih =>
    rw [number, List.foldl_append, ih]
    cases b <;> simp [ones]

theorem number_append_false (bits : List Bool) : number (bits ++ [false]) = number bits := by
  rw [number, List.foldl_append, number_spec]
  rfl

theorem number_append_true (bits : List Bool) :
    number (bits ++ [true]) = number bits + bits.length.choose (ones bits + 1) := by
  rw [number, List.foldl_append, number_spec]
  rfl

/-- The combinatorial number of a combination is the number of combinations of its size that
come before it. -/
theorem count_before {n m : Nat} (hm : m < 2 ^ n) :
    number (bitsOf n m) = before n (ones (bitsOf n m)) m := by
  induction n generalizing m with
  | zero =>
    have hzero : m = 0 := by simpa using hm
    rw [hzero]
    rfl
  | succ n ih =>
    by_cases hlow : m < 2 ^ n
    · rw [bitsOf_succ_of_lt hlow, number_append_false, ones_append, ih hlow]
      exact (before_succ_of_le hlow.le).symm
    · obtain ⟨r, rfl⟩ := Nat.exists_eq_add_of_le (not_lt.mp hlow)
      have hr : r < 2 ^ n := by
        rw [pow_succ] at hm
        omega
      rw [bitsOf_succ_add hr, number_append_true, ones_append, ih hr, length_bitsOf, Bool.toNat_true,
        before_succ_add hr.le, before_two_pow, Nat.add_comm]

theorem number_lt {n m : Nat} (hm : m < 2 ^ n) :
    number (bitsOf n m) < n.choose (ones (bitsOf n m)) := by
  rw [count_before hm, ← before_two_pow]
  exact Nat.count_strict_mono rfl hm

theorem number_injective {bits bits' : List Bool} (hlength : bits.length = bits'.length)
    (hones : ones bits = ones bits') (h : number bits = number bits') : bits = bits' := by
  obtain ⟨m, hm, hbits⟩ := exists_bitsOf bits
  obtain ⟨m', hm', hbits'⟩ := exists_bitsOf bits'
  rw [← hlength] at hm' hbits'
  have hcount : before bits.length (ones bits) m = before bits.length (ones bits) m' := by
    have hm := count_before hm
    have hm' := count_before hm'
    rw [hbits] at hm
    rw [hbits', ← hones] at hm'
    rw [← hm, ← hm', h]
  have heq : m = m' := Nat.count_injective (p := fun m => ones (bitsOf bits.length m) = ones bits)
    (by rw [hbits]) (by rw [hbits', hones]) hcount
  rw [← hbits, ← hbits', heq]

end Combinations
end MillenniumDB
