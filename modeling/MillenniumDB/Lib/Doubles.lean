import Mathlib.Algebra.Order.Field.Rat
import Mathlib.Algebra.Order.Field.Basic
import Mathlib.Order.WithBot
import Mathlib.Tactic.Common
import Mathlib.Tactic.Positivity
import Mathlib.Data.Rat.Cast.Order

/-!
# Doubles

What a comparison of doubles sees: not a number, an infinity, or a rational number.  Integers are
rounded to 53 bits, a tie to the even neighbour; the numbers of 32 bits are all doubles.  The
results of the operations are rounded in the same way, with infinity behind the largest double.
-/

namespace MillenniumDB

inductive Double
  | nan
  | infinity (negative : Bool)
  | finite (value : ℚ)
  deriving DecidableEq

namespace Double

/-- The multiple of `2 ^ shift` that is nearest to a natural number, a tie going to the even one. -/
def roundAt (shift n : Nat) : Nat :=
  let quotient := n / 2 ^ shift
  let rest := n % 2 ^ shift
  if 2 ^ shift < 2 * rest ∨ 2 * rest = 2 ^ shift ∧ quotient % 2 = 1 then (quotient + 1) * 2 ^ shift
  else quotient * 2 ^ shift

/-- A natural number with so many significant bits. -/
def roundToEven (bits n : Nat) : Nat := roundAt (n.log2 + 1 - bits) n

def ofInt (n : Int) : Double := .finite ((n.sign * roundToEven 53 n.natAbs : Int) : ℚ)

def ofFloatBits (bits : Nat) : Double :=
  let negative : Bool := bits / 2 ^ 31 % 2 = 1
  let exponent : Nat := bits / 2 ^ 23 % 2 ^ 8
  let mantissa : Nat := bits % 2 ^ 23
  let sign : ℚ := if negative then -1 else 1
  if exponent = 2 ^ 8 - 1 then if mantissa = 0 then .infinity negative else .nan
  else if exponent = 0 then .finite (sign * mantissa / 2 ^ 149)
  else .finite (sign * (2 ^ 23 + mantissa) * 2 ^ exponent / 2 ^ 150)

/-- `<`, which no comparison with `nan` meets. -/
def lt : Double → Double → Bool
  | .finite x, .finite y => x < y
  | .infinity true, .finite _ | .infinity true, .infinity false | .finite _, .infinity false => true
  | _, _ => false

def eq : Double → Double → Bool
  | .finite x, .finite y => x = y
  | .infinity negative, .infinity negative' => negative = negative'
  | _, _ => false

def le (x y : Double) : Bool := x.lt y || x.eq y

/-- The double nearest to a rational number: 53 bits, none of them below `2 ^ -1074`, and infinity
from `2 ^ 1024` on.  Of the number times `2 ^ 1200`, what is cut off leaves an odd number behind. -/
def ofRat (q : ℚ) : Double :=
  let scaled := 2 * (q.num.natAbs * 2 ^ 1199 / q.den) +
    if q.num.natAbs * 2 ^ 1199 % q.den = 0 then 0 else 1
  let rounded := roundAt (max (scaled.log2 + 1 - 53) (1200 - 1074)) scaled
  if 2 ^ (1024 + 1200) ≤ rounded then .infinity (q < 0)
  else .finite (q.num.sign * rounded / 2 ^ 1200)

def isNegative : Double → Bool
  | .nan => false
  | .infinity negative => negative
  | .finite value => value < 0

instance : Add Double where
  add
    | .finite x, .finite y => ofRat (x + y)
    | .infinity negative, .infinity negative' => if negative = negative' then .infinity negative else .nan
    | .infinity negative, .finite _ | .finite _, .infinity negative => .infinity negative
    | _, _ => .nan

instance : Mul Double where
  mul
    | .finite x, .finite y => ofRat (x * y)
    | .nan, _ | _, .nan => .nan
    | x, y => if x = .finite 0 ∨ y = .finite 0 then .nan else .infinity (x.isNegative != y.isNegative)

instance : Div Double where
  div
    | .finite x, .finite y =>
      if y = 0 then if x = 0 then .nan else .infinity (x < 0) else ofRat (x / y)
    | .infinity negative, .finite y => .infinity (negative != decide (y < 0))
    | .finite _, .infinity _ => .finite 0
    | _, _ => .nan

def key : Double → WithBot (WithTop ℚ)
  | .infinity true => ⊥
  | .finite value => ((value : WithTop ℚ) : WithBot (WithTop ℚ))
  | .infinity false => ((⊤ : WithTop ℚ) : WithBot (WithTop ℚ))
  | .nan => ⊥

variable {x y : Double}

theorem lt_iff (hx : x ≠ nan) (hy : y ≠ nan) : lt x y = true ↔ key x < key y := by
  cases x with
  | nan => exact absurd rfl hx
  | infinity negative =>
    cases y with
    | nan => exact absurd rfl hy
    | infinity negative' => cases negative <;> cases negative' <;> simp [lt, key]
    | finite value => cases negative <;> simp [lt, key]
  | finite value =>
    cases y with
    | nan => exact absurd rfl hy
    | infinity negative' =>
      cases negative' with
      | true => simp [lt, key]
      | false => simpa [lt, key] using WithBot.coe_lt_coe.mpr (WithTop.coe_lt_top value)
    | finite value' => simp [lt, key]

theorem key_inj (hx : x ≠ nan) (hy : y ≠ nan) : key x = key y ↔ x = y := by
  cases x with
  | nan => exact absurd rfl hx
  | infinity negative =>
    cases y with
    | nan => exact absurd rfl hy
    | infinity negative' => cases negative <;> cases negative' <;> simp [key]
    | finite value => cases negative <;> simp [key]
  | finite value =>
    cases y with
    | nan => exact absurd rfl hy
    | infinity negative' => cases negative' <;> simp [key]
    | finite value' => simp [key]

theorem lt_nan_left : lt nan x = false := by cases x <;> rfl

theorem lt_nan_right : lt x nan = false := by
  cases x with
  | infinity negative => cases negative <;> rfl
  | _ => rfl

theorem roundToEven_of_dvd {bits n : Nat} (h : 2 ^ (n.log2 + 1 - bits) ∣ n) :
    roundToEven bits n = n := by
  have hpos : 0 < 2 ^ (n.log2 + 1 - bits) := Nat.pow_pos (by decide)
  simp only [roundToEven, roundAt]
  rw [Nat.mod_eq_zero_of_dvd h, if_neg (by omega), Nat.div_mul_cancel h]

theorem roundToEven_mul_pow {bits m : Nat} (hm : m < 2 ^ bits) (e : Nat) :
    roundToEven bits (m * 2 ^ e) = m * 2 ^ e := by
  apply roundToEven_of_dvd
  rcases Nat.eq_zero_or_pos m with rfl | hpos
  · simp
  · have hlog : (m * 2 ^ e).log2 < bits + e := by
      rw [Nat.log2_lt (by positivity), Nat.pow_add]
      exact Nat.mul_lt_mul_of_pos_right hm (Nat.pow_pos (by decide))
    exact (Nat.pow_dvd_pow 2 (by omega)).trans (Nat.dvd_mul_left _ _)

theorem ofInt_eq {n : Int} (h : roundToEven 53 n.natAbs = n.natAbs) : ofInt n = .finite n := by
  rw [ofInt, h, Int.sign_mul_natAbs]

theorem ofInt_of_ofFloatBits {bits : Nat} {n : Int} (h : ofFloatBits bits = .finite n) :
    ofInt n = .finite n := by
  -- in both cases the magnitude is a mantissa of at most 24 bits times a power of two
  have hexact : ∀ (sign : ℚ) (m e k : Nat), |sign| = 1 → m < 2 ^ 24 →
      sign * m * 2 ^ e / 2 ^ k = n → roundToEven 53 n.natAbs = n.natAbs := by
    intro sign m e k hsign hm heq
    have habs : n.natAbs * 2 ^ k = m * 2 ^ e := by
      have hq : (n.natAbs : ℚ) = m * 2 ^ e / 2 ^ k := by
        rw [Nat.cast_natAbs, Int.cast_abs, ← heq, abs_div, abs_mul, abs_mul, hsign]
        simp
      rw [eq_div_iff (by positivity)] at hq
      exact_mod_cast hq
    by_cases hle : k ≤ e
    · have hn : n.natAbs = m * 2 ^ (e - k) := by
        apply Nat.eq_of_mul_eq_mul_right (show 0 < 2 ^ k from Nat.pow_pos (by decide))
        rw [habs, Nat.mul_assoc, ← Nat.pow_add, Nat.sub_add_cancel hle]
      rw [hn]
      exact roundToEven_mul_pow (by omega) _
    · have hn : n.natAbs * 2 ^ (k - e) = m := by
        apply Nat.eq_of_mul_eq_mul_right (show 0 < 2 ^ e from Nat.pow_pos (by decide))
        rw [Nat.mul_assoc, ← Nat.pow_add, Nat.sub_add_cancel (by omega), habs]
      have hlt : n.natAbs < 2 ^ 53 := by
        have := Nat.le_mul_of_pos_right n.natAbs (show 0 < 2 ^ (k - e) from Nat.pow_pos (by decide))
        omega
      simpa using roundToEven_mul_pow hlt 0
  apply ofInt_eq
  simp only [ofFloatBits] at h
  have hmantissa : bits % 2 ^ 23 < 2 ^ 23 := Nat.mod_lt _ (by decide)
  have hsign : |if (bits / 2 ^ 31 % 2 = 1 : Bool) then (-1 : ℚ) else 1| = 1 := by
    split_ifs <;> simp
  generalize (if (bits / 2 ^ 31 % 2 = 1 : Bool) then (-1 : ℚ) else 1) = sign at h hsign
  split_ifs at h
  · refine hexact sign (bits % 2 ^ 23) 0 149 hsign (by omega) ?_
    rw [pow_zero, mul_one]
    exact Double.finite.inj h
  · refine hexact sign (2 ^ 23 + bits % 2 ^ 23) (bits / 2 ^ 23 % 2 ^ 8) 150 hsign (by omega) ?_
    rw [Nat.cast_add, Nat.cast_pow]
    exact Double.finite.inj h

theorem roundAt_pos {shift n : Nat} (h : 2 ^ shift ≤ n) : 0 < roundAt shift n := by
  have hpow : 0 < 2 ^ shift := Nat.pow_pos (by decide)
  have hquotient : 0 < n / 2 ^ shift := Nat.div_pos h hpow
  simp only [roundAt]
  split_ifs
  · exact Nat.mul_pos (by omega) hpow
  · exact Nat.mul_pos hquotient hpow

theorem roundToEven_pos {n : Nat} (h : n ≠ 0) : 0 < roundToEven 53 n :=
  roundAt_pos ((Nat.pow_le_pow_right (by decide) (by omega)).trans (Nat.log2_self_le h))

theorem ofInt_natCast (n : Nat) : ofInt n = .finite (roundToEven 53 n : ℚ) := by
  rcases Nat.eq_zero_or_pos n with rfl | hn
  · simp [ofInt, roundToEven, roundAt]
  · have hsign : ((n : Nat) : Int).sign = 1 := Int.sign_eq_one_of_pos (by omega)
    simp [ofInt, hsign]

theorem ofInt_eq_zero_iff (n : Nat) : (ofInt n).eq (.finite 0) = true ↔ n = 0 := by
  rw [ofInt_natCast, eq, decide_eq_true_eq, Nat.cast_eq_zero]
  constructor
  · intro h
    by_contra hn
    exact (roundToEven_pos hn).ne' h
  · rintro rfl
    simp [roundToEven, roundAt]

theorem ne_zero_of_pow_le {k n : Nat} (h : 2 ^ k ≤ n) : n ≠ 0 :=
  ((Nat.two_pow_pos k).trans_le h).ne'

theorem le_log2_of_pow_le {k n : Nat} (h : 2 ^ k ≤ n) : k ≤ n.log2 :=
  (Nat.le_log2 (ne_zero_of_pow_le h)).mpr h

theorem ofRat_ne_zero {q : ℚ} (hq : 1 ≤ q) : (ofRat q).eq (.finite 0) = false := by
  have hpos : 0 < q.num := Rat.num_pos.mpr (zero_lt_one.trans_le hq)
  have hle : q.den ≤ q.num.natAbs := by
    have hnum : (q.den : ℚ) ≤ q.num := by
      have hden : (0 : ℚ) < q.den := by exact_mod_cast q.den_pos
      rw [← Rat.num_div_den q, le_div_iff₀ hden] at hq
      simpa using hq
    have : (q.den : Int) ≤ q.num := by exact_mod_cast hnum
    omega
  have hscaled : ∀ rest : Nat, 2 ^ 1200 ≤ 2 * (q.num.natAbs * 2 ^ 1199 / q.den) + rest := by
    intro rest
    have hdiv : 2 ^ 1199 ≤ q.num.natAbs * 2 ^ 1199 / q.den := by
      rw [Nat.le_div_iff_mul_le q.den_pos, Nat.mul_comm]
      exact Nat.mul_le_mul_right _ hle
    have hpow : (2 : Nat) ^ 1200 = 2 * 2 ^ 1199 := by rw [pow_succ, Nat.mul_comm]
    omega
  simp only [ofRat]
  generalize hn : 2 * (q.num.natAbs * 2 ^ 1199 / q.den) +
    (if q.num.natAbs * 2 ^ 1199 % q.den = 0 then 0 else 1) = n
  have hbig : 2 ^ 1200 ≤ n := hn ▸ hscaled _
  have hne : n ≠ 0 := ne_zero_of_pow_le hbig
  have hlog : 1200 ≤ n.log2 := le_log2_of_pow_le hbig
  have hrounded : 0 < roundAt (max (n.log2 + 1 - 53) (1200 - 1074)) n :=
    roundAt_pos ((Nat.pow_le_pow_right (by decide) (by omega)).trans (Nat.log2_self_le hne))
  generalize roundAt (max (n.log2 + 1 - 53) (1200 - 1074)) n = rounded at hrounded ⊢
  split_ifs
  · rfl
  · have hsign : q.num.sign = 1 := Int.sign_eq_one_of_pos hpos
    simp [eq, hsign, hrounded.ne']

theorem mul_ofInt_ne_zero {m n : Nat} (hm : m ≠ 0) (hn : n ≠ 0) :
    (ofInt m * ofInt n).eq (.finite 0) = false := by
  rw [ofInt_natCast, ofInt_natCast]
  apply ofRat_ne_zero
  have h : 1 ≤ roundToEven 53 m * roundToEven 53 n :=
    Nat.mul_pos (roundToEven_pos hm) (roundToEven_pos hn)
  exact_mod_cast h

end Double
end MillenniumDB
