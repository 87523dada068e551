import Mathlib.Data.List.Lex
import Mathlib.Algebra.Order.Field.Rat
import Mathlib.Tactic.FieldSimp
import Mathlib.Tactic.Positivity
import Mathlib.Tactic.Linarith

/-!
# Strings of digits in lexicographic order

A string of digits stands for a fraction below one.  The lexicographic order of the strings is the
order of the fractions as long as the greater string is no longer than the other one, or does not
end with a zero.
-/

namespace MillenniumDB
namespace Positional

variable {α : Type*}

def fraction (digit : α → Nat) (base : Nat) : List α → ℚ
  | [] => 0
  | c :: u => (digit c + fraction digit base u) / base

variable {digit : α → Nat} {base : Nat} {s : Set α} {u v : List α}

theorem fraction_nonneg (u : List α) : 0 ≤ fraction digit base u := by
  induction u with
  | nil => exact le_rfl
  | cons c u ih =>
    unfold fraction
    positivity

theorem fraction_pos (hbase : 0 < base) (hne : u ≠ []) (hlast : ∀ c ∈ u.getLast?, digit c ≠ 0) :
    0 < fraction digit base u := by
  induction u with
  | nil => exact absurd rfl hne
  | cons c u ih =>
    have hbase' : (0 : ℚ) < base := by exact_mod_cast hbase
    unfold fraction
    apply div_pos _ hbase'
    cases u with
    | nil =>
      have hdigit : (0 : ℚ) < digit c := by exact_mod_cast Nat.pos_of_ne_zero (hlast c rfl)
      simpa [fraction] using hdigit
    | cons d u =>
      rw [List.getLast?_cons_cons] at hlast
      have hrest := ih (List.cons_ne_nil d u) hlast
      positivity

variable [LinearOrder α]

structure Digits (digit : α → Nat) (base : Nat) (s : Set α) : Prop where
  strictMono : StrictMonoOn digit s
  lt : ∀ c ∈ s, digit c < base

theorem fraction_lt_one (hs : Digits digit base s) (hu : ∀ c ∈ u, c ∈ s) :
    fraction digit base u < 1 := by
  induction u with
  | nil => exact one_pos
  | cons c u ih =>
    rw [List.forall_mem_cons] at hu
    have hlt := hs.lt c hu.1
    have hbase : (0 : ℚ) < base := by exact_mod_cast Nat.zero_lt_of_lt hlt
    have hdigit : (digit c : ℚ) + 1 ≤ base := by exact_mod_cast hlt
    have hrest := ih hu.2
    rw [fraction, div_lt_one hbase]
    linarith

theorem fraction_lt_of_lt (hs : Digits digit base s) (hu : ∀ c ∈ u, c ∈ s) (hv : ∀ c ∈ v, c ∈ s)
    (hend : v.length ≤ u.length ∨ ∀ c ∈ v.getLast?, digit c ≠ 0) (h : u < v) :
    fraction digit base u < fraction digit base v := by
  induction u generalizing v with
  | nil =>
    cases v with
    | nil => exact absurd h (lt_irrefl _)
    | cons d v =>
      have hlast := hend.resolve_left (Nat.not_succ_le_zero _)
      exact fraction_pos (Nat.zero_lt_of_lt (hs.lt d (hv d List.mem_cons_self)))
        (List.cons_ne_nil d v) hlast
  | cons c u ih =>
    cases v with
    | nil => exact absurd h (List.not_lt_nil _)
    | cons d v =>
      rw [List.forall_mem_cons] at hu hv
      have hbase : (0 : ℚ) < base := by exact_mod_cast Nat.zero_lt_of_lt (hs.lt c hu.1)
      rw [fraction, fraction, div_lt_div_iff_of_pos_right hbase]
      rcases List.cons_lt_cons_iff.mp h with hlt | ⟨rfl, hrest⟩
      · -- the first digit decides, since the rest is below one
        have hdigit : (digit c : ℚ) + 1 ≤ digit d := by
          exact_mod_cast hs.strictMono hu.1 hv.1 hlt
        have hone := fraction_lt_one hs hu.2
        have hzero := @fraction_nonneg α digit base v
        linarith
      · have hend' : v.length ≤ u.length ∨ ∀ c ∈ v.getLast?, digit c ≠ 0 := by
          apply hend.imp Nat.le_of_succ_le_succ
          intro hlast
          cases v with
          | nil => exact fun _ hmem => absurd hmem (Option.not_mem_none _)
          | cons e v => exact hlast
        have := ih hu.2 hv.2 hend' hrest
        linarith

/-- Where neither string is longer than the other one by zeros only, they have the order of the
fractions. -/
theorem fraction_lt_iff (hs : Digits digit base s) (hu : ∀ c ∈ u, c ∈ s) (hv : ∀ c ∈ v, c ∈ s)
    (hendu : u.length ≤ v.length ∨ ∀ c ∈ u.getLast?, digit c ≠ 0)
    (hendv : v.length ≤ u.length ∨ ∀ c ∈ v.getLast?, digit c ≠ 0) :
    fraction digit base u < fraction digit base v ↔ u < v := by
  constructor
  · intro h
    rcases lt_trichotomy u v with hlt | rfl | hgt
    · exact hlt
    · exact absurd h (lt_irrefl _)
    · exact absurd (fraction_lt_of_lt hs hv hu hendu hgt) h.asymm
  · exact fraction_lt_of_lt hs hu hv hendv

theorem append_lt_append_iff (w : List α) : w ++ u < w ++ v ↔ u < v := by
  induction w with
  | nil => exact Iff.rfl
  | cons c w ih =>
    rw [List.cons_append, List.cons_append, List.cons_lt_cons_iff, ih]
    simp

/-- Behind parts of one length the order is decided by these parts, and then by the rest. -/
theorem append_lt_iff {u' v' : List α} (h : u.length = v.length) :
    u ++ u' < v ++ v' ↔ u < v ∨ u = v ∧ u' < v' := by
  induction u generalizing v with
  | nil =>
    obtain rfl := List.length_eq_zero_iff.mp h.symm
    simp
  | cons c u ih =>
    cases v with
    | nil => cases h
    | cons d v =>
      rw [List.cons_append, List.cons_append, List.cons_lt_cons_iff, List.cons_lt_cons_iff,
        ih (Nat.succ.inj h), List.cons.injEq]
      tauto

theorem take_drop_lt_iff (n : Nat) :
    (u.take n < v.take n ∨ u.take n = v.take n ∧ u.drop n < v.drop n) ↔ u < v := by
  induction n generalizing u v with
  | zero => simp
  | succ n ih =>
    cases u with
    | nil =>
      cases v with
      | nil => simp
      | cons d v => simp
    | cons c u =>
      cases v with
      | nil => simp
      | cons d v =>
        have hrest := @ih u v
        rw [List.take_succ_cons, List.take_succ_cons, List.drop_succ_cons, List.drop_succ_cons,
          List.cons_lt_cons_iff, List.cons_lt_cons_iff, List.cons.injEq]
        tauto

end Positional
end MillenniumDB
