import MillenniumDB.RdfTerms
import Mathlib.Data.List.Induction
import Mathlib.Data.List.DropRight
import Mathlib.Data.List.TakeWhile
import Mathlib.Data.Nat.Digits.Lemmas
import Mathlib.Data.Rat.Defs
import Mathlib.Algebra.Order.Ring.Unbundled.Rat
import Mathlib.Tactic.Ring
import Mathlib.Tactic.FieldSimp
import Mathlib.Tactic.NormNum

/-!
# Ids of decimals

A decimal has a normal form, and an id that holds the digits of both parts as one number.  For
the texts whose digits fit, the id of a text is the id of its normal form and its value can be
read from the id.
-/

namespace MillenniumDB

section

variable {digits rest : Bytes}

def IsDigits (digits : Bytes) : Prop := ∀ byte ∈ digits, isDigit byte = true

theorem IsDigits.append {digits' : Bytes} (h : IsDigits digits) (h' : IsDigits digits') :
    IsDigits (digits ++ digits') := List.forall_mem_append.mpr ⟨h, h'⟩

theorem digitsValue_snoc (digits : Bytes) (byte : UInt8) :
    digitsValue (digits ++ [byte]) = 10 * digitsValue digits + (byte.toNat - 48) := by
  simp [digitsValue]

theorem digitsValue_append (digits digits' : Bytes) :
    digitsValue (digits ++ digits') = digitsValue digits * 10 ^ digits'.length + digitsValue digits' := by
  induction digits' using List.reverseRecOn with
  | nil => simp [digitsValue]
  | append_singleton digits' byte ih =>
    rw [← List.append_assoc, digitsValue_snoc, digitsValue_snoc, ih, List.length_append,
      List.length_singleton, pow_succ]
    ring

theorem isDigit_iff {byte : UInt8} : isDigit byte = true ↔ 48 ≤ byte.toNat ∧ byte.toNat ≤ 57 := by
  simp [isDigit, UInt8.le_iff_toNat_le]

theorem digitsValue_lt (h : IsDigits digits) : digitsValue digits < 10 ^ digits.length := by
  induction digits using List.reverseRecOn with
  | nil => simp [digitsValue]
  | append_singleton digits byte ih =>
    obtain ⟨h, hbyte⟩ := List.forall_mem_append.mp h
    have hbyte := isDigit_iff.mp (hbyte byte (List.mem_singleton_self _))
    have ih := ih h
    rw [digitsValue_snoc, List.length_append, List.length_singleton, pow_succ]
    omega

theorem digitsValue_replicate_zero (n : Nat) : digitsValue (List.replicate n 48) = 0 := by
  induction n with
  | zero => rfl
  | succ n ih =>
    rw [List.replicate_succ', digitsValue_snoc, ih]
    rfl

theorem digitsValue_zeros_append {zeros : Bytes} (h : ∀ byte ∈ zeros, byte = 48) :
    digitsValue (zeros ++ digits) = digitsValue digits := by
  rw [List.eq_replicate_of_mem h, digitsValue_append, digitsValue_replicate_zero]
  simp

theorem dropWhile_congr {p q : UInt8 → Bool} (h : ∀ byte ∈ digits, p byte = q byte) :
    digits.dropWhile p = digits.dropWhile q := by
  induction digits with
  | nil => rfl
  | cons byte digits ih =>
    obtain ⟨hbyte, h⟩ := List.forall_mem_cons.mp h
    rw [List.dropWhile_cons, List.dropWhile_cons, hbyte, ih h]

theorem takeWhile_digits (h : IsDigits digits) (hrest : ∀ byte ∈ rest.head?, isDigit byte = false) :
    (digits ++ rest).takeWhile isDigit = digits := by
  rw [List.takeWhile_append_of_pos h]
  cases rest with
  | nil => simp
  | cons byte rest => simp [hrest byte rfl]

theorem dropWhile_digits (h : IsDigits digits) (hrest : ∀ byte ∈ rest.head?, isDigit byte = false) :
    (digits ++ rest).dropWhile isDigit = rest := by
  rw [List.dropWhile_append_of_pos h]
  cases rest with
  | nil => simp
  | cons byte rest => simp [hrest byte rfl]

theorem readSign_digits (h : IsDigits digits) (hne : digits ≠ []) :
    readSign ((digits ++ rest).dropWhile isSpace) = (false, digits ++ rest) := by
  obtain ⟨byte, digits, rfl⟩ := List.exists_cons_of_ne_nil hne
  have hbyte := isDigit_iff.mp (h byte List.mem_cons_self)
  have hspace : isSpace byte = false := by
    simp only [isSpace, decide_eq_false_iff_not, UInt8.le_iff_toNat_le, ← UInt8.toNat_inj]
    simp only [UInt8.reduceToNat]
    omega
  rw [List.cons_append, List.dropWhile_cons_of_neg (by simp [hspace])]
  unfold readSign
  split
  next heq => cases heq; simp at hbyte
  next heq => cases heq; simp at hbyte
  next => rfl

theorem strtoull_digits (h : IsDigits digits) (hne : digits ≠ [])
    (hrest : ∀ byte ∈ rest.head?, isDigit byte = false) :
    strtoull (digits ++ rest) = (UInt64.ofNat (min (digitsValue digits) (2 ^ 64 - 1)), rest) := by
  unfold strtoull
  rw [readSign_digits h hne]
  simp only [takeWhile_digits h hrest, dropWhile_digits h hrest, hne, if_false]
  by_cases hlarge : 2 ^ 64 ≤ digitsValue digits
  · rw [if_pos hlarge, min_eq_right (by omega)]
  · rw [if_neg hlarge, min_eq_left (by omega)]
    simp

end

/-- The lexical forms of `xsd:decimal`: a sign, digits, and a point with digits. -/
structure DecimalText where
  sign : Option Bool
  integer : Bytes
  fraction : Option Bytes
  integer_digits : IsDigits integer
  fraction_digits : IsDigits (fraction.getD [])
  some_digit : integer ≠ [] ∨ fraction.getD [] ≠ []

namespace DecimalText

def signText : Option Bool → Bytes
  | none => []
  | some false => [43]
  | some true => [45]

variable (d : DecimalText)

def tail : Bytes :=
  match d.fraction with
  | none => []
  | some fraction => 46 :: fraction

def text : Bytes := signText d.sign ++ (d.integer ++ d.tail)

def negative : Bool := d.sign == some true

def decimals : Bytes := d.fraction.getD []

def stripped : Bytes := (d.decimals.reverse.dropWhile (· = 48)).reverse

def value : ℚ :=
  (if d.negative then -1 else 1) *
    (digitsValue d.integer + digitsValue d.decimals / 10 ^ d.decimals.length)

theorem isDigits_decimals : IsDigits d.decimals := d.fraction_digits

theorem decimals_eq : ∃ n, d.decimals = d.stripped ++ List.replicate n 48 := by
  have hsplit := List.takeWhile_append_dropWhile (p := fun byte : UInt8 => decide (byte = 48))
    (l := d.decimals.reverse)
  have hzeros : ∀ byte ∈ d.decimals.reverse.takeWhile (· = 48), byte = 48 := fun byte h => by
    simpa using List.mem_takeWhile_imp h
  rw [List.eq_replicate_of_mem hzeros] at hsplit
  refine ⟨(d.decimals.reverse.takeWhile (· = 48)).length, ?_⟩
  rw [stripped, ← List.reverse_replicate, ← List.reverse_append, hsplit, List.reverse_reverse]

theorem isDigits_stripped : IsDigits d.stripped := by
  obtain ⟨n, hn⟩ := d.decimals_eq
  have h := d.isDigits_decimals
  rw [hn] at h
  exact (List.forall_mem_append.mp h).1

theorem stripped_getLast (h : d.stripped ≠ []) : d.stripped.getLast h ≠ 48 := by
  have hhead := List.head_dropWhile_not (fun byte : UInt8 => decide (byte = 48)) (l := d.decimals.reverse)
    (by simpa [stripped] using h)
  have hlast : d.stripped.getLast h = (d.decimals.reverse.dropWhile (· = 48)).head (by
      simpa [stripped] using h) := by
    simp [stripped, List.getLast_reverse]
  rw [hlast]
  simpa using hhead

theorem value_eq : d.value = (if d.negative then -1 else 1) *
    ((digitsValue d.integer * 10 ^ d.stripped.length + digitsValue d.stripped : ℕ) /
      10 ^ d.stripped.length) := by
  obtain ⟨n, hn⟩ := d.decimals_eq
  have hvalue : (digitsValue d.decimals : ℚ) / 10 ^ d.decimals.length =
      digitsValue d.stripped / 10 ^ d.stripped.length := by
    rw [hn, digitsValue_append, digitsValue_replicate_zero, List.length_append, List.length_replicate,
      add_zero, Nat.cast_mul, pow_add]
    push_cast
    field_simp
  rw [value, hvalue]
  congr 1
  push_cast
  field_simp

def normalInteger : Bytes :=
  match d.integer.dropWhile (· = 48) with
  | [] => [48]
  | digits => digits

def normalFraction : Bytes :=
  match d.stripped with
  | [] => [48]
  | digits => digits

theorem isDigits_normalInteger : IsDigits d.normalInteger := by
  unfold normalInteger
  split
  · intro byte h
    rw [List.mem_singleton.mp h]
    rfl
  · exact fun byte h => d.integer_digits byte (List.dropWhile_subset _ h)

theorem isDigits_normalFraction : IsDigits d.normalFraction := by
  unfold normalFraction
  split
  · intro byte h
    rw [List.mem_singleton.mp h]
    rfl
  · exact d.isDigits_stripped

def normalized : DecimalText where
  sign := if d.negative then some true else none
  integer := d.normalInteger
  fraction := some d.normalFraction
  integer_digits := d.isDigits_normalInteger
  fraction_digits := d.isDigits_normalFraction
  some_digit := .inl (by unfold normalInteger; split <;> simp_all)

theorem digit_ne {byte : UInt8} (h : isDigit byte = true) : byte ≠ 43 ∧ byte ≠ 45 ∧ byte ≠ 46 := by
  have hdigit := isDigit_iff.mp h
  refine ⟨?_, ?_, ?_⟩ <;>
  · rintro rfl
    simp at hdigit

theorem head_magnitude : ∃ byte str, d.integer ++ d.tail = byte :: str ∧ (isDigit byte = true ∨ byte = 46) := by
  cases hinteger : d.integer with
  | cons byte str =>
    have hbyte := d.integer_digits byte (by simp [hinteger])
    exact ⟨byte, str ++ d.tail, rfl, .inl hbyte⟩
  | nil =>
    cases hfraction : d.fraction with
    | none => simpa [hinteger, hfraction] using d.some_digit
    | some fraction => exact ⟨46, fraction, by simp [tail, hfraction], .inr rfl⟩

theorem head_text : d.text.head? = some 45 ↔ d.negative = true := by
  obtain ⟨byte, str, heq, hbyte⟩ := d.head_magnitude
  have hne : byte ≠ 45 := by
    rcases hbyte with h | rfl
    · exact (digit_ne h).2.1
    · decide
  rw [text, heq, negative]
  cases d.sign with
  | none => simpa [signText] using hne
  | some minus => cases minus <;> simp [signText]

theorem dropWhile_text : d.text.dropWhile (fun byte => byte = 43 ∨ byte = 45 ∨ byte = 48) =
    d.integer.dropWhile (· = 48) ++ d.tail := by
  have hsign : ∀ str, (signText d.sign ++ str).dropWhile (fun byte => byte = 43 ∨ byte = 45 ∨ byte = 48) =
      str.dropWhile fun byte => byte = 43 ∨ byte = 45 ∨ byte = 48 := by
    intro str
    cases d.sign with
    | none => rfl
    | some minus => cases minus <;> simp [signText]
  have hinteger : d.integer.dropWhile (fun byte => byte = 43 ∨ byte = 45 ∨ byte = 48) =
      d.integer.dropWhile (· = 48) := by
    refine dropWhile_congr fun byte h => ?_
    obtain ⟨hplus, hminus, -⟩ := digit_ne (d.integer_digits byte h)
    simp [hplus, hminus]
  have htail : d.tail.dropWhile (fun byte => byte = 43 ∨ byte = 45 ∨ byte = 48) = d.tail := by
    unfold tail
    cases d.fraction <;> simp
  rw [text, hsign, List.dropWhile_append, hinteger, htail]
  split_ifs with hempty
  · rw [List.isEmpty_iff.mp hempty, List.nil_append]
  · rfl

theorem normalize_text : Decimal.normalize d.text = d.normalized.text := by
  have hdigits : ∀ byte ∈ d.integer.dropWhile (· = 48), (decide (byte ≠ 46)) = true := fun byte h => by
    simpa using (digit_ne (d.integer_digits byte (List.dropWhile_subset _ h))).2.2
  have hsign : (if d.text.head? = some 45 then [45] else [] : Bytes) = signText d.normalized.sign := by
    simp only [d.head_text, normalized]
    split_ifs <;> rfl
  have hnormal : d.normalized.text =
      signText d.normalized.sign ++ (d.normalInteger ++ 46 :: d.normalFraction) := rfl
  have htake : (d.integer.dropWhile (· = 48) ++ d.tail).takeWhile (· ≠ 46) =
      d.integer.dropWhile (· = 48) := by
    rw [List.takeWhile_append_of_pos hdigits]
    unfold tail
    cases d.fraction <;> simp
  have hdrop : (d.integer.dropWhile (· = 48) ++ d.tail).dropWhile (· ≠ 46) = d.tail := by
    rw [List.dropWhile_append_of_pos hdigits]
    unfold tail
    cases d.fraction <;> simp
  unfold Decimal.normalize
  simp only [hsign, dropWhile_text, htake, hdrop, hnormal]
  cases hfraction : d.fraction with
  | none =>
    have hstripped : d.stripped = [] := by simp [stripped, decimals, hfraction]
    simp only [tail, hfraction, List.append_nil, normalFraction, hstripped, normalInteger]
    split_ifs with hinteger
    · simp [hinteger]
    · cases hcases : d.integer.dropWhile (· = 48) with
      | nil => exact absurd hcases hinteger
      | cons byte digits => simp
  | some fraction =>
    have hstripped : (fraction.reverse.dropWhile (· = 48)).reverse = d.stripped := by
      simp [stripped, decimals, hfraction]
    simp only [tail, hfraction, hstripped, normalFraction, normalInteger]
    rw [if_neg (by simp)]
    cases d.stripped <;> cases d.integer.dropWhile (· = 48) <;> simp

/-- The digits behind the point, without trailing zeros, as a number. -/
def fractionValue : Nat := digitsValue d.stripped

def digitCount (n : Nat) : Nat := (Nat.digits 10 n).length

def number : Nat :=
  if d.stripped = [] then digitsValue d.integer
  else (digitsValue d.integer * 10 ^ digitCount d.fractionValue + d.fractionValue) % 2 ^ 64

def External : Prop :=
  2 ^ 51 - 1 < digitsValue d.integer ∨
    d.stripped ≠ [] ∧ (2 ^ 51 - 1 < d.fractionValue ∨ 2 ^ 51 - 1 < d.number)

end DecimalText

namespace DecimalInlined

theorem toNat_ofNat {n : Nat} (h : n < 2 ^ 64) : (UInt64.ofNat n).toNat = n := by
  rw [UInt64.toNat_ofNat']
  exact Nat.mod_eq_of_lt h

theorem stripZeros_eq {f : Nat} (hf : f % 10 ≠ 0) (digits : Nat) : ∀ {fuel n : Nat}, n ≤ fuel →
    f * 10 ^ n < 2 ^ 64 →
      stripZeros fuel (UInt64.ofNat (f * 10 ^ n)) (digits + n) = (UInt64.ofNat f, digits) := by
  intro fuel
  induction fuel with
  | zero =>
    intro n hn _
    obtain rfl : n = 0 := by omega
    simp [stripZeros]
  | succ fuel ih =>
    intro n hn hlt
    have hmod : UInt64.ofNat (f * 10 ^ n) % 10 = 0 ↔ f * 10 ^ n % 10 = 0 := by
      rw [← UInt64.toNat_inj, UInt64.toNat_mod, toNat_ofNat hlt]
      simp
    cases n with
    | zero =>
      rw [stripZeros, if_neg]
      · simp
      · rw [hmod]
        simpa using hf
    | succ n =>
      have hsplit : f * 10 ^ (n + 1) = f * 10 ^ n * 10 := by rw [pow_succ, Nat.mul_assoc]
      have hlt' : f * 10 ^ n < 2 ^ 64 := by omega
      have hdiv : UInt64.ofNat (f * 10 ^ (n + 1)) / 10 = UInt64.ofNat (f * 10 ^ n) := by
        rw [← UInt64.toNat_inj, UInt64.toNat_div, toNat_ofNat hlt, toNat_ofNat hlt', hsplit]
        simp
      rw [stripZeros, if_pos (by rw [hmod, hsplit]; simp), hdiv]
      exact ih (by omega) hlt'

theorem timesFor_eq {f k : Nat} (hk : f ≤ 10 ^ k) (hlt : 10 ^ k < 2 ^ 64) : ∀ {fuel j : Nat}, j ≤ k →
    k ≤ j + fuel → (∀ i, j ≤ i → i < k → 10 ^ i < f) →
      timesFor fuel (UInt64.ofNat (10 ^ j)) (UInt64.ofNat f) = UInt64.ofNat (10 ^ k) := by
  intro fuel
  induction fuel with
  | zero =>
    intro j hj hfuel _
    obtain rfl : j = k := by omega
    rfl
  | succ fuel ih =>
    intro j hj hfuel hbelow
    have hpow : 10 ^ j ≤ 10 ^ k := Nat.pow_le_pow_right (by decide) hj
    have hiff : UInt64.ofNat (10 ^ j) < UInt64.ofNat f ↔ 10 ^ j < f := by
      rw [UInt64.lt_iff_toNat_lt, toNat_ofNat (by omega), toNat_ofNat (by omega)]
    rw [timesFor]
    by_cases hlast : j = k
    · subst hlast
      rw [if_neg (by rw [hiff]; omega)]
    · have hjk : 10 ^ (j + 1) ≤ 10 ^ k := Nat.pow_le_pow_right (by decide) (by omega)
      have hmul : UInt64.ofNat (10 ^ j) * 10 = UInt64.ofNat (10 ^ (j + 1)) := by
        rw [← UInt64.toNat_inj, UInt64.toNat_mul, toNat_ofNat (by omega), toNat_ofNat (by omega), pow_succ]
        have h10 : UInt64.toNat 10 = 10 := rfl
        rw [h10]
        exact Nat.mod_eq_of_lt (by rw [← pow_succ]; omega)
      rw [if_pos (hiff.mpr (hbelow j (le_refl j) (by omega))), hmul]
      exact ih (by omega) (by omega) fun i hi hik => hbelow i (by omega) hik

/-- A number that does not end in zero is less than the power of ten with its digits. -/
theorem timesFor_digitCount {f : Nat} (hf : f % 10 ≠ 0) (hlt : f < 2 ^ 51) :
    timesFor 20 10 (UInt64.ofNat f) = UInt64.ofNat (10 ^ DecimalText.digitCount f) := by
  have hne : f ≠ 0 := by
    rintro rfl
    exact hf rfl
  have hupper : f < 10 ^ DecimalText.digitCount f := Nat.lt_base_pow_length_digits (by decide)
  have hlower : 10 ^ DecimalText.digitCount f ≤ 10 * f := Nat.base_pow_length_digits_le 10 f (by decide) hne
  have hpos : 0 < DecimalText.digitCount f := by
    by_contra hzero
    rw [Nat.eq_zero_of_not_pos hzero] at hupper
    simp at hupper
    exact hne hupper
  have hcount : DecimalText.digitCount f ≤ 16 := by
    by_contra hlarge
    have h17 : 10 ^ 17 ≤ 10 ^ DecimalText.digitCount f := Nat.pow_le_pow_right (by decide) (by omega)
    omega
  have hbelow : ∀ i, 1 ≤ i → i < DecimalText.digitCount f → 10 ^ i < f := by
    intro i hi hik
    have hpow : 10 ^ (i + 1) ≤ 10 ^ DecimalText.digitCount f := Nat.pow_le_pow_right (by decide) (by omega)
    have hle : 10 ^ i ≤ f := by
      rw [pow_succ] at hpow
      omega
    refine lt_of_le_of_ne hle fun heq => hf ?_
    obtain ⟨j, rfl⟩ := Nat.exists_eq_add_of_le' hi
    rw [← heq, pow_succ]
    simp
  have h16 : 10 ^ DecimalText.digitCount f ≤ 10 ^ 16 := Nat.pow_le_pow_right (by decide) hcount
  exact timesFor_eq (j := 1) hupper.le (by omega) hpos (by omega) hbelow

theorem maxNumber_lt_iff {n : Nat} (h : n < 2 ^ 64) : maxNumber < UInt64.ofNat n ↔ 2 ^ 51 - 1 < n := by
  rw [UInt64.lt_iff_toNat_lt, toNat_ofNat h]
  rfl

section

variable (d : DecimalText)

theorem signed_text : signed d.text = (if d.negative then signBit else 0, d.integer ++ d.tail) := by
  obtain ⟨byte, str, heq, hbyte⟩ := d.head_magnitude
  rw [DecimalText.text, DecimalText.negative, heq]
  cases d.sign with
  | some minus => cases minus <;> rfl
  | none =>
    have hne : byte ≠ 43 ∧ byte ≠ 45 := by
      rcases hbyte with h | rfl
      · exact ⟨(DecimalText.digit_ne h).1, (DecimalText.digit_ne h).2.1⟩
      · decide
    simp only [DecimalText.signText, List.nil_append]
    unfold signed
    split
    next heq => cases heq; exact absurd rfl hne.2
    next heq => cases heq; exact absurd rfl hne.1
    next => rfl

theorem tail_head : ∀ byte ∈ d.tail.head?, isDigit byte = false := by
  unfold DecimalText.tail
  cases d.fraction <;> simp [isDigit]

theorem readInteger : (if (d.integer ++ d.tail).head? = some 46 then (0, d.integer ++ d.tail)
    else strtoull (d.integer ++ d.tail)) =
      (UInt64.ofNat (min (digitsValue d.integer) (2 ^ 64 - 1)), d.tail) := by
  by_cases hinteger : d.integer = []
  · have hhead : d.tail.head? = some 46 := by
      unfold DecimalText.tail
      cases hfraction : d.fraction with
      | none => simpa [hinteger, hfraction] using d.some_digit
      | some fraction => rfl
    rw [hinteger, List.nil_append, if_pos hhead]
    rfl
  · obtain ⟨byte, str, heq⟩ := List.exists_cons_of_ne_nil hinteger
    have hbyte := DecimalText.digit_ne (d.integer_digits byte (by simp [heq]))
    rw [if_neg (by simp [heq, hbyte.2.2]), strtoull_digits d.integer_digits hinteger (tail_head d)]

theorem readFraction {fraction : Bytes} (h : IsDigits fraction) :
    strtoull fraction = (UInt64.ofNat (min (digitsValue fraction) (2 ^ 64 - 1)), []) := by
  by_cases hne : fraction = []
  · rw [hne]
    rfl
  · have hread := @strtoull_digits _ [] h hne (by simp)
    rwa [List.append_nil] at hread

theorem decimals_value : ∃ n, d.decimals = d.stripped ++ List.replicate n 48 ∧
    digitsValue d.decimals = d.fractionValue * 10 ^ n := by
  obtain ⟨n, hn⟩ := d.decimals_eq
  refine ⟨n, hn, ?_⟩
  rw [hn, digitsValue_append, digitsValue_replicate_zero, List.length_replicate, add_zero]
  rfl

theorem fractionValue_mod (h : d.stripped ≠ []) : d.fractionValue % 10 ≠ 0 := by
  have hlast := d.stripped_getLast h
  have hdigit := isDigit_iff.mp (d.isDigits_stripped _ (List.getLast_mem h))
  rw [DecimalText.fractionValue, ← List.dropLast_append_getLast h, digitsValue_snoc]
  have hne : (d.stripped.getLast h).toNat ≠ 48 := fun heq => hlast (UInt8.toNat_inj.mp heq)
  omega

theorem stripped_eq_nil_iff : digitsValue d.decimals = 0 ↔ d.stripped = [] := by
  obtain ⟨n, -, hvalue⟩ := decimals_value d
  rw [hvalue]
  constructor
  · intro h
    by_contra hne
    have hmod := fractionValue_mod d hne
    have hzero : d.fractionValue = 0 := by simpa using h
    simp [hzero] at hmod
  · intro h
    simp [DecimalText.fractionValue, h, digitsValue]

theorem stripZeros_decimals (hne : d.stripped ≠ []) (hlt : digitsValue d.decimals < 2 ^ 64) :
    stripZeros 20 (UInt64.ofNat (digitsValue d.decimals)) d.decimals.length =
      (UInt64.ofNat d.fractionValue, d.stripped.length) := by
  obtain ⟨n, hn, hvalue⟩ := decimals_value d
  have hmod := fractionValue_mod d hne
  have hn20 : n ≤ 20 := by
    by_contra hlarge
    have hpow : 10 ^ 20 ≤ 10 ^ n := Nat.pow_le_pow_right (by decide) (by omega)
    have hpos : 0 < d.fractionValue := by
      by_contra hzero
      simp [Nat.eq_zero_of_not_pos hzero] at hmod
    have hle := Nat.le_mul_of_pos_left (10 ^ n) hpos
    omega
  have hlength : d.decimals.length = d.stripped.length + n := by
    rw [hn, List.length_append, List.length_replicate]
  rw [hlength, hvalue]
  exact stripZeros_eq hmod _ hn20 (hvalue ▸ hlt)

theorem getDecimalId_text : getDecimalId d.text =
    if 2 ^ 51 - 1 < digitsValue d.integer then invalidId
    else if d.stripped = [] then
      (if d.negative then signBit else 0) ||| UInt64.ofNat (digitsValue d.integer) <<< 4
    else
      let (fraction, sep) :=
        stripZeros 20 (UInt64.ofNat (min (digitsValue d.decimals) (2 ^ 64 - 1))) d.decimals.length
      if maxNumber < fraction then invalidId
      else
        let number := UInt64.ofNat (digitsValue d.integer) * timesFor 20 10 fraction + fraction
        if maxNumber < number then invalidId
        else (if d.negative then signBit else 0) ||| UInt64.ofNat sep ||| number <<< 4 := by
  unfold getDecimalId
  rw [signed_text]
  simp only
  rw [readInteger]
  simp only [maxNumber_lt_iff (n := min (digitsValue d.integer) (2 ^ 64 - 1)) (by omega)]
  by_cases hlarge : 2 ^ 51 - 1 < digitsValue d.integer
  · rw [if_pos (by omega), if_pos hlarge]
  · rw [if_neg (by omega), if_neg hlarge, min_eq_left (by omega)]
    cases hfraction : d.fraction with
    | none =>
      have hstripped : d.stripped = [] := by simp [DecimalText.stripped, DecimalText.decimals, hfraction]
      have htail : d.tail = [] := by simp [DecimalText.tail, hfraction]
      rw [htail, if_neg (by simp), if_pos hstripped]
    | some fraction =>
      have hdecimals : d.decimals = fraction := by simp [DecimalText.decimals, hfraction]
      have htail : d.tail = 46 :: fraction := by simp [DecimalText.tail, hfraction]
      have hzero : UInt64.ofNat (min (digitsValue d.decimals) (2 ^ 64 - 1)) = 0 ↔ d.stripped = [] := by
        rw [← UInt64.toNat_inj, toNat_ofNat (by omega), ← stripped_eq_nil_iff]
        simp only [UInt64.reduceToNat]
        omega
      simp only [htail, List.head?_cons, if_true, List.drop_one, List.tail_cons]
      rw [← hdecimals, readFraction d.isDigits_decimals]
      simp only [hzero, List.length_nil, Nat.sub_zero]

theorem number_eq (hne : d.stripped ≠ []) (hlt : d.fractionValue < 2 ^ 51) :
    UInt64.ofNat (digitsValue d.integer) * timesFor 20 10 (UInt64.ofNat d.fractionValue) +
      UInt64.ofNat d.fractionValue = UInt64.ofNat d.number := by
  rw [timesFor_digitCount (fractionValue_mod d hne) hlt, ← UInt64.ofNat_mul, ← UInt64.ofNat_add,
    DecimalText.number, if_neg hne, ← UInt64.toNat_inj, UInt64.toNat_ofNat', UInt64.toNat_ofNat',
    Nat.mod_mod]

theorem number_lt : d.number < 2 ^ 64 ∨ d.stripped = [] := by
  by_cases hne : d.stripped = []
  · exact .inr hne
  · rw [DecimalText.number, if_neg hne]
    exact .inl (Nat.mod_lt _ (by decide))

theorem getDecimalId_of_external (h : d.External) : getDecimalId d.text = invalidId := by
  rw [getDecimalId_text]
  by_cases hinteger : 2 ^ 51 - 1 < digitsValue d.integer
  · rw [if_pos hinteger]
  · obtain ⟨hne, hfraction⟩ := h.resolve_left hinteger
    rw [if_neg hinteger, if_neg hne]
    by_cases hlt : digitsValue d.decimals < 2 ^ 64
    · obtain ⟨n, -, hvalue⟩ := decimals_value d
      have hle : d.fractionValue ≤ digitsValue d.decimals :=
        hvalue ▸ Nat.le_mul_of_pos_right _ (by positivity)
      rw [min_eq_left (by omega), stripZeros_decimals d hne hlt]
      simp only [maxNumber_lt_iff (show d.fractionValue < 2 ^ 64 by omega)]
      by_cases hlarge : 2 ^ 51 - 1 < d.fractionValue
      · rw [if_pos hlarge]
      · rw [if_neg hlarge, number_eq d hne (by omega),
          if_pos ((maxNumber_lt_iff ((number_lt d).resolve_right hne)).mpr (hfraction.resolve_left hlarge))]
    · -- the number that strtoull saturates at is large and does not end in zero
      rw [min_eq_right (by omega)]
      rfl

theorem getDecimalId_of_not_external (h : ¬ d.External) (hlt : digitsValue d.decimals < 2 ^ 64) :
    getDecimalId d.text = (if d.negative then signBit else 0) ||| UInt64.ofNat d.stripped.length |||
      UInt64.ofNat d.number <<< 4 := by
  simp only [DecimalText.External, not_or, not_and, not_lt] at h
  rw [getDecimalId_text, if_neg (by omega)]
  by_cases hne : d.stripped = []
  · simp [hne, DecimalText.number]
  · obtain ⟨hfraction, hnumber⟩ := h.2 hne
    rw [if_neg hne, min_eq_left (by omega), stripZeros_decimals d hne hlt]
    simp only
    rw [if_neg (by rw [maxNumber_lt_iff (by omega)]; omega), number_eq d hne (by omega),
      if_neg (by rw [maxNumber_lt_iff (by omega)]; omega)]

end

end DecimalInlined

namespace DecimalText

variable {d : DecimalText}

/-- The digits fit into an inlined id: as one number, with the place of the point in four bits;
a fraction that begins with zeros has no integer part before it, and not too many zeros behind. -/
structure Inlined (d : DecimalText) : Prop where
  digits : digitsValue d.integer * 10 ^ d.stripped.length + d.fractionValue ≤ 2 ^ 51 - 1
  length : d.stripped.length ≤ 15
  leading : digitsValue d.integer = 0 ∨ d.stripped.head? ≠ some 48
  trailing : digitsValue d.decimals < 2 ^ 64

theorem fractionValue_of_nil (h : d.stripped = []) : d.fractionValue = 0 := by
  rw [fractionValue, h]
  rfl

theorem pow_le_digitsValue {digits : Bytes} (h : IsDigits digits) (hne : digits ≠ [])
    (hhead : digits.head? ≠ some 48) : 10 ^ (digits.length - 1) ≤ digitsValue digits := by
  obtain ⟨byte, digits, rfl⟩ := List.exists_cons_of_ne_nil hne
  have hbyte := isDigit_iff.mp (h byte List.mem_cons_self)
  have hne' : byte.toNat ≠ 48 := fun heq => hhead (by
    rw [List.head?_cons, UInt8.toNat_inj.mp (show byte.toNat = (48 : UInt8).toNat from heq)])
  have hvalue := digitsValue_append [byte] digits
  have hfirst : 1 ≤ digitsValue [byte] := by
    simp only [digitsValue, List.foldl_cons, List.foldl_nil]
    have h0 : '0'.toNat = 48 := rfl
    omega
  rw [List.singleton_append] at hvalue
  rw [hvalue, List.length_cons, Nat.add_sub_cancel]
  exact (Nat.le_mul_of_pos_left _ hfirst).trans (Nat.le_add_right _ _)

theorem digitCount_fractionValue (hne : d.stripped ≠ []) (hhead : d.stripped.head? ≠ some 48) :
    digitCount d.fractionValue = d.stripped.length := by
  have hlower := pow_le_digitsValue d.isDigits_stripped hne hhead
  have hupper := digitsValue_lt d.isDigits_stripped
  have hpos : d.fractionValue ≠ 0 := by
    have := Nat.pow_pos (n := d.stripped.length - 1) (show 0 < 10 by decide)
    rw [fractionValue]
    omega
  have hcount : d.fractionValue < 10 ^ digitCount d.fractionValue := Nat.lt_base_pow_length_digits (by decide)
  have hcount' : 10 ^ digitCount d.fractionValue ≤ 10 * d.fractionValue :=
    Nat.base_pow_length_digits_le 10 _ (by decide) hpos
  have hlength : 0 < d.stripped.length := List.length_pos_of_ne_nil hne
  have h₁ : d.stripped.length - 1 < digitCount d.fractionValue :=
    (Nat.pow_lt_pow_iff_right (by decide)).mp (hlower.trans_lt hcount)
  have h₂ : digitCount d.fractionValue < d.stripped.length + 1 := by
    refine (Nat.pow_lt_pow_iff_right (show 1 < 10 by decide)).mp (hcount'.trans_lt ?_)
    rw [pow_succ, Nat.mul_comm]
    exact Nat.mul_lt_mul_of_pos_right hupper (by decide)
  omega

theorem Inlined.number_eq (h : d.Inlined) :
    d.number = digitsValue d.integer * 10 ^ d.stripped.length + d.fractionValue := by
  have hdigits := h.digits
  by_cases hne : d.stripped = []
  · simp [number, hne, fractionValue_of_nil hne]
  · rw [number, if_neg hne]
    rcases h.leading with hzero | hhead
    · rw [hzero] at hdigits ⊢
      simp only [Nat.zero_mul, Nat.zero_add] at hdigits ⊢
      exact Nat.mod_eq_of_lt (by omega)
    · rw [digitCount_fractionValue hne hhead]
      exact Nat.mod_eq_of_lt (by omega)

theorem Inlined.not_external (h : d.Inlined) : ¬ d.External := by
  have hdigits := h.digits
  have hnumber := h.number_eq
  have hinteger : digitsValue d.integer ≤ digitsValue d.integer * 10 ^ d.stripped.length :=
    Nat.le_mul_of_pos_right _ (by positivity)
  rintro (hlarge | ⟨-, hlarge | hlarge⟩) <;> omega

theorem Inlined.toNat_getDecimalId (h : d.Inlined) : (DecimalInlined.getDecimalId d.text).toNat =
    (if d.negative then 2 ^ 55 else 0) +
      16 * (digitsValue d.integer * 10 ^ d.stripped.length + d.fractionValue) + d.stripped.length := by
  have hdigits := h.digits
  have hlength := h.length
  rw [DecimalInlined.getDecimalId_of_not_external d h.not_external h.trailing, h.number_eq]
  generalize digitsValue d.integer * 10 ^ d.stripped.length + d.fractionValue = n at hdigits
  generalize d.stripped.length = k at hlength
  have hshift : (UInt64.ofNat n <<< 4).toNat = n <<< 4 := by
    rw [UInt64.toNat_shiftLeft, DecimalInlined.toNat_ofNat (by omega)]
    exact Nat.mod_eq_of_lt (by rw [Nat.shiftLeft_eq]; simp; omega)
  have hlow : n <<< 4 ||| k = 16 * n + k := by
    rw [← Nat.shiftLeft_add_eq_or_of_lt (by omega), Nat.shiftLeft_eq]
    omega
  rw [UInt64.toNat_or, UInt64.toNat_or, hshift, DecimalInlined.toNat_ofNat (by omega), Nat.or_assoc,
    Nat.or_comm k, hlow]
  cases d.negative with
  | false => simp
  | true =>
    have hsign : DecimalInlined.signBit.toNat = 1 <<< 55 := rfl
    simp only [if_true]
    rw [hsign, ← Nat.shiftLeft_add_eq_or_of_lt (by omega)]
    omega

theorem value_eq_of_getDecimalId {d' : DecimalText} (h : d.Inlined) (h' : d'.Inlined)
    (heq : DecimalInlined.getDecimalId d.text = DecimalInlined.getDecimalId d'.text) :
    d.value = d'.value := by
  have hid := congrArg UInt64.toNat heq
  rw [h.toNat_getDecimalId, h'.toNat_getDecimalId] at hid
  have hlength := h.length
  have hlength' := h'.length
  have hdigits := h.digits
  have hdigits' := h'.digits
  have hnegative : d.negative = d'.negative := by
    cases hd : d.negative <;> cases hd' : d'.negative <;> simp [hd, hd'] at hid ⊢ <;> omega
  rw [hnegative] at hid
  have hk : d.stripped.length = d'.stripped.length := by omega
  have hn : digitsValue d.integer * 10 ^ d.stripped.length + d.fractionValue =
      digitsValue d'.integer * 10 ^ d'.stripped.length + d'.fractionValue := by omega
  rw [value_eq, value_eq, hnegative]
  rw [fractionValue, fractionValue] at hn
  rw [hn, hk]

theorem digitsValue_normalInteger (d : DecimalText) : digitsValue d.normalInteger = digitsValue d.integer := by
  have hsplit := List.takeWhile_append_dropWhile (p := fun byte : UInt8 => decide (byte = 48)) (l := d.integer)
  have hzeros : ∀ byte ∈ d.integer.takeWhile (· = 48), byte = 48 := fun byte h => by
    simpa using List.mem_takeWhile_imp h
  have hvalue := @digitsValue_zeros_append (d.integer.dropWhile (· = 48)) _ hzeros
  rw [hsplit] at hvalue
  rw [normalInteger, hvalue]
  split
  next hnil => rw [hnil]; rfl
  next => rfl

theorem stripped_normalized (d : DecimalText) : d.normalized.stripped = d.stripped := by
  have hnormal : d.normalized.decimals = d.normalFraction := rfl
  rw [stripped, hnormal, normalFraction]
  split
  next hnil => rw [hnil]; rfl
  next hcons =>
    have hlast := d.stripped_getLast (by simpa using hcons)
    obtain ⟨digits, last, heq⟩ := (List.eq_nil_or_concat d.stripped).resolve_left (by simpa using hcons)
    simp only [heq, List.concat_eq_append, List.getLast_append, List.isEmpty_cons] at hlast
    rw [heq, List.concat_eq_append, List.reverse_append, List.reverse_singleton, List.singleton_append,
      List.dropWhile_cons_of_neg (by simpa using hlast)]
    simp

theorem negative_normalized (d : DecimalText) : d.normalized.negative = d.negative := by
  have hsign : d.normalized.sign = if d.negative then some true else none := rfl
  rw [negative, hsign]
  cases d.negative <;> rfl

theorem value_normalized (d : DecimalText) : d.normalized.value = d.value := by
  rw [value_eq, value_eq, negative_normalized, stripped_normalized,
    show d.normalized.integer = d.normalInteger from rfl, digitsValue_normalInteger]

theorem normalInteger_normalized (d : DecimalText) : d.normalized.normalInteger = d.normalInteger := by
  have hinteger : d.normalized.integer = d.normalInteger := rfl
  have hfixed : d.normalInteger.dropWhile (· = 48) = [] ∧ d.normalInteger = [48] ∨
      d.normalInteger.dropWhile (· = 48) = d.normalInteger ∧ d.normalInteger ≠ [] := by
    unfold normalInteger
    split
    next => exact .inl ⟨rfl, rfl⟩
    next hne =>
      exact .inr ⟨List.dropWhile_idempotent _ _, hne⟩
  rw [normalInteger, hinteger]
  rcases hfixed with ⟨hnil, hone⟩ | ⟨hsame, hne⟩
  · rw [hnil, hone]
  · rw [hsame]
    split
    next hnil => exact absurd hnil hne
    next => rfl

theorem text_normalized_normalized (d : DecimalText) : d.normalized.normalized.text = d.normalized.text := by
  have hfraction : d.normalized.normalFraction = d.normalFraction := by
    rw [normalFraction, normalFraction, stripped_normalized]
  have hsign : d.normalized.normalized.sign = d.normalized.sign := by
    simp only [show d.normalized.normalized.sign = if d.normalized.negative then some true else none from rfl,
      negative_normalized]
    rfl
  simp only [text, tail, hsign, show d.normalized.normalized.integer = d.normalized.normalInteger from rfl,
    show d.normalized.normalized.fraction = some d.normalized.normalFraction from rfl,
    normalInteger_normalized, hfraction]
  rfl

end DecimalText

end MillenniumDB
