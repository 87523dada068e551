import MillenniumDB.RdfDecimals
import MillenniumDB.RdfObjectOrder

/-!
# Normal forms of decimals and the texts of inlined ones

A decimal in normal form is determined by its number and its sign, also when the number is zero.
The text of an inlined id is the normal form of what was inlined when all digits of both parts,
written as one number, are those of the text.
-/

namespace MillenniumDB

section

variable {digits digits' : Bytes} {n : Nat}

instance (digits : Bytes) : Decidable (IsDigits digits) :=
  List.decidableBAll (fun byte => isDigit byte = true) digits

def NoLeadingZero (digits : Bytes) : Prop :=
  digits = [48] ∨ digits ≠ [] ∧ digits.head? ≠ some 48

theorem eq_of_digitsValue_eq (h : IsDigits digits) (h' : IsDigits digits')
    (hlength : digits.length = digits'.length) (hvalue : digitsValue digits = digitsValue digits') :
    digits = digits' := by
  induction digits using List.reverseRecOn generalizing digits' with
  | nil => exact (List.length_eq_zero_iff.mp hlength.symm).symm
  | append_singleton digits byte ih =>
    rcases List.eq_nil_or_concat digits' with rfl | ⟨rest, last, rfl⟩
    · rw [List.length_append] at hlength
      cases hlength
    · rw [List.concat_eq_append] at h' hlength hvalue ⊢
      obtain ⟨hdigits, hbyte⟩ := List.forall_mem_append.mp h
      obtain ⟨hrest, hlast⟩ := List.forall_mem_append.mp h'
      have hbyte := isDigit_iff.mp (hbyte byte (List.mem_singleton_self _))
      have hlast := isDigit_iff.mp (hlast last (List.mem_singleton_self _))
      rw [digitsValue_snoc, digitsValue_snoc] at hvalue
      rw [List.length_append, List.length_append] at hlength
      have hsame : byte = last := UInt8.toNat_inj.mp (by omega)
      rw [ih hdigits hrest (Nat.add_right_cancel hlength) (by omega), hsame]

theorem NoLeadingZero.eq (hzero : NoLeadingZero digits) (hzero' : NoLeadingZero digits')
    (h : IsDigits digits) (h' : IsDigits digits') (hvalue : digitsValue digits = digitsValue digits') :
    digits = digits' := by
  -- a number of n digits that does not begin with zero is at least the power n - 1
  have hpos : ∀ {digits : Bytes}, IsDigits digits → digits ≠ [] → digits.head? ≠ some 48 →
      10 ^ (digits.length - 1) ≤ digitsValue digits ∧ 0 < digitsValue digits := by
    intro digits h hne hhead
    have hle := DecimalText.pow_le_digitsValue h hne hhead
    exact ⟨hle, (Nat.pow_pos (by decide)).trans_le hle⟩
  have hone : digitsValue [48] = 0 := rfl
  rcases hzero with rfl | ⟨hne, hhead⟩
  · rcases hzero' with rfl | ⟨hne', hhead'⟩
    · rfl
    · have := (hpos h' hne' hhead').2
      omega
  · rcases hzero' with rfl | ⟨hne', hhead'⟩
    · have := (hpos h hne hhead).2
      omega
    · apply eq_of_digitsValue_eq h h' _ hvalue
      have hle := (hpos h hne hhead).1.trans_lt (hvalue ▸ digitsValue_lt h')
      have hle' := (hpos h' hne' hhead').1.trans_lt (hvalue ▸ digitsValue_lt h)
      have hlt := (Nat.pow_lt_pow_iff_right (by decide)).mp hle
      have hlt' := (Nat.pow_lt_pow_iff_right (by decide)).mp hle'
      have := List.length_pos_of_ne_nil hne
      have := List.length_pos_of_ne_nil hne'
      omega

theorem toNat_digitChar (h : n < 10) : (Nat.digitChar n).toNat.toUInt8.toNat = 48 + n := by
  rw [Nat.toNat_digitChar_of_lt_ten h, Nat.toUInt8, UInt8.toNat_ofNat']
  omega

theorem digitsText_of_lt (h : n < 10) : digitsText n = [(Nat.digitChar n).toNat.toUInt8] := by
  rw [digitsText, Nat.toDigits_of_lt_base h]
  rfl

theorem digitsText_of_le (h : 10 ≤ n) :
    digitsText n = digitsText (n / 10) ++ [(Nat.digitChar (n % 10)).toNat.toUInt8] := by
  rw [digitsText, Nat.toDigits_of_base_le (by decide) h, List.map_append]
  rfl

theorem isDigits_digitsText (n : Nat) : IsDigits (digitsText n) := by
  have hlast : ∀ {m : Nat}, m < 10 → IsDigits [(Nat.digitChar m).toNat.toUInt8] := by
    intro m hm byte hbyte
    rw [List.mem_singleton.mp hbyte, isDigit_iff, toNat_digitChar hm]
    omega
  induction n using Nat.strong_induction_on with
  | _ n ih =>
    rcases Nat.lt_or_ge n 10 with hlt | hge
    · rw [digitsText_of_lt hlt]
      exact hlast hlt
    · rw [digitsText_of_le hge]
      exact (ih (n / 10) (by omega)).append (hlast (Nat.mod_lt n (by decide)))

theorem digitsValue_digitsText (n : Nat) : digitsValue (digitsText n) = n := by
  induction n using Nat.strong_induction_on with
  | _ n ih =>
    rcases Nat.lt_or_ge n 10 with hlt | hge
    · have hsnoc := digitsValue_snoc [] (Nat.digitChar n).toNat.toUInt8
      rw [List.nil_append, toNat_digitChar hlt] at hsnoc
      rw [digitsText_of_lt hlt, hsnoc]
      have hnil : digitsValue [] = 0 := rfl
      omega
    · rw [digitsText_of_le hge, digitsValue_snoc, ih (n / 10) (by omega),
        toNat_digitChar (Nat.mod_lt n (by decide))]
      omega

theorem digitsText_ne_nil (n : Nat) : digitsText n ≠ [] := by
  rcases Nat.lt_or_ge n 10 with hlt | hge
  · rw [digitsText_of_lt hlt]
    exact List.cons_ne_nil _ _
  · rw [digitsText_of_le hge]
    exact List.append_ne_nil_of_right_ne_nil _ (List.cons_ne_nil _ _)

theorem noLeadingZero_digitsText (n : Nat) : NoLeadingZero (digitsText n) := by
  induction n using Nat.strong_induction_on with
  | _ n ih =>
    rcases Nat.lt_or_ge n 10 with hlt | hge
    · rw [digitsText_of_lt hlt]
      rcases Nat.eq_zero_or_pos n with rfl | hpos
      · exact Or.inl rfl
      · refine Or.inr ⟨List.cons_ne_nil _ _, fun heq => ?_⟩
        have hbyte := congrArg UInt8.toNat (Option.some.inj heq)
        rw [toNat_digitChar hlt] at hbyte
        have h48 : (48 : UInt8).toNat = 48 := rfl
        omega
    · have hvalue := digitsValue_digitsText (n / 10)
      rw [digitsText_of_le hge]
      rcases ih (n / 10) (by omega) with hzero | ⟨hne, hhead⟩
      · rw [hzero] at hvalue
        have hone : digitsValue [48] = 0 := rfl
        omega
      · refine Or.inr ⟨List.append_ne_nil_of_left_ne_nil hne _, ?_⟩
        rw [List.head?_append_of_ne_nil _ hne]
        exact hhead

def padded (width n : Nat) : Bytes := List.replicate (width - (digitsText n).length) 48 ++ digitsText n

theorem isDigits_padded (width n : Nat) : IsDigits (padded width n) := by
  apply IsDigits.append _ (isDigits_digitsText n)
  intro byte hbyte
  rw [List.eq_of_mem_replicate hbyte]
  rfl

theorem digitsValue_padded (width n : Nat) : digitsValue (padded width n) = n := by
  rw [padded, digitsValue_zeros_append fun byte hbyte => List.eq_of_mem_replicate hbyte,
    digitsValue_digitsText]

theorem length_padded {width : Nat} (hwidth : 0 < width) (h : n < 10 ^ width) :
    (padded width n).length = width := by
  have hle : (digitsText n).length ≤ width := by
    rw [digitsText, List.length_map]
    exact Nat.toDigits_length 10 n width hwidth h
  rw [padded, List.length_append, List.length_replicate]
  omega

end

namespace DecimalText

variable {d d' : DecimalText}

theorem parts_of_text (h : d.text = d'.text) :
    d.negative = d'.negative ∧ d.integer = d'.integer ∧ d.fraction = d'.fraction := by
  have hsigned := DecimalInlined.signed_text d
  rw [h, DecimalInlined.signed_text d'] at hsigned
  obtain ⟨hsign, hrest⟩ := Prod.mk.inj hsigned
  have hnegative : d.negative = d'.negative := by
    have hbit : DecimalInlined.signBit ≠ 0 := by decide
    cases hd : d.negative
    · cases hd' : d'.negative
      · rfl
      · rw [hd, hd'] at hsign
        exact absurd hsign hbit
    · cases hd' : d'.negative
      · rw [hd, hd'] at hsign
        exact absurd hsign.symm hbit
      · rfl
  have hinteger := takeWhile_digits d.integer_digits (DecimalInlined.tail_head d)
  have htail := dropWhile_digits d.integer_digits (DecimalInlined.tail_head d)
  rw [← hrest, takeWhile_digits d'.integer_digits (DecimalInlined.tail_head d')] at hinteger
  rw [← hrest, dropWhile_digits d'.integer_digits (DecimalInlined.tail_head d')] at htail
  refine ⟨hnegative, hinteger.symm, ?_⟩
  unfold tail at htail
  cases hd : d.fraction with
  | none =>
    cases hd' : d'.fraction with
    | none => rfl
    | some fraction' =>
      rw [hd, hd'] at htail
      cases htail
  | some fraction =>
    cases hd' : d'.fraction with
    | none =>
      rw [hd, hd'] at htail
      cases htail
    | some fraction' =>
      rw [hd, hd'] at htail
      rw [(List.cons.inj htail).2]

theorem text_of_parts (hsign : d.sign = d'.sign) (hinteger : d.integer = d'.integer)
    (hfraction : d.fraction = d'.fraction) : d.text = d'.text := by
  rw [text, text, tail, tail, hsign, hinteger, hfraction]

theorem noLeadingZero_normalInteger (d : DecimalText) : NoLeadingZero d.normalInteger := by
  have hhead := List.head?_dropWhile_not (fun byte : UInt8 => decide (byte = 48)) d.integer
  unfold normalInteger
  cases hdigits : d.integer.dropWhile (· = 48) with
  | nil => exact Or.inl rfl
  | cons byte digits =>
    rw [hdigits] at hhead
    refine Or.inr ⟨List.cons_ne_nil _ _, fun heq => ?_⟩
    rw [List.head?_cons] at hhead heq
    rw [Option.some.inj heq] at hhead
    simp at hhead

theorem normalFraction_of_ne (h : d.stripped ≠ []) : d.normalFraction = d.stripped := by
  unfold normalFraction
  cases hd : d.stripped with
  | nil => exact absurd hd h
  | cons byte digits => rfl

/-- Two texts of the same number have as many digits behind the point, but for trailing zeros. -/
theorem length_stripped_le {N : Nat} (h : N * 10 ^ d'.stripped.length =
      (digitsValue d'.integer * 10 ^ d'.stripped.length + digitsValue d'.stripped) *
        10 ^ d.stripped.length) : d'.stripped.length ≤ d.stripped.length := by
  by_contra hlt
  obtain ⟨j, hj⟩ : ∃ j, d'.stripped.length = d.stripped.length + (j + 1) :=
    ⟨d'.stripped.length - d.stripped.length - 1, by omega⟩
  have hne : d'.stripped ≠ [] := by
    intro hnil
    rw [hnil, List.length_nil] at hj
    omega
  have hmod := DecimalInlined.fractionValue_mod d' hne
  have hpos : 0 < 10 ^ d.stripped.length := Nat.pow_pos (by decide)
  have hsplit : N * 10 ^ d'.stripped.length = N * 10 ^ j * 10 * 10 ^ d.stripped.length := by
    rw [hj]
    ring
  have hcancel := Nat.eq_of_mul_eq_mul_right hpos (hsplit.symm.trans h)
  -- the last digit would be a zero
  have hten : digitsValue d'.integer * 10 ^ d'.stripped.length =
      digitsValue d'.integer * 10 ^ (d.stripped.length + j) * 10 := by
    rw [hj]
    ring
  rw [fractionValue] at hmod
  omega

theorem value_parts (d : DecimalText) :
    (d.value = 0 ↔ digitsValue d.integer * 10 ^ d.stripped.length + digitsValue d.stripped = 0) ∧
      (d.value < 0 → d.negative = true) ∧ (0 < d.value → d.negative = false) := by
  have hpos : (0 : ℚ) < 10 ^ d.stripped.length := by positivity
  have hnonneg : (0 : ℚ) ≤ (digitsValue d.integer * 10 ^ d.stripped.length +
      digitsValue d.stripped : ℕ) / 10 ^ d.stripped.length := by positivity
  rw [value_eq]
  cases d.negative with
  | false =>
    simp only [Bool.false_eq_true, if_false, one_mul]
    refine ⟨?_, fun h => absurd hnonneg (not_le.mpr h), fun _ => trivial⟩
    rw [div_eq_zero_iff, Nat.cast_eq_zero]
    exact or_iff_left hpos.ne'
  | true =>
    simp only [if_true, neg_one_mul]
    refine ⟨?_, fun _ => trivial, fun h => absurd hnonneg (not_le.mpr (neg_pos.mp h))⟩
    rw [neg_eq_zero, div_eq_zero_iff, Nat.cast_eq_zero]
    exact or_iff_left hpos.ne'

theorem normalized_parts (hvalue : d.value = d'.value) (hnegative : d.negative = d'.negative) :
    d.normalInteger = d'.normalInteger ∧ d.stripped = d'.stripped := by
  have hpos : (0 : ℚ) < 10 ^ d.stripped.length := by positivity
  have hpos' : (0 : ℚ) < 10 ^ d'.stripped.length := by positivity
  have hsign : (if d'.negative then -1 else 1 : ℚ) ≠ 0 := by
    split_ifs
    all_goals norm_num
  rw [value_eq, value_eq, hnegative] at hvalue
  have hquotient := mul_left_cancel₀ hsign hvalue
  rw [div_eq_div_iff hpos.ne' hpos'.ne'] at hquotient
  have hproduct : (digitsValue d.integer * 10 ^ d.stripped.length + digitsValue d.stripped) *
      10 ^ d'.stripped.length = (digitsValue d'.integer * 10 ^ d'.stripped.length +
        digitsValue d'.stripped) * 10 ^ d.stripped.length := by
    exact_mod_cast hquotient
  have hlength : d.stripped.length = d'.stripped.length :=
    le_antisymm (length_stripped_le hproduct.symm) (length_stripped_le hproduct)
  rw [hlength] at hproduct
  have hsum := Nat.eq_of_mul_eq_mul_right (Nat.pow_pos (by decide)) hproduct
  -- the integer part is the quotient and the fraction is the remainder
  have hlt := digitsValue_lt d.isDigits_stripped
  have hlt' := digitsValue_lt d'.isDigits_stripped
  rw [hlength] at hlt
  have hdiv : digitsValue d.integer = digitsValue d'.integer := by
    have hleft := Nat.add_mul_div_right (digitsValue d.stripped) (digitsValue d.integer)
      (show 0 < 10 ^ d'.stripped.length from Nat.pow_pos (by decide))
    have hright := Nat.add_mul_div_right (digitsValue d'.stripped) (digitsValue d'.integer)
      (show 0 < 10 ^ d'.stripped.length from Nat.pow_pos (by decide))
    rw [Nat.div_eq_of_lt hlt, Nat.zero_add, Nat.add_comm] at hleft
    rw [Nat.div_eq_of_lt hlt', Nat.zero_add, Nat.add_comm] at hright
    rw [← hleft, ← hright, hsum]
  rw [hdiv] at hsum
  refine ⟨?_, eq_of_digitsValue_eq d.isDigits_stripped d'.isDigits_stripped hlength
    (Nat.add_left_cancel hsum)⟩
  apply NoLeadingZero.eq d.noLeadingZero_normalInteger d'.noLeadingZero_normalInteger
    d.isDigits_normalInteger d'.isDigits_normalInteger
  rw [digitsValue_normalInteger, digitsValue_normalInteger, hdiv]

theorem normalize_eq_iff : Decimal.normalize d.text = Decimal.normalize d'.text ↔
    d.value = d'.value ∧ d.negative = d'.negative := by
  rw [normalize_text, normalize_text]
  constructor
  · intro h
    obtain ⟨hnegative, hinteger, hfraction⟩ := parts_of_text h
    have hdecimals : d.normalized.decimals = d'.normalized.decimals := by
      rw [decimals, decimals, hfraction]
    have hvalue : d.normalized.value = d'.normalized.value := by
      rw [value, value, hnegative, hinteger, hdecimals]
    rw [negative_normalized, negative_normalized] at hnegative
    rw [value_normalized, value_normalized] at hvalue
    exact ⟨hvalue, hnegative⟩
  · intro h
    obtain ⟨hinteger, hstripped⟩ := normalized_parts h.1 h.2
    apply text_of_parts
    · simp only [normalized, h.2]
    · exact hinteger
    · simp only [normalized, normalFraction, hstripped]

/-- Normalizing twice changes nothing more.  Two texts have one normal form exactly when they stand
for the same number, but for zeros with different signs. -/
theorem normalize_canonical_iff (d d' : DecimalText) :
    Decimal.normalize (Decimal.normalize d.text) = Decimal.normalize d.text ∧
    ((Decimal.normalize d.text = Decimal.normalize d'.text ↔ d.value = d'.value) ↔
      (d.value = 0 → d'.value = 0 → d.negative = d'.negative)) := by
  constructor
  · rw [normalize_text, normalize_text, text_normalized_normalized]
  · rw [normalize_eq_iff]
    constructor
    · intro h hzero hzero'
      exact (h.mpr (hzero.trans hzero'.symm)).2
    · intro hzeros
      refine ⟨And.left, fun hvalue => ⟨hvalue, ?_⟩⟩
      rcases lt_trichotomy d.value 0 with hneg | hzero | hpos
      · rw [d.value_parts.2.1 hneg, d'.value_parts.2.1 (hvalue ▸ hneg)]
      · exact hzeros hzero (hvalue ▸ hzero)
      · rw [d.value_parts.2.2 hpos, d'.value_parts.2.2 (hvalue ▸ hpos)]

def zero : DecimalText := ⟨none, [48], none, by decide, by decide, by decide⟩

def negativeZero : DecimalText := ⟨some true, [48], none, by decide, by decide, by decide⟩

theorem normalize_negativeZero : ¬ (Decimal.normalize negativeZero.text =
    Decimal.normalize zero.text ↔ negativeZero.value = zero.value) := by
  intro h
  have hvalue : negativeZero.value = zero.value := by
    rw [negativeZero.value_parts.1.mpr rfl, zero.value_parts.1.mpr rfl]
  exact absurd (h.mpr hvalue) (by decide)

end DecimalText

namespace DecimalInlined

def idParts (id : UInt64) : Bool × Nat × Nat :=
  (id &&& signBit ≠ 0, ((id &&& ~~~signBit) >>> 4).toNat, ((id &&& ~~~signBit) &&& 0xF).toNat)

def shownFraction (number sep : Nat) : Bytes :=
  if sep ≠ 0 then padded sep (number % 10 ^ sep) else [48]

theorem isDigits_shownFraction (number sep : Nat) : IsDigits (shownFraction number sep) := by
  unfold shownFraction
  split_ifs
  · exact isDigits_padded _ _
  · intro byte hbyte
    rw [List.mem_singleton.mp hbyte]
    rfl

/-- What `get_value_string` prints, as a decimal. -/
def shown (negative : Bool) (number sep : Nat) : DecimalText where
  sign := if negative then some true else none
  integer := digitsText (number / 10 ^ sep)
  fraction := some (shownFraction number sep)
  integer_digits := isDigits_digitsText _
  fraction_digits := isDigits_shownFraction _ _
  some_digit := Or.inl (digitsText_ne_nil _)

theorem getValueString_eq (id : UInt64) :
    getValueString id = (shown (idParts id).1 (idParts id).2.1 (idParts id).2.2).text := by
  have hsign : (if id &&& signBit ≠ 0 then [45] else [] : Bytes) =
      DecimalText.signText (if decide (id &&& signBit ≠ 0) then some true else none) := by
    by_cases h : id &&& signBit ≠ 0
    · rw [if_pos h, decide_eq_true h]
      rfl
    · rw [if_neg h, decide_eq_false h]
      rfl
  rw [getValueString, hsign]
  dsimp only [idParts, shown, DecimalText.text, DecimalText.tail, shownFraction]
  by_cases hsep : ((id &&& ~~~signBit) &&& 0xF).toNat ≠ 0
  · rw [if_pos hsep, if_pos hsep, List.append_assoc, List.append_assoc]
    rfl
  · rw [if_neg hsep, if_neg hsep, not_not.mp hsep, Nat.pow_zero, Nat.div_one, List.append_assoc]

theorem or_and (a b c : UInt64) : (a ||| b) &&& c = (a &&& c) ||| (b &&& c) := by
  apply UInt64.toNat_inj.mp
  rw [UInt64.toNat_and, UInt64.toNat_or, UInt64.toNat_or, UInt64.toNat_and, UInt64.toNat_and,
    Nat.and_or_distrib_right]

/-- What a mask leaves of some low bits is decided by what it leaves of all of them. -/
theorem and_of_low {low mask : UInt64} {k : Nat} (hk : k ≤ 64) (h : low.toNat < 2 ^ k) :
    low &&& mask = low &&& (UInt64.ofNat (2 ^ k - 1) &&& mask) := by
  have hpow : 2 ^ k ≤ 2 ^ 64 := Nat.pow_le_pow_right (by decide) hk
  have hpos := Nat.two_pow_pos k
  have hlow : low &&& UInt64.ofNat (2 ^ k - 1) = low := by
    apply UInt64.toNat_inj.mp
    rw [UInt64.toNat_and, toNat_ofNat (by omega)]
    exact Nat.and_two_pow_sub_one_of_lt_two_pow h
  rw [← UInt64.and_assoc, hlow]

theorem idParts_packed (negative : Bool) {n k : Nat} (hn : n < 2 ^ 51) (hk : k < 16) :
    idParts ((if negative then signBit else 0) ||| UInt64.ofNat k ||| UInt64.ofNat n <<< 4) =
      (negative, n, k) := by
  obtain ⟨low, hlow⟩ : ∃ low, low = UInt64.ofNat k ||| UInt64.ofNat n <<< 4 := ⟨_, rfl⟩
  have hshift : (UInt64.ofNat n <<< 4).toNat = n <<< 4 := by
    rw [UInt64.toNat_shiftLeft, toNat_ofNat (by omega)]
    apply Nat.mod_eq_of_lt
    rw [Nat.shiftLeft_eq]
    simp
    omega
  have hlowNat : low.toNat = 16 * n + k := by
    rw [hlow, UInt64.toNat_or, hshift, toNat_ofNat (by omega), Nat.or_comm,
      ← Nat.shiftLeft_add_eq_or_of_lt (by omega), Nat.shiftLeft_eq]
    omega
  have hlt : low.toNat < 2 ^ 55 := by omega
  have hlowSign : low &&& signBit = 0 := by
    rw [and_of_low (by decide) hlt, show UInt64.ofNat (2 ^ 55 - 1) &&& signBit = 0 by decide,
      UInt64.and_zero]
  have hlowRest : low &&& ~~~signBit = low := by
    have hkeep : UInt64.ofNat (2 ^ 55 - 1) &&& ~~~signBit = UInt64.ofNat (2 ^ 55 - 1) &&& ~~~0 := by
      decide
    rw [and_of_low (by decide) hlt, hkeep, ← and_of_low (by decide) hlt]
    exact UInt64.and_neg_one
  have hsign : ((if negative then signBit else 0) &&& ~~~signBit : UInt64) = 0 := by
    cases negative
    all_goals decide
  have hrest : ((if negative then signBit else 0) ||| UInt64.ofNat k ||| UInt64.ofNat n <<< 4) &&&
      ~~~signBit = low := by
    rw [UInt64.or_assoc, ← hlow, or_and, hsign, hlowRest, UInt64.zero_or]
  have hbit : ((if negative then signBit else 0) ||| UInt64.ofNat k ||| UInt64.ofNat n <<< 4) &&&
      signBit = if negative then signBit else 0 := by
    rw [UInt64.or_assoc, ← hlow, or_and, hlowSign, UInt64.or_zero]
    cases negative
    all_goals decide
  have hnumber : (low >>> 4).toNat = n := by
    rw [UInt64.toNat_shiftRight, hlowNat, show (4 : UInt64).toNat % 64 = 4 from rfl,
      Nat.shiftRight_eq_div_pow]
    omega
  have hsep : (low &&& 0xF).toNat = k := by
    rw [UInt64.toNat_and, hlowNat, show (0xF : UInt64).toNat = 2 ^ 4 - 1 from rfl,
      Nat.and_two_pow_sub_one_eq_mod]
    omega
  rw [idParts, hrest, hbit, hnumber, hsep]
  cases negative
  all_goals rfl

theorem sep_lt (id : UInt64) : (idParts id).2.2 < 16 := by
  dsimp only [idParts]
  rw [UInt64.toNat_and, show (0xF : UInt64).toNat = 2 ^ 4 - 1 from rfl,
    Nat.and_two_pow_sub_one_eq_mod]
  exact Nat.mod_lt _ (by decide)

variable {d d' : DecimalText}

theorem of_valid (h : getDecimalId d.text ≠ invalidId) :
    ¬ d.External ∧ digitsValue d.decimals < 2 ^ 64 := by
  have hexternal : ¬ d.External := fun hexternal => h (getDecimalId_of_external d hexternal)
  refine ⟨hexternal, ?_⟩
  by_contra hlarge
  apply h
  have hne : d.stripped ≠ [] := by
    intro hnil
    have := (stripped_eq_nil_iff d).mpr hnil
    omega
  have hinteger : ¬ 2 ^ 51 - 1 < digitsValue d.integer := fun hlt => hexternal (Or.inl hlt)
  rw [getDecimalId_text, if_neg hinteger, if_neg hne, min_eq_right (by omega)]
  rfl

theorem parts_getDecimalId (h : getDecimalId d.text ≠ invalidId) (hlength : d.stripped.length < 16) :
    idParts (getDecimalId d.text) = (d.negative, d.number, d.stripped.length) := by
  obtain ⟨hexternal, htrailing⟩ := of_valid h
  have hnumber : d.number < 2 ^ 51 := by
    simp only [DecimalText.External, not_or, not_and, not_lt] at hexternal
    by_cases hne : d.stripped = []
    · rw [DecimalText.number, if_pos hne]
      omega
    · have := (hexternal.2 hne).2
      omega
  rw [getDecimalId_of_not_external d hexternal htrailing]
  exact idParts_packed _ hnumber hlength

theorem length_of_printed {id : UInt64} (h : getValueString id = Decimal.normalize d.text) :
    d.stripped.length < 16 := by
  rw [getValueString_eq, d.normalize_text] at h
  have hfraction := (DecimalText.parts_of_text h).2.2
  have hshown : shownFraction (idParts id).2.1 (idParts id).2.2 = d.normalFraction :=
    Option.some.inj hfraction
  have hsep := sep_lt id
  by_cases hne : d.stripped = []
  · rw [hne]
    decide
  · rw [← DecimalText.normalFraction_of_ne hne, ← hshown, shownFraction]
    split_ifs with hzero
    · rw [length_padded (Nat.pos_of_ne_zero hzero) (Nat.mod_lt _ (Nat.pow_pos (by decide)))]
      exact hsep
    · decide

/-- What is printed is the normal form if the number is the one with the digits of both parts. -/
theorem shown_text_iff (d : DecimalText) :
    (shown d.negative d.number d.stripped.length).text = Decimal.normalize d.text ↔
      d.number = digitsValue d.integer * 10 ^ d.stripped.length + d.fractionValue := by
  have hpos : 0 < 10 ^ d.stripped.length := Nat.pow_pos (by decide)
  have hlt := digitsValue_lt d.isDigits_stripped
  have hfraction : shownFraction d.number d.stripped.length = d.normalFraction ↔
      d.number % 10 ^ d.stripped.length = d.fractionValue := by
    by_cases hne : d.stripped = []
    · have hnormal : d.normalFraction = [48] := by
        unfold DecimalText.normalFraction
        rw [hne]
      rw [hnormal, DecimalText.fractionValue, hne, List.length_nil, Nat.pow_zero, Nat.mod_one]
      exact iff_of_true rfl rfl
    · have hwidth : 0 < d.stripped.length := List.length_pos_of_ne_nil hne
      rw [DecimalText.normalFraction_of_ne hne, shownFraction, if_pos hwidth.ne',
        DecimalText.fractionValue]
      have hmod := Nat.mod_lt d.number hpos
      constructor
      · intro heq
        have hvalue := congrArg digitsValue heq
        rw [digitsValue_padded] at hvalue
        exact hvalue
      · intro heq
        apply eq_of_digitsValue_eq (isDigits_padded _ _) d.isDigits_stripped
        · exact length_padded hwidth hmod
        · rw [digitsValue_padded, heq]
  have hinteger : digitsText (d.number / 10 ^ d.stripped.length) = d.normalInteger ↔
      d.number / 10 ^ d.stripped.length = digitsValue d.integer := by
    rw [← d.digitsValue_normalInteger]
    constructor
    · intro heq
      rw [← heq, digitsValue_digitsText]
    · intro heq
      apply (noLeadingZero_digitsText _).eq d.noLeadingZero_normalInteger (isDigits_digitsText _)
        d.isDigits_normalInteger
      rw [digitsValue_digitsText, heq]
  rw [d.normalize_text]
  constructor
  · intro h
    obtain ⟨-, hparts, hparts'⟩ := DecimalText.parts_of_text h
    have hdiv := hinteger.mp hparts
    have hmod := hfraction.mp (Option.some.inj hparts')
    rw [← hdiv, ← hmod, Nat.mul_comm, Nat.div_add_mod]
  · intro h
    have hvalue : d.fractionValue < 10 ^ d.stripped.length := hlt
    apply DecimalText.text_of_parts
    · rfl
    · apply hinteger.mpr
      rw [h, Nat.add_comm, Nat.add_mul_div_right _ _ hpos, Nat.div_eq_of_lt hvalue, Nat.zero_add]
    · apply congrArg some
      apply hfraction.mpr
      rw [h, Nat.add_comm, Nat.add_mul_mod_self_right, Nat.mod_eq_of_lt hvalue]

theorem number_lt_of_leading (hinteger : 0 < digitsValue d.integer)
    (hhead : d.stripped.head? = some 48) :
    d.number < digitsValue d.integer * 10 ^ d.stripped.length + d.fractionValue := by
  have hne : d.stripped ≠ [] := by
    intro hnil
    rw [hnil] at hhead
    cases hhead
  obtain ⟨rest, hrest⟩ : ∃ rest, d.stripped = 48 :: rest := by
    obtain ⟨byte, rest, hcons⟩ := List.exists_cons_of_ne_nil hne
    rw [hcons, List.head?_cons] at hhead
    exact ⟨rest, by rw [hcons, Option.some.inj hhead]⟩
  have hdigits : IsDigits rest := fun byte hbyte =>
    d.isDigits_stripped byte (by rw [hrest]; exact List.mem_cons_of_mem _ hbyte)
  have hzeros : ∀ byte ∈ [(48 : UInt8)], byte = 48 := fun byte hbyte => List.mem_singleton.mp hbyte
  have hvalue : d.fractionValue = digitsValue rest := by
    rw [DecimalText.fractionValue, hrest]
    exact digitsValue_zeros_append hzeros
  have hlt := digitsValue_lt hdigits
  have hcount : DecimalText.digitCount d.fractionValue ≤ rest.length := by
    rw [DecimalText.digitCount, hvalue]
    exact (Nat.digits_length_le_iff (by decide) _).mpr hlt
  have hpow : 10 ^ DecimalText.digitCount d.fractionValue < 10 ^ d.stripped.length := by
    apply Nat.pow_lt_pow_right (by decide)
    rw [hrest, List.length_cons]
    omega
  rw [DecimalText.number, if_neg hne]
  apply (Nat.mod_le _ _).trans_lt
  apply Nat.add_lt_add_right
  exact Nat.mul_lt_mul_of_pos_left hpow hinteger

theorem printed_iff (h : getDecimalId d.text ≠ invalidId) :
    getValueString (getDecimalId d.text) = Decimal.normalize d.text ↔ d.Inlined := by
  have htext : d.stripped.length < 16 → getValueString (getDecimalId d.text) =
      (shown d.negative d.number d.stripped.length).text := by
    intro hlength
    rw [getValueString_eq, parts_getDecimalId h hlength]
  obtain ⟨hexternal, htrailing⟩ := of_valid h
  constructor
  · intro hprinted
    have hlength := length_of_printed hprinted
    rw [htext hlength, shown_text_iff] at hprinted
    refine ⟨?_, by omega, ?_, htrailing⟩
    · rw [← hprinted]
      simp only [DecimalText.External, not_or, not_and, not_lt] at hexternal
      by_cases hne : d.stripped = []
      · rw [DecimalText.number, if_pos hne]
        exact hexternal.1
      · exact (hexternal.2 hne).2
    · by_contra hleading
      rw [not_or, not_not] at hleading
      have := number_lt_of_leading (Nat.pos_of_ne_zero hleading.1) hleading.2
      omega
  · intro hinlined
    have hlength : d.stripped.length < 16 := Nat.lt_succ_of_le hinlined.length
    rw [htext hlength, shown_text_iff]
    exact hinlined.number_eq

/-- Two decimals that are inlined are printed in normal form, and have different ids if they are
different numbers, exactly when the digits of both fit. -/
theorem prints_normal_iff (h : getDecimalId d.text ≠ invalidId)
    (h' : getDecimalId d'.text ≠ invalidId) :
    (getValueString (getDecimalId d.text) = Decimal.normalize d.text ∧
      getValueString (getDecimalId d'.text) = Decimal.normalize d'.text ∧
      (d.value ≠ d'.value → getDecimalId d.text ≠ getDecimalId d'.text)) ↔
    d.Inlined ∧ d'.Inlined := by
  rw [printed_iff h, printed_iff h']
  constructor
  · exact fun hprints => ⟨hprints.1, hprints.2.1⟩
  · intro hinlined
    refine ⟨hinlined.1, hinlined.2, fun hne heq => hne ?_⟩
    exact DecimalText.value_eq_of_getDecimalId hinlined.1 hinlined.2 heq

def oneAndOneHundredth : DecimalText :=
  ⟨none, [49], some [48, 49], by decide, by decide, by decide⟩

def elevenHundredths : DecimalText :=
  ⟨none, [48], some [49, 49], by decide, by decide, by decide⟩

/-- The text of the id of 1.01 is 0.11, and both have the same id. -/
theorem printed_oneAndOneHundredth :
    getDecimalId oneAndOneHundredth.text ≠ invalidId ∧
    getValueString (getDecimalId oneAndOneHundredth.text) ≠
      Decimal.normalize oneAndOneHundredth.text ∧
    getDecimalId oneAndOneHundredth.text = getDecimalId elevenHundredths.text := by
  decide

def minusThreeHalves : DecimalText :=
  ⟨some true, [49], some [53], by decide, by decide, by decide⟩

theorem prints_normal_two :
    getValueString (getDecimalId minusThreeHalves.text) = Decimal.normalize minusThreeHalves.text ∧
      getValueString (getDecimalId elevenHundredths.text) = Decimal.normalize elevenHundredths.text ∧
      getDecimalId minusThreeHalves.text ≠ getDecimalId elevenHundredths.text := by
  have hinlined : minusThreeHalves.Inlined ∧ elevenHundredths.Inlined :=
    ⟨⟨by decide, by decide, by decide, by decide⟩, ⟨by decide, by decide, by decide, by decide⟩⟩
  have hne : minusThreeHalves.value ≠ elevenHundredths.value := by decide +kernel
  obtain ⟨hfirst, hsecond, hdiffer⟩ := (prints_normal_iff (by decide) (by decide)).mpr hinlined
  exact ⟨hfirst, hsecond, hdiffer hne⟩

end DecimalInlined

end MillenniumDB
