import MillenniumDB.RdfDateTimes
import MillenniumDB.RdfDecimalForms

/-!
# Texts of dates

The text of an id has the date, the time without the fraction of a second, and the time zone; of a
year of more than four digits it has the century only.
-/

namespace MillenniumDB

namespace DateTime

/-- The fields that `get_value_string` prints. -/
structure Fields where
  year : Nat
  month : Nat
  day : Nat
  hour : Nat
  minute : Nat
  second : Nat
  zoneSign : Nat
  zoneHour : Nat
  zoneMinute : Nat

/-- The shifts and masks of `get_value_string`. -/
def fieldsOf (id : UInt64) : Fields where
  zoneMinute := (id &&& 0x3F).toNat
  zoneHour := (id >>> 6 &&& 0x1F).toNat
  zoneSign := (id >>> 11 &&& 0x1).toNat
  second := (id >>> 12 &&& 0x3F).toNat
  minute := (id >>> 18 &&& 0x3F).toNat
  hour := (id >>> 24 &&& 0x1F).toNat
  day := (id >>> 29 &&& 0x1F).toNat
  month := (id >>> 34 &&& 0xF).toNat
  year := (id >>> 38 &&& 0xFFFF).toNat

def centuryTail : Bytes := [48, 48, 45, 48, 49, 45, 48, 49, 84, 48, 48, 58, 48, 48, 58, 48, 48, 90]

def getValueString (id : UInt64) : Bytes :=
  let sign : Bytes := if id &&& signBit ≠ 0 then [45] else []
  if id &&& precisionBit ≠ 0 then
    -- without the sign and the precision bits
    sign ++ digitsText (id &&& ~~~(signBit ||| precisionBit)).toNat ++ centuryTail
  else
    let f := fieldsOf id
    let zone : Bytes :=
      if 0 < f.zoneHour ∨ 0 < f.zoneMinute then
        (if f.zoneSign ≠ 0 then 45 else 43) :: (padded 2 f.zoneHour ++ 58 :: padded 2 f.zoneMinute)
      else [90]
    sign ++ (padded 4 f.year ++ 45 :: (padded 2 f.month ++ 45 :: (padded 2 f.day ++
      84 :: (padded 2 f.hour ++ 58 :: (padded 2 f.minute ++ 58 :: (padded 2 f.second ++ zone))))))

end DateTime

def twoDigits (n : Nat) : TwoDigits :=
  ⟨padded 2 (n % 100), isDigits_padded _ _, length_padded (by decide) (Nat.mod_lt n (by decide))⟩

theorem value_twoDigits {n : Nat} (h : n < 100) : (twoDigits n).value = n := by
  rw [TwoDigits.value, twoDigits, digitsValue_padded, Nat.mod_eq_of_lt h]

theorem val_twoDigits {n : Nat} (h : n < 100) : (twoDigits n).val = padded 2 n := by
  show padded 2 (n % 100) = padded 2 n
  rw [Nat.mod_eq_of_lt h]

theorem padded_ne_nil (width n : Nat) : padded width n ≠ [] :=
  List.append_ne_nil_of_right_ne_nil _ (digitsText_ne_nil n)

namespace DateTime

def centuryForm (negative : Bool) (century : Nat) : DateTimeText where
  negative := negative
  year := digitsText century ++ [48, 48]
  month := twoDigits 1
  day := twoDigits 1
  hour := twoDigits 0
  minute := twoDigits 0
  second := twoDigits 0
  fraction := none
  zone := some .utc
  year_digits := (isDigits_digitsText _).append (by decide)
  year_ne := List.append_ne_nil_of_left_ne_nil (digitsText_ne_nil _) _
  fraction_digits := fun _ h => absurd h (Option.not_mem_none _)

/-- The time zone of the fields; the sign is printed with hours or minutes only. -/
def zoneForm (f : Fields) : ZoneText :=
  if 0 < f.zoneHour ∨ 0 < f.zoneMinute then
    .offset (f.zoneSign ≠ 0) (twoDigits f.zoneHour) (twoDigits f.zoneMinute)
  else .utc

def fieldsForm (negative : Bool) (f : Fields) : DateTimeText where
  negative := negative
  year := padded 4 f.year
  month := twoDigits f.month
  day := twoDigits f.day
  hour := twoDigits f.hour
  minute := twoDigits f.minute
  second := twoDigits f.second
  fraction := none
  zone := some (zoneForm f)
  year_digits := isDigits_padded _ _
  year_ne := padded_ne_nil _ _
  fraction_digits := fun _ h => absurd h (Option.not_mem_none _)

/-- What `get_value_string` prints, as a date. -/
def shown (id : UInt64) : DateTimeText :=
  if id &&& precisionBit ≠ 0 then
    centuryForm (id &&& signBit ≠ 0) (id &&& ~~~(signBit ||| precisionBit)).toNat
  else fieldsForm (id &&& signBit ≠ 0) (fieldsOf id)

theorem toNat_shift_and (id : UInt64) {j k : Nat} (hj : j < 64) (hk : k ≤ 64) :
    (id >>> UInt64.ofNat j &&& UInt64.ofNat (2 ^ k - 1)).toNat = id.toNat / 2 ^ j % 2 ^ k := by
  have hpow : 2 ^ k ≤ 2 ^ 64 := Nat.pow_le_pow_right (by decide) hk
  have hpos := Nat.two_pow_pos k
  rw [UInt64.toNat_and, UInt64.toNat_shiftRight, DecimalInlined.toNat_ofNat (by omega),
    DecimalInlined.toNat_ofNat (by omega), Nat.mod_eq_of_lt hj, Nat.shiftRight_eq_div_pow,
    Nat.and_two_pow_sub_one_eq_mod]

theorem fieldsOf_eq (id : UInt64) : fieldsOf id =
    { zoneMinute := id.toNat % 64
      zoneHour := id.toNat / 2 ^ 6 % 32
      zoneSign := id.toNat / 2 ^ 11 % 2
      second := id.toNat / 2 ^ 12 % 64
      minute := id.toNat / 2 ^ 18 % 64
      hour := id.toNat / 2 ^ 24 % 32
      day := id.toNat / 2 ^ 29 % 32
      month := id.toNat / 2 ^ 34 % 16
      year := id.toNat / 2 ^ 38 % 65536 } := by
  have hminute : (id &&& 0x3F).toNat = id.toNat % 64 := by
    rw [UInt64.toNat_and, show (0x3F : UInt64).toNat = 2 ^ 6 - 1 from rfl,
      Nat.and_two_pow_sub_one_eq_mod]
  have hfield := fun {j k : Nat} (hj : j < 64) (hk : k ≤ 64) => toNat_shift_and id hj hk
  rw [fieldsOf, hminute]
  rw [show (id >>> 6 &&& 0x1F).toNat = id.toNat / 2 ^ 6 % 2 ^ 5 from
      hfield (j := 6) (k := 5) (by decide) (by decide),
    show (id >>> 11 &&& 0x1).toNat = id.toNat / 2 ^ 11 % 2 ^ 1 from
      hfield (j := 11) (k := 1) (by decide) (by decide),
    show (id >>> 12 &&& 0x3F).toNat = id.toNat / 2 ^ 12 % 2 ^ 6 from
      hfield (j := 12) (k := 6) (by decide) (by decide),
    show (id >>> 18 &&& 0x3F).toNat = id.toNat / 2 ^ 18 % 2 ^ 6 from
      hfield (j := 18) (k := 6) (by decide) (by decide),
    show (id >>> 24 &&& 0x1F).toNat = id.toNat / 2 ^ 24 % 2 ^ 5 from
      hfield (j := 24) (k := 5) (by decide) (by decide),
    show (id >>> 29 &&& 0x1F).toNat = id.toNat / 2 ^ 29 % 2 ^ 5 from
      hfield (j := 29) (k := 5) (by decide) (by decide),
    show (id >>> 34 &&& 0xF).toNat = id.toNat / 2 ^ 34 % 2 ^ 4 from
      hfield (j := 34) (k := 4) (by decide) (by decide),
    show (id >>> 38 &&& 0xFFFF).toNat = id.toNat / 2 ^ 38 % 2 ^ 16 from
      hfield (j := 38) (k := 16) (by decide) (by decide)]
  rfl

theorem fieldsOf_lt (id : UInt64) :
    (fieldsOf id).month < 100 ∧ (fieldsOf id).day < 100 ∧ (fieldsOf id).hour < 100 ∧
      (fieldsOf id).minute < 100 ∧ (fieldsOf id).second < 100 ∧ (fieldsOf id).zoneHour < 100 ∧
      (fieldsOf id).zoneMinute < 100 := by
  rw [fieldsOf_eq]
  dsimp only
  omega

theorem text_zoneForm (f : Fields) (hhour : f.zoneHour < 100) (hminute : f.zoneMinute < 100) :
    (zoneForm f).text = if 0 < f.zoneHour ∨ 0 < f.zoneMinute then
      (if f.zoneSign ≠ 0 then 45 else 43) :: (padded 2 f.zoneHour ++ 58 :: padded 2 f.zoneMinute)
      else [90] := by
  unfold zoneForm
  split_ifs with hzone hsign
  all_goals simp [ZoneText.text, val_twoDigits hhour, val_twoDigits hminute, *]

theorem value_zoneForm (f : Fields) (hhour : f.zoneHour < 100) (hminute : f.zoneMinute < 100) :
    (zoneForm f).value =
      (if f.zoneSign ≠ 0 then -1 else 1) * (60 * f.zoneHour + f.zoneMinute) := by
  unfold zoneForm
  split_ifs with hzone hsign hsign
  · rw [ZoneText.value, value_twoDigits hhour, value_twoDigits hminute, if_pos (decide_eq_true hsign)]
  · rw [ZoneText.value, value_twoDigits hhour, value_twoDigits hminute, if_neg (by simpa using hsign)]
  all_goals
    simp only [not_or, Nat.not_lt, Nat.le_zero] at hzone
    rw [hzone.1, hzone.2]
    rfl

theorem getValueString_eq (id : UInt64) : getValueString id = (shown id).text := by
  have hsign : (if id &&& signBit ≠ 0 then [45] else [] : Bytes) =
      if decide (id &&& signBit ≠ 0) = true then [45] else [] := by
    simp only [decide_eq_true_eq]
  unfold getValueString shown
  rw [hsign]
  by_cases hprecision : id &&& precisionBit ≠ 0
  · rw [if_pos hprecision, if_pos hprecision, List.append_assoc]
    simp only [DateTimeText.text, centuryForm, List.append_assoc]
    rfl
  · rw [if_neg hprecision, if_neg hprecision]
    obtain ⟨hmonth, hday, hours, hminutes, hseconds, hhour, hminute⟩ := fieldsOf_lt id
    have hzone := text_zoneForm (fieldsOf id) hhour hminute
    simp only [DateTimeText.text, fieldsForm, DateTimeText.fractionText, DateTimeText.zoneText,
      List.nil_append, hzone, val_twoDigits hmonth, val_twoDigits hday, val_twoDigits hours,
      val_twoDigits hminutes, val_twoDigits hseconds]
    rfl

theorem and_bit_ne_zero_iff (id : UInt64) {k : Nat} (hk : k < 64) :
    id &&& UInt64.ofNat (2 ^ k) ≠ 0 ↔ id.toNat / 2 ^ k % 2 = 1 := by
  have hpow : 2 ^ k < 2 ^ 64 := Nat.pow_lt_pow_right (by decide) hk
  have hpos := Nat.two_pow_pos k
  rw [ne_eq, ← UInt64.toNat_inj, UInt64.toNat_and, DecimalInlined.toNat_ofNat hpow, Nat.and_two_pow,
    Nat.testBit_eq_decide_div_mod_eq, UInt64.toNat_zero]
  by_cases hbit : id.toNat / 2 ^ k % 2 = 1
  · rw [decide_eq_true hbit, Bool.toNat_true, Nat.one_mul]
    exact iff_of_true hpos.ne' hbit
  · rw [decide_eq_false hbit, Bool.toNat_false, Nat.zero_mul]
    exact iff_of_false (not_not.mpr rfl) hbit

end DateTime

/-- What an id keeps: no fraction of a second, and of a year of more than four digits the
century. -/
def DateTimeText.keptValue (d : DateTimeText) : DateTimeValue :=
  if digitsValue d.year ≤ 9999 then { d.value with second := d.second.value }
  else
    { year := (if d.negative then -1 else 1) * ((digitsValue d.year / 100 * 100 : Nat) : Int)
      month := 1
      day := 1
      hour := 0
      minute := 0
      second := 0
      zone := some 0 }

/-- Dates whose months and days begin with one; with four digits in the year, they have a time
zone that is not negative, and with more the century leaves the bits of sign and precision. -/
structure DateTimeText.Plain (d : DateTimeText) : Prop where
  month : 1 ≤ d.month.value
  day : 1 ≤ d.day.value
  zone : digitsValue d.year ≤ 9999 → ∃ zone ∈ d.zone, 0 ≤ zone.value
  year : digitsValue d.year < 100 * 2 ^ 54

namespace DateTime

variable {d d' : DateTimeText} {id : UInt64}

theorem value_shown_packed {negative : Bool} {year month day hour minute second zoneHour
    zoneMinute : Nat} (hyear : year ≤ 9999) (hmonth : month ≤ 12) (hday : day ≤ 31)
    (hhour : hour ≤ 23) (hminute : minute ≤ 59) (hsecond : second ≤ 59) (hzoneHour : zoneHour ≤ 23)
    (hzoneMinute : zoneMinute ≤ 59)
    (hid : id.toNat = (if negative then 2 ^ 55 else 0) +
      packed year month day hour minute second zoneHour zoneMinute) :
    (shown id).value =
      { year := (if negative then -1 else 1) * year, month, day, hour, minute, second,
        zone := some (60 * zoneHour + zoneMinute) } := by
  have hpacked : packed year month day hour minute second zoneHour zoneMinute < 2 ^ 52 := by
    unfold packed
    omega
  have hprecision : ¬ id &&& precisionBit ≠ 0 := by
    rw [show precisionBit = UInt64.ofNat (2 ^ 54) from rfl, and_bit_ne_zero_iff id (by decide), hid]
    split_ifs
    all_goals omega
  have hsign : decide (id &&& signBit ≠ 0) = negative := by
    rw [Bool.eq_iff_iff, decide_eq_true_iff, show signBit = UInt64.ofNat (2 ^ 55) from rfl,
      and_bit_ne_zero_iff id (by decide), hid]
    cases negative
    all_goals
      simp only [Bool.false_eq_true, if_false, if_true, iff_true, iff_false]
      omega
  have hfields : fieldsOf id = ⟨year, month, day, hour, minute, second, 0, zoneHour, zoneMinute⟩ := by
    rw [fieldsOf_eq, hid, Fields.mk.injEq]
    unfold packed
    split_ifs
    all_goals omega
  have hzone := value_zoneForm ⟨year, month, day, hour, minute, second, 0, zoneHour, zoneMinute⟩
    (show zoneHour < 100 by omega) (show zoneMinute < 100 by omega)
  rw [if_neg (not_not.mpr rfl), one_mul] at hzone
  rw [shown, if_neg hprecision, hsign, hfields, DateTimeText.value, DateTimeValue.mk.injEq]
  have hlt : month < 100 ∧ day < 100 ∧ hour < 100 ∧ minute < 100 := by omega
  refine ⟨?_, value_twoDigits hlt.1, value_twoDigits hlt.2.1, value_twoDigits hlt.2.2.1,
    value_twoDigits hlt.2.2.2, ?_, ?_⟩
  · rw [fieldsForm, digitsValue_padded]
  · have hseconds : (twoDigits second).value = second := value_twoDigits (by omega)
    simp only [fieldsForm, DateTimeText.fractionDigits, hseconds, Option.getD_none, digitsValue,
      List.foldl_nil, Nat.cast_zero, zero_div, add_zero]
  · rw [fieldsForm, Option.map_some, hzone]

theorem value_shown_of_year (h : d.Plain) (hyear : digitsValue d.year ≤ 9999)
    (hid : getDatetimeId d.text = some id) (hvalid : id ≠ invalidId) :
    (shown id).value = d.keptValue := by
  obtain ⟨zone, hzone, hrange, hnat⟩ := of_getDatetimeId hyear h.month h.day hid hvalid
  obtain ⟨zone', hzone', hnonneg⟩ := h.zone hyear
  rw [hzone] at hzone'
  rw [← Option.some.inj hzone'] at hnonneg
  have hsame : (if d.negative = true ∧ digitsValue d.year ≠ 0 then 2 ^ 55 else 0) =
      if decide (d.negative = true ∧ digitsValue d.year ≠ 0) then 2 ^ 55 else 0 := by
    simp only [decide_eq_true_eq]
  rw [hsame] at hnat
  rw [value_shown_packed hyear hrange.month hrange.day hrange.hour hrange.minute hrange.second
    hrange.zoneHour hrange.zoneMinute hnat, DateTimeText.keptValue, if_pos hyear,
    DateTimeText.value, hzone, Option.map_some, ZoneText.value_of_nonneg hnonneg,
    DateTimeValue.mk.injEq]
  refine ⟨?_, rfl, rfl, rfl, rfl, rfl, rfl⟩
  by_cases hzero : digitsValue d.year = 0
  · rw [hzero, Nat.cast_zero, mul_zero, mul_zero]
  · simp only [hzero, ne_eq, not_false_eq_true, and_true, decide_eq_true_eq]

theorem getDatetimeId_century (hlarge : 9999 < digitsValue d.year)
    (hlt : digitsValue d.year < 2 ^ 63) : getDatetimeId d.text =
      some ((if d.negative then signBit else 0) ||| precisionBit |||
        UInt64.ofNat (digitsValue d.year / 100)) := by
  have hrest : ∀ str : Bytes, ∀ byte ∈ (45 :: str : Bytes).head?, isDigit byte = false := by
    intro str byte hbyte
    rw [List.head?_cons, Option.mem_some_iff] at hbyte
    rw [← hbyte]
    rfl
  have hnegative : (if d.negative then -Int64.ofNat (digitsValue d.year)
      else Int64.ofNat (digitsValue d.year)) < 0 ↔ d.negative = true := by
    rw [ofNat_neg_iff hlt]
    exact and_iff_left (by omega)
  have hyear : (9999 : Int64) < Int64.ofNat (digitsValue d.year) :=
    (lt_ofNat_iff (m := 9999) (by decide) hlt).mpr hlarge
  have hdiv : Int64.ofNat (digitsValue d.year) / 100 = Int64.ofNat (digitsValue d.year / 100) :=
    (Int64.ofNat_div hlt (by decide)).symm
  unfold getDatetimeId
  rw [DateTimeText.text, strtoll_year d hlt (hrest _)]
  simp only [ofNat_abs hlt, if_congr hnegative (Eq.refl signBit) (Eq.refl 0)]
  rw [if_pos hyear, hdiv]
  rfl

theorem value_shown_of_century (hyear : ¬ digitsValue d.year ≤ 9999)
    (hlt : digitsValue d.year < 100 * 2 ^ 54) (hid : getDatetimeId d.text = some id) :
    (shown id).value = d.keptValue := by
  rw [getDatetimeId_century (by omega) (by omega)] at hid
  have hid := (Option.some.inj hid).symm
  obtain ⟨century, hcentury⟩ : ∃ century, century = digitsValue d.year / 100 := ⟨_, rfl⟩
  have hcenturyLt : century < 2 ^ 54 := by omega
  have hlow : (UInt64.ofNat century).toNat < 2 ^ 54 := by
    rw [DecimalInlined.toNat_ofNat (by omega)]
    exact hcenturyLt
  rw [← hcentury] at hid
  have hprecision : id &&& precisionBit ≠ 0 := by
    have hmask : UInt64.ofNat (2 ^ 54 - 1) &&& precisionBit = 0 := by decide
    rw [hid, DecimalInlined.or_and, DecimalInlined.and_of_low (by decide) hlow, hmask,
      UInt64.and_zero, UInt64.or_zero]
    cases d.negative
    all_goals decide
  have hsign : decide (id &&& signBit ≠ 0) = d.negative := by
    have hmask : UInt64.ofNat (2 ^ 54 - 1) &&& signBit = 0 := by decide
    rw [hid, DecimalInlined.or_and, DecimalInlined.and_of_low (by decide) hlow, hmask,
      UInt64.and_zero, UInt64.or_zero]
    cases d.negative
    all_goals decide
  have hcenturyOf : (id &&& ~~~(signBit ||| precisionBit)).toNat = century := by
    have hmask : UInt64.ofNat (2 ^ 54 - 1) &&& ~~~(signBit ||| precisionBit) =
        UInt64.ofNat (2 ^ 54 - 1) &&& ~~~0 := by decide
    have hbits : ((if d.negative then signBit else 0) ||| precisionBit) &&&
        ~~~(signBit ||| precisionBit) = 0 := by
      cases d.negative
      all_goals decide
    rw [hid, DecimalInlined.or_and, DecimalInlined.and_of_low (by decide) hlow, hmask,
      ← DecimalInlined.and_of_low (by decide) hlow, hbits, UInt64.zero_or, UInt64.not_zero,
      UInt64.and_neg_one, DecimalInlined.toNat_ofNat (by omega)]
  have hvalue : digitsValue (digitsText century ++ [48, 48]) = century * 100 := by
    rw [digitsValue_append, digitsValue_digitsText]
    rfl
  rw [shown, if_pos hprecision, hsign, hcenturyOf, DateTimeText.keptValue, if_neg hyear,
    DateTimeText.value, DateTimeValue.mk.injEq]
  refine ⟨?_, value_twoDigits (by decide), value_twoDigits (by decide), value_twoDigits (by decide),
    value_twoDigits (by decide), ?_, rfl⟩
  · rw [centuryForm, hvalue, hcentury]
  · have hzero : (twoDigits 0).value = 0 := value_twoDigits (by decide)
    simp only [centuryForm, DateTimeText.fractionDigits, hzero, Option.getD_none, digitsValue,
      List.foldl_nil, Nat.cast_zero, zero_div, add_zero]

theorem value_shown (h : d.Plain) (hid : getDatetimeId d.text = some id) (hvalid : id ≠ invalidId) :
    (shown id).value = d.keptValue := by
  by_cases hyear : digitsValue d.year ≤ 9999
  · exact value_shown_of_year h hyear hid hvalid
  · exact value_shown_of_century hyear h.year hid

/-- The text of an id is a date with what is kept, and dates of which different things are kept
have different ids. -/
theorem keeps_date {id' : UInt64} (h : d.Plain) (h' : d'.Plain)
    (hid : getDatetimeId d.text = some id) (hid' : getDatetimeId d'.text = some id')
    (hvalid : id ≠ invalidId) (hvalid' : id' ≠ invalidId) :
    (∃ e : DateTimeText, getValueString id = e.text ∧ e.value = d.keptValue) ∧
      (d.keptValue ≠ d'.keptValue → id ≠ id') := by
  refine ⟨⟨shown id, getValueString_eq id, value_shown h hid hvalid⟩, fun hne heq => hne ?_⟩
  rw [← value_shown h hid hvalid, ← value_shown h' hid' hvalid', heq]

def newYear (fraction : Option Bytes)
    (hfraction : ∀ digits ∈ fraction, IsDigits digits ∧ digits ≠ []) : DateTimeText where
  negative := false
  year := [50, 48, 48, 48]
  month := twoDigits 1
  day := twoDigits 1
  hour := twoDigits 0
  minute := twoDigits 0
  second := twoDigits 0
  fraction := fraction
  zone := some .utc
  year_digits := by decide
  year_ne := by decide
  fraction_digits := hfraction

def newYearSharp : DateTimeText := newYear none fun _ h => absurd h (Option.not_mem_none _)

def newYearHalf : DateTimeText :=
  newYear (some [53]) fun _ h => by
    rw [← Option.mem_some_iff.mp h]
    decide

/-- Two dates that differ in the fraction of a second have one id. -/
theorem getDatetimeId_newYearHalf : ∃ id, getDatetimeId newYearSharp.text = some id ∧
    getDatetimeId newYearHalf.text = some id ∧ id ≠ invalidId ∧
    newYearSharp.value ≠ newYearHalf.value := by
  obtain ⟨id, hid⟩ : ∃ id, getDatetimeId newYearSharp.text = some id :=
    Option.isSome_iff_exists.mp (by decide)
  have hsame : getDatetimeId newYearSharp.text = getDatetimeId newYearHalf.text := by decide
  have hvalid : getDatetimeId newYearSharp.text ≠ some invalidId := by decide
  refine ⟨id, hid, hsame ▸ hid, fun heq => hvalid (heq ▸ hid), fun heq => ?_⟩
  have hsecond := congrArg DateTimeValue.second heq
  have hsharp : newYearSharp.value.second = 0 := by
    show ((0 : Nat) : ℚ) + (0 : Nat) / 10 ^ 0 = 0
    norm_num
  have hhalf : newYearHalf.value.second = 5 / 10 := by
    show ((0 : Nat) : ℚ) + (5 : Nat) / 10 ^ 1 = 5 / 10
    norm_num
  rw [hsharp, hhalf] at hsecond
  norm_num at hsecond

theorem keeps_date_newYear : ∃ id, getDatetimeId newYearHalf.text = some id ∧
    ∃ e : DateTimeText, getValueString id = e.text ∧ e.value = newYearHalf.keptValue := by
  obtain ⟨id, hid⟩ : ∃ id, getDatetimeId newYearHalf.text = some id :=
    Option.isSome_iff_exists.mp (by decide)
  have hvalid : getDatetimeId newYearHalf.text ≠ some invalidId := by decide
  have hvalid' : id ≠ invalidId := fun heq => hvalid (heq ▸ hid)
  have hplain : newYearHalf.Plain :=
    ⟨by decide, by decide, fun _ => ⟨.utc, rfl, by decide⟩, by decide⟩
  exact ⟨id, hid, (keeps_date hplain hplain hid hid hvalid' hvalid').1⟩

end DateTime

end MillenniumDB
