import MillenniumDB.RdfDecimals

/-!
# Ids of dates

A dateTime has its fields in its id.  A fraction of a second is skipped, the sign of a time zone
is not read, and of a year with more than four digits the century is kept.  The id of every other
date says what the date is.
-/

namespace MillenniumDB

abbrev TwoDigits := {digits : Bytes // IsDigits digits ∧ digits.length = 2}

inductive ZoneText
  | utc
  | offset (negative : Bool) (hour minute : TwoDigits)

/-- The lexical forms of `xsd:dateTime`. -/
structure DateTimeText where
  negative : Bool
  year : Bytes
  month : TwoDigits
  day : TwoDigits
  hour : TwoDigits
  minute : TwoDigits
  second : TwoDigits
  fraction : Option Bytes
  zone : Option ZoneText
  year_digits : IsDigits year
  year_ne : year ≠ []
  fraction_digits : ∀ digits ∈ fraction, IsDigits digits ∧ digits ≠ []

structure DateTimeValue where
  year : Int
  month : Nat
  day : Nat
  hour : Nat
  minute : Nat
  second : ℚ
  zone : Option Int

def TwoDigits.value (digits : TwoDigits) : Nat := digitsValue digits.val

theorem TwoDigits.value_lt (digits : TwoDigits) : digits.value < 100 := by
  have h := digitsValue_lt digits.property.1
  rw [digits.property.2] at h
  exact h

namespace ZoneText

def text : ZoneText → Bytes
  | utc => [90]
  | offset negative hour minute => (if negative then 45 else 43) :: (hour.val ++ 58 :: minute.val)

def value : ZoneText → Int
  | utc => 0
  | offset negative hour minute => (if negative then -1 else 1) * (60 * hour.value + minute.value)

def hour : ZoneText → Nat
  | utc => 0
  | offset _ hour _ => hour.value

def minute : ZoneText → Nat
  | utc => 0
  | offset _ _ minute => minute.value

theorem hour_lt (zone : ZoneText) : zone.hour < 100 := by
  cases zone with
  | utc => decide
  | offset _ hour _ => exact hour.value_lt

theorem minute_lt (zone : ZoneText) : zone.minute < 100 := by
  cases zone with
  | utc => decide
  | offset _ _ minute => exact minute.value_lt

theorem value_of_nonneg {zone : ZoneText} (h : 0 ≤ zone.value) :
    zone.value = 60 * zone.hour + zone.minute := by
  cases zone with
  | utc => rfl
  | offset negative hour minute =>
    simp only [value, ZoneText.hour, ZoneText.minute] at h ⊢
    cases negative with
    | false => simp
    | true =>
      simp only [if_true] at h ⊢
      omega

end ZoneText

namespace DateTimeText

variable (d : DateTimeText)

def fractionText : Bytes :=
  match d.fraction with
  | none => []
  | some digits => 46 :: digits

def zoneText : Bytes :=
  match d.zone with
  | none => []
  | some zone => zone.text

def text : Bytes :=
  (if d.negative then [45] else []) ++ (d.year ++ 45 :: (d.month.val ++ 45 :: (d.day.val ++
    84 :: (d.hour.val ++ 58 :: (d.minute.val ++ 58 :: (d.second.val ++
      (d.fractionText ++ d.zoneText)))))))

def fractionDigits : Bytes := d.fraction.getD []

def value : DateTimeValue where
  year := (if d.negative then -1 else 1) * digitsValue d.year
  month := d.month.value
  day := d.day.value
  hour := d.hour.value
  minute := d.minute.value
  second := d.second.value + digitsValue d.fractionDigits / 10 ^ d.fractionDigits.length
  zone := d.zone.map ZoneText.value

end DateTimeText

namespace DateTime

variable {digits : TwoDigits} {rest : Bytes}

theorem readField_digits (byte : UInt8) (hrest : ∀ byte ∈ rest.head?, isDigit byte = false) :
    readField (byte :: (digits.val ++ rest)) = some (Int64.ofNat digits.value, rest) := by
  obtain ⟨hdigits, hlength⟩ := digits.property
  have hne : digits.val ≠ [] := by
    intro hnil
    rw [hnil] at hlength
    cases hlength
  have hlt := digits.value_lt
  rw [readField, strtoull_digits hdigits hne hrest, min_eq_left (by rw [TwoDigits.value] at hlt; omega),
    UInt64.toInt64_ofNat']
  rfl

theorem strtoll_year (d : DateTimeText) (hyear : digitsValue d.year < 2 ^ 63)
    (hrest : ∀ byte ∈ rest.head?, isDigit byte = false) :
    strtoll ((if d.negative then [45] else []) ++ (d.year ++ rest)) =
      (if d.negative then -Int64.ofNat (digitsValue d.year) else Int64.ofNat (digitsValue d.year), rest) := by
  have hsign : readSign (((if d.negative then [45] else []) ++ (d.year ++ rest)).dropWhile isSpace) =
      (d.negative, d.year ++ rest) := by
    cases d.negative with
    | false =>
      show readSign ((d.year ++ rest).dropWhile isSpace) = _
      exact readSign_digits d.year_digits d.year_ne
    | true => rfl
  unfold strtoll
  rw [hsign]
  simp only [takeWhile_digits d.year_digits hrest, dropWhile_digits d.year_digits hrest, d.year_ne, if_false]
  cases d.negative with
  | false =>
    rw [if_neg (by simp), if_neg (by simp), min_eq_left (by omega), Int64.ofInt_eq_ofNat]
  | true =>
    rw [if_pos rfl, if_pos rfl, max_eq_left (by omega), Int64.ofInt_neg, Int64.ofInt_eq_ofNat]

theorem ofNat_neg_iff {n : Nat} (h : n < 2 ^ 63) (negative : Bool) :
    (if negative then -Int64.ofNat n else Int64.ofNat n) < 0 ↔ negative = true ∧ n ≠ 0 := by
  cases negative with
  | false =>
    rw [if_neg (by simp), Int64.lt_iff_toInt_lt, Int64.toInt_ofNat_of_lt h]
    simp
  | true =>
    have hneg : (-Int64.ofNat n).toInt = -(n : Int) := by
      rw [← Int64.ofInt_eq_ofNat, ← Int64.ofInt_neg, Int64.toInt_ofInt_of_le (by omega) (by omega)]
    rw [if_pos rfl, Int64.lt_iff_toInt_lt, hneg]
    simp
    omega

theorem ofNat_abs {n : Nat} (h : n < 2 ^ 63) (negative : Bool) :
    (if (if negative then -Int64.ofNat n else Int64.ofNat n) < 0 then
      -(if negative then -Int64.ofNat n else Int64.ofNat n)
    else if negative then -Int64.ofNat n else Int64.ofNat n) = Int64.ofNat n := by
  by_cases hneg : negative = true ∧ n ≠ 0
  · rw [if_pos ((ofNat_neg_iff h negative).mpr hneg), hneg.1, if_pos rfl, Int64.neg_neg]
  · rw [if_neg (fun hlt => hneg ((ofNat_neg_iff h negative).mp hlt))]
    cases negative with
    | false => rfl
    | true =>
      have hzero : n = 0 := by simpa using hneg
      rw [hzero]
      rfl

theorem lt_ofNat_iff {m n : Nat} (hm : m < 2 ^ 63) (hn : n < 2 ^ 63) :
    Int64.ofNat m < Int64.ofNat n ↔ m < n := Int64.ofNat_lt_iff_lt hm hn

theorem readTimeZone_text (zone : ZoneText) :
    readTimeZone zone.text = some ⟨0, Int64.ofNat zone.hour, Int64.ofNat zone.minute⟩ := by
  cases zone with
  | utc => rfl
  | offset negative hour minute =>
    have hhead : (ZoneText.offset negative hour minute).text.head? ≠ some 90 := by
      cases negative <;> simp [ZoneText.text]
    have hhour := @readField_digits hour (58 :: minute.val)
      (if negative then 45 else 43) (by simp [isDigit])
    have hminute := @readField_digits minute [] 58 (by simp)
    rw [List.append_nil] at hminute
    have hlt := hour.value_lt
    unfold readTimeZone
    rw [if_neg hhead, ZoneText.text, hhour]
    simp only [Option.bind_eq_bind, Option.bind_some, hminute]
    rw [if_neg]
    · rfl
    · show ¬ Int64.ofNat hour.value < Int64.ofNat 0
      rw [lt_ofNat_iff (by omega) (by omega)]
      omega

def packed (year month day hour minute second zoneHour zoneMinute : Nat) : Nat :=
  (((((((year * 16 + month) * 32 + day) * 32 + hour) * 64 + minute) * 64 + second) * 2) * 32 + zoneHour) * 64 +
    zoneMinute

structure InRange (d : DateTimeText) (zone : ZoneText) : Prop where
  month : d.month.value ≤ 12
  day : d.day.value ≤ 31
  hour : d.hour.value ≤ 23
  minute : d.minute.value ≤ 59
  second : d.second.value ≤ 59
  zoneHour : zone.hour ≤ 23
  zoneMinute : zone.minute ≤ 59

theorem toNat_push {a : UInt64} {n m k : Nat} (ha : a.toNat = n) (hk : k < 64) (hm : m < 2 ^ k)
    (h : n * 2 ^ k < 2 ^ 64) : (a <<< UInt64.ofNat k ||| UInt64.ofNat m).toNat = n * 2 ^ k + m := by
  have hmlt : m < 2 ^ 64 := hm.trans (Nat.pow_lt_pow_right (by decide) hk)
  rw [UInt64.toNat_or, UInt64.toNat_shiftLeft, DecimalInlined.toNat_ofNat hmlt,
    DecimalInlined.toNat_ofNat (by omega), Nat.mod_eq_of_lt hk, ha, Nat.shiftLeft_eq, Nat.mod_eq_of_lt h,
    ← Nat.shiftLeft_eq, ← Nat.shiftLeft_add_eq_or_of_lt hm, Nat.shiftLeft_eq]

theorem toNat_packDate {year month day hour minute second zoneHour zoneMinute : Nat} (hyear : year ≤ 9999)
    (hmonth : 1 ≤ month ∧ month ≤ 12) (hday : 1 ≤ day ∧ day ≤ 31) (hhour : hour ≤ 23) (hminute : minute ≤ 59)
    (hsecond : second ≤ 59) (hzoneHour : zoneHour ≤ 23) (hzoneMinute : zoneMinute ≤ 59) :
    (packDate (Int64.ofNat year) (Int64.ofNat month) (Int64.ofNat day) (Int64.ofNat hour)
      (Int64.ofNat minute) (Int64.ofNat second) ⟨0, Int64.ofNat zoneHour, Int64.ofNat zoneMinute⟩).toNat =
        packed year month day hour minute second zoneHour zoneMinute := by
  have hmax : ∀ n : Nat, 1 ≤ n → n < 2 ^ 63 → max (Int64.ofNat n) 1 = Int64.ofNat n := by
    intro n hn hlt
    have hle : Int64.ofNat n ≤ 1 ↔ n ≤ 1 := Int64.ofNat_le_iff_le (b := 1) hlt (by decide)
    show (if Int64.ofNat n ≤ 1 then 1 else Int64.ofNat n) = Int64.ofNat n
    split_ifs with h
    · rw [show n = 1 by have := hle.mp h; omega]
      rfl
    · rfl
  unfold packDate
  rw [hmax month hmonth.1 (by omega), hmax day hday.1 (by omega)]
  have hyear' : (Int64.ofNat year).toUInt64.toNat = year := DecimalInlined.toNat_ofNat (by omega)
  have h₁ := toNat_push (k := 4) (m := month) hyear' (by omega) (by omega) (by omega)
  have h₂ := toNat_push (k := 5) (m := day) h₁ (by omega) (by omega) (by omega)
  have h₃ := toNat_push (k := 5) (m := hour) h₂ (by omega) (by omega) (by omega)
  have h₄ := toNat_push (k := 6) (m := minute) h₃ (by omega) (by omega) (by omega)
  have h₅ := toNat_push (k := 6) (m := second) h₄ (by omega) (by omega) (by omega)
  have h₆ := toNat_push (k := 1) (m := 0) h₅ (by omega) (by omega) (by omega)
  have h₇ := toNat_push (k := 5) (m := zoneHour) h₆ (by omega) (by omega) (by omega)
  have h₈ := toNat_push (k := 6) (m := zoneMinute) h₇ (by omega) (by omega) (by omega)
  refine Eq.trans h₈ ?_
  rw [packed]
  ring

variable {d : DateTimeText}

theorem of_getDatetimeId {id : UInt64} (hyear : digitsValue d.year ≤ 9999)
    (hmonth₁ : 1 ≤ d.month.value) (hday₁ : 1 ≤ d.day.value) (hid : getDatetimeId d.text = some id)
    (hvalid : id ≠ invalidId) : ∃ zone, d.zone = some zone ∧ InRange d zone ∧
      id.toNat = (if d.negative = true ∧ digitsValue d.year ≠ 0 then 2 ^ 55 else 0) +
        packed (digitsValue d.year) d.month.value d.day.value d.hour.value d.minute.value d.second.value
          zone.hour zone.minute := by
  have hbefore : ∀ byte : UInt8, isDigit byte = false → ∀ str : Bytes,
      ∀ byte' ∈ (byte :: str).head?, isDigit byte' = false := by
    intro byte hbyte str byte' hmem
    simp only [List.head?_cons, Option.mem_def, Option.some.injEq] at hmem
    exact hmem ▸ hbyte
  have hzone : ∀ byte ∈ d.zoneText.head?, isDigit byte = false := by
    unfold DateTimeText.zoneText
    cases d.zone with
    | none => simp
    | some zone => cases zone with
      | utc => simp [ZoneText.text, isDigit]
      | offset negative _ _ => cases negative <;> simp [ZoneText.text, isDigit]
  have hrest : ∀ byte ∈ (d.fractionText ++ d.zoneText).head?, isDigit byte = false := by
    unfold DateTimeText.fractionText
    cases d.fraction with
    | none => simpa using hzone
    | some digits => simp [isDigit]
  -- the fraction is read over
  have hskip : (if (d.fractionText ++ d.zoneText).head? = some 46 then
      (strtoull ((d.fractionText ++ d.zoneText).drop 1)).2 else d.fractionText ++ d.zoneText) = d.zoneText := by
    unfold DateTimeText.fractionText
    cases hfraction : d.fraction with
    | none =>
      simp only [List.nil_append]
      rw [if_neg]
      unfold DateTimeText.zoneText
      cases d.zone with
      | none => simp
      | some zone => cases zone with
        | utc => simp [ZoneText.text]
        | offset negative _ _ => cases negative <;> simp [ZoneText.text]
    | some digits =>
      obtain ⟨hdigits, hne⟩ := d.fraction_digits digits hfraction
      simp only [List.cons_append, List.head?_cons, if_true, List.drop_one, List.tail_cons]
      rw [strtoull_digits hdigits hne hzone]
  unfold getDatetimeId at hid
  rw [DateTimeText.text, strtoll_year d (by omega) (hbefore 45 rfl _)] at hid
  simp only [ofNat_abs (show digitsValue d.year < 2 ^ 63 by omega),
    if_congr (ofNat_neg_iff (show digitsValue d.year < 2 ^ 63 by omega) d.negative)
      (Eq.refl signBit) (Eq.refl 0)] at hid
  have hfour : ¬ (9999 : Int64) < Int64.ofNat (digitsValue d.year) := fun hlt => by
    have := (lt_ofNat_iff (m := 9999) (by omega) (by omega)).mp hlt
    omega
  have hmonth := d.month.value_lt
  have hday := d.day.value_lt
  have hhour := d.hour.value_lt
  have hminute := d.minute.value_lt
  have hsecond := d.second.value_lt
  rw [if_neg hfour] at hid
  simp only [readField_digits _ (hbefore 45 rfl _), readField_digits _ (hbefore 84 rfl _),
    readField_digits _ (hbefore 58 rfl _), readField_digits _ hrest, Option.bind_eq_bind,
    Option.bind_some, hskip] at hid
  have hranges : (59 < Int64.ofNat d.second.value ∨ 59 < Int64.ofNat d.minute.value ∨
      23 < Int64.ofNat d.hour.value ∨ 31 < Int64.ofNat d.day.value ∨ 12 < Int64.ofNat d.month.value) ↔
      59 < d.second.value ∨ 59 < d.minute.value ∨ 23 < d.hour.value ∨ 31 < d.day.value ∨
        12 < d.month.value := by
    refine or_congr ?_ (or_congr ?_ (or_congr ?_ (or_congr ?_ ?_)))
    · exact lt_ofNat_iff (m := 59) (by omega) (by omega)
    · exact lt_ofNat_iff (m := 59) (by omega) (by omega)
    · exact lt_ofNat_iff (m := 23) (by omega) (by omega)
    · exact lt_ofNat_iff (m := 31) (by omega) (by omega)
    · exact lt_ofNat_iff (m := 12) (by omega) (by omega)
  by_cases hbad : 59 < d.second.value ∨ 59 < d.minute.value ∨ 23 < d.hour.value ∨ 31 < d.day.value ∨
      12 < d.month.value
  · rw [if_pos (hranges.mpr hbad)] at hid
    exact absurd (Option.some.inj hid).symm hvalid
  · rw [if_neg (hranges.not.mpr hbad)] at hid
    cases hz : d.zone with
    | none =>
      rw [DateTimeText.zoneText, hz] at hid
      simp [readTimeZone, readField] at hid
    | some zone =>
      rw [DateTimeText.zoneText, hz] at hid
      simp only [readTimeZone_text, Option.bind_some] at hid
      have hzoneHour := zone.hour_lt
      have hzoneMinute := zone.minute_lt
      have hzoneRanges : (59 < Int64.ofNat zone.minute ∨ 23 < Int64.ofNat zone.hour) ↔
          59 < zone.minute ∨ 23 < zone.hour :=
        or_congr (lt_ofNat_iff (m := 59) (by omega) (by omega)) (lt_ofNat_iff (m := 23) (by omega) (by omega))
      by_cases hbadZone : 59 < zone.minute ∨ 23 < zone.hour
      · rw [if_pos (hzoneRanges.mpr hbadZone)] at hid
        exact absurd (Option.some.inj hid).symm hvalid
      · rw [if_neg (hzoneRanges.not.mpr hbadZone)] at hid
        push Not at hbad hbadZone
        obtain ⟨hs, hmi, hh, hd, hmo⟩ := hbad
        refine ⟨zone, rfl, ⟨hmo, hd, hh, hmi, hs, hbadZone.2, hbadZone.1⟩, ?_⟩
        have hpacked := toNat_packDate hyear ⟨hmonth₁, hmo⟩ ⟨hday₁, hd⟩ hh hmi hs hbadZone.2 hbadZone.1
        rw [← Option.some.inj hid, UInt64.toNat_or, hpacked]
        by_cases hneg : d.negative = true ∧ digitsValue d.year ≠ 0
        · rw [if_pos hneg, if_pos hneg, show signBit.toNat = 1 <<< 55 from rfl,
            ← Nat.shiftLeft_add_eq_or_of_lt (by rw [packed]; omega), Nat.shiftLeft_eq, Nat.one_mul]
        · rw [if_neg hneg, if_neg hneg]
          simp

end DateTime

end MillenniumDB
