import MillenniumDB.RdfObjectOrder
import MillenniumDB.RdfDateForms
import MillenniumDB.Lib.Calendar

/-!
# The order of dates in time

`compare_rdf` orders dates by their packed fields, the bits of the time zone last, and turns the
order around where both years are negative.  Dates lie in time by their local time less the offset
of their zone.
-/

namespace MillenniumDB
namespace DateTime

/-- The fields of the text of an id; a century is printed as its first second. -/
def datedFields (id : UInt64) : Fields :=
  if id &&& precisionBit ≠ 0 then
    { year := (id &&& ~~~(signBit ||| precisionBit)).toNat * 100
      month := 1
      day := 1
      hour := 0
      minute := 0
      second := 0
      zoneSign := 0
      zoneHour := 0
      zoneMinute := 0 }
  else fieldsOf id

def isNegative (id : UInt64) : Bool := id &&& signBit ≠ 0

def civil (id : UInt64) : Calendar.Civil where
  year := (if isNegative id then -1 else 1) * (datedFields id).year
  month := (datedFields id).month
  day := (datedFields id).day
  hour := (datedFields id).hour
  minute := (datedFields id).minute
  second := (datedFields id).second

def offset (id : UInt64) : Int :=
  (if (datedFields id).zoneSign ≠ 0 then -1 else 1) *
    (60 * (datedFields id).zoneHour + (datedFields id).zoneMinute)

def instant (id : UInt64) : Int := (civil id).seconds - 60 * offset id

def zoneBits (id : UInt64) : Nat :=
  ((datedFields id).zoneSign * 32 + (datedFields id).zoneHour) * 64 + (datedFields id).zoneMinute

/-- An id of a date.  It has the precision bit when the year has more than four digits, and the
sign bit only with a year other than zero. -/
structure Valid (id : UInt64) : Prop where
  bits : id.toNat < 2 ^ 56
  civil : (civil id).Valid
  zoneHour : (datedFields id).zoneHour ≤ 23
  zoneMinute : (datedFields id).zoneMinute ≤ 59
  precision : id &&& precisionBit ≠ 0 ↔ 9999 < (datedFields id).year
  negative : isNegative id → (datedFields id).year ≠ 0

section

variable {id x y : UInt64}

theorem day_lt (h : Valid id) : (civil id).day < 32 := by
  have hle := h.civil.day_le
  unfold Calendar.daysInMonth at hle
  split_ifs at hle
  all_goals omega

def inYear (id : UInt64) : Nat :=
  ((((civil id).month * 32 + (civil id).day) * 32 + (civil id).hour) * 64 + (civil id).minute) * 64 +
    (civil id).second

theorem seconds_lt_iff (hx : Valid x) (hy : Valid y) :
    (civil x).seconds < (civil y).seconds ↔ (civil x).year < (civil y).year ∨
      (civil x).year = (civil y).year ∧ inYear x < inYear y := by
  rw [Calendar.Civil.seconds_lt_iff hx.civil hy.civil]
  simp only [Calendar.Civil.key, Prod.Lex.toLex_lt_toLex]
  have hdayx := day_lt hx
  have hdayy := day_lt hy
  obtain ⟨-, hmonthx, -, -, hhourx, hminutex, hsecondx⟩ := hx.civil
  obtain ⟨-, hmonthy, -, -, hhoury, hminutey, hsecondy⟩ := hy.civil
  unfold inYear
  apply or_congr Iff.rfl
  apply and_congr Iff.rfl
  omega

theorem seconds_eq_iff (hx : Valid x) (hy : Valid y) :
    (civil x).seconds = (civil y).seconds ↔
      (civil x).year = (civil y).year ∧ inYear x = inYear y := by
  have hlt := seconds_lt_iff hx hy
  have hgt := seconds_lt_iff hy hx
  omega

theorem isNegative_iff (id : UInt64) : isNegative id ↔ id.toNat / 2 ^ 55 % 2 = 1 := by
  rw [isNegative, decide_eq_true_iff, show signBit = UInt64.ofNat (2 ^ 55) from rfl,
    and_bit_ne_zero_iff id (by decide)]

theorem precision_iff (id : UInt64) : id &&& precisionBit ≠ 0 ↔ id.toNat / 2 ^ 54 % 2 = 1 := by
  rw [show precisionBit = UInt64.ofNat (2 ^ 54) from rfl, and_bit_ne_zero_iff id (by decide)]

theorem century_fields (h : Valid id) (hyear : 9999 < (datedFields id).year) :
    id.toNat / 2 ^ 54 % 2 = 1 ∧ (datedFields id).year = id.toNat % 2 ^ 54 * 100 ∧
      inYear id = 4325376 ∧ zoneBits id = 0 := by
  have hprecision := h.precision.mpr hyear
  have hfields : datedFields id =
      ⟨(id &&& ~~~(signBit ||| precisionBit)).toNat * 100, 1, 1, 0, 0, 0, 0, 0, 0⟩ :=
    if_pos hprecision
  have hmask : (id &&& ~~~(signBit ||| precisionBit)).toNat = id.toNat % 2 ^ 54 := by
    rw [DecimalInlined.and_of_low (by decide) h.bits,
      show UInt64.ofNat (2 ^ 56 - 1) &&& ~~~(signBit ||| precisionBit) = 0x003FFFFFFFFFFFFF by decide,
      GraphObjectManager.toNat_and_mask]
  refine ⟨(precision_iff id).mp hprecision, ?_, ?_, ?_⟩
  · rw [hfields, hmask]
  · simp only [inYear, civil, hfields]
  · simp only [zoneBits, hfields]

theorem full_fields (h : Valid id) (hyear : ¬ 9999 < (datedFields id).year) :
    id.toNat / 2 ^ 54 % 2 = 0 ∧ inYear id < 2 ^ 26 ∧ zoneBits id < 2 ^ 12 ∧
      id.toNat % 2 ^ 54 = (datedFields id).year * 2 ^ 38 + inYear id * 2 ^ 12 + zoneBits id := by
  have hprecision : ¬ id &&& precisionBit ≠ 0 := fun hbit => hyear (h.precision.mp hbit)
  have hfields : datedFields id = fieldsOf id := if_neg hprecision
  rw [precision_iff] at hprecision
  have hyearBits : (datedFields id).year = id.toNat / 2 ^ 38 % 2 ^ 16 := by
    rw [hfields, fieldsOf_eq]
    rfl
  have hinYear : inYear id = id.toNat / 2 ^ 12 % 2 ^ 26 := by
    simp only [inYear, civil, hfields, fieldsOf_eq]
    omega
  have hzone : zoneBits id = id.toNat % 2 ^ 12 := by
    simp only [zoneBits, hfields, fieldsOf_eq]
    omega
  rw [hyearBits, hinYear, hzone]
  refine ⟨by omega, Nat.mod_lt _ (by decide), Nat.mod_lt _ (by decide), ?_⟩
  omega

/-- The bits without the sign have the order of the years, then of the fields behind them, and
then of the bits of the zone. -/
theorem mod_lt_iff (hx : Valid x) (hy : Valid y) : x.toNat % 2 ^ 55 < y.toNat % 2 ^ 55 ↔
    (datedFields x).year < (datedFields y).year ∨ (datedFields x).year = (datedFields y).year ∧
      (inYear x < inYear y ∨ inYear x = inYear y ∧ zoneBits x < zoneBits y) := by
  by_cases hyearx : 9999 < (datedFields x).year
  · have hfieldsx := century_fields hx hyearx
    by_cases hyeary : 9999 < (datedFields y).year
    · have hfieldsy := century_fields hy hyeary
      omega
    · have hfieldsy := full_fields hy hyeary
      omega
  · have hfieldsx := full_fields hx hyearx
    by_cases hyeary : 9999 < (datedFields y).year
    · have hfieldsy := century_fields hy hyeary
      omega
    · have hfieldsy := full_fields hy hyeary
      omega

/-- The order is turned around behind the year when the years are equal and negative. -/
def Flipped (x y : UInt64) : Prop := (civil x).year = (civil y).year ∧ (civil x).year < 0

def LocalBefore (x y : UInt64) : Prop :=
  (civil x).seconds < (civil y).seconds ∨
    (civil x).seconds = (civil y).seconds ∧ zoneBits x < zoneBits y

theorem year_eq (h : Valid id) : (id.toNat / 2 ^ 55 % 2 = 1 ∧ (datedFields id).year ≠ 0 ∧
      (civil id).year = -(datedFields id).year) ∨
    (id.toNat / 2 ^ 55 % 2 = 0 ∧ (civil id).year = (datedFields id).year) := by
  by_cases hnegative : isNegative id
  · refine .inl ⟨(isNegative_iff id).mp hnegative, h.negative hnegative, ?_⟩
    simp only [civil, if_pos hnegative]
    omega
  · have hbit := (isNegative_iff id).not.mp hnegative
    refine .inr ⟨by omega, ?_⟩
    simp only [civil, if_neg hnegative]
    omega

theorem datetimeKey_lt_of_flipped (hx : Valid x) (hy : Valid y) (h : Flipped x y) :
    GraphObjectManager.datetimeKey x < GraphObjectManager.datetimeKey y ↔ LocalBefore y x := by
  have hlt := seconds_lt_iff hy hx
  have heq := seconds_eq_iff hy hx
  have hmod := mod_lt_iff hy hx
  have hyearx := year_eq hx
  have hyeary := year_eq hy
  unfold Flipped at h
  unfold GraphObjectManager.datetimeKey LocalBefore
  rw [if_pos (by omega), if_pos (by omega), hlt, heq]
  omega

theorem datetimeKey_lt_of_not_flipped (hx : Valid x) (hy : Valid y) (h : ¬ Flipped x y) :
    GraphObjectManager.datetimeKey x < GraphObjectManager.datetimeKey y ↔ LocalBefore x y := by
  have hlt := seconds_lt_iff hx hy
  have heq := seconds_eq_iff hx hy
  have hmod := mod_lt_iff hx hy
  have hmod' := mod_lt_iff hy hx
  have hyearx := year_eq hx
  have hyeary := year_eq hy
  unfold Flipped at h
  unfold GraphObjectManager.datetimeKey LocalBefore
  rw [hlt, heq]
  rcases hyearx with ⟨hsignx, hnex, hyearx⟩ | ⟨hsignx, hyearx⟩
  · rw [if_pos hsignx]
    rcases hyeary with ⟨hsigny, hney, hyeary⟩ | ⟨hsigny, hyeary⟩
    · rw [if_pos hsigny]
      omega
    · rw [if_neg (by omega)]
      omega
  · rw [if_neg (by omega)]
    rcases hyeary with ⟨hsigny, hney, hyeary⟩ | ⟨hsigny, hyeary⟩
    · rw [if_pos hsigny]
      omega
    · rw [if_neg (by omega)]
      omega

/-- Zones that put the first pair of dates, in the order of its local times, into the order of the
second pair in time: the offsets do not outweigh a difference of the local times where the orders
agree and outweigh it where they differ, and the numbers of the zones decide between equal ones. -/
structure ZonesOrder (p q x y : UInt64) : Prop where
  before : (civil p).seconds < (civil q).seconds →
    (civil x).seconds - (civil y).seconds < 60 * (offset x - offset y)
  after : (civil q).seconds < (civil p).seconds →
    60 * (offset x - offset y) < (civil x).seconds - (civil y).seconds
  equal : (civil p).seconds = (civil q).seconds →
    (zoneBits p < zoneBits q ↔ offset y < offset x) ∧ (zoneBits q < zoneBits p ↔ offset x < offset y)

abbrev ZonesKeep (x y : UInt64) : Prop := ZonesOrder x y x y

abbrev ZonesTurn (x y : UInt64) : Prop := ZonesOrder y x x y

theorem localBefore_iff_instant {p q : UInt64} (h : p = x ∧ q = y ∨ p = y ∧ q = x) :
    (LocalBefore p q ↔ instant x < instant y) ∧ (LocalBefore q p ↔ instant y < instant x) ↔
      ZonesOrder p q x y := by
  have hequal : (civil p).seconds = (civil q).seconds ↔ (civil x).seconds = (civil y).seconds := by
    rcases h with ⟨rfl, rfl⟩ | ⟨rfl, rfl⟩
    · rfl
    · exact eq_comm
  unfold LocalBefore instant
  constructor
  · intro h
    constructor
    all_goals omega
  · rintro ⟨hbefore, hafter, hequal⟩
    omega

end

end DateTime

namespace GraphObjectManager

open DateTime

variable {a b : GraphObject}

/-- The sign of `compare_rdf` of two dates. -/
theorem exists_compareRdf_datetime (strings : RdfStrings) (ha : a.type = .datetime)
    (hb : b.type = .datetime) (hx : Valid a.encodedValue) (hy : Valid b.encodedValue) :
    ∃ c, compareRdf strings a b = .ok c ∧
      (c < 0 ↔ datetimeKey a.encodedValue < datetimeKey b.encodedValue) ∧
      (0 < c ↔ datetimeKey b.encodedValue < datetimeKey a.encodedValue) := by
  by_cases hsame : a.encodedValue = b.encodedValue
  · refine ⟨0, ?_, ?_⟩
    · rw [GraphObject.ext hsame (ha.trans hb.symm), compareRdf_self]
    · rw [hsame]
      simp
  · exact ⟨compareDatetime a.encodedValue b.encodedValue, compareRdf_datetime ha hb hsame,
      compareDatetime_iff hx.bits hy.bits hsame⟩

/-- The sign of `compare_rdf` is the order in time exactly when the zones turn the order of the
local times around in a year before the year 0, and keep it otherwise. -/
theorem compareRdf_datetime_iff (strings : RdfStrings) (ha : a.type = .datetime)
    (hb : b.type = .datetime) (hx : Valid a.encodedValue) (hy : Valid b.encodedValue) :
    (∃ c, compareRdf strings a b = .ok c ∧
      (c < 0 ↔ instant a.encodedValue < instant b.encodedValue) ∧
      (0 < c ↔ instant b.encodedValue < instant a.encodedValue)) ↔
    (Flipped a.encodedValue b.encodedValue → ZonesTurn a.encodedValue b.encodedValue) ∧
      (¬ Flipped a.encodedValue b.encodedValue → ZonesKeep a.encodedValue b.encodedValue) := by
  obtain ⟨c, hc, hneg, hpos⟩ := exists_compareRdf_datetime strings ha hb hx hy
  have hsign : (∃ c, compareRdf strings a b = .ok c ∧
      (c < 0 ↔ instant a.encodedValue < instant b.encodedValue) ∧
      (0 < c ↔ instant b.encodedValue < instant a.encodedValue)) ↔
      (datetimeKey a.encodedValue < datetimeKey b.encodedValue ↔
        instant a.encodedValue < instant b.encodedValue) ∧
      (datetimeKey b.encodedValue < datetimeKey a.encodedValue ↔
        instant b.encodedValue < instant a.encodedValue) := by
    rw [← hneg, ← hpos]
    constructor
    · rintro ⟨c', hc', h⟩
      rw [hc] at hc'
      rw [Except.ok.inj hc']
      exact h
    · exact fun h => ⟨c, hc, h⟩
  rw [hsign]
  by_cases hflip : Flipped a.encodedValue b.encodedValue
  · have hflip' : Flipped b.encodedValue a.encodedValue := ⟨hflip.1.symm, hflip.1 ▸ hflip.2⟩
    rw [datetimeKey_lt_of_flipped hx hy hflip, datetimeKey_lt_of_flipped hy hx hflip',
      localBefore_iff_instant (.inr ⟨rfl, rfl⟩)]
    simp [hflip]
  · have hflip' : ¬ Flipped b.encodedValue a.encodedValue := fun h => hflip ⟨h.1.symm, h.1 ▸ h.2⟩
    rw [datetimeKey_lt_of_not_flipped hx hy hflip, datetimeKey_lt_of_not_flipped hy hx hflip',
      localBefore_iff_instant (.inl ⟨rfl, rfl⟩)]
    simp [hflip]

def firstDay (negative : Bool) (month : Nat) : UInt64 :=
  UInt64.ofNat ((if negative then 2 ^ 55 else 0) + (2 ^ 38 + month * 2 ^ 34 + 2 ^ 29))

theorem valid_firstDay (negative : Bool) {month : Nat} (h : month = 1 ∨ month = 2) :
    Valid (firstDay negative month) := by
  rcases h with rfl | rfl
  all_goals
    cases negative
    all_goals
      exact ⟨by decide, ⟨by decide, by decide, by decide, by decide, by decide, by decide, by decide⟩,
        by decide, by decide, by decide, by decide⟩

theorem compareRdf_months : ∃ c, compareRdf twoLanguages ⟨firstDay false 1, .datetime⟩
    ⟨firstDay false 2, .datetime⟩ = .ok c ∧
      (c < 0 ↔ instant (firstDay false 1) < instant (firstDay false 2)) ∧
      (0 < c ↔ instant (firstDay false 2) < instant (firstDay false 1)) := by
  have hflip : ¬ Flipped (firstDay false 1) (firstDay false 2) := fun h => absurd h.2 (by decide)
  have hkeep : ZonesKeep (firstDay false 1) (firstDay false 2) :=
    ⟨by decide, by decide, by decide⟩
  have hx : Valid (firstDay false 1) := valid_firstDay false (.inl rfl)
  have hy : Valid (firstDay false 2) := valid_firstDay false (.inr rfl)
  exact (@compareRdf_datetime_iff ⟨firstDay false 1, .datetime⟩ ⟨firstDay false 2, .datetime⟩
    twoLanguages rfl rfl hx hy).mpr ⟨fun h => absurd h hflip, fun _ => hkeep⟩

/-- The texts of two dates in the year -1, of which the earlier one is sorted behind the other. -/
theorem compareRdf_months_negative :
    getDatetimeId (fieldsForm true ⟨1, 1, 1, 0, 0, 0, 0, 0, 0⟩).text = some (firstDay true 1) ∧
      getDatetimeId (fieldsForm true ⟨1, 2, 1, 0, 0, 0, 0, 0, 0⟩).text = some (firstDay true 2) ∧
      instant (firstDay true 1) < instant (firstDay true 2) ∧
      compareRdf twoLanguages ⟨firstDay true 1, .datetime⟩ ⟨firstDay true 2, .datetime⟩ = .ok 1 ∧
      ¬ ∀ (strings : RdfStrings) (a b : GraphObject), a.type = .datetime → b.type = .datetime →
        Valid a.encodedValue → Valid b.encodedValue → ∃ c, compareRdf strings a b = .ok c ∧
          (c < 0 ↔ instant a.encodedValue < instant b.encodedValue) ∧
          (0 < c ↔ instant b.encodedValue < instant a.encodedValue) := by
  have hlt : instant (firstDay true 1) < instant (firstDay true 2) := by decide
  have hcompare : compareRdf twoLanguages ⟨firstDay true 1, .datetime⟩
      ⟨firstDay true 2, .datetime⟩ = .ok 1 := by
    rw [compareRdf_datetime rfl rfl (by decide)]
    exact congrArg Except.ok (by decide)
  refine ⟨by decide, by decide, hlt, hcompare, fun h => ?_⟩
  obtain ⟨c, hc, hneg, -⟩ := h twoLanguages ⟨firstDay true 1, .datetime⟩
    ⟨firstDay true 2, .datetime⟩ rfl rfl (valid_firstDay true (.inl rfl))
    (valid_firstDay true (.inr rfl))
  rw [hcompare] at hc
  obtain rfl := Except.ok.inj hc
  exact absurd (hneg.mpr hlt) (by decide)

end GraphObjectManager
end MillenniumDB
