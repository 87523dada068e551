import MillenniumDB.ObjectIds

/-!
# Ids of RDF terms

The RDF import gives every IRI, blank node and literal an id.  Short texts go into the id; of
others the id has the offset of an external string.  Prefixes, datatypes and languages are numbered
and share the id with the text.
-/

namespace MillenniumDB

namespace ObjectId

def maskIriInlined : Nat := 0x0200000000000000
def maskIriExtern : Nat := 0x0300000000000000
def maskStringLangInlined : Nat := 0x0800000000000000
def maskStringLangExtern : Nat := 0x0900000000000000
def maskStringDatatypeInlined : Nat := 0x0A00000000000000
def maskStringDatatypeExtern : Nat := 0x0B00000000000000
def maskDatetime : Nat := 0x1300000000000000
def maskDecimalInlined : Nat := 0x1400000000000000
def maskDecimalExtern : Nat := 0x1500000000000000

end ObjectId

namespace Inliner

/-- `inline_string5`. -/
def inlineString5 (str : Bytes) : Nat := inlineBytes 32 (cString str)

def inlineIri (str : Bytes) : Nat := inlineBytes 40 (cString str)

end Inliner

def isDigit (byte : UInt8) : Bool := 48 ≤ byte ∧ byte ≤ 57

/-- A space, a tab, a newline, a vertical tab, a form feed or a carriage return. -/
def isSpace (byte : UInt8) : Bool := byte = 32 ∨ (9 ≤ byte ∧ byte ≤ 13)

def readSign : Bytes → Bool × Bytes
  | 45 :: str => (true, str)
  | 43 :: str => (false, str)
  | str => (false, str)

/-- `strtoull` in base ten: the number and what follows it.  It saturates, a minus sign wraps
around, and where no digit stands nothing is read. -/
def strtoull (str : Bytes) : UInt64 × Bytes :=
  let (negative, digits) := readSign (str.dropWhile isSpace)
  let value := digitsValue (digits.takeWhile isDigit)
  if digits.takeWhile isDigit = [] then (0, str)
  else if 2 ^ 64 ≤ value then (UInt64.ofNat (2 ^ 64 - 1), digits.dropWhile isDigit)
  else (if negative then -UInt64.ofNat value else UInt64.ofNat value, digits.dropWhile isDigit)

/-- `strtoll` in base ten. -/
def strtoll (str : Bytes) : Int64 × Bytes :=
  let (negative, digits) := readSign (str.dropWhile isSpace)
  let value := digitsValue (digits.takeWhile isDigit)
  if digits.takeWhile isDigit = [] then (0, str)
  else if negative then (Int64.ofInt (max (-(value : Int)) (-2 ^ 63)), digits.dropWhile isDigit)
  else (Int64.ofInt (min (value : Int) (2 ^ 63 - 1)), digits.dropWhile isDigit)

namespace DateTime

def invalidId : UInt64 := 0xFFFFFFFFFFFFFFFF

def signBit : UInt64 := 0x0080000000000000

/-- It marks a year of five digits or more; only its century is kept. -/
def precisionBit : UInt64 := 0x0040000000000000

/-- `strtoull(ptr + 1, &ptr, 10)`, a signed number.  There is nothing to read behind the end of
the text. -/
def readField (str : Bytes) : Option (Int64 × Bytes) :=
  match str with
  | [] => none
  | _ :: str => some ((strtoull str).1.toInt64, (strtoull str).2)

structure TimeZone where
  sign : Int64
  hour : Int64
  minute : Int64

def readTimeZone (str : Bytes) : Option TimeZone :=
  if str.head? = some 90 then some ⟨0, 0, 0⟩
  else do
    let (hour, str) ← readField str
    let (minute, _) ← readField str
    return if hour < 0 then ⟨1, -hour, minute⟩ else ⟨0, hour, minute⟩

def packDate (year mon day hour min sec : Int64) (tz : TimeZone) : UInt64 :=
  let date := year.toUInt64
  let date := date <<< 4 ||| (max mon 1).toUInt64
  let date := date <<< 5 ||| (max day 1).toUInt64
  let date := date <<< 5 ||| hour.toUInt64
  let date := date <<< 6 ||| min.toUInt64
  let date := date <<< 6 ||| sec.toUInt64
  let date := date <<< 1 ||| tz.sign.toUInt64
  let date := date <<< 5 ||| tz.hour.toUInt64
  date <<< 6 ||| tz.minute.toUInt64

/-- `get_datetime_id`.  It has no result for a text that ends where more is expected. -/
def getDatetimeId (str : Bytes) : Option UInt64 := do
  let (year, str) := strtoll str
  let sign : UInt64 := if year < 0 then signBit else 0
  let year := if year < 0 then -year else year
  if 9999 < year then return sign ||| precisionBit ||| (year / 100).toUInt64
  else
    let (mon, str) ← readField str
    let (day, str) ← readField str
    let (hour, str) ← readField str
    let (min, str) ← readField str
    let (sec, str) ← readField str
    if 59 < sec ∨ 59 < min ∨ 23 < hour ∨ 31 < day ∨ 12 < mon then return invalidId
    else
      -- fractions of seconds are skipped
      let str := if str.head? = some 46 then (strtoull (str.drop 1)).2 else str
      let tz ← readTimeZone str
      if 59 < tz.minute ∨ 23 < tz.hour then return invalidId
      else return sign ||| packDate year mon day hour min sec tz

end DateTime

namespace Decimal

def normalize (str : Bytes) : Bytes :=
  let sign : Bytes := if str.head? = some 45 then [45] else []
  -- leading zeros and signs
  let rest := str.dropWhile fun byte => byte = 43 ∨ byte = 45 ∨ byte = 48
  if rest = [] then sign ++ [48, 46, 48]
  else
    let integer := rest.takeWhile (· ≠ 46)
    match rest.dropWhile (· ≠ 46) with
    | [] => sign ++ rest ++ [46, 48]
    | _ :: fraction =>
      let zero : Bytes := if integer = [] then [48] else []
      -- trailing zeros
      let fraction := (fraction.reverse.dropWhile (· = 48)).reverse
      if fraction = [] then sign ++ zero ++ integer ++ [46, 48]
      else sign ++ zero ++ integer ++ [46] ++ fraction

end Decimal

namespace DecimalInlined

def invalidId : UInt64 := 0xFFFFFFFFFFFFFFFF

def signBit : UInt64 := 0x0080000000000000

def maxNumber : UInt64 := 0x0007FFFFFFFFFFFF

/-- Trailing zeros of a fraction are removed, and so many digits are. -/
def stripZeros : Nat → UInt64 → Nat → UInt64 × Nat
  | 0, fraction, digits => (fraction, digits)
  | fuel + 1, fraction, digits =>
    if fraction % 10 = 0 then stripZeros fuel (fraction / 10) (digits - 1) else (fraction, digits)

/-- `while (times < fraction) times *= 10`. -/
def timesFor : Nat → UInt64 → UInt64 → UInt64
  | 0, times, _ => times
  | fuel + 1, times, fraction =>
    if times < fraction then timesFor fuel (times * 10) fraction else times

def signed : Bytes → UInt64 × Bytes
  | 45 :: str => (signBit, str)
  | 43 :: str => (0, str)
  | str => (0, str)

/-- `get_decimal_id`: the sign, the digits of both parts as one number, and how many of them are
behind the point. -/
def getDecimalId (str : Bytes) : UInt64 :=
  let (sign, str) := signed str
  let (number, str) := if str.head? = some 46 then (0, str) else strtoull str
  if maxNumber < number then invalidId
  else if str.head? = some 46 then
    let (fraction, str') := strtoull (str.drop 1)
    if fraction = 0 then sign ||| number <<< 4
    else
      let (fraction, sep) := stripZeros 20 fraction ((str.drop 1).length - str'.length)
      if maxNumber < fraction then invalidId
      else
        let number := number * timesFor 20 10 fraction + fraction
        if maxNumber < number then invalidId
        else sign ||| UInt64.ofNat sep ||| number <<< 4
  else sign ||| number <<< 4

end DecimalInlined

end MillenniumDB
