import MillenniumDB.GraphObjectOrder
import Mathlib.Data.List.TakeWhile
import Mathlib.Data.Nat.Bitwise

/-!
# When `compare_rdf` is an order of terms

Literals with a language or a datatype are compared as one stream of characters, in which the text
and the language or datatype stand next to each other; temporary ones, and what is inlined in an IRI
or such a literal, are read after their characters are gone; and the ids of blank nodes are
subtracted into 32 bits.
-/

namespace MillenniumDB

inductive SparqlComplexType
  | none | decimal | iri | string | literalLanguage | literalDatatype
  deriving DecidableEq

namespace GraphObjectType

def complexType : GraphObjectType → SparqlComplexType
  | strInlined | strExternal | strTmp => .string
  | iriInlined | iriExternal | iriTmp => .iri
  | literalDatatypeInlined | literalDatatypeExternal | literalDatatypeTmp => .literalDatatype
  | literalLanguageInlined | literalLanguageExternal | literalLanguageTmp => .literalLanguage
  | decimalInlined | decimalExternal | decimalTmp => .decimal
  | _ => .none

def isRdf (type : GraphObjectType) : Bool :=
  type.complexType ≠ .none ∨ type ∈ [nullObj, notFound, anon, datetime, bool]

/-- The iterator of such an object points into a value that ends with its case of the switch. -/
def isDangling : GraphObjectType → Bool
  | iriInlined | literalDatatypeInlined | literalLanguageInlined => true
  | literalDatatypeTmp | literalLanguageTmp => true
  | _ => false

end GraphObjectType

/-- Where the texts of RDF objects are, with the lists of the catalog.  A temporary literal is a
text with its datatype or language. -/
structure RdfStrings extends Strings where
  prefixes : List Bytes
  datatypes : List Bytes
  languages : List Bytes
  tmpLiteral : UInt64 → Bytes × Bytes

def digitsText (n : Nat) : Bytes := (Nat.toDigits 10 n).map fun c => c.toNat.toUInt8

/-- `get_value_string` of an inlined decimal. -/
def DecimalInlined.getValueString (id : UInt64) : Bytes :=
  let sign : Bytes := if id &&& signBit ≠ 0 then [45] else []
  let id := id &&& ~~~signBit
  let sep := (id &&& 0xF).toNat
  let number := (id >>> 4).toNat
  if sep ≠ 0 then
    let fraction := digitsText (number % 10 ^ sep)
    sign ++ digitsText (number / 10 ^ sep) ++ [46] ++
      (List.replicate (sep - fraction.length) 48 ++ fraction)
  else sign ++ digitsText number ++ [46, 48]

namespace GraphObject

section

variable (strings : RdfStrings) (object : GraphObject)

/-- The text of a string or of a literal with a language or a datatype. -/
def lexicalForm : Bytes :=
  match object.type with
  | .strInlined => inlinedText 8 object.encodedValue
  | .strExternal => strings.external object.encodedValue
  | .strTmp => strings.tmp object.encodedValue
  | .literalLanguageInlined | .literalDatatypeInlined => inlinedText 6 object.encodedValue
  | .literalLanguageExternal | .literalDatatypeExternal =>
    strings.external (object.encodedValue &&& 0x000000FFFFFFFFFF)
  | .literalLanguageTmp | .literalDatatypeTmp => (strings.tmpLiteral object.encodedValue).1
  | _ => []

def tag : Bytes :=
  match object.type with
  | .literalLanguageInlined => strings.languages.getD (object.encodedValue >>> 48).toNat []
  | .literalDatatypeInlined => strings.datatypes.getD (object.encodedValue >>> 48).toNat []
  | .literalLanguageExternal =>
    strings.languages.getD ((object.encodedValue &&& 0x00FFFF0000000000) >>> 40).toNat []
  | .literalDatatypeExternal =>
    strings.datatypes.getD ((object.encodedValue &&& 0x00FFFF0000000000) >>> 40).toNat []
  | .literalLanguageTmp | .literalDatatypeTmp => (strings.tmpLiteral object.encodedValue).2
  | _ => []

def iriText : Bytes :=
  match object.type with
  | .iriInlined => cString (strings.prefixes.getD (object.encodedValue >>> 56).toNat []) ++
      inlinedText 7 object.encodedValue
  | .iriExternal =>
    cString (strings.prefixes.getD ((object.encodedValue &&& 0x00FF000000000000) >>> 48).toNat []) ++
      strings.external (object.encodedValue &&& 0x0000FFFFFFFFFFFF)
  | .iriTmp => strings.tmp object.encodedValue
  | _ => []

/-- The characters that are compared, as long as they are there.  The first part of a stream ends
with a zero, too. -/
def stream : Bytes :=
  match object.type.complexType with
  | .string => object.lexicalForm strings
  | .iri => object.iriText strings
  | .literalLanguage => cString (object.lexicalForm strings) ++ object.tag strings
  | .literalDatatype => cString (object.tag strings) ++ object.lexicalForm strings
  | _ => []

/-- The iterator over the stream, unless it outlives what it reads. -/
def iterator : Except String Bytes :=
  if object.type.isDangling then .error "dangling iterator" else .ok (object.stream strings)

def decimalString : Bytes :=
  match object.type with
  | .decimalInlined => DecimalInlined.getValueString object.encodedValue
  | .decimalExternal => strings.external object.encodedValue
  | .decimalTmp => strings.tmp object.encodedValue
  | _ => []

end

end GraphObject

namespace GraphObjectManager

/-- `find('.')`. -/
def findPoint (str : Bytes) : UInt64 :=
  if 46 ∈ str then UInt64.ofNat (str.idxOf 46) else 0xFFFFFFFFFFFFFFFF

def strncmp (lhs rhs : Bytes) (n : Nat) : Int := StringManager.compare (lhs.take n) (rhs.take n)

/-- The comparison of the strings of decimals: signs, lengths and digits of the integer parts, and
what follows from the point on. -/
def compareDecimal (lhs rhs : Bytes) : Int :=
  let lhsNeg : Bool := lhs.head? = some 45
  let rhsNeg : Bool := rhs.head? = some 45
  let signDiff : Int := lhsNeg.toNat - rhsNeg.toNat
  if signDiff ≠ 0 then if 0 < signDiff then -1 else 1
  else
    let lhsSep := findPoint lhs
    let rhsSep := findPoint rhs
    let intlenDiff := narrow (lhsSep - rhsSep)
    if intlenDiff ≠ 0 then if lhsNeg then -intlenDiff else intlenDiff
    else
      let intDiff := strncmp lhs rhs lhsSep.toNat
      if intDiff ≠ 0 then if lhsNeg then -intDiff else intDiff
      else
        let fracDiff :=
          StringManager.compare (lhs.drop lhsSep.toNat) (rhs.drop lhsSep.toNat)
        if fracDiff ≠ 0 then if lhsNeg then -fracDiff else fracDiff
        else 0

/-- A difference of ids that is kept as an `int64_t`. -/
def toInt64 (difference : UInt64) : Int := Int.bmod difference.toNat (2 ^ 64)

def compareDatetime (lhsId rhsId : UInt64) : Int :=
  let signMask := DateTime.signBit
  let signDiff := toInt64 ((lhsId &&& signMask) - (rhsId &&& signMask))
  if signDiff ≠ 0 then if 0 < signDiff then -1 else 1
  else
    let precisionMask := DateTime.precisionBit
    let precisionDiff := toInt64 ((lhsId &&& precisionMask) - (rhsId &&& precisionMask))
    let diff : Int :=
      if precisionDiff ≠ 0 then if 0 < precisionDiff then 1 else -1
      else
        let datetimeMask := 0x003FFFFFFFFFFFFF
        let datetimeDiff := toInt64 ((lhsId &&& datetimeMask) - (rhsId &&& datetimeMask))
        if 0 < datetimeDiff then 1 else -1
    if lhsId &&& signMask ≠ 0 then -diff else diff

def compareRdf (strings : RdfStrings) (lhs rhs : GraphObject) : Except String Int :=
  if lhs.type = rhs.type ∧ lhs.encodedValue = rhs.encodedValue then .ok 0
  else if lhs.type.complexType = rhs.type.complexType ∧ lhs.type.complexType ≠ .none then
    if lhs.type.complexType = .decimal then
      .ok (compareDecimal (lhs.decimalString strings) (rhs.decimalString strings))
    else do
      let lhsText ← lhs.iterator strings
      let rhsText ← rhs.iterator strings
      return StringManager.compare lhsText rhsText
  else if lhs.type = rhs.type then
    match lhs.type with
    | .nullObj => .ok 0
    | .notFound => .ok 0
    | .anon => .ok (narrow (lhs.encodedValue - rhs.encodedValue))
    | .bool => .ok ((lhs.getBool.toNat : Int) - rhs.getBool.toNat)
    | .datetime => .ok (compareDatetime lhs.encodedValue rhs.encodedValue)
    | _ => .error "Unmanaged case"
  else .ok (if lhs.type.number < rhs.type.number then -1 else 1)

inductive Literal
  | string (text : Bytes)
  | language (text tag : Bytes)
  | datatype (text tag : Bytes)
  | datetime (id : UInt64)
  | decimal (text : Bytes)
  | bool (b : Bool)
  deriving DecidableEq

def literal (strings : RdfStrings) (object : GraphObject) : Option Literal :=
  match object.type.complexType with
  | .string => some (.string (object.lexicalForm strings))
  | .literalLanguage => some (.language (object.lexicalForm strings) (object.tag strings))
  | .literalDatatype => some (.datatype (object.lexicalForm strings) (object.tag strings))
  | .decimal => some (.decimal (object.decimalString strings))
  | .iri => none
  | .none =>
    match object.type with
    | .datetime => some (.datetime object.encodedValue)
    | .bool => some (.bool object.getBool)
    | _ => none

/-- What `compare_rdf` assumes of the format of decimals: there is a point, in the first 2^31
characters, and no zero. -/
structure IsDecimalText (text : Bytes) : Prop where
  point : 46 ∈ text
  bounded : text.idxOf 46 < 2 ^ 31
  zero : 0 ∉ text

/-- An object of the RDF model.  The id of a date has seven bytes. -/
structure RdfObject (strings : RdfStrings) where
  object : GraphObject
  isRdf : object.type.isRdf = true
  datetime : object.type = .datetime → object.encodedValue.toNat < 2 ^ 56
  decimal : object.type.complexType = .decimal → IsDecimalText (object.decimalString strings)

def isNegative (text : Bytes) : Bool := text.head? = some 45

def magnitudeDiff (lhs rhs : Bytes) : Int :=
  if narrow (findPoint lhs - findPoint rhs) ≠ 0 then narrow (findPoint lhs - findPoint rhs)
  else if strncmp lhs rhs (findPoint lhs).toNat ≠ 0 then strncmp lhs rhs (findPoint lhs).toNat
  else StringManager.compare (lhs.drop (findPoint lhs).toNat) (rhs.drop (findPoint lhs).toNat)

def magnitude (text : Bytes) : Nat ×ₗ List Nat ×ₗ List Nat :=
  toLex (text.idxOf 46, toLex (StringManager.textKey (text.take (text.idxOf 46)),
    StringManager.textKey (text.drop (text.idxOf 46))))

section

variable {lhs rhs : Bytes}

theorem turned_eq (negative : Bool) (d e : Int) :
    (if d ≠ 0 then if negative then -d else d else if negative then -e else e) =
      if negative then -(if d ≠ 0 then d else e) else if d ≠ 0 then d else e := by
  cases negative with
  | false => rfl
  | true => exact (apply_ite Neg.neg _ _ _).symm

theorem turned_zero (negative : Bool) (d : Int) :
    (if d ≠ 0 then if negative then -d else d else 0) = if negative then -d else d := by
  by_cases hd : d = 0
  · simp [hd]
  · rw [if_pos hd]

theorem compareDecimal_eq : compareDecimal lhs rhs =
    if isNegative lhs = isNegative rhs then
      if isNegative lhs then -magnitudeDiff lhs rhs else magnitudeDiff lhs rhs
    else if isNegative lhs then -1 else 1 := by
  have hdiff : ∀ p q : Bool, ((p.toNat : Int) - q.toNat ≠ 0 ↔ p ≠ q) ∧
      (p ≠ q → (0 < (p.toNat : Int) - q.toNat ↔ p = true)) := by decide
  obtain ⟨hne, hpos⟩ := hdiff (isNegative lhs) (isNegative rhs)
  change (if ((isNegative lhs).toNat : Int) - (isNegative rhs).toNat ≠ 0 then
    if 0 < ((isNegative lhs).toNat : Int) - (isNegative rhs).toNat then (-1 : Int) else 1
    else _) = _
  by_cases hsign : isNegative lhs = isNegative rhs
  · rw [if_neg (mt hne.mp (not_not_intro hsign)), if_pos hsign, magnitudeDiff, ← turned_eq,
      ← turned_eq, ← turned_zero (isNegative lhs) (StringManager.compare _ _)]
    rfl
  · rw [if_pos (hne.mpr hsign), if_neg hsign]
    exact if_congr (hpos hsign) rfl rfl

theorem toNat_findPoint (h : IsDecimalText lhs) : (findPoint lhs).toNat = lhs.idxOf 46 := by
  have := h.bounded
  rw [findPoint, if_pos h.point, UInt64.toNat_ofNat']
  omega

theorem narrow_sub_eq (x y : UInt64) :
    narrow (x - y) = Int.bmod ((x.toNat : Int) - y.toNat) (2 ^ 32) := by
  have hx := x.toNat_lt
  have hy := y.toNat_lt
  unfold narrow
  rw [Int.bmod_def, Int.bmod_def, UInt64.toNat_sub]
  simp only [Nat.reducePow, Nat.cast_ofNat]
  omega

theorem narrow_sub {x y : UInt64} (hx : x.toNat < 2 ^ 31) (hy : y.toNat < 2 ^ 31) :
    narrow (x - y) = (x.toNat : Int) - y.toNat := by
  rw [narrow_sub_eq, Int.bmod_eq_of_le_mul_two (by omega) (by omega)]

/-- Where the lengths do not differ, the integer parts are compared, and then what follows. -/
theorem magnitudeDiff_of_zero {n : Nat} (h : narrow (findPoint lhs - findPoint rhs) = 0)
    (hn : (findPoint lhs).toNat = n) :
    (magnitudeDiff lhs rhs < 0 ↔
      StringManager.textKey (lhs.take n) < StringManager.textKey (rhs.take n) ∨
        StringManager.textKey (lhs.take n) = StringManager.textKey (rhs.take n) ∧
          StringManager.textKey (lhs.drop n) < StringManager.textKey (rhs.drop n)) ∧
    (0 < magnitudeDiff lhs rhs ↔
      StringManager.textKey (rhs.take n) < StringManager.textKey (lhs.take n) ∨
        StringManager.textKey (rhs.take n) = StringManager.textKey (lhs.take n) ∧
          StringManager.textKey (rhs.drop n) < StringManager.textKey (lhs.drop n)) := by
  rw [magnitudeDiff, h, hn, if_neg (not_not_intro rfl), strncmp]
  obtain ⟨hneg, hpos⟩ := StringManager.compare_iff (lhs.take n) (rhs.take n)
  have heqKey := Comparator.eq_zero_iff_of_sign (StringManager.compare_iff (lhs.take n) (rhs.take n))
  by_cases hint : StringManager.compare (lhs.take n) (rhs.take n) = 0
  · rw [if_neg (not_not_intro hint), heqKey.mp hint]
    simp only [lt_irrefl, false_or, true_and]
    exact StringManager.compare_iff _ _
  · have hne := mt heqKey.mpr hint
    rw [if_pos hint, hneg, hpos]
    simp [hne, Ne.symm hne]

theorem magnitudeDiff_iff (hl : IsDecimalText lhs) (hr : IsDecimalText rhs) :
    (magnitudeDiff lhs rhs < 0 ↔ magnitude lhs < magnitude rhs) ∧
      (0 < magnitudeDiff lhs rhs ↔ magnitude rhs < magnitude lhs) := by
  have hpoint : narrow (findPoint lhs - findPoint rhs) =
      (lhs.idxOf 46 : Int) - rhs.idxOf 46 := by
    rw [narrow_sub, toNat_findPoint hl, toNat_findPoint hr]
    · rw [toNat_findPoint hl]
      exact hl.bounded
    · rw [toNat_findPoint hr]
      exact hr.bounded
  simp only [magnitude, Prod.Lex.toLex_lt_toLex]
  by_cases hlen : lhs.idxOf 46 = rhs.idxOf 46
  · have hzero : narrow (findPoint lhs - findPoint rhs) = 0 := by omega
    obtain ⟨hneg, hpos⟩ := magnitudeDiff_of_zero hzero (toNat_findPoint hl)
    rw [hneg, hpos, ← hlen]
    simp only [lt_irrefl, false_or, true_and]
  · have hlen' : rhs.idxOf 46 ≠ lhs.idxOf 46 := Ne.symm hlen
    rw [magnitudeDiff, hpoint, if_pos (by omega)]
    simp only [hlen, hlen', false_and, or_false]
    omega

theorem magnitude_inj (hl : IsDecimalText lhs) (hr : IsDecimalText rhs)
    (h : magnitude lhs = magnitude rhs) : lhs = rhs := by
  simp only [magnitude, EmbeddingLike.apply_eq_iff_eq, Prod.mk.injEq] at h
  obtain ⟨hlen, htake, hdrop⟩ := h
  rw [StringManager.textKey_inj, cString_eq_self fun hmem => hl.zero (List.mem_of_mem_take hmem),
    cString_eq_self fun hmem => hr.zero (List.mem_of_mem_take hmem)] at htake
  rw [StringManager.textKey_inj, cString_eq_self fun hmem => hl.zero (List.mem_of_mem_drop hmem),
    cString_eq_self fun hmem => hr.zero (List.mem_of_mem_drop hmem)] at hdrop
  rw [← List.take_append_drop (lhs.idxOf 46) lhs, htake, hdrop, List.take_append_drop]

theorem compareDecimal_eq_zero (hl : IsDecimalText lhs) (hr : IsDecimalText rhs)
    (h : compareDecimal lhs rhs = 0) : lhs = rhs := by
  rw [compareDecimal_eq] at h
  apply magnitude_inj hl hr
  have hzero : magnitudeDiff lhs rhs = 0 := by
    split_ifs at h <;> omega
  exact (Comparator.eq_zero_iff_of_sign (magnitudeDiff_iff hl hr)).mp hzero

end

theorem totalPreorder_compareDecimal :
    Comparator.TotalPreorder compareDecimal { text | IsDecimalText text } := by
  have hmagnitude (p : Bool) : Comparator.TotalPreorder magnitudeDiff
      { text | text ∈ { text | IsDecimalText text } ∧ (!isNegative text) = p } := by
    apply @Comparator.Follows.totalPreorder _ _ _ _ magnitude
    constructor
    · exact fun a ha b hb => (magnitudeDiff_iff ha.1 hb.1).1
    · exact fun a ha b hb => (magnitudeDiff_iff ha.1 hb.1).2
  apply Comparator.TotalPreorder.of_groups fun text => !isNegative text
  · intro a _ b _ hne
    rw [compareDecimal_eq, if_neg fun h => hne (congrArg not h)]
    revert hne
    cases isNegative a <;> cases isNegative b <;> simp
  · intro p
    cases p with
    | false =>
      refine (hmagnitude false).neg.congr fun a ha b hb => ?_
      have hna : isNegative a = true := by simpa using ha.2
      have hnb : isNegative b = true := by simpa using hb.2
      rw [compareDecimal_eq, hna, hnb]
      simp
    | true =>
      refine (hmagnitude true).congr fun a ha b hb => ?_
      have hna : isNegative a = false := by simpa using ha.2
      have hnb : isNegative b = false := by simpa using hb.2
      rw [compareDecimal_eq, hna, hnb]
      simp

def datetimeKey (id : UInt64) : Int :=
  if id.toNat / 2 ^ 55 % 2 = 1 then -(id.toNat % 2 ^ 55 : Nat) - 1 else (id.toNat % 2 ^ 55 : Nat)

section

variable {x y : UInt64}

theorem toInt64_sub (hx : x.toNat < 2 ^ 63) (hy : y.toNat < 2 ^ 63) :
    toInt64 (x - y) = (x.toNat : Int) - y.toNat := by
  unfold toInt64
  rw [Int.bmod_def, UInt64.toNat_sub]
  simp only [Nat.reducePow, Nat.cast_ofNat]
  omega

theorem toNat_and_bit (x : UInt64) (i : Nat) (hi : i < 64) :
    (x &&& UInt64.ofNat (2 ^ i)).toNat = x.toNat / 2 ^ i % 2 * 2 ^ i := by
  have hlt : 2 ^ i < 2 ^ 64 := Nat.pow_lt_pow_right (by decide) hi
  rw [UInt64.toNat_and, UInt64.toNat_ofNat', Nat.mod_eq_of_lt hlt, Nat.and_two_pow,
    Nat.toNat_testBit]

theorem toNat_and_mask (x : UInt64) : (x &&& 0x003FFFFFFFFFFFFF).toNat = x.toNat % 2 ^ 54 := by
  rw [UInt64.toNat_and, ← Nat.and_two_pow_sub_one_eq_mod]
  rfl

theorem compareDatetime_ne_zero (x y : UInt64) : compareDatetime x y ≠ 0 := by
  simp only [compareDatetime]
  split_ifs <;> decide

theorem packed_date (hx : x.toNat < 2 ^ 56) :
    x.toNat = x.toNat / 2 ^ 55 % 2 * 2 ^ 55 + x.toNat % 2 ^ 55 ∧
      x.toNat % 2 ^ 55 = x.toNat / 2 ^ 54 % 2 * 2 ^ 54 + x.toNat % 2 ^ 54 := by
  omega

theorem compareDatetime_iff (hx : x.toNat < 2 ^ 56) (hy : y.toNat < 2 ^ 56) (hne : x ≠ y) :
    (compareDatetime x y < 0 ↔ datetimeKey x < datetimeKey y) ∧
      (0 < compareDatetime x y ↔ datetimeKey y < datetimeKey x) := by
  have hsignx : (x &&& DateTime.signBit).toNat = x.toNat / 2 ^ 55 % 2 * 2 ^ 55 :=
    toNat_and_bit x 55 (by decide)
  have hsigny : (y &&& DateTime.signBit).toNat = y.toNat / 2 ^ 55 % 2 * 2 ^ 55 :=
    toNat_and_bit y 55 (by decide)
  have hprecx : (x &&& DateTime.precisionBit).toNat = x.toNat / 2 ^ 54 % 2 * 2 ^ 54 :=
    toNat_and_bit x 54 (by decide)
  have hprecy : (y &&& DateTime.precisionBit).toNat = y.toNat / 2 ^ 54 % 2 * 2 ^ 54 :=
    toNat_and_bit y 54 (by decide)
  have hmaskx := toNat_and_mask x
  have hmasky := toNat_and_mask y
  have hne' : x.toNat ≠ y.toNat := fun h => hne (UInt64.toNat_inj.mp h)
  have hzero : x &&& DateTime.signBit ≠ 0 ↔ x.toNat / 2 ^ 55 % 2 = 1 := by
    rw [Ne, ← UInt64.toNat_inj, hsignx, UInt64.toNat_zero]
    omega
  simp only [compareDatetime, datetimeKey]
  rw [toInt64_sub (by omega) (by omega), toInt64_sub (by omega) (by omega),
    toInt64_sub (by omega) (by omega), hsignx, hsigny, hprecx, hprecy, hmaskx, hmasky]
  simp only [hzero]
  have hfieldsx := packed_date hx
  have hfieldsy := packed_date hy
  have hsx := Nat.mod_lt (x.toNat / 2 ^ 55) two_pos
  have hsy := Nat.mod_lt (y.toNat / 2 ^ 55) two_pos
  have hpx := Nat.mod_lt (x.toNat / 2 ^ 54) two_pos
  have hpy := Nat.mod_lt (y.toNat / 2 ^ 54) two_pos
  have hmx := Nat.mod_lt x.toNat (Nat.two_pow_pos 54)
  have hmy := Nat.mod_lt y.toNat (Nat.two_pow_pos 54)
  rw [hfieldsx.2, hfieldsy.2]
  rw [hfieldsx.1, hfieldsy.1, hfieldsx.2, hfieldsy.2] at hne'
  clear hx hy hsignx hsigny hprecx hprecy hmaskx hmasky hzero hfieldsx hfieldsy
  -- only the bounds of the fields matter from here on
  generalize x.toNat / 2 ^ 55 % 2 = sx at hsx hne' ⊢
  generalize y.toNat / 2 ^ 55 % 2 = sy at hsy hne' ⊢
  generalize x.toNat / 2 ^ 54 % 2 = px at hpx hne' ⊢
  generalize y.toNat / 2 ^ 54 % 2 = py at hpy hne' ⊢
  generalize x.toNat % 2 ^ 54 = mx at hmx hne' ⊢
  generalize y.toNat % 2 ^ 54 = my at hmy hne' ⊢
  split_ifs <;> omega

end

/-- Types that are compared with each other, named by the first of them. -/
def rdfGroup (type : GraphObjectType) : Nat :=
  match type.complexType with
  | .iri => GraphObjectType.iriInlined.number
  | .string => GraphObjectType.strInlined.number
  | .literalLanguage => GraphObjectType.literalLanguageInlined.number
  | .literalDatatype => GraphObjectType.literalDatatypeInlined.number
  | .decimal => GraphObjectType.decimalInlined.number
  | .none => type.number

set_option maxRecDepth 10000 in
theorem rdfGroup_cases : ∀ t ∈ GraphObjectType.all, ∀ u ∈ GraphObjectType.all, t.isRdf → u.isRdf →
    (rdfGroup t = rdfGroup u ↔ t.complexType = u.complexType ∧ t.complexType ≠ .none ∨ t = u) ∧
      (rdfGroup t ≠ rdfGroup u → (t.number < u.number ↔ rdfGroup t < rdfGroup u)) := by
  decide +kernel

section

variable {strings : RdfStrings} {a b : RdfObject strings} {s : Set (RdfObject strings)}

theorem rdfGroup_eq_iff : rdfGroup a.object.type = rdfGroup b.object.type ↔
    a.object.type.complexType = b.object.type.complexType ∧ a.object.type.complexType ≠ .none ∨
      a.object.type = b.object.type :=
  (rdfGroup_cases _ (GraphObjectType.mem_all _) _ (GraphObjectType.mem_all _) a.isRdf b.isRdf).1

theorem compareRdf_of_group (h : rdfGroup a.object.type ≠ rdfGroup b.object.type) :
    compareRdf strings a.object b.object =
      .ok (if rdfGroup a.object.type < rdfGroup b.object.type then -1 else 1) := by
  have hiff := (rdfGroup_cases _ (GraphObjectType.mem_all _) _ (GraphObjectType.mem_all _)
    a.isRdf b.isRdf).2 h
  have htype : a.object.type ≠ b.object.type := fun heq => h (rdfGroup_eq_iff.mpr (.inr heq))
  have hcomplex := fun hc => h (rdfGroup_eq_iff.mpr (.inl hc))
  rw [compareRdf, if_neg fun hsame => htype hsame.1, if_neg hcomplex, if_neg htype]
  simp only [hiff]

theorem compareRdf_self (object : GraphObject) : compareRdf strings object object = .ok 0 := by
  rw [compareRdf, if_pos ⟨rfl, rfl⟩]

theorem compareDecimal_self (text : Bytes) : compareDecimal text text = 0 := by
  have hmagnitude : magnitudeDiff text text = 0 := by
    rw [magnitudeDiff, narrow_self, strncmp, compare_text_self, compare_text_self]
    rfl
  rw [compareDecimal_eq, if_pos rfl, hmagnitude]
  simp

theorem compareRdf_decimal {lhs rhs : GraphObject} (h : lhs.type.complexType = rhs.type.complexType)
    (hl : lhs.type.complexType = .decimal) : compareRdf strings lhs rhs =
      .ok (compareDecimal (lhs.decimalString strings) (rhs.decimalString strings)) := by
  by_cases hsame : lhs.type = rhs.type ∧ lhs.encodedValue = rhs.encodedValue
  · rw [GraphObject.ext hsame.2 hsame.1, compareRdf_self, compareDecimal_self]
  · rw [compareRdf, if_neg hsame, if_pos ⟨h, by rw [hl]; decide⟩, if_pos hl]

def isStream (type : GraphObjectType) : Bool :=
  type.complexType ≠ .none ∧ type.complexType ≠ .decimal

theorem isStream_of_isDangling (type : GraphObjectType) (h : type.isDangling) : isStream type := by
  revert h
  cases type <;> decide

theorem isStream_of_mem (type : GraphObjectType)
    (h : type.complexType ∈ [SparqlComplexType.string, .literalLanguage, .literalDatatype]) :
    isStream type := by
  revert h
  cases type <;> decide

theorem literal_isSome {object : GraphObject}
    (h : object.type.complexType ∈ [SparqlComplexType.string, .literalLanguage, .literalDatatype]) :
    (literal strings object).isSome := by
  rw [literal]
  cases hcomplex : object.type.complexType
  all_goals first
    | rfl
    | rw [hcomplex] at h
      exact absurd h (by decide)

theorem compareRdf_stream (h : a.object.type.complexType = b.object.type.complexType)
    (ha : isStream a.object.type)
    (hlive : a.object = b.object ∨ ¬ a.object.type.isDangling ∧ ¬ b.object.type.isDangling) :
    compareRdf strings a.object b.object =
      .ok (StringManager.compare (a.object.stream strings) (b.object.stream strings)) := by
  have hcomplex : a.object.type.complexType ≠ .none ∧ a.object.type.complexType ≠ .decimal := by
    simpa [isStream] using ha
  by_cases hsame : a.object.type = b.object.type ∧ a.object.encodedValue = b.object.encodedValue
  · rw [GraphObject.ext hsame.2 hsame.1, compareRdf_self, compare_text_self]
  · have hdangling := hlive.resolve_left fun heq => hsame ⟨by rw [heq], by rw [heq]⟩
    rw [compareRdf, if_neg hsame, if_pos ⟨h, hcomplex.1⟩, if_neg hcomplex.2,
      GraphObject.iterator, GraphObject.iterator, if_neg hdangling.1, if_neg hdangling.2]
    rfl

theorem compareRdf_dangling (h : a.object.type.complexType = b.object.type.complexType)
    (ha : isStream a.object.type) (hne : a.object ≠ b.object)
    (hdangling : a.object.type.isDangling ∨ b.object.type.isDangling) :
    compareRdf strings a.object b.object = .error "dangling iterator" := by
  have hcomplex : a.object.type.complexType ≠ .none ∧ a.object.type.complexType ≠ .decimal := by
    simpa [isStream] using ha
  rw [compareRdf, if_neg fun hsame => hne (GraphObject.ext hsame.2 hsame.1),
    if_pos ⟨h, hcomplex.1⟩, if_neg hcomplex.2, GraphObject.iterator, GraphObject.iterator]
  by_cases hda : a.object.type.isDangling
  · rw [if_pos hda]
    rfl
  · rw [if_neg hda, if_pos (hdangling.resolve_left hda)]
    rfl

theorem compareRdf_anon (ha : a.object.type = .anon) (hb : b.object.type = .anon) :
    compareRdf strings a.object b.object =
      .ok (narrow (a.object.encodedValue - b.object.encodedValue)) := by
  by_cases hsame : a.object.encodedValue = b.object.encodedValue
  · rw [GraphObject.ext hsame (ha.trans hb.symm), compareRdf_self, narrow_self]
  · rw [compareRdf, if_neg fun h => hsame h.2, ha, hb]
    rfl

theorem compareRdf_bool (ha : a.object.type = .bool) (hb : b.object.type = .bool) :
    compareRdf strings a.object b.object =
      .ok ((a.object.getBool.toNat : Int) - b.object.getBool.toNat) := by
  by_cases hsame : a.object.encodedValue = b.object.encodedValue
  · rw [GraphObject.ext hsame (ha.trans hb.symm), compareRdf_self, Int.sub_self]
  · rw [compareRdf, if_neg fun h => hsame h.2, ha, hb]
    rfl

theorem compareRdf_datetime {lhs rhs : GraphObject} (hl : lhs.type = .datetime)
    (hr : rhs.type = .datetime) (hne : lhs.encodedValue ≠ rhs.encodedValue) :
    compareRdf strings lhs rhs = .ok (compareDatetime lhs.encodedValue rhs.encodedValue) := by
  rw [compareRdf, if_neg fun h => hne h.2, hl, hr]
  rfl

theorem compareRdf_null (h : a.object.type = b.object.type)
    (ha : a.object.type = .nullObj ∨ a.object.type = .notFound) :
    compareRdf strings a.object b.object = .ok 0 := by
  by_cases hsame : a.object.encodedValue = b.object.encodedValue
  · rw [GraphObject.ext hsame h, compareRdf_self]
  · rw [compareRdf, if_neg fun h => hsame h.2, ← h]
    rcases ha with ha | ha
    · rw [ha]
      rfl
    · rw [ha]
      rfl

end

section

variable {strings : RdfStrings}

/-- A comparator is a total preorder of terms in which only the same literals are equal. -/
structure OrdersTerms (s : Set (RdfObject strings))
    (cmp : RdfObject strings → RdfObject strings → Int) : Prop where
  preorder : Comparator.TotalPreorder cmp s
  literals : ∀ a ∈ s, ∀ b ∈ s, (literal strings a.object).isSome →
    (literal strings b.object).isSome → cmp a b = 0 →
      literal strings a.object = literal strings b.object

/-- The terms that `compare_rdf` can tell apart. -/
structure TameTerms (s : Set (RdfObject strings)) : Prop where
  /-- An inlined IRI is the only IRI, and an inlined or temporary literal with a language (a
  datatype) is the only literal with one. -/
  dangling : ∀ a ∈ s, ∀ b ∈ s, a.object.type.complexType = b.object.type.complexType →
    a.object.type.isDangling → a.object = b.object
  /-- The ids of two blank nodes do not differ by 2^31 in 32 bits. -/
  opposite : ∀ a ∈ s, ∀ b ∈ s, a.object.type = .anon → b.object.type = .anon →
    (b.object.encodedValue - a.object.encodedValue).toNat % 2 ^ 32 ≠ 2 ^ 31
  /-- The ids of three blank nodes do not go around the 32 bits. -/
  around : ∀ a ∈ s, ∀ b ∈ s, ∀ c ∈ s, a.object.type = .anon → b.object.type = .anon →
    c.object.type = .anon →
      (b.object.encodedValue - a.object.encodedValue).toNat % 2 ^ 32 < 2 ^ 31 →
      (c.object.encodedValue - b.object.encodedValue).toNat % 2 ^ 32 < 2 ^ 31 →
      (b.object.encodedValue - a.object.encodedValue).toNat % 2 ^ 32 +
        (c.object.encodedValue - b.object.encodedValue).toNat % 2 ^ 32 < 2 ^ 31
  /-- Literals with the same stream of characters are the same. -/
  streams : ∀ a ∈ s, ∀ b ∈ s, a.object.type.complexType = b.object.type.complexType →
    a.object.type.complexType ∈ [SparqlComplexType.string, .literalLanguage, .literalDatatype] →
      cString (a.object.stream strings) = cString (b.object.stream strings) →
        literal strings a.object = literal strings b.object

/-- The result of `compare_rdf`, where it has one. -/
def comparisonRdf (a b : RdfObject strings) : Int :=
  match compareRdf strings a.object b.object with
  | .ok result => result
  | .error _ => 0

variable {s : Set (RdfObject strings)} {a b a₀ : RdfObject strings}

theorem comparisonRdf_eq {result : Int}
    (h : compareRdf strings a.object b.object = .ok result) : comparisonRdf a b = result := by
  rw [comparisonRdf, h]

theorem rdf_cases (a : RdfObject strings) : a.object.type.complexType = .decimal ∨
    isStream a.object.type ∨ a.object.type.complexType = .none ∧
      ((a.object.type = .nullObj ∨ a.object.type = .notFound) ∨ a.object.type = .anon ∨
        a.object.type = .datetime ∨ a.object.type = .bool) := by
  have h := a.isRdf
  cases hcases : a.object.type <;>
    simp_all [GraphObjectType.isRdf, GraphObjectType.complexType, isStream]

theorem complexType_congr (h : rdfGroup a.object.type = rdfGroup b.object.type) :
    a.object.type.complexType = b.object.type.complexType := by
  rcases rdfGroup_eq_iff.mp h with hcomplex | heq
  · exact hcomplex.1
  · rw [heq]

theorem type_congr (h : rdfGroup a.object.type = rdfGroup b.object.type)
    (hnone : a.object.type.complexType = .none) : a.object.type = b.object.type := by
  rcases rdfGroup_eq_iff.mp h with hcomplex | heq
  · exact absurd hnone hcomplex.2
  · exact heq

theorem TameTerms.live (h : TameTerms s) (ha : a ∈ s) (hb : b ∈ s)
    (hcomplex : a.object.type.complexType = b.object.type.complexType) :
    a.object = b.object ∨ ¬ a.object.type.isDangling ∧ ¬ b.object.type.isDangling := by
  by_cases hda : a.object.type.isDangling
  · exact .inl (h.dangling a ha b hb hcomplex hda)
  · by_cases hdb : b.object.type.isDangling
    · exact .inl (h.dangling b hb a ha hcomplex.symm hdb).symm
    · exact .inr ⟨hda, hdb⟩

/-- On tame terms `compare_rdf` always has a result. -/
theorem TameTerms.compareRdf_eq (h : TameTerms s) (ha : a ∈ s) (hb : b ∈ s) :
    compareRdf strings a.object b.object = .ok (comparisonRdf a b) := by
  have hresult : ∃ result, compareRdf strings a.object b.object = .ok result := by
    by_cases hgroup : rdfGroup a.object.type = rdfGroup b.object.type
    · have hcomplex := complexType_congr hgroup
      rcases rdf_cases a with hdecimal | hstream | ⟨hnone, hnull | hanon | hdate | hbool⟩
      · exact ⟨_, compareRdf_decimal hcomplex hdecimal⟩
      · exact ⟨_, compareRdf_stream hcomplex hstream (h.live ha hb hcomplex)⟩
      · exact ⟨_, compareRdf_null (type_congr hgroup hnone) hnull⟩
      · exact ⟨_, compareRdf_anon hanon (type_congr hgroup hnone ▸ hanon)⟩
      · have hdate' : b.object.type = .datetime := type_congr hgroup hnone ▸ hdate
        by_cases hsame : a.object.encodedValue = b.object.encodedValue
        · rw [GraphObject.ext hsame (hdate.trans hdate'.symm)]
          exact ⟨0, compareRdf_self _⟩
        · exact ⟨_, compareRdf_datetime hdate hdate' hsame⟩
      · exact ⟨_, compareRdf_bool hbool (type_congr hgroup hnone ▸ hbool)⟩
    · exact ⟨_, compareRdf_of_group hgroup⟩
  obtain ⟨result, hresult⟩ := hresult
  rw [hresult, comparisonRdf_eq hresult]

theorem comparisonRdf_datetime (ha : a.object.type = .datetime) (hb : b.object.type = .datetime) :
    (comparisonRdf a b < 0 ↔
      datetimeKey a.object.encodedValue < datetimeKey b.object.encodedValue) ∧
    (0 < comparisonRdf a b ↔
      datetimeKey b.object.encodedValue < datetimeKey a.object.encodedValue) := by
  by_cases hsame : a.object.encodedValue = b.object.encodedValue
  · have hself : comparisonRdf a b = 0 := by
      rw [comparisonRdf, GraphObject.ext hsame (ha.trans hb.symm), compareRdf_self]
    rw [hself, hsame]
    simp
  · rw [comparisonRdf_eq (compareRdf_datetime ha hb hsame)]
    exact compareDatetime_iff (a.datetime ha) (b.datetime hb) hsame

theorem mod_sub_add (x y z : UInt64) : (z - x).toNat % 2 ^ 32 =
    ((y - x).toNat % 2 ^ 32 + (z - y).toNat % 2 ^ 32) % 2 ^ 32 := by
  have := x.toNat_lt
  have := y.toNat_lt
  have := z.toNat_lt
  rw [UInt64.toNat_sub, UInt64.toNat_sub, UInt64.toNat_sub]
  omega

theorem TameTerms.anon (h : TameTerms s) (t : Set (RdfObject strings))
    (ht : ∀ a ∈ t, a ∈ s ∧ a.object.type = .anon) : Comparator.TotalPreorder comparisonRdf t := by
  have hle : ∀ a ∈ t, ∀ b ∈ t, comparisonRdf a b ≤ 0 ↔
      (b.object.encodedValue - a.object.encodedValue).toNat % 2 ^ 32 < 2 ^ 31 := by
    intro a ha b hb
    rw [comparisonRdf_eq (compareRdf_anon (ht a ha).2 (ht b hb).2)]
    have hpos := narrow_pos_iff (a.object.encodedValue - b.object.encodedValue)
    have hcomm := mod_sub_comm a.object.encodedValue b.object.encodedValue
    have hne := h.opposite a (ht a ha).1 b (ht b hb).1 (ht a ha).2 (ht b hb).2
    omega
  constructor
  · intro a ha b hb
    rw [comparisonRdf_eq (compareRdf_anon (ht a ha).2 (ht b hb).2),
      comparisonRdf_eq (compareRdf_anon (ht b hb).2 (ht a ha).2)]
    have hne := h.opposite a (ht a ha).1 b (ht b hb).1 (ht a ha).2 (ht b hb).2
    have hcomm := mod_sub_comm a.object.encodedValue b.object.encodedValue
    have hneg := narrow_neg_iff (a.object.encodedValue - b.object.encodedValue)
    have hneg' := narrow_neg_iff (b.object.encodedValue - a.object.encodedValue)
    have hpos := narrow_pos_iff (a.object.encodedValue - b.object.encodedValue)
    have hpos' := narrow_pos_iff (b.object.encodedValue - a.object.encodedValue)
    rcases Int.lt_trichotomy (narrow (a.object.encodedValue - b.object.encodedValue)) 0
      with hlt | heq | hgt
    · rw [Int.sign_eq_neg_one_of_neg hlt, Int.sign_eq_one_of_pos (by omega)]
    · rw [heq, show narrow (b.object.encodedValue - a.object.encodedValue) = 0 by omega]
      rfl
    · rw [Int.sign_eq_one_of_pos hgt, Int.sign_eq_neg_one_of_neg (by omega)]
      rfl
  · intro a ha b hb c hc hab hbc
    rw [hle a ha b hb] at hab
    rw [hle b hb c hc] at hbc
    rw [hle a ha c hc, mod_sub_add _ b.object.encodedValue]
    have := h.around a (ht a ha).1 b (ht b hb).1 c (ht c hc).1 (ht a ha).2 (ht b hb).2
      (ht c hc).2 hab hbc
    omega
  · intro a ha b hb
    rw [hle a ha b hb, hle b hb a ha]
    have hcomm := mod_sub_comm a.object.encodedValue b.object.encodedValue
    have hne := h.opposite a (ht a ha).1 b (ht b hb).1 (ht a ha).2 (ht b hb).2
    omega

theorem follows_compare : Comparator.Follows StringManager.compare StringManager.textKey Set.univ where
  neg lhs _ rhs _ := (StringManager.compare_iff lhs rhs).1
  pos lhs _ rhs _ := (StringManager.compare_iff lhs rhs).2

theorem TameTerms.totalPreorder_group (h : TameTerms s) (g : Nat) :
    Comparator.TotalPreorder comparisonRdf { a | a ∈ s ∧ rdfGroup a.object.type = g } := by
  by_cases hempty : ∃ a₀ : RdfObject strings, a₀ ∈ s ∧ rdfGroup a₀.object.type = g
  · obtain ⟨a₀, -, rfl⟩ := hempty
    have hcomplex : ∀ a ∈ { a | a ∈ s ∧ rdfGroup a.object.type = rdfGroup a₀.object.type },
        a.object.type.complexType = a₀.object.type.complexType :=
      fun a ha => complexType_congr ha.2
    rcases rdf_cases a₀ with hdecimal | hstream | ⟨hnone, hkind⟩
    · refine (totalPreorder_compareDecimal.comap
        (f := fun a : RdfObject strings => a.object.decimalString strings) ?_).congr ?_
      · exact fun a ha => a.decimal ((hcomplex a ha).trans hdecimal)
      · intro a ha b hb
        exact comparisonRdf_eq (compareRdf_decimal ((hcomplex a ha).trans (hcomplex b hb).symm)
          ((hcomplex a ha).trans hdecimal))
    · refine (follows_compare.totalPreorder.comap
        (f := fun a : RdfObject strings => a.object.stream strings) (fun _ _ => trivial)).congr ?_
      intro a ha b hb
      have hab := (hcomplex a ha).trans (hcomplex b hb).symm
      refine comparisonRdf_eq (compareRdf_stream hab ?_ (h.live ha.1 hb.1 hab))
      rw [isStream, hcomplex a ha]
      exact hstream
    · have htype : ∀ a ∈ { a | a ∈ s ∧ rdfGroup a.object.type = rdfGroup a₀.object.type },
          a.object.type = a₀.object.type :=
        fun a ha => (type_congr ha.2.symm hnone).symm
      rcases hkind with hnull | hanon | hdate | hbool
      · apply @Comparator.Follows.totalPreorder _ _ _ _ fun _ => (0 : Nat)
        have hzero : ∀ a ∈ { a | a ∈ s ∧ rdfGroup a.object.type = rdfGroup a₀.object.type },
            ∀ b ∈ { a | a ∈ s ∧ rdfGroup a.object.type = rdfGroup a₀.object.type },
              comparisonRdf a b = 0 := fun a ha b hb => comparisonRdf_eq
          (compareRdf_null ((htype a ha).trans (htype b hb).symm) ((htype a ha).symm ▸ hnull))
        constructor
        · intro a ha b hb
          simp [hzero a ha b hb]
        · intro a ha b hb
          simp [hzero a ha b hb]
      · exact h.anon _ fun a ha => ⟨ha.1, (htype a ha).trans hanon⟩
      · apply @Comparator.Follows.totalPreorder _ _ _ _ fun a => datetimeKey a.object.encodedValue
        constructor
        · exact fun a ha b hb => (comparisonRdf_datetime ((htype a ha).trans hdate)
            ((htype b hb).trans hdate)).1
        · exact fun a ha b hb => (comparisonRdf_datetime ((htype a ha).trans hdate)
            ((htype b hb).trans hdate)).2
      · apply @Comparator.Follows.totalPreorder _ _ _ _ fun a => a.object.getBool.toNat
        constructor
        · intro a ha b hb
          rw [comparisonRdf_eq (compareRdf_bool ((htype a ha).trans hbool)
            ((htype b hb).trans hbool))]
          omega
        · intro a ha b hb
          rw [comparisonRdf_eq (compareRdf_bool ((htype a ha).trans hbool)
            ((htype b hb).trans hbool))]
          omega
  · have hnone : ∀ a : RdfObject strings,
        ¬ a ∈ { a | a ∈ s ∧ rdfGroup a.object.type = g } := fun a ha => hempty ⟨a, ha⟩
    constructor
    · exact fun a ha => absurd ha (hnone a)
    · exact fun a ha => absurd ha (hnone a)
    · exact fun a ha => absurd ha (hnone a)

theorem TameTerms.totalPreorder (h : TameTerms s) : Comparator.TotalPreorder comparisonRdf s := by
  apply Comparator.TotalPreorder.of_groups fun a : RdfObject strings => rdfGroup a.object.type
  · intro a _ b _ hne
    rw [comparisonRdf_eq (compareRdf_of_group hne)]
    split_ifs with hlt
    · simp [hlt, hlt.le]
    · simp [hlt, lt_of_le_of_ne (not_lt.mp hlt) (Ne.symm hne)]
  · exact h.totalPreorder_group

theorem TameTerms.literal_eq (h : TameTerms s) (ha : a ∈ s) (hb : b ∈ s)
    (hla : (literal strings a.object).isSome) (hzero : comparisonRdf a b = 0) :
    literal strings a.object = literal strings b.object := by
  have hgroup : rdfGroup a.object.type = rdfGroup b.object.type := by
    by_contra hne
    rw [comparisonRdf_eq (compareRdf_of_group hne)] at hzero
    split_ifs at hzero
    all_goals omega
  have hcomplex := complexType_congr hgroup
  rcases rdf_cases a with hdecimal | hstream | ⟨hnone, hkind⟩
  · rw [comparisonRdf_eq (compareRdf_decimal hcomplex hdecimal)] at hzero
    have htext := compareDecimal_eq_zero (a.decimal hdecimal) (b.decimal (hcomplex ▸ hdecimal)) hzero
    rw [literal, literal, ← hcomplex, hdecimal, htext]
  · rw [comparisonRdf_eq (compareRdf_stream hcomplex hstream (h.live ha hb hcomplex))] at hzero
    apply h.streams a ha b hb hcomplex
    · rw [literal] at hla
      rw [isStream] at hstream
      clear hcomplex hgroup
      generalize a.object.type.complexType = complexType at hla hstream ⊢
      cases complexType <;> simp_all
    · exact (StringManager.compare_eq_zero_iff _ _).mp hzero
  · have htype := type_congr hgroup hnone
    rcases hkind with hnull | hanon | hdate | hbool
    · rcases hnull with hnull | hnull <;> simp [literal, hnull, GraphObjectType.complexType] at hla
    · simp [literal, hanon, GraphObjectType.complexType] at hla
    · have hsame : a.object.encodedValue = b.object.encodedValue := by
        by_contra hne
        rw [comparisonRdf_eq (compareRdf_datetime hdate (htype ▸ hdate) hne)] at hzero
        exact compareDatetime_ne_zero _ _ hzero
      rw [GraphObject.ext hsame htype]
    · rw [comparisonRdf_eq (compareRdf_bool hbool (htype ▸ hbool))] at hzero
      have hsame : ∀ p q : Bool, (p.toNat : Int) - q.toNat = 0 → p = q := by decide
      rw [literal, literal, ← hcomplex, hnone, ← htype, hbool, hsame _ _ hzero]

/-- `compare_rdf` orders a set of terms exactly if they are tame. -/
theorem ordersTerms_iff (s : Set (RdfObject strings)) :
    (∃ cmp : RdfObject strings → RdfObject strings → Int,
      (∀ a ∈ s, ∀ b ∈ s, compareRdf strings a.object b.object = .ok (cmp a b)) ∧
        OrdersTerms s cmp) ↔ TameTerms s := by
  constructor
  · intro ⟨cmp, hcmp, horders⟩
    have hanon : ∀ a ∈ s, ∀ b ∈ s, a.object.type = .anon → b.object.type = .anon →
        cmp a b = narrow (a.object.encodedValue - b.object.encodedValue) := by
      intro a ha b hb hta htb
      exact Except.ok.inj ((hcmp a ha b hb).symm.trans (compareRdf_anon hta htb))
    have hopposite : ∀ a ∈ s, ∀ b ∈ s, a.object.type = .anon → b.object.type = .anon →
        (b.object.encodedValue - a.object.encodedValue).toNat % 2 ^ 32 ≠ 2 ^ 31 := by
      intro a ha b hb hta htb hhalf
      -- both differences are -2^31
      have hsign := horders.preorder.antisymm a ha b hb
      have hcomm := mod_sub_comm a.object.encodedValue b.object.encodedValue
      rw [hanon a ha b hb hta htb, hanon b hb a ha htb hta,
        Int.sign_eq_neg_one_of_neg ((narrow_neg_iff _).mpr (by omega)),
        Int.sign_eq_neg_one_of_neg ((narrow_neg_iff _).mpr (by omega))] at hsign
      omega
    have hle : ∀ a ∈ s, ∀ b ∈ s, a.object.type = .anon → b.object.type = .anon →
        (cmp a b ≤ 0 ↔
          (b.object.encodedValue - a.object.encodedValue).toNat % 2 ^ 32 < 2 ^ 31) := by
      intro a ha b hb hta htb
      rw [hanon a ha b hb hta htb]
      have hpos := narrow_pos_iff (a.object.encodedValue - b.object.encodedValue)
      have hcomm := mod_sub_comm a.object.encodedValue b.object.encodedValue
      have hne := hopposite a ha b hb hta htb
      omega
    constructor
    · intro a ha b hb hcomplex hdangling
      by_contra hne
      have hstream := isStream_of_isDangling _ hdangling
      have herror := compareRdf_dangling hcomplex hstream hne (.inl hdangling)
      rw [hcmp a ha b hb] at herror
      cases herror
    · exact hopposite
    · intro a ha b hb c hc hta htb htc hab hbc
      have hac := horders.preorder.trans a ha b hb c hc ((hle a ha b hb hta htb).mpr hab)
        ((hle b hb c hc htb htc).mpr hbc)
      rw [hle a ha c hc hta htc, mod_sub_add _ b.object.encodedValue] at hac
      omega
    · intro a ha b hb hcomplex hmem hsame
      have hstream : isStream a.object.type := isStream_of_mem _ hmem
      have hlive : a.object = b.object ∨
          ¬ a.object.type.isDangling ∧ ¬ b.object.type.isDangling := by
        by_contra hnot
        rw [not_or] at hnot
        have hdangling : a.object.type.isDangling ∨ b.object.type.isDangling := by tauto
        have herror := compareRdf_dangling hcomplex hstream hnot.1 hdangling
        rw [hcmp a ha b hb] at herror
        cases herror
      apply horders.literals a ha b hb (literal_isSome hmem) (literal_isSome (hcomplex ▸ hmem))
      have hcompare := compareRdf_stream hcomplex hstream hlive
      rw [hcmp a ha b hb] at hcompare
      rw [Except.ok.inj hcompare]
      exact (StringManager.compare_eq_zero_iff _ _).mpr hsame
  · intro h
    refine ⟨comparisonRdf, fun a ha b hb => h.compareRdf_eq ha hb, h.totalPreorder, ?_⟩
    intro a ha b hb hla _ hzero
    exact h.literal_eq ha hb hla hzero

end

def twoLanguages : RdfStrings where
  external id :=
    if id = 0 then [108, 101, 116, 116, 101, 114] else [108, 101, 116, 116, 101, 114, 101]
  tmp _ := []
  prefixes := []
  datatypes := []
  languages := [[101, 110], [110]]
  tmpLiteral _ := ([], [])

def languageLiteral (encodedValue : UInt64) : RdfObject twoLanguages where
  object := ⟨encodedValue, .literalLanguageExternal⟩
  isRdf := rfl
  datetime h := by cases h
  decimal h := by cases h

/-- "letter"@en and "lettere"@n compare as equal. -/
theorem not_ordersTerms : ¬ ∀ (strings : RdfStrings) (s : Set (RdfObject strings)),
    ∃ cmp : RdfObject strings → RdfObject strings → Int,
      (∀ a ∈ s, ∀ b ∈ s, compareRdf strings a.object b.object = .ok (cmp a b)) ∧
        OrdersTerms s cmp := by
  intro h
  let s : Set (RdfObject twoLanguages) := {languageLiteral 0, languageLiteral 0x10000000001}
  obtain ⟨cmp, hcmp, horders⟩ := h twoLanguages s
  have hfirst : languageLiteral 0 ∈ s := .inl rfl
  have hsecond : languageLiteral 0x10000000001 ∈ s := .inr rfl
  have hzero : compareRdf twoLanguages (languageLiteral 0).object
      (languageLiteral 0x10000000001).object = .ok 0 := by decide +kernel
  have hsame := Except.ok.inj ((hcmp _ hfirst _ hsecond).symm.trans hzero)
  have hliteral := horders.literals _ hfirst _ hsecond rfl rfl hsame
  exact absurd hliteral (by decide +kernel)

end GraphObjectManager
end MillenniumDB
