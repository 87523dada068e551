import MillenniumDB.Lib.Comparators
import MillenniumDB.Lib.Doubles
import MillenniumDB.RdfTerms
import Mathlib.Data.List.Lex
import Mathlib.Data.Prod.Lex

/-!
# Graph objects and their order

A graph object is a type with eight bytes.  `compare` orders strings by their texts, numbers as
doubles and everything else by its type first.
-/

namespace MillenniumDB

inductive GraphObjectType
  | nullObj | notFound | anon
  | iriInlined | iriExternal | iriTmp
  | strInlined | strExternal | strTmp
  | literalLanguageInlined | literalLanguageExternal | literalLanguageTmp
  | literalDatatypeInlined | literalDatatypeExternal | literalDatatypeTmp
  | datetime
  | decimalInlined | decimalExternal | decimalTmp
  | namedInlined | namedExternal | namedTmp
  | edge | path | bool | int | float
  deriving DecidableEq

namespace GraphObjectType

def all : List GraphObjectType :=
  [nullObj, notFound, anon, iriInlined, iriExternal, iriTmp, strInlined, strExternal, strTmp,
    literalLanguageInlined, literalLanguageExternal, literalLanguageTmp, literalDatatypeInlined,
    literalDatatypeExternal, literalDatatypeTmp, datetime, decimalInlined, decimalExternal,
    decimalTmp, namedInlined, namedExternal, namedTmp, edge, path, bool, int, float]

theorem mem_all (type : GraphObjectType) : type ∈ all := by
  cases type <;> decide

def number (type : GraphObjectType) : Nat := all.idxOf type

def isString : GraphObjectType → Bool
  | strInlined | strExternal | strTmp | namedInlined | namedExternal | namedTmp => true
  | _ => false

def isNumeric : GraphObjectType → Bool
  | int | float => true
  | _ => false

def isQuad : GraphObjectType → Bool
  | nullObj | notFound | anon | edge | path | bool => true
  | type => type.isString || type.isNumeric

end GraphObjectType

@[ext]
structure GraphObject where
  encodedValue : UInt64
  type : GraphObjectType
  deriving DecidableEq

/-- Where the texts of objects are: the string manager, and the strings that queries make. -/
structure Strings where
  external : UInt64 → Bytes
  tmp : UInt64 → Bytes

namespace GraphObject

def inlinedText (size : Nat) (encodedValue : UInt64) : Bytes :=
  cString ((List.range size).map fun i => (encodedValue >>> (8 * i).toUInt64).toUInt8)

def text (strings : Strings) (object : GraphObject) : Bytes :=
  match object.type with
  | .strInlined | .namedInlined => inlinedText 8 object.encodedValue
  | .strExternal | .namedExternal => strings.external object.encodedValue
  | .strTmp | .namedTmp => strings.tmp object.encodedValue
  | _ => []

/-- `get<int64_t>`. -/
def getInt (object : GraphObject) : Int := Int.bmod object.encodedValue.toNat (2 ^ 64)

/-- `get<float>`, the lower half of the union. -/
def getFloat (object : GraphObject) : Double :=
  .ofFloatBits (object.encodedValue.toNat % 2 ^ 32)

/-- `get<bool>`, the lowest byte of the union. -/
def getBool (object : GraphObject) : Bool := object.encodedValue.toNat % 2 ^ 8 ≠ 0

def numeric (object : GraphObject) : Double :=
  if object.type = .int then .ofInt object.getInt else object.getFloat

end GraphObject

/-- `StringManager::compare`, of iterators that end with a zero. -/
def StringManager.compare : Bytes → Bytes → Int
  | [], [] => 0
  | [], d :: _ => -(d.toNat : Int)
  | c :: _, [] => c.toNat
  | c :: lhs, d :: rhs =>
    if c = 0 then (c.toNat : Int) - d.toNat
    else if c = d then StringManager.compare lhs rhs
    else (c.toNat : Int) - d.toNat

/-- A difference of ids that is returned as an `int`. -/
def narrow (difference : UInt64) : Int := Int.bmod difference.toNat (2 ^ 32)

namespace GraphObjectManager

/-- Doubles are compared with `<` both ways. -/
def compareNumeric (lhs rhs : Double) : Int :=
  if lhs.lt rhs then -1 else if rhs.lt lhs then 1 else 0

def compare (strings : Strings) (lhs rhs : GraphObject) : Except String Int :=
  if lhs.type = rhs.type ∧ lhs.encodedValue = rhs.encodedValue then .ok 0
  else if lhs.type.isString ∧ rhs.type.isString then
    .ok (StringManager.compare (lhs.text strings) (rhs.text strings))
  else if lhs.type.isNumeric ∧ rhs.type.isNumeric then
    .ok (compareNumeric lhs.numeric rhs.numeric)
  else if rhs.type = lhs.type then
    match lhs.type with
    | .nullObj => .ok 0
    | .notFound => .ok 0
    | .edge => .ok (narrow (lhs.encodedValue - lhs.encodedValue))
    | .anon => .ok (narrow (lhs.encodedValue - rhs.encodedValue))
    | .bool => .ok ((lhs.getBool.toNat : Int) - rhs.getBool.toNat)
    | .path => .ok (narrow (lhs.encodedValue - rhs.encodedValue))
    | _ => .error "Unmanaged case"
  else .ok (if lhs.type.number < rhs.type.number then -1 else 1)

end GraphObjectManager

/-- What an object of the quad model stands for.  An integer and a float with the same value are
the same number; how a string is kept does not matter. -/
inductive Value
  | null
  | notFound
  | anon (id : UInt64)
  | named (text : Bytes)
  | string (text : Bytes)
  | edge (id : UInt64)
  | path (id : UInt64)
  | bool (b : Bool)
  | number (double : Double)
  deriving DecidableEq

abbrev QuadObject := { object : GraphObject // object.type.isQuad = true }

namespace GraphObject

def value (strings : Strings) (object : GraphObject) : Value :=
  match object.type with
  | .nullObj => .null
  | .anon => .anon object.encodedValue
  | .namedInlined | .namedExternal | .namedTmp => .named (object.text strings)
  | .strInlined | .strExternal | .strTmp => .string (object.text strings)
  | .edge => .edge object.encodedValue
  | .path => .path object.encodedValue
  | .bool => .bool object.getBool
  | .int => .number (.finite object.getInt)
  | .float => .number object.getFloat
  | _ => .notFound

end GraphObject

namespace StringManager

def textKey (text : Bytes) : List Nat := (cString text).map UInt8.toNat

theorem textKey_inj {lhs rhs : Bytes} : textKey lhs = textKey rhs ↔ cString lhs = cString rhs := by
  rw [textKey, textKey]
  exact (List.map_injective_iff.mpr fun _ _ h => UInt8.toNat_inj.mp h).eq_iff

theorem textKey_cons {c : UInt8} (hc : c ≠ 0) (text : Bytes) :
    textKey (c :: text) = c.toNat :: textKey text := by
  rw [textKey, cString, List.takeWhile_cons, if_pos (by simpa using hc)]
  rfl

theorem textKey_zero (text : Bytes) : textKey (0 :: text) = [] := rfl

theorem toNat_pos {c : UInt8} (hc : c ≠ 0) : 0 < c.toNat := by
  rcases Nat.eq_zero_or_pos c.toNat with hzero | hpos
  · exact absurd (UInt8.toNat_inj.mp hzero) hc
  · exact hpos

theorem compare_iff (lhs rhs : Bytes) :
    (compare lhs rhs < 0 ↔ textKey lhs < textKey rhs) ∧
      (0 < compare lhs rhs ↔ textKey rhs < textKey lhs) := by
  induction lhs generalizing rhs with
  | nil =>
    cases rhs with
    | nil => simp [compare]
    | cons d rhs =>
      by_cases hd : d = 0
      · subst hd
        simp [compare, textKey_zero, show textKey [] = [] from rfl]
      · have hpos := toNat_pos hd
        rw [compare, textKey_cons hd]
        constructor
        · exact iff_of_true (by omega) (List.nil_lt_cons _ _)
        · exact iff_of_false (by omega) (List.not_lt_nil _)
  | cons c lhs ih =>
    cases rhs with
    | nil =>
      by_cases hc : c = 0
      · subst hc
        simp [compare, textKey_zero, show textKey [] = [] from rfl]
      · have hpos := toNat_pos hc
        rw [compare, textKey_cons hc]
        constructor
        · exact iff_of_false (by omega) (List.not_lt_nil _)
        · exact iff_of_true (by omega) (List.nil_lt_cons _ _)
    | cons d rhs =>
      rw [compare]
      by_cases hc : c = 0
      · subst hc
        rw [if_pos rfl, textKey_zero]
        by_cases hd : d = 0
        · subst hd
          simp [textKey_zero]
        · have hpos := toNat_pos hd
          rw [textKey_cons hd]
          constructor
          · exact iff_of_true (by simpa using hpos) (List.nil_lt_cons _ _)
          · exact iff_of_false (by simp) (List.not_lt_nil _)
      · rw [if_neg hc, textKey_cons hc]
        by_cases hd : d = 0
        · subst hd
          have hpos := toNat_pos hc
          rw [if_neg hc, textKey_zero]
          constructor
          · exact iff_of_false (by simp) (List.not_lt_nil _)
          · exact iff_of_true (by simpa using hpos) (List.nil_lt_cons _ _)
        · rw [textKey_cons hd]
          by_cases heq : c = d
          · subst heq
            rw [if_pos rfl, List.cons_lt_cons_iff, List.cons_lt_cons_iff]
            simpa using ih rhs
          · have hne : c.toNat ≠ d.toNat := fun h => heq (UInt8.toNat_inj.mp h)
            rw [if_neg heq, List.cons_lt_cons_iff, List.cons_lt_cons_iff]
            omega

theorem compare_eq_zero_iff (lhs rhs : Bytes) : compare lhs rhs = 0 ↔ cString lhs = cString rhs :=
  (Comparator.eq_zero_iff_of_sign (compare_iff lhs rhs)).trans textKey_inj

end StringManager

end MillenniumDB
