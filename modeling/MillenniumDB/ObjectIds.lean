import Mathlib.Data.List.TakeWhile
import Mathlib.Data.Nat.Digits.Defs

/-!
# Object ids

An id has a type in its highest byte and a value in the other seven.  Short strings and small
integers are held in the id itself; other strings are kept aside and the id holds the offset of
the string.
-/

namespace MillenniumDB

abbrev Bytes := List UInt8

namespace ObjectId

def typeMask : Nat := 0xFF00000000000000
def valueMask : Nat := 0x00FFFFFFFFFFFFFF

def maskNamedNodeInlined : Nat := 0x0000000000000000
def maskNamedNodeExtern : Nat := 0x0100000000000000
def maskStringInlined : Nat := 0x0600000000000000
def maskStringExtern : Nat := 0x0700000000000000
def maskNegativeInt : Nat := 0x0C00000000000000
def maskPositiveInt : Nat := 0x0D00000000000000
def maskFloat : Nat := 0x0E00000000000000
def maskBool : Nat := 0x0F00000000000000
def maskAnon : Nat := 0x1000000000000000
def maskEdge : Nat := 0x1100000000000000

end ObjectId

/-- What functions on `const char*` see of a text. -/
def cString (str : Bytes) : Bytes := str.takeWhile (· ≠ 0)

theorem cString_eq_self {str : Bytes} (hzero : 0 ∉ str) : cString str = str := by
  rw [cString, List.takeWhile_eq_self_iff]
  intro c hc
  simpa using fun heq : c = 0 => hzero (heq ▸ hc)

namespace Inliner

/-- The loop of `inline_string`, from a shift on. -/
def inlineBytes : Nat → Bytes → Nat
  | _, [] => 0
  | shift, byte :: str => byte.toNat <<< shift ||| inlineBytes (shift - 8) str

/-- `inline_string`, for at most seven bytes before a zero. -/
def inlineString (str : Bytes) : Nat := inlineBytes 48 (cString str)

def inlineInt (value : Int) : Except String Nat :=
  if value < 0 then
    if value.natAbs < 2 ^ 56 then
      -- the complement of the value in its seven bytes
      .ok (ObjectId.maskNegativeInt ||| (2 ^ 56 - 1 - value.natAbs))
    else .error "BIG INTEGERS NOT SUPPORTED YET"
  else if value.natAbs < 2 ^ 56 then .ok (ObjectId.maskPositiveInt ||| value.natAbs)
  else .error "BIG INTEGERS NOT SUPPORTED YET"

/-- `inline_float`, of the bytes of a float. -/
def inlineFloat (bits : Nat) : Nat := bits ||| ObjectId.maskFloat

end Inliner

def digitsValue (str : Bytes) : Nat :=
  str.foldl (fun n byte => 10 * n + (byte.toNat - '0'.toNat)) 0

/-- `atoll`, which saturates. -/
def atoll : Bytes → Int
  | [] => 0
  | byte :: str =>
    if byte.toNat = '-'.toNat then max (-(digitsValue str : Int)) (-2 ^ 63)
    else if byte.toNat = '+'.toNat then min (digitsValue str : Int) (2 ^ 63 - 1)
    else min (digitsValue (byte :: str) : Int) (2 ^ 63 - 1)

/-- `std::stoull`, of digits. -/
def stoull (str : Bytes) : Except String Nat :=
  if digitsValue str < 2 ^ 64 then .ok (digitsValue str) else .error "stoull"

/-- `ExternalString::operator==`, of lengths and of bytes up to a zero. -/
def sameString (str other : Bytes) : Bool := str.length = other.length ∧ cString str = cString other

theorem sameString_self (str : Bytes) : sameString str str := by simp [sameString]

/-- `find` of the set of strings: only where the hashes of all bytes agree, the strings are
compared. -/
def findString (hash : Bytes → UInt64) (set : List (Nat × Bytes)) (str : Bytes) :
    Option (Nat × Bytes) :=
  set.find? fun found => hash found.2 = hash str ∧ sameString found.2 str

theorem mem_of_findString {hash : Bytes → UInt64} {set : List (Nat × Bytes)} {str : Bytes}
    {found : Nat × Bytes} (h : findString hash set str = some found) :
    found ∈ set ∧ sameString found.2 str := by
  refine ⟨List.mem_of_find?_eq_some h, ?_⟩
  have hfound := List.find?_some h
  simp only [decide_eq_true_eq] at hfound
  exact hfound.2

theorem notMem_of_findString {hash : Bytes → UInt64} {set : List (Nat × Bytes)} {str : Bytes}
    (h : findString hash set str = none) : str ∉ set.map Prod.snd := by
  intro hmem
  obtain ⟨found, hfound, rfl⟩ := List.mem_map.mp hmem
  apply List.find?_eq_none.mp h found hfound
  simp [sameString_self]

/-- The buffer of external strings: every string with its offset, and the end. -/
structure ExternalStrings where
  hash : Bytes → UInt64
  strings : List (Nat × Bytes)
  stringsEnd : Nat

namespace ExternalStrings

def metadataSize : Nat := 8

def stringBlockSize : Nat := 1024 * 1024 * 64

def minPageRemainingBytes : Nat := 9

def empty (hash : Bytes → UInt64) : ExternalStrings := ⟨hash, [], metadataSize⟩

def bytesForLen (length : Nat) : Nat := (Nat.digits 128 length).length

/-- Where the next string starts: a block that has few bytes left is not used. -/
def alignEnd (offset : Nat) : Nat :=
  let remainingInBlock := stringBlockSize - offset % stringBlockSize
  if remainingInBlock < minPageRemainingBytes then offset + remainingInBlock else offset

/-- `get_or_create_external_string_id`. -/
def getOrCreateId (str : Bytes) (s : ExternalStrings) : Nat × ExternalStrings :=
  match findString s.hash s.strings str with
  | some entry => (entry.1, s)
  | none => (s.stringsEnd, { s with
      strings := s.strings ++ [(s.stringsEnd, str)]
      stringsEnd := alignEnd (s.stringsEnd + str.length + bytesForLen str.length) })

def stringId (maskInlined maskExtern : Nat) (str : Bytes) (s : ExternalStrings) :
    Nat × ExternalStrings :=
  if str.length < 8 then (Inliner.inlineString str ||| maskInlined, s)
  else ((s.getOrCreateId str).1 ||| maskExtern, (s.getOrCreateId str).2)

end ExternalStrings

end MillenniumDB
