import MillenniumDB.GraphObjects
import MillenniumDB.ObjectIds
import MillenniumDB.StringManager

/-!
# Integers and strings inside ids

`inline_int` and `inline_string` put a value into the lower seven bytes of an id, and
`get_graph_object` takes it out again.  A negative integer is held as a complement, so that ids
are in the order of their integers.
-/

namespace MillenniumDB

namespace ObjectId

def maskPath : Nat := 0x1200000000000000

end ObjectId

namespace Inliner

/-- `inline_int`, on words. -/
def inlineWord (value : Int64) : Except String UInt64 :=
  if value < 0 then
    -- the least integer is its own negation, whose highest byte is not zero
    let value := value * -1
    if value.toUInt64 &&& 0xFF00000000000000 = 0 then
      .ok (ObjectId.maskNegativeInt.toUInt64 ||| (~~~value.toUInt64 &&& 0x00FFFFFFFFFFFFFF))
    else .error "BIG INTEGERS NOT SUPPORTED YET"
  else if value.toUInt64 &&& 0xFF00000000000000 = 0 then
    .ok (ObjectId.maskPositiveInt.toUInt64 ||| value.toUInt64)
  else .error "BIG INTEGERS NOT SUPPORTED YET"

end Inliner

namespace GraphObject

def ofChars : Bytes → UInt64
  | [] => 0
  | c :: chars => c.toUInt64 ||| ofChars chars <<< 8

end GraphObject

namespace QuadModel

/-- The characters of an inlined string, from the highest byte on, and a zero. -/
def inlinedChars (id : UInt64) : Bytes :=
  (List.range 7).map (fun i => (id >>> (48 - 8 * i).toUInt64 &&& 0xFF).toUInt8) ++ [0]

/-- `get_graph_object`.  `make_float` and `make_bool` write a part of a union only, whose other
bytes are those of `left`. -/
def getGraphObject (left id : UInt64) : Except String GraphObject :=
  if id.toNat = 2 ^ 64 - 1 then .ok ⟨0, .notFound⟩
  else if id = 0 then .ok ⟨0, .nullObj⟩
  else
    let mask := id &&& ObjectId.typeMask.toUInt64
    let unmaskedId := id &&& ObjectId.valueMask.toUInt64
    if mask = ObjectId.maskStringExtern.toUInt64 then .ok ⟨unmaskedId, .strExternal⟩
    else if mask = ObjectId.maskStringInlined.toUInt64 then
      .ok ⟨GraphObject.ofChars (inlinedChars id), .strInlined⟩
    else if mask = ObjectId.maskPositiveInt.toUInt64 then
      .ok ⟨id &&& 0x00FFFFFFFFFFFFFF, .int⟩
    else if mask = ObjectId.maskNegativeInt.toUInt64 then
      .ok ⟨((~~~id &&& 0x00FFFFFFFFFFFFFF).toInt64 * -1).toUInt64, .int⟩
    else if mask = ObjectId.maskFloat.toUInt64 then
      .ok ⟨left &&& 0xFFFFFFFF00000000 ||| id &&& 0xFFFFFFFF, .float⟩
    else if mask = ObjectId.maskBool.toUInt64 then
      .ok ⟨left &&& 0xFFFFFFFFFFFFFF00 ||| id &&& 0xFF, .bool⟩
    else if mask = ObjectId.maskNamedNodeExtern.toUInt64 then .ok ⟨unmaskedId, .namedExternal⟩
    else if mask = ObjectId.maskNamedNodeInlined.toUInt64 then
      .ok ⟨GraphObject.ofChars (inlinedChars id), .namedInlined⟩
    else if mask = ObjectId.maskAnon.toUInt64 then .ok ⟨unmaskedId, .anon⟩
    else if mask = ObjectId.maskEdge.toUInt64 then .ok ⟨unmaskedId, .edge⟩
    else if mask = ObjectId.maskPath.toUInt64 then .ok ⟨unmaskedId, .path⟩
    else .error "Unhandled Object Type."

def tag (id : UInt64) : Nat := id.toNat / 2 ^ 56

theorem toNat_and_low (id : UInt64) : (id &&& 0x00FFFFFFFFFFFFFF).toNat = id.toNat % 2 ^ 56 := by
  have hmask : (0x00FFFFFFFFFFFFFF : UInt64).toNat = 2 ^ 56 - 1 := by decide
  rw [UInt64.toNat_and, hmask, Nat.and_two_pow_sub_one_eq_mod]

theorem and_shiftLeft (n mask s : Nat) : n &&& mask <<< s = (n >>> s &&& mask) <<< s := by
  apply Nat.eq_of_testBit_eq
  intro i
  rw [Nat.testBit_and, Nat.testBit_shiftLeft, Nat.testBit_shiftLeft, Nat.testBit_and,
    Nat.testBit_shiftRight]
  by_cases hi : s ≤ i
  · simp [hi]
  · simp [hi]

theorem toNat_and_high (id : UInt64) :
    (id &&& 0xFF00000000000000).toNat = tag id * 2 ^ 56 := by
  have hlt := id.toNat_lt
  have hmask : (0xFF00000000000000 : UInt64).toNat = (2 ^ 8 - 1) <<< 56 := by decide
  have hbyte : id.toNat / 2 ^ 56 % 2 ^ 8 = id.toNat / 2 ^ 56 := Nat.mod_eq_of_lt (by omega)
  rw [UInt64.toNat_and, hmask, and_shiftLeft, Nat.shiftRight_eq_div_pow,
    Nat.and_two_pow_sub_one_eq_mod, hbyte, Nat.shiftLeft_eq, tag]

theorem and_high_eq_zero_iff (id : UInt64) :
    id &&& 0xFF00000000000000 = 0 ↔ id.toNat < 2 ^ 56 := by
  rw [← UInt64.toNat_inj, toNat_and_high, tag, UInt64.toNat_zero]
  omega

theorem toNat_or_of_lt {mask low : UInt64} {t : Nat} (hmask : mask.toNat = t * 2 ^ 56)
    (hlow : low.toNat < 2 ^ 56) : (mask ||| low).toNat = t * 2 ^ 56 + low.toNat := by
  rw [UInt64.toNat_or, hmask, Nat.mul_comm, ← Nat.two_pow_add_eq_or_of_lt hlow]

theorem tag_of_toNat {id : UInt64} {t n : Nat} (hid : id.toNat = t * 2 ^ 56 + n)
    (hn : n < 2 ^ 56) : tag id = t := by
  rw [tag, hid]
  omega

theorem typeMask_eq_iff (id : UInt64) {mask : UInt64} {t : Nat} (hmask : mask.toNat = t * 2 ^ 56) :
    id &&& ObjectId.typeMask.toUInt64 = mask ↔ tag id = t := by
  have htype : ObjectId.typeMask.toUInt64 = 0xFF00000000000000 := by decide
  rw [htype, ← UInt64.toNat_inj, toNat_and_high, hmask]
  omega

theorem toNat_ne_of_tag {id : UInt64} {t : Nat} (htag : tag id = t) (hpos : 0 < t) (hlt : t < 255) :
    id.toNat ≠ 2 ^ 64 - 1 ∧ id ≠ 0 := by
  rw [tag] at htag
  constructor
  · omega
  · intro hzero
    rw [hzero, UInt64.toNat_zero] at htag
    omega

end QuadModel

namespace Inliner

variable {v w : Int64}

theorem toInt_eq_bmod (v : Int64) : v.toInt = Int.bmod v.toUInt64.toNat (2 ^ 64) :=
  BitVec.toInt_eq_toNat_bmod v.toBitVec

theorem toNat_mul_neg_one (v : Int64) : (v * -1).toUInt64.toNat =
    v.toUInt64.toNat * (2 ^ 64 - 1) % 2 ^ 64 := by
  rw [Int64.toUInt64_mul, UInt64.toNat_mul]
  rfl

theorem toNat_toUInt64 (v : Int64) : (v.toUInt64.toNat : Int) =
    if v.toInt < 0 then v.toInt + 2 ^ 64 else v.toInt := by
  have hlt := v.toUInt64.toNat_lt
  have hv := toInt_eq_bmod v
  rw [Int.bmod_def] at hv
  split_ifs at hv ⊢ <;> omega

/-- The number that `*= -1` makes of a negative integer. -/
theorem toNat_negated (h : v.toInt < 0) : (v * -1).toUInt64.toNat = v.toInt.natAbs := by
  have hlow := v.le_toInt
  have hv := toNat_toUInt64 v
  rw [if_pos h] at hv
  have hproduct : v.toUInt64.toNat * (2 ^ 64 - 1) =
      v.toInt.natAbs + 2 ^ 64 * (v.toUInt64.toNat - 1) := by omega
  rw [toNat_mul_neg_one, hproduct, Nat.add_mul_mod_self_left, Nat.mod_eq_of_lt (by omega)]

theorem inlineWord_small (h : v.toInt.natAbs < 2 ^ 56) : ∃ id, inlineWord v = .ok id ∧
    (id.toNat : Int) = 13 * 2 ^ 56 + v.toInt - if v.toInt < 0 then 1 else 0 := by
  have hzero : (0 : Int64).toInt = 0 := by decide
  rw [inlineWord]
  by_cases hneg : v.toInt < 0
  · have hnat := toNat_negated hneg
    have hhigh : (v * -1).toUInt64 &&& 0xFF00000000000000 = 0 := by
      rw [QuadModel.and_high_eq_zero_iff, hnat]
      exact h
    have hlow : (~~~(v * -1).toUInt64 &&& 0x00FFFFFFFFFFFFFF).toNat =
        2 ^ 56 - 1 - v.toInt.natAbs := by
      have hsize : UInt64.size = 2 ^ 64 := rfl
      rw [QuadModel.toNat_and_low, UInt64.toNat_not, hnat]
      omega
    have hid := QuadModel.toNat_or_of_lt (t := 12)
      (show ObjectId.maskNegativeInt.toUInt64.toNat = 12 * 2 ^ 56 by decide)
      (hlow.trans_lt (by omega))
    rw [if_pos (by rw [Int64.lt_iff_toInt_lt, hzero]; exact hneg)]
    refine ⟨_, if_pos hhigh, ?_⟩
    rw [hid, hlow, if_pos hneg]
    omega
  · have hnat := toNat_toUInt64 v
    rw [if_neg hneg] at hnat
    have hhigh : v.toUInt64.toNat < 2 ^ 56 := by omega
    have hid := QuadModel.toNat_or_of_lt (t := 13)
      (show ObjectId.maskPositiveInt.toUInt64.toNat = 13 * 2 ^ 56 by decide) hhigh
    rw [if_neg (by rw [Int64.lt_iff_toInt_lt, hzero]; exact hneg)]
    refine ⟨_, if_pos ((QuadModel.and_high_eq_zero_iff _).mpr hhigh), ?_⟩
    rw [hid, if_neg hneg]
    omega

theorem inlineWord_big (h : 2 ^ 56 ≤ v.toInt.natAbs) :
    inlineWord v = .error "BIG INTEGERS NOT SUPPORTED YET" := by
  have hzero : (0 : Int64).toInt = 0 := by decide
  rw [inlineWord]
  by_cases hneg : v.toInt < 0
  · rw [if_pos (by rw [Int64.lt_iff_toInt_lt, hzero]; exact hneg)]
    apply if_neg
    rw [QuadModel.and_high_eq_zero_iff, toNat_negated hneg]
    omega
  · have hnat := toNat_toUInt64 v
    rw [if_neg hneg] at hnat
    rw [if_neg (by rw [Int64.lt_iff_toInt_lt, hzero]; exact hneg)]
    apply if_neg
    rw [QuadModel.and_high_eq_zero_iff]
    omega

theorem inlineWord_of_ok {id : UInt64} (h : inlineWord v = .ok id) : v.toInt.natAbs < 2 ^ 56 ∧
    (id.toNat : Int) = 13 * 2 ^ 56 + v.toInt - if v.toInt < 0 then 1 else 0 := by
  by_cases hsmall : v.toInt.natAbs < 2 ^ 56
  · obtain ⟨id', hid, hnat⟩ := inlineWord_small hsmall
    rw [h, Except.ok.injEq] at hid
    exact ⟨hsmall, hid ▸ hnat⟩
  · rw [inlineWord_big (not_lt.mp hsmall)] at h
    exact absurd h (by simp)

theorem inlineWord_lt {idV idW : UInt64} (hv : inlineWord v = .ok idV) (hw : inlineWord w = .ok idW)
    (hlt : v < w) : idV < idW := by
  have hnatV := (inlineWord_of_ok hv).2
  have hnatW := (inlineWord_of_ok hw).2
  rw [Int64.lt_iff_toInt_lt] at hlt
  rw [UInt64.lt_iff_toNat_lt]
  split_ifs at hnatV hnatW <;> omega

end Inliner

namespace QuadModel

/-- What `make_int` is given for an id of an integer. -/
theorem getGraphObject_int {v : Int64} {left id : UInt64} (h : Inliner.inlineWord v = .ok id) :
    getGraphObject left id = .ok ⟨v.toUInt64, .int⟩ := by
  obtain ⟨hsmall, hnat⟩ := Inliner.inlineWord_of_ok h
  have hword := Inliner.toNat_toUInt64 v
  by_cases hneg : v.toInt < 0
  · rw [if_pos hneg] at hnat hword
    have htag : tag id = 12 := by
      rw [tag]
      omega
    have hends := toNat_ne_of_tag htag (by decide) (by decide)
    have hmask : id &&& ObjectId.typeMask.toUInt64 = ObjectId.maskNegativeInt.toUInt64 :=
      (typeMask_eq_iff id (by decide)).mpr htag
    have hvalue : ((~~~id &&& 0x00FFFFFFFFFFFFFF).toInt64 * -1).toUInt64 = v.toUInt64 := by
      have hsize : UInt64.size = 2 ^ 64 := rfl
      have hlt := id.toNat_lt
      have hlow : (~~~id &&& 0x00FFFFFFFFFFFFFF).toInt64.toUInt64.toNat = v.toInt.natAbs := by
        rw [UInt64.toUInt64_toInt64, toNat_and_low, UInt64.toNat_not]
        omega
      have hproduct : v.toInt.natAbs * (2 ^ 64 - 1) =
          v.toUInt64.toNat + 2 ^ 64 * (v.toInt.natAbs - 1) := by omega
      apply UInt64.toNat_inj.mp
      rw [Inliner.toNat_mul_neg_one, hlow, hproduct, Nat.add_mul_mod_self_left,
        Nat.mod_eq_of_lt v.toUInt64.toNat_lt]
    rw [getGraphObject, if_neg hends.1, if_neg hends.2]
    simp only [hmask, hvalue]
    rfl
  · rw [if_neg hneg] at hnat hword
    have htag : tag id = 13 := by
      rw [tag]
      omega
    have hends := toNat_ne_of_tag htag (by decide) (by decide)
    have hmask : id &&& ObjectId.typeMask.toUInt64 = ObjectId.maskPositiveInt.toUInt64 :=
      (typeMask_eq_iff id (by decide)).mpr htag
    have hvalue : id &&& 0x00FFFFFFFFFFFFFF = v.toUInt64 := by
      apply UInt64.toNat_inj.mp
      rw [toNat_and_low]
      omega
    rw [getGraphObject, if_neg hends.1, if_neg hends.2]
    simp only [hmask, hvalue]
    rfl

end QuadModel

def charAt (str : Bytes) (i : Nat) : UInt8 := str.getD i 0

namespace Inliner

theorem inlineBytes_cons (byte : UInt8) (str : Bytes) (k : Nat)
    (hlt : inlineBytes (8 * k) str < 2 ^ (8 * (k + 1))) : inlineBytes (8 * (k + 1)) (byte :: str) =
      2 ^ (8 * (k + 1)) * byte.toNat + inlineBytes (8 * k) str := by
  have hshift : 8 * (k + 1) - 8 = 8 * k := by omega
  rw [inlineBytes, hshift, Nat.shiftLeft_eq, Nat.mul_comm byte.toNat,
    ← Nat.two_pow_add_eq_or_of_lt hlt]

theorem inlineBytes_lt (str : Bytes) : ∀ k, str.length ≤ k + 1 →
    inlineBytes (8 * k) str < 2 ^ (8 * (k + 1)) := by
  induction str with
  | nil => exact fun k _ => Nat.two_pow_pos _
  | cons byte str ih =>
    intro k hlength
    have hbyte := byte.toNat_lt
    rw [List.length_cons] at hlength
    cases k with
    | zero =>
      have hnil : str = [] := List.eq_nil_of_length_eq_zero (by omega)
      rw [hnil, inlineBytes, inlineBytes, Nat.or_zero]
      exact hbyte
    | succ k =>
      have hrest := ih k (by omega)
      have hpow : 2 ^ (8 * (k + 1 + 1)) = 2 ^ (8 * (k + 1)) * 256 := by
        rw [← Nat.pow_add 2 _ 8]
        congr 1
      rw [inlineBytes_cons byte str k hrest, hpow]
      have hmul := Nat.mul_le_mul_left (2 ^ (8 * (k + 1))) (show byte.toNat + 1 ≤ 256 by omega)
      rw [Nat.mul_add] at hmul
      omega

theorem inlineString_lt {str : Bytes} (hlength : str.length < 8) : inlineString str < 2 ^ 56 := by
  have hle : (cString str).length ≤ str.length := (List.takeWhile_sublist _).length_le
  exact inlineBytes_lt (cString str) 6 (by omega)

theorem byte_inlineBytes (str : Bytes) : ∀ k j, str.length ≤ k + 1 → j ≤ k →
    inlineBytes (8 * k) str / 2 ^ (8 * (k - j)) % 256 = (charAt str j).toNat := by
  induction str with
  | nil =>
    intro k j _ _
    rw [inlineBytes, Nat.zero_div]
    rfl
  | cons byte str ih =>
    intro k j hlength hj
    have hbyte := byte.toNat_lt
    rw [List.length_cons] at hlength
    cases k with
    | zero =>
      have hnil : str = [] := List.eq_nil_of_length_eq_zero (by omega)
      have hzero : j = 0 := by omega
      rw [hnil, hzero, inlineBytes, inlineBytes, Nat.or_zero]
      show byte.toNat / 1 % 256 = byte.toNat
      omega
    | succ k =>
      have hrest := inlineBytes_lt str k (by omega)
      have hpos := Nat.two_pow_pos (8 * (k + 1))
      rw [inlineBytes_cons byte str k hrest]
      cases j with
      | zero =>
        rw [Nat.sub_zero, Nat.mul_add_div hpos, Nat.div_eq_of_lt hrest]
        show (byte.toNat + 0) % 256 = byte.toNat
        omega
      | succ j =>
        -- the bytes before it are a multiple of 256 under the shift
        have hpow : 2 ^ (8 * (k + 1)) = 2 ^ (8 * (k - j)) * (256 * 2 ^ (8 * j)) := by
          rw [show (256 : Nat) = 2 ^ 8 from rfl, ← Nat.pow_add, ← Nat.pow_add]
          congr 1
          omega
        have hsub : k + 1 - (j + 1) = k - j := by omega
        rw [hsub, hpow, Nat.mul_assoc, Nat.mul_add_div (Nat.two_pow_pos _), Nat.mul_assoc 256,
          Nat.mul_add_mod]
        exact ih k j (by omega) (by omega)

end Inliner

namespace GraphObject

theorem toNat_ofChars_cons {c : UInt8} {chars : Bytes}
    (hlt : (ofChars chars).toNat < 2 ^ 56) :
    (ofChars (c :: chars)).toNat = 256 * (ofChars chars).toNat + c.toNat := by
  have hc := c.toNat_lt
  have height : (8 : UInt64).toNat % 64 = 8 := by decide
  rw [ofChars, UInt64.toNat_or, UInt64.toNat_shiftLeft, height, Nat.shiftLeft_eq,
    Nat.mod_eq_of_lt (by omega), Nat.mul_comm _ (2 ^ 8), Nat.or_comm, UInt8.toNat_toUInt64,
    ← Nat.two_pow_add_eq_or_of_lt hc]

theorem toNat_ofChars_lt (chars : Bytes) : chars.length ≤ 8 →
    (ofChars chars).toNat < 2 ^ (8 * chars.length) := by
  induction chars with
  | nil => exact fun _ => by decide
  | cons c chars ih =>
    intro hlength
    rw [List.length_cons] at hlength ⊢
    have hrest := ih (by omega)
    have hpow : 2 ^ (8 * chars.length) ≤ 2 ^ 56 := Nat.pow_le_pow_right (by decide) (by omega)
    have hc := c.toNat_lt
    rw [toNat_ofChars_cons (hrest.trans_le hpow), Nat.mul_add 8, Nat.pow_add]
    omega

theorem char_ofChars (chars : Bytes) : ∀ i, chars.length ≤ 8 →
    (ofChars chars).toNat / 2 ^ (8 * i) % 256 = (charAt chars i).toNat := by
  induction chars with
  | nil =>
    intro i _
    show 0 / 2 ^ (8 * i) % 256 = 0
    rw [Nat.zero_div]
  | cons c chars ih =>
    intro i hlength
    rw [List.length_cons] at hlength
    have hpow : 2 ^ (8 * chars.length) ≤ 2 ^ 56 := Nat.pow_le_pow_right (by decide) (by omega)
    have hc := c.toNat_lt
    rw [toNat_ofChars_cons ((toNat_ofChars_lt chars (by omega)).trans_le hpow)]
    cases i with
    | zero =>
      show (256 * (ofChars chars).toNat + c.toNat) / 1 % 256 = c.toNat
      omega
    | succ i =>
      have hsplit : 2 ^ (8 * (i + 1)) = 256 * 2 ^ (8 * i) := by
        rw [Nat.mul_add 8, Nat.pow_add, Nat.mul_comm]
      rw [hsplit, ← Nat.div_div_eq_div_mul, Nat.mul_add_div (by decide), Nat.div_eq_of_lt hc,
        Nat.add_zero]
      exact ih i (by omega)

theorem inlinedText_ofChars {chars : Bytes} (hlength : chars.length = 8) :
    inlinedText 8 (ofChars chars) = cString chars := by
  rw [inlinedText]
  congr 1
  apply List.ext_getElem
  · rw [List.length_map, List.length_range, hlength]
  · intro i hi hi'
    have hshift : (8 * i).toUInt64.toNat % 64 = 8 * i := by
      have : (8 * i).toUInt64.toNat = 8 * i % 2 ^ 64 := rfl
      omega
    have hchar : charAt chars i = chars[i] := by
      rw [charAt, List.getD_eq_getElem?_getD, List.getElem?_eq_getElem hi', Option.getD_some]
    rw [List.getElem_map, List.getElem_range]
    apply UInt8.toNat_inj.mp
    rw [UInt64.toNat_toUInt8, UInt64.toNat_shiftRight, hshift, Nat.shiftRight_eq_div_pow,
      ← hchar, ← char_ofChars chars i hlength.le]

end GraphObject

namespace QuadModel

variable {str other : Bytes} {mask : Nat} {t : Nat}

def inlinedId (mask : Nat) (str : Bytes) : UInt64 := (Inliner.inlineString str ||| mask).toUInt64

theorem toNat_inlinedId (hmask : mask = 2 ^ 56 * t) (ht : t < 256) (hlength : str.length < 8) :
    (inlinedId mask str).toNat = t * 2 ^ 56 + Inliner.inlineString str := by
  have hlt : Inliner.inlineString str < 2 ^ 56 := Inliner.inlineString_lt hlength
  have hor : Inliner.inlineString str ||| mask = 2 ^ 56 * t + Inliner.inlineString str := by
    rw [hmask, Nat.or_comm, ← Nat.two_pow_add_eq_or_of_lt hlt]
  have hmod : (inlinedId mask str).toNat = (Inliner.inlineString str ||| mask) % 2 ^ 64 := rfl
  rw [hmod, hor]
  omega

theorem inlinedChars_inlinedId (hmask : mask = 2 ^ 56 * t) (ht : t < 256) (hzero : 0 ∉ str)
    (hlength : str.length < 8) :
    inlinedChars (inlinedId mask str) = (List.range 7).map (charAt str) ++ [0] := by
  rw [inlinedChars]
  congr 1
  apply List.map_congr_left
  intro i hi
  rw [List.mem_range] at hi
  have hshift : (48 - 8 * i).toUInt64.toNat % 64 = 8 * (6 - i) := by
    have : (48 - 8 * i).toUInt64.toNat = (48 - 8 * i) % 2 ^ 64 := rfl
    omega
  have hbyte := Inliner.byte_inlineBytes str 6 i (by omega) (by omega)
  have hlow : (0xFF : UInt64).toNat = 2 ^ 8 - 1 := by decide
  -- the tag is a multiple of 256 under every shift
  have hpow : 2 ^ 56 = 2 ^ (8 * (6 - i)) * (256 * 2 ^ (8 * i)) := by
    rw [show (256 : Nat) = 2 ^ 8 from rfl, ← Nat.pow_add, ← Nat.pow_add]
    congr 1
    omega
  have htag : t * 2 ^ 56 = 2 ^ (8 * (6 - i)) * (256 * (t * 2 ^ (8 * i))) := by
    rw [hpow, Nat.mul_left_comm t, Nat.mul_left_comm t]
  apply UInt8.toNat_inj.mp
  rw [UInt64.toNat_toUInt8, UInt64.toNat_and, UInt64.toNat_shiftRight, hshift, hlow,
    Nat.and_two_pow_sub_one_eq_mod, Nat.mod_mod, Nat.shiftRight_eq_div_pow,
    toNat_inlinedId hmask ht hlength, htag, Nat.mul_add_div (Nat.two_pow_pos _), Nat.mul_add_mod,
    Inliner.inlineString, cString_eq_self hzero]
  exact hbyte

theorem cString_charAt (str : Bytes) (hzero : 0 ∉ str) : ∀ n, str.length ≤ n →
    cString ((List.range n).map (charAt str) ++ [0]) = str := by
  induction str with
  | nil =>
    intro n _
    cases n with
    | zero => rfl
    | succ n =>
      rw [List.range_succ_eq_map]
      rfl
  | cons c str ih =>
    intro n hlength
    rw [List.length_cons] at hlength
    obtain ⟨n, rfl⟩ : ∃ m, n = m + 1 := ⟨n - 1, by omega⟩
    have hc : c ≠ 0 := fun h => hzero (h ▸ List.mem_cons_self)
    have hrest := ih (fun h => hzero (List.mem_cons_of_mem _ h)) n (by omega)
    have htail : ((List.range n).map Nat.succ).map (charAt (c :: str)) =
        (List.range n).map (charAt str) := by
      rw [List.map_map]
      rfl
    rw [List.range_succ_eq_map, List.map_cons, List.cons_append, htail, cString,
      List.takeWhile_cons, ← cString, hrest]
    exact if_pos (by simpa [charAt] using hc)

theorem text_inlinedId (strings : Strings) (hmask : mask = 2 ^ 56 * t) (ht : t < 256)
    (hzero : 0 ∉ str) (hlength : str.length < 8) {type : GraphObjectType}
    (htype : type = .strInlined ∨ type = .namedInlined) :
    GraphObject.text strings
      ⟨GraphObject.ofChars (inlinedChars (inlinedId mask str)), type⟩ = str := by
  have htext : GraphObject.text strings
      ⟨GraphObject.ofChars (inlinedChars (inlinedId mask str)), type⟩ =
        GraphObject.inlinedText 8 (GraphObject.ofChars (inlinedChars (inlinedId mask str))) := by
    rcases htype with rfl | rfl <;> rfl
  rw [htext, GraphObject.inlinedText_ofChars (by simp [inlinedChars]),
    inlinedChars_inlinedId hmask ht hzero hlength, cString_charAt str hzero 7 (by omega)]

theorem getGraphObject_string (left : UInt64) (hlength : str.length < 8) :
    getGraphObject left (inlinedId ObjectId.maskStringInlined str) =
      .ok ⟨GraphObject.ofChars (inlinedChars (inlinedId ObjectId.maskStringInlined str)),
        .strInlined⟩ := by
  have hnat := toNat_inlinedId (t := 6) (show ObjectId.maskStringInlined = 2 ^ 56 * 6 by decide)
    (by decide) hlength
  have htag := tag_of_toNat hnat (Inliner.inlineString_lt hlength)
  have hends := toNat_ne_of_tag htag (by decide) (by decide)
  have hmask := (typeMask_eq_iff _
    (show ObjectId.maskStringInlined.toUInt64.toNat = 6 * 2 ^ 56 by decide)).mpr htag
  rw [getGraphObject, if_neg hends.1, if_neg hends.2]
  simp only [hmask]
  rfl

theorem getGraphObject_name (left : UInt64) (hzero : 0 ∉ str) (hlength : str.length < 8) (hne : str ≠ []) :
    getGraphObject left (inlinedId ObjectId.maskNamedNodeInlined str) =
      .ok ⟨GraphObject.ofChars (inlinedChars (inlinedId ObjectId.maskNamedNodeInlined str)),
        .namedInlined⟩ := by
  have hchars := inlinedChars_inlinedId (t := 0)
    (show ObjectId.maskNamedNodeInlined = 2 ^ 56 * 0 by decide) (by decide) hzero hlength
  have hnat := toNat_inlinedId (t := 0)
    (show ObjectId.maskNamedNodeInlined = 2 ^ 56 * 0 by decide) (by decide) hlength
  have htag := tag_of_toNat hnat (Inliner.inlineString_lt hlength)
  have hlast : (inlinedId ObjectId.maskNamedNodeInlined str).toNat ≠ 2 ^ 64 - 1 := by
    rw [tag] at htag
    omega
  -- the first character is not zero
  have hnull : inlinedId ObjectId.maskNamedNodeInlined str ≠ 0 := by
    intro h
    have hstr := cString_charAt str hzero 7 (by omega)
    rw [← hchars, h] at hstr
    exact hne (hstr.symm.trans (by decide))
  have hmask := (typeMask_eq_iff _
    (show ObjectId.maskNamedNodeInlined.toUInt64.toNat = 0 * 2 ^ 56 by decide)).mpr htag
  rw [getGraphObject, if_neg hlast, if_neg hnull]
  simp only [hmask]
  rfl

theorem inlinedId_inj (hmask : mask = 2 ^ 56 * t) (ht : t < 256) (hzero : 0 ∉ str)
    (hlength : str.length < 8) (hzero' : 0 ∉ other) (hlength' : other.length < 8)
    (h : inlinedId mask str = inlinedId mask other) : str = other := by
  have hstr := cString_charAt str hzero 7 (by omega)
  have hother := cString_charAt other hzero' 7 (by omega)
  rw [← inlinedChars_inlinedId hmask ht hzero hlength, h,
    inlinedChars_inlinedId hmask ht hzero' hlength'] at hstr
  exact hstr.symm.trans hother

/-- Integers of seven bytes and short strings come back from their ids; the ids are in the order
of the integers, and different strings have different ids. -/
theorem inlined_comes_back (strings : Strings) (left : UInt64) :
    (∀ v : Int64, v.toInt.natAbs < 2 ^ 56 → ∃ id object, Inliner.inlineWord v = .ok id ∧
      getGraphObject left id = .ok object ∧ object.type = .int ∧ object.getInt = v.toInt) ∧
    (∀ (v w : Int64) (idV idW : UInt64), Inliner.inlineWord v = .ok idV →
      Inliner.inlineWord w = .ok idW → v < w → idV < idW) ∧
    (∀ v : Int64, 2 ^ 56 ≤ v.toInt.natAbs → ∃ e, Inliner.inlineWord v = .error e) ∧
    (∀ str : Bytes, 0 ∉ str → str.length < 8 → ∃ object,
      getGraphObject left (inlinedId ObjectId.maskStringInlined str) = .ok object ∧
        object.type = .strInlined ∧ object.text strings = str) ∧
    (∀ str : Bytes, 0 ∉ str → str.length < 8 → str ≠ [] → ∃ object,
      getGraphObject left (inlinedId ObjectId.maskNamedNodeInlined str) = .ok object ∧
        object.type = .namedInlined ∧ object.text strings = str) ∧
    ∀ mask ∈ [ObjectId.maskStringInlined, ObjectId.maskNamedNodeInlined], ∀ str other : Bytes,
      0 ∉ str → str.length < 8 → 0 ∉ other → other.length < 8 → str ≠ other →
        inlinedId mask str ≠ inlinedId mask other := by
  have hstring : ObjectId.maskStringInlined = 2 ^ 56 * 6 := by decide
  have hname : ObjectId.maskNamedNodeInlined = 2 ^ 56 * 0 := by decide
  refine ⟨?_, fun v w idV idW hv hw => Inliner.inlineWord_lt hv hw,
    fun v h => ⟨_, Inliner.inlineWord_big h⟩, ?_, ?_, ?_⟩
  · intro v h
    obtain ⟨id, hid, -⟩ := Inliner.inlineWord_small h
    exact ⟨id, _, hid, getGraphObject_int hid, rfl, (Inliner.toInt_eq_bmod v).symm⟩
  · intro str hzero hlength
    exact ⟨_, getGraphObject_string left hlength, rfl,
      text_inlinedId strings hstring (by decide) hzero hlength (.inl rfl)⟩
  · intro str hzero hlength hne
    exact ⟨_, getGraphObject_name left hzero hlength hne, rfl,
      text_inlinedId strings hname (by decide) hzero hlength (.inr rfl)⟩
  · intro mask hmask str other hzero hlength hzero' hlength' hne h
    apply hne
    rcases List.mem_pair.mp hmask with rfl | rfl
    · exact inlinedId_inj hstring (by decide) hzero hlength hzero' hlength' h
    · exact inlinedId_inj hname (by decide) hzero hlength hzero' hlength' h

end QuadModel

end MillenniumDB
