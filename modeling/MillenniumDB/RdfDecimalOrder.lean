import MillenniumDB.RdfObjectOrder
import MillenniumDB.RdfDecimalForms
import MillenniumDB.Lib.Positional

/-!
# The order of decimals

`compare_rdf` compares decimals as strings: the signs, the lengths of the integer parts in an `int`,
their digits, and the digits behind the point.  Strings in normal form have the order of the
numbers, but for the two strings of zero and for lengths of which the difference is no `int`.
-/

namespace MillenniumDB

section

variable {digits digits' : Bytes}

def chars (text : Bytes) : List Nat := text.map UInt8.toNat

def digit (c : Nat) : Nat := c - 48

/-- The characters `0` to `9`. -/
def digitChars : Set Nat := {c | 48 ≤ c ∧ c ≤ 57}

theorem digits_digitChars : Positional.Digits digit 10 digitChars where
  strictMono := by
    intro c hc c' hc' h
    have hle : 48 ≤ c := hc.1
    show c - 48 < c' - 48
    omega
  lt := by
    intro c hc
    have hle : c ≤ 57 := hc.2
    show c - 48 < 10
    omega

theorem chars_mem (h : IsDigits digits) : ∀ c ∈ chars digits, c ∈ digitChars := by
  intro c hc
  obtain ⟨byte, hbyte, rfl⟩ := List.mem_map.mp hc
  exact isDigit_iff.mp (h byte hbyte)

theorem digitsValue_eq_fraction (digits : Bytes) : (digitsValue digits : ℚ) =
    Positional.fraction digit 10 (chars digits) * 10 ^ digits.length := by
  induction digits with
  | nil => simp [digitsValue, chars, Positional.fraction]
  | cons byte digits ih =>
    have hvalue := digitsValue_append [byte] digits
    have hfirst : digitsValue [byte] = digit byte.toNat := by
      simp [digitsValue, digit]
    rw [List.singleton_append, hfirst] at hvalue
    rw [hvalue, chars, List.map_cons, Positional.fraction, ← chars, List.length_cons, pow_succ]
    push_cast
    rw [ih]
    ring

theorem chars_lt_iff (h : IsDigits digits) (h' : IsDigits digits')
    (hlength : digits.length = digits'.length) :
    chars digits < chars digits' ↔ digitsValue digits < digitsValue digits' := by
  have hlen : (chars digits).length = (chars digits').length := by
    rw [chars, chars, List.length_map, List.length_map, hlength]
  have hpos : (0 : ℚ) < 10 ^ digits'.length := by positivity
  rw [← Positional.fraction_lt_iff digits_digitChars (chars_mem h) (chars_mem h') (.inl hlen.le)
    (.inl hlen.ge), ← Nat.cast_lt (α := ℚ), digitsValue_eq_fraction, digitsValue_eq_fraction,
    hlength, mul_lt_mul_iff_left₀ hpos]

theorem chars_inj : chars digits = chars digits' ↔ digits = digits' :=
  (List.map_injective_iff.mpr fun _ _ h => UInt8.toNat_inj.mp h).eq_iff

theorem chars_append (text text' : Bytes) : chars (text ++ text') = chars text ++ chars text' :=
  List.map_append

theorem textKey_eq_chars {text : Bytes} (h : 0 ∉ text) : StringManager.textKey text = chars text := by
  rw [StringManager.textKey, cString_eq_self h, chars]

end

namespace DecimalText

def IsNormal (d : DecimalText) : Prop := Decimal.normalize d.text = d.text

def unsigned (d : DecimalText) : Bytes := d.integer ++ 46 :: d.decimals

def magnitude (d : DecimalText) : ℚ :=
  digitsValue d.integer + digitsValue d.decimals / 10 ^ d.decimals.length

variable {d d' : DecimalText}

theorem value_eq_magnitude (d : DecimalText) :
    d.value = (if d.negative then -1 else 1) * d.magnitude := rfl

theorem magnitude_nonneg (d : DecimalText) : 0 ≤ d.magnitude := by
  unfold magnitude
  positivity

theorem value_nonneg (h : d.negative = false) : 0 ≤ d.value :=
  not_lt.mp fun hlt => Bool.false_ne_true (h.symm.trans ((value_parts d).2.1 hlt))

theorem value_nonpos (h : d.negative = true) : d.value ≤ 0 :=
  not_lt.mp fun hlt => Bool.false_ne_true (((value_parts d).2.2 hlt).symm.trans h)

theorem value_lt_iff_of_signs (h : d.negative = true) (h' : d'.negative = false) :
    d.value < d'.value ↔ ¬ (d.value = 0 ∧ d'.value = 0) := by
  constructor
  · rintro hlt ⟨hzero, hzero'⟩
    rw [hzero, hzero'] at hlt
    exact lt_irrefl _ hlt
  · intro hne
    apply lt_of_le_of_ne ((value_nonpos h).trans (value_nonneg h'))
    intro heq
    exact hne ⟨le_antisymm (value_nonpos h) (heq ▸ value_nonneg h'),
      le_antisymm (heq ▸ value_nonpos h) (value_nonneg h')⟩

theorem IsNormal.parts (h : d.IsNormal) :
    d.integer = d.normalInteger ∧ d.decimals = d.normalFraction := by
  obtain ⟨-, hinteger, hfraction⟩ := parts_of_text ((normalize_text d).symm.trans h)
  refine ⟨hinteger.symm, ?_⟩
  rw [decimals, ← hfraction]
  rfl

theorem IsNormal.text_eq (h : d.IsNormal) :
    d.text = (if d.negative then [45] else []) ++ d.unsigned := by
  obtain ⟨hinteger, hdecimals⟩ := h.parts
  rw [← show Decimal.normalize d.text = d.text from h, normalize_text, unsigned, hinteger, hdecimals]
  cases hnegative : d.negative with
  | false => simp [text, normalized, tail, hnegative, signText]
  | true => simp [text, normalized, tail, hnegative, signText]

theorem IsNormal.noLeadingZero (h : d.IsNormal) : NoLeadingZero d.integer := by
  rw [h.parts.1]
  exact d.noLeadingZero_normalInteger

theorem IsNormal.decimals_cases (h : d.IsNormal) :
    d.decimals = [48] ∨ ∃ hne : d.decimals ≠ [], d.decimals.getLast hne ≠ 48 := by
  by_cases hnil : d.stripped = []
  · left
    rw [h.parts.2, normalFraction, hnil]
  · right
    have hstripped : d.decimals = d.stripped := h.parts.2.trans (normalFraction_of_ne hnil)
    exact ⟨hstripped ▸ hnil, by simpa only [hstripped] using d.stripped_getLast hnil⟩

theorem IsNormal.decimals_ne_nil (h : d.IsNormal) : d.decimals ≠ [] := by
  rcases h.decimals_cases with hzero | ⟨hne, -⟩
  · rw [hzero]
    exact List.cons_ne_nil _ _
  · exact hne

theorem IsNormal.length_pos (h : d.IsNormal) : 0 < d.integer.length := by
  rcases h.noLeadingZero with hzero | ⟨hne, -⟩
  · rw [hzero]
    decide
  · exact List.length_pos_of_ne_nil hne

theorem length_decimals_pos (h : d.IsNormal) : 0 < d.decimals.length :=
  List.length_pos_of_ne_nil h.decimals_ne_nil

theorem magnitude_eq_fraction (d : DecimalText) : d.magnitude =
    Positional.fraction digit 10 (chars (d.integer ++ d.decimals)) * 10 ^ d.integer.length := by
  have hvalue := digitsValue_eq_fraction (d.integer ++ d.decimals)
  rw [digitsValue_append, List.length_append, pow_add] at hvalue
  push_cast at hvalue
  rw [magnitude]
  field_simp
  rw [hvalue]
  ring

theorem isDigits_all (d : DecimalText) : IsDigits (d.integer ++ d.decimals) :=
  d.integer_digits.append d.isDigits_decimals

/-- The digits of a number end with no zero, or are not more than those of the other one. -/
theorem ends_of_length_eq (h : d.IsNormal) (h' : d'.IsNormal)
    (hlength : d.integer.length = d'.integer.length) :
    (chars (d'.integer ++ d'.decimals)).length ≤ (chars (d.integer ++ d.decimals)).length ∨
      ∀ c ∈ (chars (d'.integer ++ d'.decimals)).getLast?, digit c ≠ 0 := by
  have hpos := length_decimals_pos h
  rcases h'.decimals_cases with hzero | ⟨hne, hlast⟩
  · left
    rw [chars, chars, List.length_map, List.length_map, List.length_append, List.length_append,
      hzero, List.length_singleton]
    omega
  · right
    intro c hc
    rw [chars, List.getLast?_map, List.getLast?_append_of_ne_nil _ hne,
      List.getLast?_eq_some_getLast hne, Option.map_some, Option.mem_some_iff] at hc
    have hdigit := isDigit_iff.mp (d'.isDigits_decimals _ (List.getLast_mem hne))
    have hne48 : (d'.decimals.getLast hne).toNat ≠ 48 := fun heq =>
      hlast (UInt8.toNat_inj.mp heq)
    unfold digit
    omega

theorem unsigned_lt_iff (h : d.IsNormal) (h' : d'.IsNormal)
    (hlength : d.integer.length = d'.integer.length) :
    chars d.unsigned < chars d'.unsigned ↔ d.magnitude < d'.magnitude := by
  have hchars : (chars d.integer).length = (chars d'.integer).length := by
    rw [chars, chars, List.length_map, List.length_map, hlength]
  have hpos : (0 : ℚ) < 10 ^ d'.integer.length := by positivity
  have hpoint : ∀ digits, chars (46 :: digits) = 46 :: chars digits := fun digits => rfl
  rw [magnitude_eq_fraction, magnitude_eq_fraction, hlength, mul_lt_mul_iff_left₀ hpos,
    Positional.fraction_lt_iff digits_digitChars (chars_mem d.isDigits_all)
      (chars_mem d'.isDigits_all) (ends_of_length_eq h' h hlength.symm)
      (ends_of_length_eq h h' hlength), unsigned, unsigned, chars_append, chars_append,
    chars_append, chars_append, Positional.append_lt_iff hchars, Positional.append_lt_iff hchars,
    hpoint, hpoint, List.cons_lt_cons_iff]
  simp

theorem magnitude_lt_of_length (h' : d'.IsNormal) (hpos : 0 < d.integer.length)
    (hlength : d.integer.length < d'.integer.length) : d.magnitude < d'.magnitude := by
  have hone := Positional.fraction_lt_one digits_digitChars (chars_mem d.isDigits_all)
  have hfirst : 10 ^ (d'.integer.length - 1) ≤ digitsValue d'.integer := by
    rcases h'.noLeadingZero with hzero | ⟨hne, hhead⟩
    · rw [hzero] at hlength
      exact absurd hlength (Nat.not_lt.mpr hpos)
    · exact pow_le_digitsValue d'.integer_digits hne hhead
  have hpow : (10 : ℚ) ^ d.integer.length ≤ 10 ^ (d'.integer.length - 1) :=
    pow_le_pow_right₀ (by norm_num) (by omega)
  have hinteger : (10 : ℚ) ^ (d'.integer.length - 1) ≤ digitsValue d'.integer := by
    exact_mod_cast hfirst
  calc d.magnitude
      < 10 ^ d.integer.length := by
        rw [magnitude_eq_fraction]
        exact mul_lt_of_lt_one_left (by positivity) hone
    _ ≤ digitsValue d'.integer := hpow.trans hinteger
    _ ≤ d'.magnitude := le_add_of_nonneg_right (by positivity)

/-- A text with fewer digits in front of the point is the smaller one unless the digits of the other
text begin with a smaller number. -/
theorem unsigned_lt_iff_of_length (hlength : d.integer.length < d'.integer.length) :
    (chars d.unsigned < chars d'.unsigned ↔
      digitsValue d.integer ≤ digitsValue (d'.integer.take d.integer.length)) ∧
    (chars d'.unsigned < chars d.unsigned ↔
      digitsValue (d'.integer.take d.integer.length) < digitsValue d.integer) := by
  obtain ⟨front, hfront⟩ : ∃ front, front = d'.integer.take d.integer.length := ⟨_, rfl⟩
  obtain ⟨byte, rest, hrest⟩ := List.exists_cons_of_ne_nil
    (show d'.integer.drop d.integer.length ≠ [] by simpa using hlength)
  have hsplit : d'.integer = front ++ byte :: rest := by
    rw [hfront, ← hrest, List.take_append_drop]
  have hdigits := d'.integer_digits
  rw [hsplit] at hdigits
  obtain ⟨hdigits, hbyte⟩ := List.forall_mem_append.mp hdigits
  have hbyte := isDigit_iff.mp (hbyte byte List.mem_cons_self)
  have hsame : front.length = d.integer.length := by
    rw [hfront, List.length_take]
    omega
  have hchars : (chars d.integer).length = (chars front).length := by
    rw [chars, chars, List.length_map, List.length_map, hsame]
  have hunsigned : d'.unsigned = front ++ (byte :: (rest ++ 46 :: d'.decimals)) := by
    rw [unsigned, hsplit, List.append_assoc, List.cons_append]
  have hpoint : chars (46 :: d.decimals) < chars (byte :: (rest ++ 46 :: d'.decimals)) :=
    List.cons_lt_cons_iff.mpr (.inl (show 46 < byte.toNat by omega))
  rw [← hfront, hunsigned, unsigned, chars_append, chars_append, Positional.append_lt_iff hchars,
    Positional.append_lt_iff hchars.symm, chars_lt_iff d.integer_digits hdigits hsame.symm,
    chars_lt_iff hdigits d.integer_digits hsame, chars_inj, chars_inj, le_iff_lt_or_eq]
  constructor
  · apply or_congr Iff.rfl
    constructor
    · rintro ⟨heq, -⟩
      rw [heq]
    · exact fun heq => ⟨eq_of_digitsValue_eq d.integer_digits hdigits hsame.symm heq, hpoint⟩
  · apply or_iff_left
    rintro ⟨-, hlt⟩
    exact hpoint.asymm hlt

end DecimalText

namespace GraphObjectManager

open DecimalText

variable {d d' : DecimalText}

theorem zero_notMem_text (h : d.IsNormal) : 0 ∉ d.text := by
  have hzero : ∀ digits : Bytes, IsDigits digits → 0 ∉ digits := fun digits hdigits hmem =>
    absurd (isDigit_iff.mp (hdigits 0 hmem)).1 (by decide)
  rw [h.text_eq, unsigned, List.mem_append, List.mem_append, List.mem_cons]
  rintro (hsign | hinteger | hpoint | hdecimals)
  · split_ifs at hsign
    all_goals simp at hsign
  · exact hzero _ d.integer_digits hinteger
  · cases hpoint
  · exact hzero _ d.isDigits_decimals hdecimals

theorem findPoint_text (h : d.IsNormal) (hlt : d.text.length < 2 ^ 64) :
    (findPoint d.text).toNat = (if d.negative then 1 else 0) + d.integer.length := by
  have hinteger : 46 ∉ d.integer := fun hmem =>
    absurd (isDigit_iff.mp (d.integer_digits 46 hmem)).1 (by decide)
  have hsign : 46 ∉ (if d.negative then [45] else [] : Bytes) := by
    split_ifs
    all_goals decide
  have hidx : d.text.idxOf 46 = (if d.negative then 1 else 0) + d.integer.length := by
    rw [h.text_eq, unsigned, List.idxOf_append_of_notMem hsign, List.idxOf_append_of_notMem hinteger,
      List.idxOf_cons_self, add_zero]
    split_ifs
    all_goals rfl
  have hmem : 46 ∈ d.text := by
    rw [h.text_eq, unsigned]
    simp
  have hbound := List.idxOf_lt_length_of_mem hmem
  rw [findPoint, if_pos hmem, UInt64.toNat_ofNat', hidx, Nat.mod_eq_of_lt (by omega)]

/-- The difference of the lengths of the integer parts, as an `int`. -/
def lengthDiff (d d' : DecimalText) : Int :=
  Int.bmod ((d.integer.length : Int) - d'.integer.length) (2 ^ 32)

theorem narrow_findPoint (h : d.IsNormal) (h' : d'.IsNormal) (hlt : d.text.length < 2 ^ 64)
    (hlt' : d'.text.length < 2 ^ 64) (hsign : d.negative = d'.negative) :
    narrow (findPoint d.text - findPoint d'.text) = lengthDiff d d' := by
  rw [narrow_sub_eq, findPoint_text h hlt, findPoint_text h' hlt', lengthDiff, hsign]
  congr 1
  push_cast
  ring

/-- Where the lengths do not differ as an `int`, the texts are compared like words. -/
theorem magnitudeDiff_iff_unsigned (h : d.IsNormal) (h' : d'.IsNormal)
    (hsign : d.negative = d'.negative)
    (hzero : narrow (findPoint d.text - findPoint d'.text) = 0) :
    (magnitudeDiff d.text d'.text < 0 ↔ chars d.unsigned < chars d'.unsigned) ∧
      (0 < magnitudeDiff d.text d'.text ↔ chars d'.unsigned < chars d.unsigned) := by
  obtain ⟨n, hn⟩ : ∃ n, (findPoint d.text).toNat = n := ⟨_, rfl⟩
  have htake : ∀ {e : DecimalText}, e.IsNormal →
      StringManager.textKey (e.text.take n) = (chars e.text).take n := by
    intro e he
    rw [textKey_eq_chars fun hmem => zero_notMem_text he (List.mem_of_mem_take hmem), chars,
      List.map_take, chars]
  have hdrop : ∀ {e : DecimalText}, e.IsNormal →
      StringManager.textKey (e.text.drop n) = (chars e.text).drop n := by
    intro e he
    rw [textKey_eq_chars fun hmem => zero_notMem_text he (List.mem_of_mem_drop hmem), chars,
      List.map_drop, chars]
  have hunsigned : ∀ {e : DecimalText}, e.IsNormal → e.negative = d.negative →
      chars e.text = chars (if d.negative then [45] else []) ++ chars e.unsigned := by
    intro e he hsame
    rw [he.text_eq, chars_append, hsame]
  obtain ⟨hneg, hpos⟩ := magnitudeDiff_of_zero hzero hn
  rw [hneg, hpos, htake h, htake h', hdrop h, hdrop h', Positional.take_drop_lt_iff,
    Positional.take_drop_lt_iff, hunsigned h rfl, hunsigned h' hsign.symm,
    Positional.append_lt_append_iff, Positional.append_lt_append_iff]
  exact ⟨Iff.rfl, Iff.rfl⟩

/-- Lengths of integer parts that do not mislead the comparison: their difference keeps its sign as
an `int`; and where it gets lost, the digits of the longer part do not begin with a smaller number. -/
structure LengthsTell (d d' : DecimalText) : Prop where
  more : 0 < lengthDiff d d' → d'.integer.length < d.integer.length
  fewer : lengthDiff d d' < 0 → d.integer.length < d'.integer.length
  shorter : lengthDiff d d' = 0 → d.integer.length < d'.integer.length →
    digitsValue d.integer ≤ digitsValue (d'.integer.take d.integer.length)
  longer : lengthDiff d d' = 0 → d'.integer.length < d.integer.length →
    digitsValue d'.integer ≤ digitsValue (d.integer.take d'.integer.length)

/-- Decimals that are compared as numbers.  With one sign, the difference of the lengths must tell
which one is longer, and not be the `int` that has no negation; with two signs, one of the numbers is
not zero. -/
def OrderKept (d d' : DecimalText) : Prop :=
  if d.negative = d'.negative then
    LengthsTell d d' ∧ (d.negative → lengthDiff d d' ≠ -2 ^ 31)
  else ¬ (d.value = 0 ∧ d'.value = 0)

/-- The values of an `int`. -/
def IsInt (c : Int) : Prop := -2 ^ 31 ≤ c ∧ c < 2 ^ 31

instance (c : Int) : Decidable (IsInt c) := inferInstanceAs (Decidable (-2 ^ 31 ≤ c ∧ c < 2 ^ 31))

theorem compare_isByteDifference (lhs rhs : Bytes) :
    -256 < StringManager.compare lhs rhs ∧ StringManager.compare lhs rhs < 256 := by
  induction lhs generalizing rhs with
  | nil =>
    cases rhs with
    | nil => decide
    | cons d rhs =>
      have hd := d.toNat_lt
      rw [StringManager.compare]
      omega
  | cons c lhs ih =>
    have hc := c.toNat_lt
    cases rhs with
    | nil =>
      rw [StringManager.compare]
      omega
    | cons d rhs =>
      have hd := d.toNat_lt
      have hrest := ih rhs
      rw [StringManager.compare]
      split_ifs
      all_goals omega

theorem magnitudeDiff_of_ne {lhs rhs : Bytes} (h : narrow (findPoint lhs - findPoint rhs) ≠ 0) :
    magnitudeDiff lhs rhs = narrow (findPoint lhs - findPoint rhs) := by
  rw [magnitudeDiff, if_pos h]

theorem lengthDiff_bounds (d d' : DecimalText) :
    -2 ^ 31 ≤ lengthDiff d d' ∧ lengthDiff d d' < 2 ^ 31 := by
  unfold lengthDiff
  rw [Int.bmod_def]
  omega

/-- The first difference is an `int`, and the least one only as a difference of lengths. -/
theorem magnitudeDiff_bounds {lhs rhs : Bytes} {δ : Int}
    (hδ : narrow (findPoint lhs - findPoint rhs) = δ) (hbounds : -2 ^ 31 ≤ δ ∧ δ < 2 ^ 31) :
    (-2 ^ 31 ≤ magnitudeDiff lhs rhs ∧ magnitudeDiff lhs rhs < 2 ^ 31) ∧
      (magnitudeDiff lhs rhs = -2 ^ 31 ↔ δ = -2 ^ 31) := by
  have hint := compare_isByteDifference (lhs.take (findPoint lhs).toNat)
    (rhs.take (findPoint lhs).toNat)
  have hrest := compare_isByteDifference (lhs.drop (findPoint lhs).toNat)
    (rhs.drop (findPoint lhs).toNat)
  unfold magnitudeDiff strncmp
  rw [hδ]
  split_ifs
  all_goals omega

theorem isNegative_text (d : DecimalText) : isNegative d.text = d.negative := by
  rw [isNegative, Bool.eq_iff_iff, decide_eq_true_iff, head_text]

section

variable (h : d.IsNormal) (h' : d'.IsNormal) (hlt : d.text.length < 2 ^ 64)
  (hlt' : d'.text.length < 2 ^ 64)

include h h' hlt hlt'

/-- With one sign, the first difference has the sign of the numbers exactly when the lengths tell
which one is longer. -/
theorem magnitudeDiff_tells_iff (hsign : d.negative = d'.negative) :
    (magnitudeDiff d.text d'.text < 0 ↔ d.magnitude < d'.magnitude) ∧
      (0 < magnitudeDiff d.text d'.text ↔ d'.magnitude < d.magnitude) ↔ LengthsTell d d' := by
  have hnarrow := narrow_findPoint h h' hlt hlt' hsign
  have hless : d.integer.length < d'.integer.length → d.magnitude < d'.magnitude :=
    magnitude_lt_of_length h' h.length_pos
  have hmore : d'.integer.length < d.integer.length → d'.magnitude < d.magnitude :=
    magnitude_lt_of_length h h'.length_pos
  have hequal : d.integer.length = d'.integer.length → lengthDiff d d' = 0 := by
    intro hlength
    rw [lengthDiff, hlength, Int.sub_self]
    rfl
  rcases lt_trichotomy (lengthDiff d d') 0 with hneg | hzero | hpos
  · -- the first number counts as the shorter one
    rw [magnitudeDiff_of_ne (by omega), hnarrow]
    constructor
    · rintro ⟨hlt, -⟩
      have hM := hlt.mp hneg
      have hfewer : d.integer.length < d'.integer.length := by
        rcases lt_trichotomy d.integer.length d'.integer.length with hlength | hlength | hlength
        · exact hlength
        · exact absurd (hequal hlength) hneg.ne
        · exact absurd hM (hmore hlength).asymm
      exact ⟨fun hpos => absurd hpos hneg.asymm, fun _ => hfewer, fun hzero => absurd hzero hneg.ne,
        fun hzero => absurd hzero hneg.ne⟩
    · intro htell
      have hM := hless (htell.fewer hneg)
      exact ⟨iff_of_true hneg hM, iff_of_false hneg.asymm hM.asymm⟩
  · -- the numbers count as equally long
    obtain ⟨hlt, hgt⟩ := magnitudeDiff_iff_unsigned h h' hsign (hnarrow.trans hzero)
    rw [hlt, hgt]
    rcases lt_trichotomy d.integer.length d'.integer.length with hlength | hlength | hlength
    · obtain ⟨hfront, hfront'⟩ := unsigned_lt_iff_of_length hlength
      have hM := hless hlength
      rw [hfront, hfront']
      constructor
      · rintro ⟨hle, -⟩
        exact ⟨fun hpos => absurd hzero hpos.ne', fun hneg => absurd hzero hneg.ne,
          fun _ _ => hle.mpr hM, fun _ hlonger => absurd hlonger hlength.asymm⟩
      · intro htell
        have hle := htell.shorter hzero hlength
        exact ⟨iff_of_true hle hM, iff_of_false (not_lt.mpr hle) hM.asymm⟩
    · rw [unsigned_lt_iff h h' hlength, unsigned_lt_iff h' h hlength.symm]
      apply iff_of_true ⟨Iff.rfl, Iff.rfl⟩
      exact ⟨fun hpos => absurd hzero hpos.ne', fun hneg => absurd hzero hneg.ne,
        fun _ hshorter => absurd hlength hshorter.ne, fun _ hlonger => absurd hlength hlonger.ne'⟩
    · obtain ⟨hfront, hfront'⟩ := unsigned_lt_iff_of_length hlength
      have hM := hmore hlength
      rw [hfront, hfront']
      constructor
      · rintro ⟨-, hle⟩
        exact ⟨fun hpos => absurd hzero hpos.ne', fun hneg => absurd hzero hneg.ne,
          fun _ hshorter => absurd hshorter hlength.asymm, fun _ _ => hle.mpr hM⟩
      · intro htell
        have hle := htell.longer hzero hlength
        exact ⟨iff_of_false (not_lt.mpr hle) hM.asymm, iff_of_true hle hM⟩
  · -- the first number counts as the longer one
    rw [magnitudeDiff_of_ne (by omega), hnarrow]
    constructor
    · rintro ⟨-, hgt⟩
      have hM := hgt.mp hpos
      have hlonger : d'.integer.length < d.integer.length := by
        rcases lt_trichotomy d.integer.length d'.integer.length with hlength | hlength | hlength
        · exact absurd hM (hless hlength).asymm
        · exact absurd (hequal hlength) hpos.ne'
        · exact hlength
      exact ⟨fun _ => hlonger, fun hneg => absurd hneg hpos.asymm, fun hzero => absurd hzero hpos.ne',
        fun hzero => absurd hzero hpos.ne'⟩
    · intro htell
      have hM := hmore (htell.more hpos)
      exact ⟨iff_of_false hpos.asymm hM.asymm, iff_of_true hpos hM⟩

/-- The sign of the comparison of two texts is the order of their numbers exactly when it is kept. -/
theorem compareDecimal_tells_iff : IsInt (compareDecimal d.text d'.text) ∧
    (compareDecimal d.text d'.text < 0 ↔ d.value < d'.value) ∧
    (0 < compareDecimal d.text d'.text ↔ d'.value < d.value) ↔ OrderKept d d' := by
  have hmagnitude := magnitude_nonneg d
  have hmagnitude' := magnitude_nonneg d'
  rw [compareDecimal_eq, isNegative_text, isNegative_text, OrderKept]
  by_cases hsign : d.negative = d'.negative
  · rw [if_pos hsign, if_pos hsign, ← magnitudeDiff_tells_iff h h' hlt hlt' hsign]
    have hbounds := magnitudeDiff_bounds (narrow_findPoint h h' hlt hlt' hsign)
      (lengthDiff_bounds d d')
    rw [value_eq_magnitude, value_eq_magnitude, ← hsign]
    cases d.negative with
    | false =>
      simp only [Bool.false_eq_true, if_false, one_mul, false_implies, and_true]
      exact and_iff_right hbounds.1
    | true =>
      have hint : IsInt (-magnitudeDiff d.text d'.text) ↔ lengthDiff d d' ≠ -2 ^ 31 := by
        unfold IsInt
        omega
      rw [if_pos rfl, if_pos rfl, hint, neg_one_mul, neg_one_mul, neg_lt_neg_iff, neg_lt_neg_iff,
        Left.neg_neg_iff, Left.neg_pos_iff]
      constructor
      · rintro ⟨hne, hpos, hneg⟩
        exact ⟨⟨hneg, hpos⟩, fun _ => hne⟩
      · rintro ⟨⟨hneg, hpos⟩, hne⟩
        exact ⟨hne rfl, hpos, hneg⟩
  · rw [if_neg hsign, if_neg hsign]
    cases hd : d.negative with
    | false =>
      have hd' : d'.negative = true := by simpa [hd] using hsign
      rw [if_neg Bool.false_ne_true, and_comm (b := d'.value = 0), ← value_lt_iff_of_signs hd' hd]
      constructor
      · exact fun htells => htells.2.2.mp one_pos
      · exact fun hlt => ⟨by decide, iff_of_false (by decide) hlt.asymm, iff_of_true one_pos hlt⟩
    | true =>
      have hd' : d'.negative = false := by simpa [hd] using hsign
      rw [if_pos rfl, ← value_lt_iff_of_signs hd hd']
      constructor
      · exact fun htells => htells.2.1.mp (by decide)
      · exact fun hlt => ⟨by decide, iff_of_true (by decide) hlt, iff_of_false (by decide) hlt.asymm⟩

end

/-- A decimal in normal form that is held inlined, externally or as a temporary.  A string has fewer
than 2^64 characters. -/
structure HeldDecimal (strings : RdfStrings) where
  object : GraphObject
  form : DecimalText
  type : object.type.complexType = .decimal
  text : object.decimalString strings = form.text
  normal : form.IsNormal
  length : form.text.length < 2 ^ 64

/-- The sign of `compare_rdf` is the order of the numbers exactly when it is kept. -/
theorem compareRdf_decimal_iff {strings : RdfStrings} (a b : HeldDecimal strings) :
    (∃ c, compareRdf strings a.object b.object = .ok c ∧ IsInt c ∧
      (c < 0 ↔ a.form.value < b.form.value) ∧ (0 < c ↔ b.form.value < a.form.value)) ↔
    OrderKept a.form b.form := by
  rw [← compareDecimal_tells_iff a.normal b.normal a.length b.length,
    compareRdf_decimal (a.type.trans b.type.symm) a.type, a.text, b.text]
  constructor
  · rintro ⟨c, hc, htells⟩
    rw [Except.ok.inj hc]
    exact htells
  · exact fun htells => ⟨_, rfl, htells⟩

def inlinedZero (negative : Bool) : HeldDecimal twoLanguages where
  object := ⟨DecimalInlined.getDecimalId (if negative then [45, 48, 46, 48] else [48, 46, 48]),
    .decimalInlined⟩
  form := (if negative then negativeZero else zero).normalized
  type := rfl
  text := by cases negative <;> decide
  normal := by
    unfold IsNormal
    cases negative <;> decide
  length := by cases negative <;> decide

/-- -0.0 is sorted before 0.0. -/
theorem compareRdf_zeros :
    compareRdf twoLanguages (inlinedZero true).object (inlinedZero false).object = .ok (-1) ∧
      (inlinedZero true).form.value = (inlinedZero false).form.value ∧
      ¬ ∀ (strings : RdfStrings) (a b : HeldDecimal strings), ∃ c,
        compareRdf strings a.object b.object = .ok c ∧ IsInt c ∧
          (c < 0 ↔ a.form.value < b.form.value) ∧ (0 < c ↔ b.form.value < a.form.value) := by
  have hzero : ∀ negative, (inlinedZero negative).form.value = 0 := fun negative =>
    (value_parts _).1.mpr (by cases negative <;> decide)
  have hvalue := (hzero true).trans (hzero false).symm
  have hcompare : compareRdf twoLanguages (inlinedZero true).object (inlinedZero false).object =
      .ok (-1) := by
    rw [compareRdf_decimal ((inlinedZero true).type.trans (inlinedZero false).type.symm)
      (inlinedZero true).type]
    exact congrArg Except.ok (by decide)
  refine ⟨hcompare, hvalue, fun h => ?_⟩
  obtain ⟨c, hc, -, hneg, -⟩ := h twoLanguages (inlinedZero true) (inlinedZero false)
  rw [hcompare] at hc
  obtain rfl := Except.ok.inj hc
  exact absurd (hneg.mp (by decide)) (by rw [hvalue]; exact lt_irrefl _)

end GraphObjectManager
end MillenniumDB
