import MillenniumDB.GraphObjects

/-!
# When `compare` is an order of values

Two edges always compare as equal, a difference of ids is cut down to 32 bits, texts are compared
up to their first zero whatever they are texts of, and integers are compared as doubles.  Exactly
the sets of objects that meet none of this are ordered as they should be.
-/

namespace MillenniumDB
namespace GraphObjectManager

/-- Strings are one group, and so are numbers; other types are groups of their own. -/
def group (type : GraphObjectType) : Nat :=
  if type.isString then GraphObjectType.strInlined.number
  else if type.isNumeric then GraphObjectType.int.number
  else type.number

abbrev Place := Nat ×ₗ List Nat ×ₗ WithBot (WithTop ℚ) ×ₗ Nat

def idKey (object : GraphObject) : Nat :=
  match object.type with
  | .anon | .path | .edge => object.encodedValue.toNat
  | .bool => object.getBool.toNat
  | _ => 0

def place (strings : Strings) (object : GraphObject) : Place :=
  toLex (group object.type,
    toLex (if object.type.isString then StringManager.textKey (object.text strings) else [],
      toLex (if object.type.isNumeric then object.numeric.key else ⊥, idKey object)))

/-- The result of `compare` on objects of the quad model. -/
def comparison (strings : Strings) (lhs rhs : QuadObject) : Int :=
  if group lhs.1.type = group rhs.1.type then
    if lhs.1.type.isString then
      StringManager.compare (lhs.1.text strings) (rhs.1.text strings)
    else if lhs.1.type.isNumeric then compareNumeric lhs.1.numeric rhs.1.numeric
    else if lhs.1.type = .anon ∨ lhs.1.type = .path then
      narrow (lhs.1.encodedValue - rhs.1.encodedValue)
    else if lhs.1.type = .bool then (lhs.1.getBool.toNat : Int) - rhs.1.getBool.toNat
    else 0
  else if group lhs.1.type < group rhs.1.type then -1 else 1

set_option maxRecDepth 10000 in
theorem group_cases : ∀ t ∈ GraphObjectType.all, ∀ u ∈ GraphObjectType.all, t.isQuad → u.isQuad →
    (group t = group u ↔ t.isString ∧ u.isString ∨ t.isNumeric ∧ u.isNumeric ∨ t = u) ∧
      (group t ≠ group u → (t.number < u.number ↔ group t < group u)) := by
  decide +kernel

section

variable {strings : Strings} {lhs rhs : QuadObject}

theorem compareNumeric_self (d : Double) : compareNumeric d d = 0 := by
  cases d with
  | nan => rfl
  | infinity negative => cases negative <;> rfl
  | finite value => simp [compareNumeric, Double.lt]

theorem compare_text_self (text : Bytes) : StringManager.compare text text = 0 :=
  (StringManager.compare_eq_zero_iff text text).mpr rfl

theorem narrow_zero : narrow 0 = 0 := by
  unfold narrow
  simp

theorem narrow_self (id : UInt64) : narrow (id - id) = 0 := by
  rw [UInt64.sub_self, narrow_zero]

theorem comparison_self (object : QuadObject) : comparison strings object object = 0 := by
  rw [comparison, if_pos rfl]
  split_ifs
  · exact compare_text_self _
  · exact compareNumeric_self _
  · exact narrow_self _
  · exact Int.sub_self _
  · rfl

theorem not_isNumeric_of_isString {t : GraphObjectType} (h : t.isString) : ¬ t.isNumeric := by
  cases t <;> simp_all [GraphObjectType.isString, GraphObjectType.isNumeric]

theorem group_eq_iff : group lhs.1.type = group rhs.1.type ↔
    lhs.1.type.isString ∧ rhs.1.type.isString ∨ lhs.1.type.isNumeric ∧ rhs.1.type.isNumeric ∨
      lhs.1.type = rhs.1.type :=
  (group_cases _ (GraphObjectType.mem_all _) _ (GraphObjectType.mem_all _) lhs.2 rhs.2).1

theorem isString_congr (h : group lhs.1.type = group rhs.1.type) :
    lhs.1.type.isString = rhs.1.type.isString := by
  rcases group_eq_iff.mp h with hs | hn | heq
  · rw [hs.1, hs.2]
  · rw [Bool.eq_iff_iff]
    constructor
    · exact fun hs => absurd hn.1 (not_isNumeric_of_isString hs)
    · exact fun hs => absurd hn.2 (not_isNumeric_of_isString hs)
  · rw [heq]

theorem isNumeric_congr (h : group lhs.1.type = group rhs.1.type) :
    lhs.1.type.isNumeric = rhs.1.type.isNumeric := by
  rcases group_eq_iff.mp h with hs | hn | heq
  · rw [Bool.eq_iff_iff]
    constructor
    · exact fun hn => absurd hn (not_isNumeric_of_isString hs.1)
    · exact fun hn => absurd hn (not_isNumeric_of_isString hs.2)
  · rw [hn.1, hn.2]
  · rw [heq]

theorem type_eq_of_group (h : group lhs.1.type = group rhs.1.type) (hs : ¬ lhs.1.type.isString)
    (hn : ¬ lhs.1.type.isNumeric) : lhs.1.type = rhs.1.type := by
  rcases group_eq_iff.mp h with hstring | hnumeric | heq
  · exact absurd hstring.1 hs
  · exact absurd hnumeric.1 hn
  · exact heq

theorem own_cases (object : QuadObject) (hs : ¬ object.1.type.isString)
    (hn : ¬ object.1.type.isNumeric) :
    object.1.type = .nullObj ∨ object.1.type = .notFound ∨ object.1.type = .anon ∨
      object.1.type = .edge ∨ object.1.type = .path ∨ object.1.type = .bool := by
  have h : ∀ t ∈ GraphObjectType.all, t.isQuad → ¬ t.isString → ¬ t.isNumeric →
      t = .nullObj ∨ t = .notFound ∨ t = .anon ∨ t = .edge ∨ t = .path ∨ t = .bool := by
    decide +kernel
  exact h _ (GraphObjectType.mem_all _) object.2 hs hn

/-- `compare` never throws on objects of the quad model, and gives their comparison. -/
theorem compare_eq (strings : Strings) (lhs rhs : QuadObject) :
    compare strings lhs.1 rhs.1 = .ok (comparison strings lhs rhs) := by
  rw [compare]
  split_ifs with hsame hstring hnumeric htype hlt
  · have heq : lhs = rhs := by
      apply Subtype.ext
      exact GraphObject.ext hsame.2 hsame.1
    rw [heq, comparison_self]
  · rw [comparison, if_pos (group_eq_iff.mpr (.inl hstring)), if_pos hstring.1]
  · have hnot := fun hs => not_isNumeric_of_isString hs hnumeric.1
    rw [comparison, if_pos (group_eq_iff.mpr (.inr (.inl hnumeric))), if_neg hnot,
      if_pos hnumeric.1]
  · -- a type of its own
    have hs : ¬ lhs.1.type.isString := fun hs => hstring ⟨hs, by rwa [htype]⟩
    have hn : ¬ lhs.1.type.isNumeric := fun hn => hnumeric ⟨hn, by rwa [htype]⟩
    rw [comparison, if_pos (group_eq_iff.mpr (.inr (.inr htype.symm))), if_neg hs, if_neg hn]
    rcases own_cases lhs hs hn with h | h | h | hedge | h | h
    case inr.inr.inr.inl =>
      -- edges are compared with themselves
      rw [hedge, narrow_self]
      rfl
    all_goals simp [h]
  all_goals
    have hgroup : group lhs.1.type ≠ group rhs.1.type := by
      rw [Ne, group_eq_iff]
      tauto
    have hiff := (group_cases _ (GraphObjectType.mem_all _) _ (GraphObjectType.mem_all _)
      lhs.2 rhs.2).2 hgroup
    rw [comparison, if_neg hgroup]
  · rw [if_pos (hiff.mp hlt)]
  · rw [if_neg (fun h => hlt (hiff.mpr h))]

end

/-- A comparator orders the values of the objects: it is a total preorder in which only the same
values are equal, and edges, anonymous nodes and paths come as their ids do. -/
structure OrdersValues (strings : Strings) (s : Set QuadObject)
    (cmp : QuadObject → QuadObject → Int) : Prop where
  preorder : Comparator.TotalPreorder cmp s
  eq_zero_iff : ∀ a ∈ s, ∀ b ∈ s, cmp a b = 0 ↔ a.1.value strings = b.1.value strings
  ids : ∀ a ∈ s, ∀ b ∈ s, a.1.type = b.1.type →
    a.1.type = .edge ∨ a.1.type = .anon ∨ a.1.type = .path →
      (cmp a b < 0 ↔ a.1.encodedValue < b.1.encodedValue) ∧
        (a.1.encodedValue ≠ b.1.encodedValue → cmp a b ≠ 0)

/-- The objects that `compare` can tell apart. -/
structure Tame (strings : Strings) (s : Set QuadObject) : Prop where
  /-- There is at most one edge. -/
  edges : ∀ a ∈ s, ∀ b ∈ s, a.1.type = .edge → b.1.type = .edge →
    a.1.encodedValue = b.1.encodedValue
  /-- The ids of anonymous nodes, and those of paths, are less than half of 2^32 apart. -/
  ids : ∀ a ∈ s, ∀ b ∈ s, a.1.type = b.1.type → a.1.type = .anon ∨ a.1.type = .path →
    a.1.encodedValue < b.1.encodedValue →
      0 < (b.1.encodedValue - a.1.encodedValue).toNat % 2 ^ 32 ∧
        (b.1.encodedValue - a.1.encodedValue).toNat % 2 ^ 32 < 2 ^ 31
  /-- Strings and names with the same text up to the first zero are the same. -/
  texts : ∀ a ∈ s, ∀ b ∈ s, a.1.type.isString → b.1.type.isString →
    cString (a.1.text strings) = cString (b.1.text strings) → a.1.value strings = b.1.value strings
  /-- With a number that is none there are no others. -/
  nan : ∀ a ∈ s, ∀ b ∈ s, a.1.type.isNumeric → b.1.type.isNumeric → a.1.numeric = .nan →
    b.1.numeric = .nan
  /-- Numbers with the same double are the same. -/
  numbers : ∀ a ∈ s, ∀ b ∈ s, a.1.type.isNumeric → b.1.type.isNumeric →
    a.1.numeric = b.1.numeric → a.1.value strings = b.1.value strings

section

variable {strings : Strings} {s : Set QuadObject} {a b : QuadObject}

theorem comparison_string (ha : a.1.type.isString) (hb : b.1.type.isString) :
    comparison strings a b = StringManager.compare (a.1.text strings) (b.1.text strings) := by
  rw [comparison, if_pos (group_eq_iff.mpr (.inl ⟨ha, hb⟩)), if_pos ha]

theorem comparison_numeric (ha : a.1.type.isNumeric) (hb : b.1.type.isNumeric) :
    comparison strings a b = compareNumeric a.1.numeric b.1.numeric := by
  rw [comparison, if_pos (group_eq_iff.mpr (.inr (.inl ⟨ha, hb⟩))),
    if_neg fun hs => not_isNumeric_of_isString hs ha, if_pos ha]

theorem comparison_ids (heq : a.1.type = b.1.type) (ha : a.1.type = .anon ∨ a.1.type = .path) :
    comparison strings a b = narrow (a.1.encodedValue - b.1.encodedValue) := by
  rw [comparison, if_pos (group_eq_iff.mpr (.inr (.inr heq)))]
  rcases ha with ha | ha <;> simp [ha, GraphObjectType.isString, GraphObjectType.isNumeric]

theorem comparison_edges (ha : a.1.type = .edge) (hb : b.1.type = .edge) :
    comparison strings a b = 0 := by
  rw [comparison, if_pos (group_eq_iff.mpr (.inr (.inr (ha.trans hb.symm))))]
  simp [ha, GraphObjectType.isString, GraphObjectType.isNumeric]

theorem narrow_neg_iff (x : UInt64) : narrow x < 0 ↔ 2 ^ 31 ≤ x.toNat % 2 ^ 32 := by
  unfold narrow
  simp only [Int.bmod_def, Nat.reducePow, Nat.cast_ofNat]
  omega

theorem narrow_pos_iff (x : UInt64) :
    0 < narrow x ↔ 0 < x.toNat % 2 ^ 32 ∧ x.toNat % 2 ^ 32 < 2 ^ 31 := by
  unfold narrow
  simp only [Int.bmod_def, Nat.reducePow, Nat.cast_ofNat]
  omega

theorem mod_sub_comm (x y : UInt64) :
    ((x - y).toNat % 2 ^ 32 + (y - x).toNat % 2 ^ 32) % 2 ^ 32 = 0 := by
  have hx := x.toNat_lt
  have hy := y.toNat_lt
  rw [UInt64.toNat_sub, UInt64.toNat_sub]
  omega

theorem compareNumeric_iff {d e : Double} (hd : d ≠ .nan) (he : e ≠ .nan) :
    (compareNumeric d e < 0 ↔ d.key < e.key) ∧ (0 < compareNumeric d e ↔ e.key < d.key) := by
  have hde := Double.lt_iff hd he
  have hed := Double.lt_iff he hd
  rw [← hde, ← hed, compareNumeric]
  split_ifs with hlt hgt
  · have hnot : ¬ e.lt d = true := by
      rw [hed]
      exact (hde.mp hlt).asymm
    simp [hlt, hnot]
  · simp [hlt, hgt]
  · simp [hlt, hgt]

theorem compareNumeric_nan {d e : Double} (hd : d = .nan ∨ e = .nan) : compareNumeric d e = 0 := by
  rcases hd with rfl | rfl
  · rw [compareNumeric, Double.lt_nan_left, Double.lt_nan_right]
    rfl
  · rw [compareNumeric, Double.lt_nan_left, Double.lt_nan_right]
    rfl

theorem idKey_eq_zero {object : GraphObject} (h : object.type.isString ∨ object.type.isNumeric) :
    idKey object = 0 := by
  rw [idKey]
  cases htype : object.type
  all_goals first
    | rfl
    | rw [htype] at h
      exact absurd h (by decide)

theorem place_lt_of_string (ha : a.1.type.isString) (hb : b.1.type.isString) :
    place strings a.1 < place strings b.1 ↔
      StringManager.textKey (a.1.text strings) < StringManager.textKey (b.1.text strings) := by
  have hid : ∀ object : GraphObject, object.type.isString → idKey object = 0 := by
    intro object h
    exact idKey_eq_zero (.inl h)
  have hgroup : group a.1.type = group b.1.type := group_eq_iff.mpr (.inl ⟨ha, hb⟩)
  simp [place, Prod.Lex.toLex_lt_toLex, hgroup, ha, hb, hid, not_isNumeric_of_isString]

theorem place_lt_of_numeric (ha : a.1.type.isNumeric) (hb : b.1.type.isNumeric) :
    place strings a.1 < place strings b.1 ↔ a.1.numeric.key < b.1.numeric.key := by
  have hid : ∀ object : GraphObject, object.type.isNumeric → idKey object = 0 := by
    intro object h
    exact idKey_eq_zero (.inr h)
  have hstring : ∀ t : GraphObjectType, t.isNumeric → ¬ t.isString :=
    fun t hn hs => not_isNumeric_of_isString hs hn
  have hgroup : group a.1.type = group b.1.type := group_eq_iff.mpr (.inr (.inl ⟨ha, hb⟩))
  simp [place, Prod.Lex.toLex_lt_toLex, hgroup, ha, hb, hid, hstring]

theorem place_lt_of_type (heq : a.1.type = b.1.type) (hs : ¬ a.1.type.isString)
    (hn : ¬ a.1.type.isNumeric) :
    place strings a.1 < place strings b.1 ↔ idKey a.1 < idKey b.1 := by
  rw [heq] at hs hn
  simp [place, Prod.Lex.toLex_lt_toLex, heq, hs, hn]

theorem place_lt_of_group (h : group a.1.type ≠ group b.1.type) :
    place strings a.1 < place strings b.1 ↔ group a.1.type < group b.1.type := by
  simp [place, Prod.Lex.toLex_lt_toLex, h]

theorem Tame.narrow_iff (h : Tame strings s) (ha : a ∈ s) (hb : b ∈ s)
    (heq : a.1.type = b.1.type) (htype : a.1.type = .anon ∨ a.1.type = .path) :
    (narrow (a.1.encodedValue - b.1.encodedValue) < 0 ↔ a.1.encodedValue < b.1.encodedValue) ∧
      (0 < narrow (a.1.encodedValue - b.1.encodedValue) ↔
        b.1.encodedValue < a.1.encodedValue) := by
  have hcomm := mod_sub_comm a.1.encodedValue b.1.encodedValue
  have hab := h.ids a ha b hb heq htype
  have hba := h.ids b hb a ha heq.symm (heq ▸ htype)
  rw [narrow_neg_iff, narrow_pos_iff]
  rw [UInt64.lt_iff_toNat_lt] at hab hba ⊢
  rw [UInt64.lt_iff_toNat_lt]
  rcases Nat.lt_trichotomy a.1.encodedValue.toNat b.1.encodedValue.toNat with hlt | hsame | hlt
  · have := hab hlt
    omega
  · rw [UInt64.toNat_inj] at hsame
    rw [hsame, UInt64.sub_self]
    simp
  · have := hba hlt
    omega

theorem Tame.sign_of_type (h : Tame strings s) (ha : a ∈ s) (hb : b ∈ s)
    (heq : a.1.type = b.1.type) (hs : ¬ a.1.type.isString) (hn : ¬ a.1.type.isNumeric) :
    (comparison strings a b < 0 ↔ idKey a.1 < idKey b.1) ∧
      (0 < comparison strings a b ↔ idKey b.1 < idKey a.1) := by
  by_cases hids : a.1.type = .anon ∨ a.1.type = .path
  · have hkey : ∀ object : QuadObject, object.1.type = .anon ∨ object.1.type = .path →
        idKey object.1 = object.1.encodedValue.toNat := by
      intro object hobject
      rw [idKey]
      rcases hobject with hobject | hobject <;> rw [hobject]
    rw [comparison_ids heq hids, hkey a hids, hkey b (heq ▸ hids), ← UInt64.lt_iff_toNat_lt,
      ← UInt64.lt_iff_toNat_lt]
    exact h.narrow_iff ha hb heq hids
  · by_cases hedge : a.1.type = .edge
    · have hsame := h.edges a ha b hb hedge (heq ▸ hedge)
      rw [comparison_edges hedge (heq ▸ hedge), idKey, idKey, ← heq, hedge, hsame]
      simp
    · rw [comparison, if_pos (group_eq_iff.mpr (.inr (.inr heq))), if_neg hs, if_neg hn,
        if_neg hids, idKey, idKey, ← heq]
      by_cases hbool : a.1.type = .bool
      · rw [if_pos hbool, hbool]
        show ((a.1.getBool.toNat : Int) - b.1.getBool.toNat < 0 ↔ _) ∧ _
        dsimp only
        omega
      · rw [if_neg hbool]
        rcases own_cases a hs hn with h | h | h | h | h | h
        all_goals simp_all

theorem Tame.sign_comparison (h : Tame strings s) (ha : a ∈ s) (hb : b ∈ s) :
    (comparison strings a b < 0 ↔ place strings a.1 < place strings b.1) ∧
      (0 < comparison strings a b ↔ place strings b.1 < place strings a.1) := by
  by_cases hgroup : group a.1.type = group b.1.type
  · by_cases hsa : a.1.type.isString
    · have hsb : b.1.type.isString := isString_congr hgroup ▸ hsa
      rw [comparison_string hsa hsb, place_lt_of_string hsa hsb, place_lt_of_string hsb hsa]
      exact StringManager.compare_iff _ _
    · by_cases hna : a.1.type.isNumeric
      · have hnb : b.1.type.isNumeric := isNumeric_congr hgroup ▸ hna
        rw [comparison_numeric hna hnb, place_lt_of_numeric hna hnb, place_lt_of_numeric hnb hna]
        by_cases hnan : a.1.numeric = .nan
        · rw [compareNumeric_nan (.inl hnan), hnan, h.nan a ha b hb hna hnb hnan]
          simp
        · refine compareNumeric_iff hnan fun hnan' => hnan ?_
          exact h.nan b hb a ha hnb hna hnan'
      · have heq : a.1.type = b.1.type := type_eq_of_group hgroup hsa hna
        rw [place_lt_of_type heq hsa hna, place_lt_of_type heq.symm (heq ▸ hsa) (heq ▸ hna)]
        exact h.sign_of_type ha hb heq hsa hna
  · rw [comparison, if_neg hgroup, place_lt_of_group hgroup, place_lt_of_group (Ne.symm hgroup)]
    split_ifs with hlt
    · simp [hlt, hlt.le]
    · simp [hlt, lt_of_le_of_ne (not_lt.mp hlt) (Ne.symm hgroup)]

theorem Tame.follows (h : Tame strings s) :
    Comparator.Follows (comparison strings) (fun object => place strings object.1) s where
  neg _ ha _ hb := (h.sign_comparison ha hb).1
  pos _ ha _ hb := (h.sign_comparison ha hb).2

theorem value_of_numeric (h : a.1.type.isNumeric) : a.1.value strings =
    .number (if a.1.type = .int then .finite a.1.getInt else a.1.getFloat) := by
  rw [GraphObject.value]
  cases hcases : a.1.type with
  | int => rw [if_pos rfl]
  | float => rw [if_neg (by decide)]
  | _ =>
    rw [hcases] at h
    exact absurd h (by decide)

theorem value_eq_nan_iff (h : a.1.type.isNumeric) :
    a.1.value strings = .number .nan ↔ a.1.numeric = .nan := by
  rw [value_of_numeric h, GraphObject.numeric]
  split_ifs with hint
  · refine iff_of_false (fun heq => ?_) (fun heq => ?_)
    · cases heq
    · cases heq
  · exact ⟨fun heq => Value.number.inj heq, congrArg Value.number⟩

theorem numeric_eq_of_value_eq (ha : a.1.type.isNumeric) (hb : b.1.type.isNumeric)
    (h : a.1.value strings = b.1.value strings) : a.1.numeric = b.1.numeric := by
  rw [value_of_numeric ha, value_of_numeric hb] at h
  replace h := Value.number.inj h
  rw [GraphObject.numeric, GraphObject.numeric]
  split_ifs at h ⊢
  · rw [show a.1.getInt = b.1.getInt from Int.cast_injective (Double.finite.inj h)]
  · rw [← h]
    exact Double.ofInt_of_ofFloatBits h.symm
  · rw [h]
    exact (Double.ofInt_of_ofFloatBits h).symm
  · exact h

def valueGroup : Value → Nat
  | .null => group .nullObj
  | .notFound => group .notFound
  | .anon _ => group .anon
  | .named _ | .string _ => group .strInlined
  | .edge _ => group .edge
  | .path _ => group .path
  | .bool _ => group .bool
  | .number _ => group .int

def valueText : Value → Bytes
  | .named text | .string text => text
  | _ => []

theorem valueGroup_value (strings : Strings) (object : QuadObject) :
    valueGroup (object.1.value strings) = group object.1.type := by
  have hquad := object.2
  rw [GraphObject.value]
  cases htype : object.1.type
  all_goals first
    | rfl
    | -- not a type of the quad model
      rw [htype] at hquad
      exact absurd hquad (by decide)

theorem valueText_value (h : a.1.type.isString) :
    valueText (a.1.value strings) = a.1.text strings := by
  rw [GraphObject.value]
  cases htype : a.1.type
  all_goals first
    | rfl
    | rw [htype] at h
      exact absurd h (by decide)

theorem group_eq_of_value_eq (h : a.1.value strings = b.1.value strings) :
    group a.1.type = group b.1.type := by
  rw [← valueGroup_value strings a, h, valueGroup_value strings b]

theorem comparison_of_value_eq (h : a.1.value strings = b.1.value strings) :
    comparison strings a b = 0 := by
  have hgroup := group_eq_of_value_eq h
  by_cases hsa : a.1.type.isString
  · have hsb : b.1.type.isString := isString_congr hgroup ▸ hsa
    have htext : a.1.text strings = b.1.text strings := by
      rw [← valueText_value hsa, h, valueText_value hsb]
    rw [comparison_string hsa hsb, htext, compare_text_self]
  · by_cases hna : a.1.type.isNumeric
    · have hnb : b.1.type.isNumeric := isNumeric_congr hgroup ▸ hna
      rw [comparison_numeric hna hnb, numeric_eq_of_value_eq hna hnb h, compareNumeric_self]
    · have heq : a.1.type = b.1.type := type_eq_of_group hgroup hsa hna
      rw [comparison, if_pos hgroup, if_neg hsa, if_neg hna]
      rw [GraphObject.value, GraphObject.value, ← heq] at h
      clear heq hgroup
      rcases own_cases a hsa hna with hta | hta | hta | hta | hta | hta
      all_goals simp_all [narrow_zero]

theorem Tame.value_eq (h : Tame strings s) (ha : a ∈ s) (hb : b ∈ s)
    (hzero : comparison strings a b = 0) : a.1.value strings = b.1.value strings := by
  have hgroup : group a.1.type = group b.1.type := by
    by_contra hne
    rw [comparison, if_neg hne] at hzero
    split_ifs at hzero
    all_goals omega
  by_cases hsa : a.1.type.isString
  · have hsb : b.1.type.isString := isString_congr hgroup ▸ hsa
    apply h.texts a ha b hb hsa hsb
    rw [comparison_string hsa hsb] at hzero
    exact (StringManager.compare_eq_zero_iff _ _).mp hzero
  · by_cases hna : a.1.type.isNumeric
    · have hnb : b.1.type.isNumeric := isNumeric_congr hgroup ▸ hna
      by_cases hnan : a.1.numeric = .nan
      · have hnan' := h.nan a ha b hb hna hnb hnan
        rw [(value_eq_nan_iff hna).mpr hnan, (value_eq_nan_iff hnb).mpr hnan']
      · have hnan' : b.1.numeric ≠ .nan := fun hnan' => hnan (h.nan b hb a ha hnb hna hnan')
        apply h.numbers a ha b hb hna hnb
        rw [comparison_numeric hna hnb] at hzero
        rw [← Double.key_inj hnan hnan']
        exact (Comparator.eq_zero_iff_of_sign (compareNumeric_iff hnan hnan')).mp hzero
    · have heq : a.1.type = b.1.type := type_eq_of_group hgroup hsa hna
      have hid : idKey a.1 = idKey b.1 :=
        (Comparator.eq_zero_iff_of_sign (h.sign_of_type ha hb heq hsa hna)).mp hzero
      rw [idKey, idKey, ← heq] at hid
      rw [GraphObject.value, GraphObject.value, ← heq]
      clear heq hgroup
      rcases own_cases a hsa hna with hta | hta | hta | hta | hta | hta
      all_goals simp_all [UInt64.toNat_inj]
      -- the same bits
      have hbool : ∀ p q : Bool, p.toNat = q.toNat → p = q := by decide
      exact hbool _ _ hid

/-- `compare` orders the values of a set of objects exactly if the set is tame. -/
theorem ordersValues_iff (strings : Strings) (s : Set QuadObject) :
    (∃ cmp : QuadObject → QuadObject → Int,
      (∀ a ∈ s, ∀ b ∈ s, compare strings a.1 b.1 = .ok (cmp a b)) ∧ OrdersValues strings s cmp) ↔
        Tame strings s := by
  constructor
  · intro ⟨cmp, hcmp, horders⟩
    have heq : ∀ a ∈ s, ∀ b ∈ s, cmp a b = comparison strings a b := by
      intro a ha b hb
      exact Except.ok.inj ((hcmp a ha b hb).symm.trans (compare_eq strings a b))
    have hvalue : ∀ a ∈ s, ∀ b ∈ s, comparison strings a b = 0 →
        a.1.value strings = b.1.value strings := by
      intro a ha b hb hzero
      exact (horders.eq_zero_iff a ha b hb).mp ((heq a ha b hb).trans hzero)
    constructor
    · intro a ha b hb hta htb
      have h := hvalue a ha b hb (comparison_edges hta htb)
      rw [GraphObject.value, GraphObject.value, hta, htb] at h
      exact Value.edge.inj h
    · intro a ha b hb htype hids hlt
      have hab := (horders.ids a ha b hb htype (.inr hids)).1
      have hba := horders.ids b hb a ha htype.symm (.inr (htype ▸ hids))
      rw [heq a ha b hb, comparison_ids htype hids, narrow_neg_iff] at hab
      rw [heq b hb a ha, comparison_ids htype.symm (htype ▸ hids), narrow_neg_iff] at hba
      have hcomm := mod_sub_comm a.1.encodedValue b.1.encodedValue
      have hneg := hab.mpr hlt
      have hnot := mt hba.1.mp (by rw [UInt64.lt_iff_toNat_lt] at hlt ⊢; omega)
      omega
    · intro a ha b hb hsa hsb htext
      apply hvalue a ha b hb
      rw [comparison_string hsa hsb]
      exact (StringManager.compare_eq_zero_iff _ _).mpr htext
    · intro a ha b hb hna hnb hnan
      have h := hvalue a ha b hb
        ((comparison_numeric hna hnb).trans (compareNumeric_nan (.inl hnan)))
      rw [← value_eq_nan_iff hnb, ← h, value_eq_nan_iff hna]
      exact hnan
    · intro a ha b hb hna hnb hsame
      apply hvalue a ha b hb
      rw [comparison_numeric hna hnb, hsame, compareNumeric_self]
  · intro h
    refine ⟨comparison strings, fun a _ b _ => compare_eq strings a b, h.follows.totalPreorder, ?_, ?_⟩
    · intro a ha b hb
      exact ⟨h.value_eq ha hb, comparison_of_value_eq⟩
    · intro a ha b hb htype hids
      rcases hids with hedge | hids
      · have hsame := h.edges a ha b hb hedge (htype ▸ hedge)
        rw [comparison_edges hedge (htype ▸ hedge), hsame, UInt64.lt_iff_toNat_lt]
        simp
      · obtain ⟨hneg, hpos⟩ := h.narrow_iff ha hb htype hids
        rw [comparison_ids htype hids]
        refine ⟨hneg, fun hne hzero => hne ?_⟩
        rw [UInt64.lt_iff_toNat_lt] at hneg hpos
        apply UInt64.toNat_inj.mp
        omega

end

def edgeObject (id : UInt64) : QuadObject := ⟨⟨id, .edge⟩, rfl⟩

/-- Two edges compare as equal. -/
theorem not_ordersValues : ¬ ∀ (strings : Strings) (s : Set QuadObject),
    ∃ cmp : QuadObject → QuadObject → Int,
      (∀ a ∈ s, ∀ b ∈ s, compare strings a.1 b.1 = .ok (cmp a b)) ∧ OrdersValues strings s cmp := by
  intro h
  obtain ⟨cmp, hcmp, horders⟩ := h ⟨fun _ => [], fun _ => []⟩ Set.univ
  have hzero : compare ⟨fun _ => [], fun _ => []⟩ (edgeObject 1).1 (edgeObject 2).1 = .ok 0 := by
    rw [compare_eq, comparison_edges rfl rfl]
  have hsame : cmp (edgeObject 1) (edgeObject 2) = 0 :=
    Except.ok.inj ((hcmp _ trivial _ trivial).symm.trans hzero)
  have hvalue := (horders.eq_zero_iff _ trivial _ trivial).mp hsame
  exact absurd (Value.edge.inj hvalue) (by decide)

end GraphObjectManager
end MillenniumDB
