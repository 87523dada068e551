import MillenniumDB.GraphObjects
import MillenniumDB.WhereConditions

/-!
# Arithmetic in WHERE

The operators on graph objects.  Integers are signed words, so that the result of an operator is
only defined when it is one; the sole guard is the one against a divisor that is zero.  An
expression over integers has its exact value, then, exactly when no operator in it leaves the
range of the words.
-/

namespace MillenniumDB

/-- A value of `int64_t`. -/
def IsInt64 (n : Int) : Prop := -2 ^ 63 ≤ n ∧ n < 2 ^ 63

instance (n : Int) : Decidable (IsInt64 n) := inferInstanceAs (Decidable (_ ∧ _))

namespace GraphObject

def makeNull : GraphObject := ⟨0, .nullObj⟩

def makeInt (n : Int) : GraphObject := ⟨UInt64.ofInt n, .int⟩

def makeFloat (f : Float32) : GraphObject := ⟨f.toBits.toUInt64, .float⟩

/-- `get<float>`, with the operators on it. -/
def getFloat32 (object : GraphObject) : Float32 := .ofBits object.encodedValue.toUInt32

end GraphObject

namespace GraphObjectManager

open GraphObject

/-- `make_int` of the result of an operator on `int64_t`, which is undefined when it is none. -/
def intResult (n : Int) : Option GraphObject := if IsInt64 n then some (makeInt n) else none

/-- The cases that `sum`, `minus` and `multiply` share. -/
def arithmetic (onInts : Int → Int → Int) (onFloats : Float32 → Float32 → Float32)
    (lhs rhs : GraphObject) : Option GraphObject :=
  match lhs.type, rhs.type with
  | .int, .int => intResult (onInts lhs.getInt rhs.getInt)
  | .int, .float => some (makeFloat (onFloats (.ofInt lhs.getInt) rhs.getFloat32))
  | .float, .int => some (makeFloat (onFloats lhs.getFloat32 (.ofInt rhs.getInt)))
  | .float, .float => some (makeFloat (onFloats lhs.getFloat32 rhs.getFloat32))
  | _, _ => some makeNull

def sum : GraphObject → GraphObject → Option GraphObject := arithmetic (· + ·) (· + ·)

def minus : GraphObject → GraphObject → Option GraphObject := arithmetic (· - ·) (· - ·)

def multiply : GraphObject → GraphObject → Option GraphObject := arithmetic (· * ·) (· * ·)

def divide (lhs rhs : GraphObject) : Option GraphObject :=
  match rhs.type with
  | .int =>
    if rhs.getInt = 0 then some makeNull
    else
      match lhs.type with
      | .int => intResult (lhs.getInt.tdiv rhs.getInt)
      | .float => some (makeFloat (lhs.getFloat32 / .ofInt rhs.getInt))
      | _ => some makeNull
  | .float =>
    if rhs.getFloat32 == 0 then some makeNull
    else
      match lhs.type with
      | .int => some (makeFloat (.ofInt lhs.getInt / rhs.getFloat32))
      | .float => some (makeFloat (lhs.getFloat32 / rhs.getFloat32))
      | _ => some makeNull
  | _ => some makeNull

def modulo (lhs rhs : GraphObject) : Option GraphObject :=
  if lhs.type = .int ∧ rhs.type = .int ∧ rhs.getInt ≠ 0 then
    if IsInt64 (lhs.getInt.tdiv rhs.getInt) then some (makeInt (lhs.getInt.tmod rhs.getInt)) else none
  else some makeNull

end GraphObjectManager

namespace Match

open GraphObject GraphObjectManager

/-- The objects of WHERE.  What `O` says about the arithmetic operators is not used. -/
structure WhereObjects (C : Type) extends Objects C GraphObject where
  null_eq : null = makeNull

/-- `BindingExpr::eval` of an operator with two operands. -/
def evalBinary {C : Type} (O : Objects C GraphObject) (op : BinaryOp) (lhs rhs : GraphObject) :
    Option GraphObject :=
  match op with
  | .addition => sum lhs rhs
  | .division => divide lhs rhs
  | .modulo => modulo lhs rhs
  | .multiplication => multiply lhs rhs
  | .subtraction => minus lhs rhs
  | op => some (O.binary op lhs rhs)

/-- `BindingExpr::eval` of an operator with one operand. -/
def evalUnary {C : Type} (O : Objects C GraphObject) (op : UnaryOp) (operand : GraphObject) :
    Option GraphObject :=
  match op with
  | .unaryMinus => multiply operand (makeInt (-1))
  | .unaryPlus => multiply operand (makeInt 1)
  | op => some (O.unary op operand)

/-- The values of expressions, where `none` stands for an evaluation that is undefined. -/
def WhereObjects.checked {C : Type} (O : WhereObjects C) : Objects C (Option GraphObject) where
  graphObject n := some (O.graphObject n)
  constant c := some (O.constant c)
  null := some O.null
  bool b := some (O.bool b)
  binary op lhs rhs := lhs.bind fun v => rhs.bind fun w => evalBinary O.toObjects op v w
  unary op operand := operand.bind fun v => evalUnary O.toObjects op v
  true_ne_false := by simpa using O.true_ne_false
  null_ne_true := by simpa using O.null_ne_true
  constant_ne_null := by simpa using O.constant_ne_null

def integer (object : GraphObject) : Option Int :=
  if object.type = .int then some object.getInt else none

def ofExact (n : Option Int) : GraphObject := n.elim makeNull makeInt

namespace BinaryOp

def exact : BinaryOp → Int → Int → Option Int
  | addition, a, b => some (a + b)
  | subtraction, a, b => some (a - b)
  | multiplication, a, b => some (a * b)
  | division, a, b => if b = 0 then none else some (a.tdiv b)
  | modulo, a, b => if b = 0 then none else some (a.tmod b)
  | _, _, _ => none

/-- The sum, the difference, the product or the quotient is an `int64_t`. -/
def Fits : BinaryOp → Int → Int → Prop
  | addition, a, b => IsInt64 (a + b)
  | subtraction, a, b => IsInt64 (a - b)
  | multiplication, a, b => IsInt64 (a * b)
  | division, a, b => IsInt64 (a.tdiv b)
  | modulo, a, b => IsInt64 (a.tdiv b)
  | _, _, _ => True

def IsArithmetic : BinaryOp → Prop
  | addition | subtraction | multiplication | division | modulo => True
  | _ => False

end BinaryOp

namespace Expr

variable {C : Type}

/-- An expression built with arithmetic operators from integer constants and from properties of
the row that are integers or not there. -/
def Integer (O : WhereObjects C) (r : Binding) : Expr C → Prop
  | varProperty x key => r.properties (x, key) = none ∨
      (O.value (r.properties (x, key))).type = .int
  | constant c => (O.constant c).type = .int
  | binary op lhs rhs => op.IsArithmetic ∧ Integer O r lhs ∧ Integer O r rhs
  | unary .unaryMinus e => Integer O r e
  | unary .unaryPlus e => Integer O r e
  | _ => False

/-- The exact value, null (`none`) where an operand is null or a divisor is zero. -/
def exact (O : WhereObjects C) (r : Binding) : Expr C → Option Int
  | varProperty x key => integer (O.value (r.properties (x, key)))
  | constant c => integer (O.constant c)
  | binary op lhs rhs => (exact O r lhs).bind fun a => (exact O r rhs).bind fun b => op.exact a b
  | unary .unaryMinus e => (exact O r e).map (-·)
  | unary .unaryPlus e => exact O r e
  | _ => none

/-- No operator leaves the range of `int64_t` on the exact values of its operands. -/
def Fits (O : WhereObjects C) (r : Binding) : Expr C → Prop
  | binary op lhs rhs => Fits O r lhs ∧ Fits O r rhs ∧
      ∀ a ∈ exact O r lhs, ∀ b ∈ exact O r rhs, op.Fits a b
  | unary .unaryMinus e => Fits O r e ∧ ∀ a ∈ exact O r e, IsInt64 (-a)
  | unary .unaryPlus e => Fits O r e
  | _ => True

/-- The evaluation of the translated expression is defined, and it gives null or the exact
integer. -/
def EvaluatesExactly (O : WhereObjects C) (r : Binding) (e : Expr C) : Prop :=
  ∀ canPushOutside, ∃ v,
    (Expr2BindingExpr.visit canPushOutside e).1.eval O.checked r = some (some v) ∧
      match exact O r e with
      | none => v = makeNull
      | some n => v.type = .int ∧ v.getInt = n

end Expr

theorem isInt64_getInt (object : GraphObject) : IsInt64 object.getInt := by
  have hlow := Int.le_bmod (x := object.encodedValue.toNat) (Nat.two_pow_pos 64)
  have hhigh := Int.bmod_lt (x := object.encodedValue.toNat) (Nat.two_pow_pos 64)
  unfold IsInt64 GraphObject.getInt
  omega

theorem getInt_makeInt {n : Int} (h : IsInt64 n) : (makeInt n).getInt = n := by
  have hmod : ((UInt64.ofInt n).toNat : Int) = n % (2 ^ 64 : Nat) := by
    have hlt := Int.emod_lt_of_pos n (b := 2 ^ 64) (by decide)
    have hnonneg := Int.emod_nonneg n (b := 2 ^ 64) (by decide)
    rw [UInt64.ofInt, UInt64.toNat_ofNat']
    omega
  show Int.bmod (UInt64.ofInt n).toNat (2 ^ 64) = n
  rw [hmod, Int.emod_bmod]
  unfold IsInt64 at h
  apply Int.bmod_eq_of_le <;> omega

/-- A value is an `int64_t`, if there is one. -/
def Bounded (n : Option Int) : Prop := ∀ a ∈ n, IsInt64 a

theorem integer_makeInt {n : Int} (h : IsInt64 n) : integer (makeInt n) = some n := by
  have hint : (makeInt n).type = .int := rfl
  rw [integer, if_pos hint, getInt_makeInt h]

theorem bounded_integer (object : GraphObject) : Bounded (integer object) := by
  intro n hn
  unfold integer at hn
  split_ifs at hn
  · obtain rfl := Option.mem_some_iff.mp hn
    exact isInt64_getInt object
  · exact absurd hn (by simp)

theorem isInt64_tmod {a b : Int} (ha : IsInt64 a) : IsInt64 (a.tmod b) := by
  have hle : (a.tmod b).natAbs ≤ a.natAbs := by
    rw [Int.natAbs_tmod]
    exact Nat.mod_le _ _
  unfold IsInt64 at ha ⊢
  rcases Int.le_total 0 a with h | h
  · have := Int.tmod_nonneg b h
    omega
  · have := Int.tmod_nonneg b (Int.neg_nonneg_of_nonpos h)
    rw [Int.neg_tmod] at this
    omega

variable {C : Type} {O : WhereObjects C} {r : Binding} {e lhs rhs : Expr C} {op : BinaryOp}
  {m n : Option Int}

theorem evalBinary_makeInt {a b : Int} (hop : op.IsArithmetic) (ha : IsInt64 a) (hb : IsInt64 b) :
    (op.Fits a b → evalBinary O.toObjects op (makeInt a) (makeInt b) = some (ofExact (op.exact a b)) ∧
      Bounded (op.exact a b)) ∧
    (¬ op.Fits a b → evalBinary O.toObjects op (makeInt a) (makeInt b) = none) := by
  have hga := getInt_makeInt ha
  have hgb := getInt_makeInt hb
  have hia : (makeInt a).type = .int := rfl
  have hib : (makeInt b).type = .int := rfl
  cases op with
  | addition =>
    simp only [BinaryOp.Fits, BinaryOp.exact, evalBinary, sum, arithmetic, hia, hib, hga, hgb, intResult]
    exact ⟨fun h => ⟨if_pos h, by simpa [Bounded] using h⟩, fun h => if_neg h⟩
  | subtraction =>
    simp only [BinaryOp.Fits, BinaryOp.exact, evalBinary, minus, arithmetic, hia, hib, hga, hgb, intResult]
    exact ⟨fun h => ⟨if_pos h, by simpa [Bounded] using h⟩, fun h => if_neg h⟩
  | multiplication =>
    simp only [BinaryOp.Fits, BinaryOp.exact, evalBinary, multiply, arithmetic, hia, hib, hga, hgb,
      intResult]
    exact ⟨fun h => ⟨if_pos h, by simpa [Bounded] using h⟩, fun h => if_neg h⟩
  | division =>
    simp only [BinaryOp.Fits, BinaryOp.exact, evalBinary, divide, hia, hib, hga, hgb, intResult]
    by_cases hzero : b = 0
    · subst hzero
      rw [Int.tdiv_zero]
      exact ⟨fun _ => ⟨by simp [ofExact], by simp [Bounded]⟩, fun h => absurd (by decide) h⟩
    · simp only [if_neg hzero]
      exact ⟨fun h => ⟨if_pos h, by simpa [Bounded] using h⟩, fun h => if_neg h⟩
  | modulo =>
    simp only [BinaryOp.Fits, BinaryOp.exact, evalBinary, modulo, hia, hib, hga, hgb, true_and]
    by_cases hzero : b = 0
    · subst hzero
      rw [Int.tdiv_zero]
      exact ⟨fun _ => ⟨by simp [ofExact], by simp [Bounded]⟩, fun h => absurd (by decide) h⟩
    · simp only [ne_eq, hzero, not_false_eq_true, if_true, if_false]
      exact ⟨fun h => ⟨if_pos h, by simpa [Bounded] using isInt64_tmod ha⟩, fun h => if_neg h⟩
  | _ => exact absurd hop id

theorem evalBinary_null (hop : op.IsArithmetic) (hnull : m = none ∨ n = none) :
    evalBinary O.toObjects op (ofExact m) (ofExact n) = some makeNull := by
  have hint : ∀ n : Option Int, (ofExact n).type = .nullObj ∨ (ofExact n).type = .int := by
    intro n
    cases n with
    | none => exact .inl rfl
    | some n => exact .inr rfl
  have hnone : (ofExact none).type = .nullObj := rfl
  rcases hnull with rfl | rfl
  · rcases hint n with h | h <;> cases op <;>
      simp_all [evalBinary, sum, minus, multiply, arithmetic, divide, modulo, BinaryOp.IsArithmetic]
  · rcases hint m with h | h <;> cases op <;>
      simp_all [evalBinary, sum, minus, multiply, arithmetic, divide, modulo, BinaryOp.IsArithmetic]

theorem evalBinary_ofExact (hop : op.IsArithmetic) (hm : Bounded m) (hn : Bounded n) :
    ((∀ a ∈ m, ∀ b ∈ n, op.Fits a b) →
      evalBinary O.toObjects op (ofExact m) (ofExact n) =
          some (ofExact (m.bind fun a => n.bind fun b => op.exact a b)) ∧
        Bounded (m.bind fun a => n.bind fun b => op.exact a b)) ∧
    (¬ (∀ a ∈ m, ∀ b ∈ n, op.Fits a b) →
      evalBinary O.toObjects op (ofExact m) (ofExact n) = none) := by
  cases hm' : m with
  | none =>
    refine ⟨fun _ => ⟨evalBinary_null hop (.inl rfl), by simp [Bounded]⟩, fun h => absurd (by simp) h⟩
  | some a =>
    cases hn' : n with
    | none =>
      refine ⟨fun _ => ⟨evalBinary_null hop (.inr rfl), by simp [Bounded]⟩, fun h => absurd (by simp) h⟩
    | some b =>
      subst hm' hn'
      simpa [ofExact] using evalBinary_makeInt (O := O) hop (hm a rfl) (hn b rfl)

theorem multiply_makeInt {c : Int} (hc : IsInt64 c) (hn : Bounded n) :
    multiply (ofExact n) (makeInt c) =
      if ∀ a ∈ n, IsInt64 (a * c) then some (ofExact (n.map (· * c))) else none := by
  cases n with
  | none => simp [multiply, arithmetic, ofExact, makeNull, makeInt]
  | some a =>
    have hga := getInt_makeInt (hn a rfl)
    have hgc := getInt_makeInt hc
    have hia : (makeInt a).type = .int := rfl
    have hic : (makeInt c).type = .int := rfl
    simp [ofExact, multiply, arithmetic, hia, hic, hga, hgc, intResult]

theorem getInt_emod (object : GraphObject) : object.getInt % 2 ^ 64 = object.encodedValue.toNat := by
  have hlt : (object.encodedValue.toNat : Int) < 2 ^ 64 := by
    exact_mod_cast object.encodedValue.toNat_lt
  have hdvd : ((2 ^ 64 : Nat) : Int) ∣ object.getInt - object.encodedValue.toNat :=
    Int.dvd_bmod_sub_self
  have hmod := Int.emod_eq_emod_iff_emod_sub_eq_zero.mpr (Int.emod_eq_zero_of_dvd hdvd)
  rw [Int.emod_eq_of_lt (Int.natCast_nonneg _) (by exact_mod_cast hlt)] at hmod
  exact_mod_cast hmod

theorem ofExact_integer {object : GraphObject} (h : object.type = .int) :
    ofExact (integer object) = object := by
  rw [integer, if_pos h]
  apply GraphObject.ext
  · show UInt64.ofInt object.getInt = object.encodedValue
    rw [UInt64.ofInt, getInt_emod, Int.toNat_natCast, UInt64.ofNat_toNat]
  · exact h.symm

/-- An expression over integers has its exact value when every operator fits, and no value
otherwise. -/
theorem Expr.eval_integer (e : Expr C) : e.Integer O r →
    (e.Fits O r → e.eval O.checked r = some (ofExact (e.exact O r)) ∧ Bounded (e.exact O r)) ∧
      (¬ e.Fits O r → e.eval O.checked r = none) := by
  induction e using Expr.induct with
  | varProperty x key =>
    intro h
    refine ⟨fun _ => ⟨?_, bounded_integer _⟩, fun h => absurd trivial h⟩
    unfold Expr.Integer at h
    unfold Expr.eval Expr.exact
    cases hvalue : r.properties (x, key) with
    | none =>
      have hnull : (O.value none) = makeNull := O.null_eq
      rw [hnull]
      exact congrArg some O.null_eq
    | some id =>
      rw [hvalue] at h
      rw [ofExact_integer (h.resolve_left (by simp))]
      rfl
  | constant c =>
    intro h
    refine ⟨fun _ => ⟨?_, bounded_integer _⟩, fun h => absurd trivial h⟩
    unfold Expr.exact
    rw [ofExact_integer h]
    rfl
  | binary op lhs rhs ihl ihr =>
    rintro ⟨hop, hl, hr⟩
    obtain ⟨hlfits, hlnot⟩ := ihl hl
    obtain ⟨hrfits, hrnot⟩ := ihr hr
    have heval : (Expr.binary op lhs rhs).eval O.checked r = (lhs.eval O.checked r).bind fun v =>
      (rhs.eval O.checked r).bind fun w => evalBinary O.toObjects op v w := rfl
    by_cases hfl : lhs.Fits O r
    · by_cases hfr : rhs.Fits O r
      · obtain ⟨hel, hbl⟩ := hlfits hfl
        obtain ⟨her, hbr⟩ := hrfits hfr
        obtain ⟨hfits, hnot⟩ := evalBinary_ofExact (O := O) hop hbl hbr
        rw [heval, hel, her]
        exact ⟨fun h => hfits h.2.2, fun h => hnot fun hop => h ⟨hfl, hfr, hop⟩⟩
      · rw [heval, hrnot hfr]
        exact ⟨fun h => absurd h.2.1 hfr, fun _ => by simp⟩
    · rw [heval, hlnot hfl]
      exact ⟨fun h => absurd h.1 hfl, fun _ => rfl⟩
  | unary op e ih =>
    cases op with
    | unaryMinus =>
      intro h
      obtain ⟨hfits, hnot⟩ := ih h
      have heval : (Expr.unary .unaryMinus e).eval O.checked r =
        (e.eval O.checked r).bind fun v => multiply v (makeInt (-1)) := rfl
      by_cases hf : e.Fits O r
      · obtain ⟨he, hb⟩ := hfits hf
        rw [heval, he, Option.bind_some, multiply_makeInt (by decide) hb]
        simp only [Int.mul_neg, Int.mul_one]
        refine ⟨fun h => ⟨if_pos h.2, ?_⟩, fun h => if_neg fun hb => h ⟨hf, hb⟩⟩
        simpa [Bounded, Expr.exact] using h.2
      · rw [heval, hnot hf]
        exact ⟨fun h => absurd h.1 hf, fun _ => rfl⟩
    | unaryPlus =>
      intro h
      obtain ⟨hfits, hnot⟩ := ih h
      have heval : (Expr.unary .unaryPlus e).eval O.checked r =
        (e.eval O.checked r).bind fun v => multiply v (makeInt 1) := rfl
      by_cases hf : e.Fits O r
      · obtain ⟨he, hb⟩ := hfits hf
        rw [heval, he, Option.bind_some, multiply_makeInt (by decide) hb]
        simp only [Int.mul_one, Option.map_id']
        exact ⟨fun _ => ⟨if_pos hb, hb⟩, fun h => absurd hf h⟩
      · rw [heval, hnot hf]
        exact ⟨fun h => absurd h hf, fun _ => rfl⟩
    | is => exact fun h => absurd h id
  | _ => exact fun h => absurd h id

theorem Expr.not_hasEquality_of_integer (e : Expr C) : e.Integer O r → ¬ e.HasEquality := by
  induction e using Expr.induct with
  | binary op lhs rhs ihl ihr =>
    intro ⟨_, hl, hr⟩ h
    exact h.elim (ihl hl) (ihr hr)
  | unary op e ih =>
    cases op with
    | is => exact fun h => absurd h id
    | _ => exact ih
  | varProperty x key => exact fun _ => id
  | constant c => exact fun _ => id
  | _ => exact fun h => absurd h id

theorem Expr.eval_visit_of_integer (he : e.Integer O r) (canPushOutside : Bool) :
    (Expr2BindingExpr.visit canPushOutside e).1.eval O.checked r = some (e.eval O.checked r) :=
  (Expr2BindingExpr.visit_direct e fun _ => e.not_hasEquality_of_integer he).1

theorem Expr.not_evaluatesExactly_of_not_fits (he : e.Integer O r) (h : ¬ e.Fits O r) :
    ¬ e.EvaluatesExactly O r := by
  intro hexact
  obtain ⟨v, hv, -⟩ := hexact false
  rw [Expr.eval_visit_of_integer he, (e.eval_integer he).2 h] at hv
  exact absurd hv (by simp)

/-- An expression over integers is evaluated exactly when no operator in it leaves the range of
`int64_t`. -/
theorem Expr.evaluatesExactly_iff (O : WhereObjects C) (r : Binding) (e : Expr C)
    (he : e.Integer O r) : e.EvaluatesExactly O r ↔ e.Fits O r := by
  constructor
  · exact fun h => not_not.mp fun hno => Expr.not_evaluatesExactly_of_not_fits he hno h
  · intro h canPushOutside
    obtain ⟨heval, hbounded⟩ := (e.eval_integer he).1 h
    refine ⟨_, by rw [Expr.eval_visit_of_integer he, heval], ?_⟩
    cases hexact : e.exact O r with
    | none => rfl
    | some n => exact ⟨rfl, getInt_makeInt (hbounded n hexact)⟩

def integers : WhereObjects Int where
  graphObject n := makeInt n
  constant c := makeInt c
  null := makeNull
  bool b := ⟨if b then 1 else 0, .bool⟩
  binary op lhs rhs :=
    let holds : Bool := match op with
      | .greaterOrEquals => rhs.getInt ≤ lhs.getInt
      | .greater => rhs.getInt < lhs.getInt
      | .lessOrEquals => lhs.getInt ≤ rhs.getInt
      | .less => lhs.getInt < rhs.getInt
      | _ => lhs ≠ rhs
    ⟨if holds then 1 else 0, .bool⟩
  unary _ operand := operand
  true_ne_false := by decide
  null_ne_true := by decide
  constant_ne_null _ h := by simpa [makeInt, makeNull] using congrArg GraphObject.type h
  null_eq := rfl

/-- The sum of a constant and of a property that the row has. -/
theorem Expr.evaluatesExactly_sum :
    (Expr.binary .addition (.constant 1) (.varProperty "x" "age") : Expr Int).EvaluatesExactly integers
        ⟨fun _ => none, fun _ => some 41⟩ ↔
      (Expr.binary .addition (.constant 1) (.varProperty "x" "age") : Expr Int).Fits integers
        ⟨fun _ => none, fun _ => some 41⟩ :=
  Expr.evaluatesExactly_iff integers ⟨fun _ => none, fun _ => some 41⟩ _ ⟨trivial, rfl, .inr rfl⟩

/-- The largest constant plus one, and the smallest integer divided by minus one, are undefined. -/
theorem Expr.not_evaluatesExactly :
    ¬ (Expr.binary .addition (.constant (2 ^ 63 - 1)) (.constant 1) : Expr Int).EvaluatesExactly integers
        ⟨fun _ => none, fun _ => none⟩ ∧
      ¬ (Expr.binary .division (.binary .subtraction (.unary .unaryMinus (.constant (2 ^ 63 - 1)))
        (.constant 1)) (.unary .unaryMinus (.constant 1)) : Expr Int).EvaluatesExactly integers
          ⟨fun _ => none, fun _ => none⟩ := by
  have hmax : integer (makeInt (2 ^ 63 - 1)) = some (2 ^ 63 - 1) := integer_makeInt (by decide)
  have hone : integer (makeInt 1) = some 1 := integer_makeInt (by decide)
  constructor
  · intro h
    refine Expr.not_evaluatesExactly_of_not_fits ?_ (fun hfits => ?_) h
    · exact ⟨trivial, rfl, rfl⟩
    · have hfalse : IsInt64 (2 ^ 63 - 1 + 1) := hfits.2.2 _ hmax _ hone
      exact absurd hfalse (by decide)
  · intro h
    refine Expr.not_evaluatesExactly_of_not_fits ?_ (fun hfits => ?_) h
    · exact ⟨trivial, ⟨trivial, rfl, rfl⟩, rfl⟩
    · have hmin : Expr.exact integers ⟨fun _ => none, fun _ => none⟩ (.binary .subtraction
          (.unary .unaryMinus (.constant (2 ^ 63 - 1))) (.constant 1)) = some (-(2 ^ 63 - 1) - 1) := by
        show ((integer (makeInt (2 ^ 63 - 1))).map (-·)).bind
          (fun a => (integer (makeInt 1)).bind fun b => some (a - b)) = _
        rw [hmax, hone]
        rfl
      have hminus : Expr.exact integers ⟨fun _ => none, fun _ => none⟩
          (.unary .unaryMinus (.constant 1)) = some (-1) := congrArg (Option.map (-·)) hone
      have hfalse : IsInt64 ((-(2 ^ 63 - 1) - 1 : Int).tdiv (-1)) := hfits.2.2 _ hmin _ hminus
      exact absurd hfalse (by decide)

end Match
end MillenniumDB
