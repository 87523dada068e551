import MillenniumDB.GraphPatterns

/-!
# Conditions of WHERE

The expressions of WHERE and `Expr2BindingExpr`, which translates them to expressions over rows
and takes equalities of a property with a constant out.  Where such equalities occur as
conjuncts only, a row satisfies the expression exactly when it satisfies the translation and
has the values that were taken out.
-/

namespace MillenniumDB
namespace Match

inductive BinaryOp
  | addition
  | division
  | modulo
  | multiplication
  | subtraction
  | greaterOrEquals
  | greater
  | lessOrEquals
  | less
  | notEquals

inductive ExprTypeName
  | null
  | string
  | bool
  | integer
  | float

inductive UnaryOp
  | unaryMinus
  | unaryPlus
  | is (negation : Bool) (type : ExprTypeName)

/-- `Expr`.  The parser makes a conjunction of two operands at least. -/
inductive Expr (C : Type)
  | var (name : String)
  | varProperty (objectVar propertyKey : String)
  | constant (value : C)
  | binary (op : BinaryOp) (lhs rhs : Expr C)
  | unary (op : UnaryOp) (expr : Expr C)
  | equals (lhs rhs : Expr C)
  | and (first second : Expr C) (rest : List (Expr C))
  | not (expr : Expr C)
  | or (orList : List (Expr C))

/-- `BindingExpr`, and the null pointer that stands for an expression that was taken out. -/
inductive BindingExpr (C : Type)
  | nullptr
  | atomVar (name : String)
  | atomProperty (objectVar propertyKey : String)
  | atomConstant (value : C)
  | binary (op : BinaryOp) (lhs rhs : BindingExpr C)
  | unary (op : UnaryOp) (expr : BindingExpr C)
  | equals (lhs rhs : BindingExpr C)
  | and (andList : List (BindingExpr C))
  | not (expr : BindingExpr C)
  | or (orList : List (BindingExpr C))

/-- The values of a row: objects of the variables of the pattern, and the values of the
variables `?x.key`.  A name of a variable has no dot, so that `(x, key)` is `?x.key`. -/
structure Binding where
  vars : Row
  properties : Mapping (String × String) Nat

/-- The graph objects of the rows and of constants, with the operators on them, where all calls
of `make_bool` and `make_float` leave the same bytes in the part of the union that they do not
write. -/
structure Objects (C V : Type) where
  graphObject : Nat → V
  constant : C → V
  null : V
  bool : Bool → V
  binary : BinaryOp → V → V → V
  unary : UnaryOp → V → V
  true_ne_false : bool true ≠ bool false
  null_ne_true : null ≠ bool true
  constant_ne_null : ∀ c, constant c ≠ null

/-- `make_bool` and `make_float` write one and four bytes of a union of eight, and `equal` reads
all of them.  What a call finds in the others is one of `left`; `objects g` are the graph objects
of the calls that find `g`, and `written` clears the bytes that are not written. -/
structure Unions (B C V : Type) where
  left : List B
  left_ne_nil : left ≠ []
  objects : B → Objects C V
  written : V → V
  null : V
  objects_null : ∀ g, (objects g).null = null
  bool_injective : ∀ g h b, (objects g).bool b = (objects h).bool b → g = h
  written_bool : ∀ g h a b, written ((objects g).bool a) = written ((objects h).bool b) ↔ a = b
  written_null : ∀ g b, written null ≠ written ((objects g).bool b)
  written_graphObject : ∀ g h n, written ((objects g).graphObject n) = written ((objects h).graphObject n)
  written_constant : ∀ g h c, written ((objects g).constant c) = written ((objects h).constant c)
  written_binary : ∀ g h op v w,
    written ((objects g).binary op v w) = written ((objects h).binary op v w)
  written_unary : ∀ g h op v, written ((objects g).unary op v) = written ((objects h).unary op v)

structure WhereProperty (C : Type) where
  var : String
  key : String
  value : C
  deriving DecidableEq

section

variable {C V : Type} [DecidableEq V] (O : Objects C V) (r : Binding)

/-- `Match::operator[]`: a variable without an object is null. -/
def Objects.value (o : Option Nat) : V := o.elim O.null O.graphObject

def WhereProperty.Satisfied (w : WhereProperty C) : Prop :=
  O.value (r.properties (w.var, w.key)) = O.constant w.value

def Objects.negate (v : V) : V :=
  if v = O.bool true then O.bool false else if v = O.bool false then O.bool true else O.null

mutual

/-- `BindingExpr::eval` where all calls leave the same bytes; a null pointer has no value. -/
def BindingExpr.eval : BindingExpr C → Option V
  | nullptr => none
  | atomVar x => some (O.value (r.vars x))
  | atomProperty x key => some (O.value (r.properties (x, key)))
  | atomConstant c => some (O.constant c)
  | binary op lhs rhs =>
    match lhs.eval, rhs.eval with
    | some v, some w => some (O.binary op v w)
    | _, _ => none
  | unary op expr => expr.eval.map (O.unary op)
  | equals lhs rhs =>
    match lhs.eval, rhs.eval with
    | some v, some w => some (O.bool (v = w))
    | _, _ => none
  | and andList => BindingExpr.evalAnd andList
  | not expr => expr.eval.map O.negate
  | or orList => BindingExpr.evalOr orList

def BindingExpr.evalAnd : List (BindingExpr C) → Option V
  | [] => some (O.bool true)
  | e :: es =>
    match e.eval with
    | none => none
    | some v =>
      if v = O.bool true then BindingExpr.evalAnd es
      else if v = O.bool false then some (O.bool false) else some O.null

def BindingExpr.evalOr : List (BindingExpr C) → Option V
  | [] => some (O.bool false)
  | e :: es =>
    match e.eval with
    | none => none
    | some v =>
      if v = O.bool true then some (O.bool true)
      else if v = O.bool false then BindingExpr.evalOr es else some O.null

end

mutual

def Expr.eval : Expr C → V
  | var x => O.value (r.vars x)
  | varProperty x key => O.value (r.properties (x, key))
  | constant c => O.constant c
  | binary op lhs rhs => O.binary op lhs.eval rhs.eval
  | unary op expr => O.unary op expr.eval
  | equals lhs rhs => O.bool (lhs.eval = rhs.eval)
  | and first second rest =>
    if first.eval = O.bool true then
      if second.eval = O.bool true then Expr.evalAnd rest
      else if second.eval = O.bool false then O.bool false else O.null
    else if first.eval = O.bool false then O.bool false else O.null
  | not expr => O.negate expr.eval
  | or orList => Expr.evalOr orList

def Expr.evalAnd : List (Expr C) → V
  | [] => O.bool true
  | e :: es =>
    if e.eval = O.bool true then Expr.evalAnd es
    else if e.eval = O.bool false then O.bool false else O.null

def Expr.evalOr : List (Expr C) → V
  | [] => O.bool false
  | e :: es =>
    if e.eval = O.bool true then O.bool true
    else if e.eval = O.bool false then Expr.evalOr es else O.null

end

end

section

variable {B C V : Type} [DecidableEq V] (O : Unions B C V) (r : Binding)

def Unions.call (f : Objects C V → V) : List (Option V) := O.left.map fun g => some (f (O.objects g))

def Unions.test (v : V) (b : Bool) : List Bool := O.left.map fun g => v = (O.objects g).bool b

/-- A branch on `eval == GraphObjectFactory::make_bool(b)`. -/
def Unions.ifEqual {α : Type} (v : V) (b : Bool) (yes no : List α) : List α :=
  (O.test v b).flatMap fun equal => if equal then yes else no

def Unions.CanEqual (v : V) (b : Bool) : Prop := ∃ g ∈ O.left, v = (O.objects g).bool b

def Unions.CanDiffer (v : V) (b : Bool) : Prop := ∃ g ∈ O.left, v ≠ (O.objects g).bool b

def Unions.negate (v : V) : List (Option V) :=
  O.ifEqual v true (O.call (·.bool false)) (O.ifEqual v false (O.call (·.bool true)) [some O.null])

mutual

/-- `BindingExpr::eval`: the values that it can return, each call with bytes of its own. -/
def BindingExpr.evals : BindingExpr C → List (Option V)
  | nullptr => [none]
  | atomVar x => O.call (·.value (r.vars x))
  | atomProperty x key => O.call (·.value (r.properties (x, key)))
  -- its call was made once for the query, and a row reads it once
  | atomConstant c => O.call (·.constant c)
  | binary op lhs rhs => lhs.evals.flatMap fun v => rhs.evals.flatMap fun w =>
      O.left.map fun g => Option.map₂ ((O.objects g).binary op) v w
  | unary op expr => expr.evals.flatMap fun v =>
      O.left.map fun g => v.map ((O.objects g).unary op)
  | equals lhs rhs => lhs.evals.flatMap fun v => rhs.evals.flatMap fun w =>
      O.left.map fun g => Option.map₂ (fun v w => (O.objects g).bool (v = w)) v w
  | and andList => BindingExpr.evalsAnd andList
  | not expr => expr.evals.flatMap fun
    | none => [none]
    | some v => O.negate v
  | or orList => BindingExpr.evalsOr orList

def BindingExpr.evalsAnd : List (BindingExpr C) → List (Option V)
  | [] => O.call (·.bool true)
  | e :: es => e.evals.flatMap fun
    | none => [none]
    | some v => O.ifEqual v true (BindingExpr.evalsAnd es)
        (O.ifEqual v false (O.call (·.bool false)) [some O.null])

def BindingExpr.evalsOr : List (BindingExpr C) → List (Option V)
  | [] => O.call (·.bool false)
  | e :: es => e.evals.flatMap fun
    | none => [none]
    | some v => O.ifEqual v true (O.call (·.bool true))
        (O.ifEqual v false (BindingExpr.evalsOr es) [some O.null])

end

/-- The comparison with true in `Where::next`. -/
def Unions.passes : Option V → List Bool
  | none => [false]
  | some v => O.test v true

/-- What `Where::next` can find on a row. -/
def BindingExpr.passes (b : BindingExpr C) : List Bool := (b.evals O r).flatMap O.passes

end

namespace BindingExpr

variable {B C V : Type}

theorem induct {motive : BindingExpr C → Prop} (nullptr : motive .nullptr)
    (atomVar : ∀ x, motive (.atomVar x)) (atomProperty : ∀ x key, motive (.atomProperty x key))
    (atomConstant : ∀ c, motive (.atomConstant c))
    (binary : ∀ op lhs rhs, motive lhs → motive rhs → motive (.binary op lhs rhs))
    (unary : ∀ op e, motive e → motive (.unary op e))
    (equals : ∀ lhs rhs, motive lhs → motive rhs → motive (.equals lhs rhs))
    (and : ∀ es, (∀ e ∈ es, motive e) → motive (.and es)) (not : ∀ e, motive e → motive (.not e))
    (or : ∀ es, (∀ e ∈ es, motive e) → motive (.or es)) (e : BindingExpr C) : motive e :=
  BindingExpr.rec (motive_1 := motive) (motive_2 := fun es => ∀ e ∈ es, motive e) nullptr atomVar
    atomProperty atomConstant binary unary equals and not or (by simp)
    (fun _ _ he hes => List.forall_mem_cons.mpr ⟨he, hes⟩) e

variable [DecidableEq V] {O : Unions B C V} {r : Binding} {g : B} {e : BindingExpr C}

omit [DecidableEq V] in
theorem mem_call {f : Objects C V → V} {o : Option V} :
    o ∈ O.call f ↔ ∃ g ∈ O.left, o = some (f (O.objects g)) := by
  simp [Unions.call, eq_comm]

theorem mem_ifEqual {α : Type} {v : V} {b : Bool} {yes no : List α} {o : α} :
    o ∈ O.ifEqual v b yes no ↔ O.CanEqual v b ∧ o ∈ yes ∨ O.CanDiffer v b ∧ o ∈ no := by
  simp only [Unions.ifEqual, Unions.test, Unions.CanEqual, Unions.CanDiffer, List.mem_flatMap,
    List.mem_map, exists_exists_and_eq_and]
  constructor
  · intro ⟨g, hg, ho⟩
    by_cases hv : v = (O.objects g).bool b
    · exact .inl ⟨⟨g, hg, hv⟩, by simpa [hv] using ho⟩
    · exact .inr ⟨⟨g, hg, hv⟩, by simpa [hv] using ho⟩
  · rintro (⟨⟨g, hg, hv⟩, ho⟩ | ⟨⟨g, hg, hv⟩, ho⟩)
    · exact ⟨g, hg, by simpa [hv] using ho⟩
    · exact ⟨g, hg, by simpa [hv] using ho⟩

theorem eq_of_mem_ifEqual (hg : ∀ h ∈ O.left, h = g) {v : V} {b : Bool} {yes no : List (Option V)}
    {y n : Option V} (hyes : ∀ o ∈ yes, o = y) (hno : ∀ o ∈ no, o = n) :
    ∀ o ∈ O.ifEqual v b yes no, o = if v = (O.objects g).bool b then y else n := by
  intro o ho
  rcases mem_ifEqual.mp ho with ⟨⟨h, hh, hv⟩, ho⟩ | ⟨⟨h, hh, hv⟩, ho⟩
  · rw [hg h hh] at hv
    rw [if_pos hv, hyes o ho]
  · rw [hg h hh] at hv
    rw [if_neg hv, hno o ho]

/-- Where all calls leave the same bytes, an expression has the value that they give. -/
theorem evals_eq (hg : ∀ h ∈ O.left, h = g) (e : BindingExpr C) :
    ∀ o ∈ e.evals O r, o = e.eval (O.objects g) r := by
  have hcall : ∀ f : Objects C V → V, ∀ o ∈ O.call f, o = some (f (O.objects g)) := by
    intro f o ho
    obtain ⟨h, hh, rfl⟩ := mem_call.mp ho
    rw [hg h hh]
  have hnull : ∀ o ∈ [some O.null], o = some (O.objects g).null := by simp [O.objects_null]
  induction e using induct with
  | nullptr => simp [evals, eval]
  | atomVar x => exact hcall _
  | atomProperty x key => exact hcall _
  | atomConstant c => exact hcall _
  | binary op lhs rhs ihl ihr =>
    intro o ho
    simp only [evals, List.mem_flatMap, List.mem_map] at ho
    obtain ⟨v, hv, w, hw, h, hh, rfl⟩ := ho
    rw [ihl v hv, ihr w hw, hg h hh, eval]
    cases lhs.eval (O.objects g) r <;> cases rhs.eval (O.objects g) r <;> rfl
  | unary op e ih =>
    intro o ho
    simp only [evals, List.mem_flatMap, List.mem_map] at ho
    obtain ⟨v, hv, h, hh, rfl⟩ := ho
    rw [ih v hv, hg h hh, eval]
  | equals lhs rhs ihl ihr =>
    intro o ho
    simp only [evals, List.mem_flatMap, List.mem_map] at ho
    obtain ⟨v, hv, w, hw, h, hh, rfl⟩ := ho
    rw [ihl v hv, ihr w hw, hg h hh, eval]
    cases lhs.eval (O.objects g) r <;> cases rhs.eval (O.objects g) r <;> rfl
  | and es ih =>
    rw [evals, eval]
    induction es with
    | nil => exact hcall _
    | cons e es ihes =>
      obtain ⟨he, hes⟩ := List.forall_mem_cons.mp ih
      intro o ho
      rw [evalsAnd, List.mem_flatMap] at ho
      obtain ⟨v, hv, ho⟩ := ho
      rw [evalAnd, ← he v hv]
      cases v with
      | none => simpa using ho
      | some v => exact eq_of_mem_ifEqual hg (ihes hes) (eq_of_mem_ifEqual hg (hcall _) hnull) o ho
  | not e ih =>
    intro o ho
    rw [evals, List.mem_flatMap] at ho
    obtain ⟨v, hv, ho⟩ := ho
    rw [eval, ← ih v hv]
    cases v with
    | none => simpa using ho
    | some v =>
      rw [eq_of_mem_ifEqual hg (hcall _) (eq_of_mem_ifEqual hg (hcall _) hnull) o ho, Option.map_some,
        Objects.negate]
      split_ifs <;> rfl
  | or es ih =>
    rw [evals, eval]
    induction es with
    | nil => exact hcall _
    | cons e es ihes =>
      obtain ⟨he, hes⟩ := List.forall_mem_cons.mp ih
      intro o ho
      rw [evalsOr, List.mem_flatMap] at ho
      obtain ⟨v, hv, ho⟩ := ho
      rw [evalOr, ← he v hv]
      cases v with
      | none => simpa using ho
      | some v => exact eq_of_mem_ifEqual hg (hcall _) (eq_of_mem_ifEqual hg (ihes hes) hnull) o ho

omit [DecidableEq V] in
theorem call_ne_nil (f : Objects C V → V) : O.call f ≠ [] := by
  simp [Unions.call, O.left_ne_nil]

theorem ifEqual_ne_nil {α : Type} {v : V} {b : Bool} {yes no : List α} (hyes : yes ≠ []) (hno : no ≠ []) :
    O.ifEqual v b yes no ≠ [] := by
  obtain ⟨g, hg⟩ := List.exists_mem_of_ne_nil _ O.left_ne_nil
  by_cases hv : v = (O.objects g).bool b
  · obtain ⟨y, hy⟩ := List.exists_mem_of_ne_nil _ hyes
    exact List.ne_nil_of_mem (mem_ifEqual.mpr (.inl ⟨⟨g, hg, hv⟩, hy⟩))
  · obtain ⟨n, hn⟩ := List.exists_mem_of_ne_nil _ hno
    exact List.ne_nil_of_mem (mem_ifEqual.mpr (.inr ⟨⟨g, hg, hv⟩, hn⟩))

theorem flatMap_ne_nil {α β : Type} {l : List α} {f : α → List β} (hl : l ≠ []) (hf : ∀ a, f a ≠ []) :
    l.flatMap f ≠ [] := by
  obtain ⟨a, ha⟩ := List.exists_mem_of_ne_nil _ hl
  obtain ⟨b, hb⟩ := List.exists_mem_of_ne_nil _ (hf a)
  exact List.ne_nil_of_mem (List.mem_flatMap_of_mem ha hb)

theorem evals_ne_nil (e : BindingExpr C) : e.evals O r ≠ [] := by
  have hleft : ∀ {α : Type} (f : B → α), O.left.map f ≠ [] := by simp [O.left_ne_nil]
  induction e using induct with
  | nullptr => simp [evals]
  | atomVar x => exact call_ne_nil _
  | atomProperty x key => exact call_ne_nil _
  | atomConstant c => exact call_ne_nil _
  | binary op lhs rhs ihl ihr => exact flatMap_ne_nil ihl fun _ => flatMap_ne_nil ihr fun _ => hleft _
  | unary op e ih => exact flatMap_ne_nil ih fun _ => hleft _
  | equals lhs rhs ihl ihr => exact flatMap_ne_nil ihl fun _ => flatMap_ne_nil ihr fun _ => hleft _
  | and es ih =>
    rw [evals]
    induction es with
    | nil => exact call_ne_nil _
    | cons e es ihes =>
      obtain ⟨he, hes⟩ := List.forall_mem_cons.mp ih
      refine flatMap_ne_nil he fun v => ?_
      cases v with
      | none => simp
      | some v => exact ifEqual_ne_nil (ihes hes) (ifEqual_ne_nil (call_ne_nil _) (by simp))
  | not e ih =>
    refine flatMap_ne_nil ih fun v => ?_
    cases v with
    | none => simp
    | some v => exact ifEqual_ne_nil (call_ne_nil _) (ifEqual_ne_nil (call_ne_nil _) (by simp))
  | or es ih =>
    rw [evals]
    induction es with
    | nil => exact call_ne_nil _
    | cons e es ihes =>
      obtain ⟨he, hes⟩ := List.forall_mem_cons.mp ih
      refine flatMap_ne_nil he fun v => ?_
      cases v with
      | none => simp
      | some v => exact ifEqual_ne_nil (call_ne_nil _) (ifEqual_ne_nil (ihes hes) (by simp))

theorem passes_ne_nil (e : BindingExpr C) : e.passes O r ≠ [] := by
  refine flatMap_ne_nil (evals_ne_nil e) fun v => ?_
  cases v with
  | none => simp [Unions.passes]
  | some v => simp [Unions.passes, Unions.test, O.left_ne_nil]

theorem passes_eq (hg : ∀ h ∈ O.left, h = g) (e : BindingExpr C) :
    ∀ t ∈ e.passes O r, t = decide (e.eval (O.objects g) r = some ((O.objects g).bool true)) := by
  intro t ht
  obtain ⟨o, ho, ht⟩ := List.mem_flatMap.mp ht
  rw [← evals_eq hg e o ho]
  cases o with
  | none => simpa [Unions.passes] using ht
  | some v =>
    obtain ⟨h, hh, rfl⟩ := List.mem_map.mp ht
    simp [hg h hh]

end BindingExpr

namespace Expr

variable {C : Type}

/-- The casts of `visit(ExprEquals)`. -/
def propertyEquality : Expr C → Expr C → Option (WhereProperty C)
  | varProperty x key, constant c => some ⟨x, key, c⟩
  | constant c, varProperty x key => some ⟨x, key, c⟩
  | _, _ => none

mutual

/-- `?x.key` in the condition: `get_vars` with the names that have a dot. -/
def propertyVars : Expr C → List (String × String)
  | var _ => []
  | varProperty x key => [(x, key)]
  | constant _ => []
  | binary _ lhs rhs => lhs.propertyVars ++ rhs.propertyVars
  | unary _ expr => expr.propertyVars
  | equals lhs rhs => lhs.propertyVars ++ rhs.propertyVars
  | and first second rest => first.propertyVars ++ second.propertyVars ++ propertyVarsAll rest
  | not expr => expr.propertyVars
  | or orList => propertyVarsAll orList

def propertyVarsAll : List (Expr C) → List (String × String)
  | [] => []
  | e :: es => e.propertyVars ++ propertyVarsAll es

end

end Expr

namespace Expr2BindingExpr

variable {C V : Type}

def kept : BindingExpr C → List (BindingExpr C)
  | .nullptr => []
  | b => [b]

def conjunction : List (BindingExpr C) → BindingExpr C
  | [] => .nullptr
  | [b] => b
  | bs => .and bs

mutual

/-- `visit`, with `can_push_outside`: `current_binding_expr` and what is added to `properties`. -/
def visit (canPushOutside : Bool) : Expr C → BindingExpr C × List (WhereProperty C)
  | .var x => (.atomVar x, [])
  | .varProperty x key => (.atomProperty x key, [])
  | .constant c => (.atomConstant c, [])
  | .binary op lhs rhs =>
    let (l, ps) := visit canPushOutside lhs
    let (r, qs) := visit canPushOutside rhs
    (.binary op l r, ps ++ qs)
  | .unary op expr =>
    let (b, ps) := visit canPushOutside expr
    (.unary op b, ps)
  | .equals lhs rhs =>
    match canPushOutside, Expr.propertyEquality lhs rhs with
    | true, some w => (.nullptr, [w])
    | _, _ =>
      let (l, ps) := visit canPushOutside lhs
      let (r, qs) := visit canPushOutside rhs
      (.equals l r, ps ++ qs)
  | .and first second rest =>
    let (b, ps) := visit canPushOutside first
    let (b', qs) := visit canPushOutside second
    let (bs, rs) := visitAnd canPushOutside rest
    (conjunction (kept b ++ kept b' ++ bs), ps ++ qs ++ rs)
  | .not expr =>
    let (b, ps) := visit false expr
    (.not b, ps)
  | .or orList =>
    let (bs, ps) := visitOr orList
    (.or bs, ps)

def visitAnd (canPushOutside : Bool) : List (Expr C) → List (BindingExpr C) × List (WhereProperty C)
  | [] => ([], [])
  | e :: es =>
    let (b, ps) := visit canPushOutside e
    let (bs, qs) := visitAnd canPushOutside es
    (kept b ++ bs, ps ++ qs)

def visitOr : List (Expr C) → List (BindingExpr C) × List (WhereProperty C)
  | [] => ([], [])
  | e :: es =>
    let (b, ps) := visit false e
    let (bs, qs) := visitOr es
    (b :: bs, ps ++ qs)

end

end Expr2BindingExpr

namespace Expr

variable {C V : Type}

theorem induct {motive : Expr C → Prop} (var : ∀ x, motive (.var x))
    (varProperty : ∀ x key, motive (.varProperty x key)) (constant : ∀ c, motive (.constant c))
    (binary : ∀ op lhs rhs, motive lhs → motive rhs → motive (.binary op lhs rhs))
    (unary : ∀ op e, motive e → motive (.unary op e))
    (equals : ∀ lhs rhs, motive lhs → motive rhs → motive (.equals lhs rhs))
    (and : ∀ first second rest, motive first → motive second → (∀ e ∈ rest, motive e) →
      motive (.and first second rest))
    (not : ∀ e, motive e → motive (.not e))
    (or : ∀ es, (∀ e ∈ es, motive e) → motive (.or es)) (e : Expr C) : motive e :=
  Expr.rec (motive_1 := motive) (motive_2 := fun es => ∀ e ∈ es, motive e) var varProperty constant
    binary unary equals and not or (by simp) (fun _ _ he hes => List.forall_mem_cons.mpr ⟨he, hes⟩) e

mutual

/-- An equality of a property with a constant occurs outside of NOT and OR. -/
def HasEquality : Expr C → Prop
  | var _ => False
  | varProperty _ _ => False
  | constant _ => False
  | binary _ lhs rhs => lhs.HasEquality ∨ rhs.HasEquality
  | unary _ expr => expr.HasEquality
  | equals lhs rhs => propertyEquality lhs rhs ≠ none ∨ lhs.HasEquality ∨ rhs.HasEquality
  | and first second rest => first.HasEquality ∨ second.HasEquality ∨ HasEqualityAny rest
  | not _ => False
  | or _ => False

def HasEqualityAny : List (Expr C) → Prop
  | [] => False
  | e :: es => e.HasEquality ∨ HasEqualityAny es

end

mutual

def Conjunctive : Expr C → Prop
  | var _ => True
  | varProperty _ _ => True
  | constant _ => True
  | binary _ lhs rhs => ¬ lhs.HasEquality ∧ ¬ rhs.HasEquality
  | unary _ expr => ¬ expr.HasEquality
  | equals lhs rhs => propertyEquality lhs rhs ≠ none ∨ ¬ lhs.HasEquality ∧ ¬ rhs.HasEquality
  | and first second rest => first.Conjunctive ∧ second.Conjunctive ∧ ConjunctiveAll rest
  | not _ => True
  | or _ => True

def ConjunctiveAll : List (Expr C) → Prop
  | [] => True
  | e :: es => e.Conjunctive ∧ ConjunctiveAll es

end

mutual

/-- Nothing but equalities of a property with a constant: all of it is taken out. -/
def OnlyEqualities : Expr C → Prop
  | equals lhs rhs => propertyEquality lhs rhs ≠ none
  | and first second rest =>
    first.OnlyEqualities ∧ second.OnlyEqualities ∧ OnlyEqualitiesAll rest
  | _ => False

def OnlyEqualitiesAll : List (Expr C) → Prop
  | [] => True
  | e :: es => e.OnlyEqualities ∧ OnlyEqualitiesAll es

end

mutual

def equalities : Expr C → List (WhereProperty C)
  | equals lhs rhs => (propertyEquality lhs rhs).toList
  | and first second rest => first.equalities ++ second.equalities ++ equalitiesAll rest
  | _ => []

def equalitiesAll : List (Expr C) → List (WhereProperty C)
  | [] => []
  | e :: es => e.equalities ++ equalitiesAll es

end

end Expr

namespace Expr2BindingExpr

open Match.Expr

variable {B C V : Type} [DecidableEq V] {O : Objects C V} {O' : Unions B C V} {r : Binding} {e : Expr C}
  {es : List (Expr C)} {b : BindingExpr C} {bs : List (BindingExpr C)} {canPushOutside : Bool}

theorem kept_of_eval {v : V} (hb : b.eval O r = some v) : kept b = [b] := by
  cases b with
  | nullptr => simp [BindingExpr.eval] at hb
  | _ => rfl

/-- A translation that takes nothing out has the value of the condition. -/
def Direct (O : Objects C V) (r : Binding) (canPushOutside : Bool) (e : Expr C) : Prop :=
  (visit canPushOutside e).1.eval O r = some (e.eval O r) ∧ (visit canPushOutside e).2 = []

theorem visitAnd_direct (hes : ∀ e ∈ es, Direct O r canPushOutside e) :
    BindingExpr.evalAnd O r (visitAnd canPushOutside es).1 = some (evalAnd O r es) ∧
      (visitAnd canPushOutside es).2 = [] := by
  induction es with
  | nil => exact ⟨rfl, rfl⟩
  | cons e es ih =>
    obtain ⟨⟨heval, hnone⟩, hes⟩ := List.forall_mem_cons.mp hes
    obtain ⟨ihe, ihn⟩ := ih hes
    simp only [visitAnd, kept_of_eval heval, hnone, ihn, List.singleton_append, BindingExpr.evalAnd,
      heval, ihe, evalAnd, List.append_nil, and_true]
    split_ifs <;> rfl

theorem visitOr_direct (hes : ∀ e ∈ es, Direct O r false e) :
    BindingExpr.evalOr O r (visitOr es).1 = some (evalOr O r es) ∧ (visitOr es).2 = [] := by
  induction es with
  | nil => exact ⟨rfl, rfl⟩
  | cons e es ih =>
    obtain ⟨⟨heval, hnone⟩, hes⟩ := List.forall_mem_cons.mp hes
    obtain ⟨ihe, ihn⟩ := ih hes
    simp only [visitOr, hnone, ihn, BindingExpr.evalOr, heval, ihe, evalOr, List.append_nil, and_true]
    split_ifs <;> rfl

theorem visit_direct (e : Expr C) : (canPushOutside = true → ¬ e.HasEquality) →
    Direct O r canPushOutside e := by
  induction e using Expr.induct generalizing canPushOutside with
  | var x => exact fun _ => ⟨rfl, rfl⟩
  | varProperty x key => exact fun _ => ⟨rfl, rfl⟩
  | constant c => exact fun _ => ⟨rfl, rfl⟩
  | binary op lhs rhs ihl ihr =>
    intro h
    simp only [HasEquality, not_or] at h
    obtain ⟨hl, hln⟩ := ihl fun hpush => (h hpush).1
    obtain ⟨hr, hrn⟩ := ihr fun hpush => (h hpush).2
    exact ⟨by simp [visit, BindingExpr.eval, hl, hr, Expr.eval], by simp [visit, hln, hrn]⟩
  | unary op e ih =>
    intro h
    obtain ⟨he, hn⟩ := ih h
    exact ⟨by simp [visit, BindingExpr.eval, he, Expr.eval], by simp [visit, hn]⟩
  | equals lhs rhs ihl ihr =>
    intro h
    simp only [HasEquality, not_or, not_not] at h
    obtain ⟨hl, hln⟩ := ihl fun hpush => (h hpush).2.1
    obtain ⟨hr, hrn⟩ := ihr fun hpush => (h hpush).2.2
    have hvisit : visit canPushOutside (.equals lhs rhs) =
        (.equals (visit canPushOutside lhs).1 (visit canPushOutside rhs).1, []) := by
      cases canPushOutside with
      | false => simp [visit, hln, hrn]
      | true => simp [visit, (h rfl).1, hln, hrn]
    exact ⟨by simp [hvisit, BindingExpr.eval, hl, hr, Expr.eval], by rw [hvisit]⟩
  | and first second rest ihf ihs ihr =>
    intro h
    have hrest : ∀ es : List (Expr C), ¬ HasEqualityAny es → ∀ e ∈ es, ¬ e.HasEquality := by
      intro es
      induction es with
      | nil => simp
      | cons e es ih =>
        intro h
        rw [HasEqualityAny, not_or] at h
        exact List.forall_mem_cons.mpr ⟨h.1, ih h.2⟩
    simp only [HasEquality, not_or] at h
    obtain ⟨hf, hfn⟩ := ihf fun hpush => (h hpush).1
    obtain ⟨hs, hsn⟩ := ihs fun hpush => (h hpush).2.1
    obtain ⟨hr, hrn⟩ := visitAnd_direct fun e he => ihr e he fun hpush =>
      hrest rest (h hpush).2.2 e he
    refine ⟨?_, by simp [visit, hfn, hsn, hrn]⟩
    simp only [visit, kept_of_eval hf, kept_of_eval hs, List.cons_append, List.nil_append, conjunction,
      BindingExpr.eval, BindingExpr.evalAnd, hf, hs, hr, Expr.eval]
    split_ifs <;> rfl
  | not e ih =>
    intro _
    obtain ⟨he, hn⟩ := @ih false (by simp)
    exact ⟨by simp [visit, BindingExpr.eval, he, Expr.eval], by simp [visit, hn]⟩
  | or es ih =>
    intro _
    obtain ⟨he, hn⟩ := visitOr_direct fun e he => @ih e he false (by simp)
    exact ⟨by simp [visit, BindingExpr.eval, he, Expr.eval], by simp [visit, hn]⟩

theorem visit_onlyEqualities (e : Expr C) : e.OnlyEqualities → (visit true e).1 = .nullptr := by
  induction e using Expr.induct with
  | equals lhs rhs ihl ihr =>
    intro h
    obtain ⟨w, hw⟩ := Option.ne_none_iff_exists'.mp h
    simp [visit, hw]
  | and first second rest ihf ihs ihr =>
    intro ⟨hf, hs, hr⟩
    have hrest : ∀ es : List (Expr C), (∀ e ∈ es, e ∈ rest) → OnlyEqualitiesAll es →
        (visitAnd true es).1 = [] := by
      intro es
      induction es with
      | nil => exact fun _ _ => rfl
      | cons e es ih =>
        intro hes ⟨he, h⟩
        obtain ⟨hmem, hes⟩ := List.forall_mem_cons.mp hes
        simp [visitAnd, ihr e hmem he, ih hes h, kept]
    simp [visit, ihf hf, ihs hs, hrest rest (fun _ h => h) hr, kept, conjunction]
  | _ => exact False.elim

/-- `Where` lets a row pass: there is no condition left, or it is true. -/
def Passes (O : Objects C V) (r : Binding) (b : BindingExpr C) : Prop :=
  b = .nullptr ∨ b.eval O r = some (O.bool true)

def Evaluates (O : Objects C V) (r : Binding) (b : BindingExpr C) : Prop :=
  b = .nullptr ∨ b.eval O r ≠ none

theorem passes_iff_forall (hsame : ∀ g ∈ O'.left, ∀ h ∈ O'.left, h = g) (b : BindingExpr C) :
    ((b = .nullptr ∨ true ∈ b.passes O' r) ↔ ∀ g ∈ O'.left, Passes (O'.objects g) r b) ∧
      ((b = .nullptr ∨ false ∉ b.passes O' r) ↔ ∀ g ∈ O'.left, Passes (O'.objects g) r b) := by
  obtain ⟨g, hg⟩ := List.exists_mem_of_ne_nil _ O'.left_ne_nil
  have hall : (∀ g ∈ O'.left, Passes (O'.objects g) r b) ↔ Passes (O'.objects g) r b :=
    ⟨fun h => h g hg, fun h h' hh' => hsame g hg h' hh' ▸ h⟩
  have heq := BindingExpr.passes_eq (r := r) (hsame g hg) b
  obtain ⟨t, ht⟩ := List.exists_mem_of_ne_nil _ (BindingExpr.passes_ne_nil (O := O') (r := r) b)
  rw [hall, Passes]
  refine ⟨or_congr_right ⟨fun h => ?_, fun h => ?_⟩, or_congr_right ⟨fun h => ?_, fun h hfalse => ?_⟩⟩
  · simpa using heq true h
  · simpa [heq t ht, h] using ht
  · by_contra hne
    exact h (by simpa [heq t ht, hne] using ht)
  · simpa [h] using heq false hfalse

/-- What is taken out and what is left say together what the condition says. -/
structure Splits (O : Objects C V) (r : Binding) (e : Expr C) : Prop where
  properties : (visit true e).2 = e.equalities
  evaluates : Evaluates O r (visit true e).1
  iff_true : e.eval O r = O.bool true ↔
    Passes O r (visit true e).1 ∧ ∀ w ∈ e.equalities, w.Satisfied O r

theorem splits_of_direct (he : Direct O r true e) (hnone : e.equalities = []) : Splits O r e where
  properties := by rw [he.2, hnone]
  evaluates := .inr (by simp [he.1])
  iff_true := by
    have hb : (visit true e).1 ≠ .nullptr := by
      intro hb
      have heval := he.1
      rw [hb] at heval
      simp [BindingExpr.eval] at heval
    simp [Passes, hb, he.1, hnone]

/-- The operands that are kept evaluate, and they say what the operands of the conjunction say
besides the equalities. -/
structure SplitsAll (O : Objects C V) (r : Binding) (bs : List (BindingExpr C)) (P Q : Prop) : Prop where
  evaluates : ∀ b ∈ bs, b.eval O r ≠ none
  iff_true : P ↔ (∀ b ∈ bs, b.eval O r = some (O.bool true)) ∧ Q

theorem Splits.kept (he : Splits O r e) :
    SplitsAll O r (kept (visit true e).1) (e.eval O r = O.bool true)
      (∀ w ∈ e.equalities, w.Satisfied O r) := by
  have heval := he.evaluates
  have htrue := he.iff_true
  cases hb : (visit true e).1 with
  | nullptr => exact ⟨by simp [Expr2BindingExpr.kept], by simpa [hb, Passes, Expr2BindingExpr.kept] using htrue⟩
  | _ =>
    rw [hb] at heval htrue
    simp only [Evaluates, Passes, reduceCtorEq, false_or] at heval htrue
    exact ⟨by simpa [Expr2BindingExpr.kept] using heval, by simpa [Expr2BindingExpr.kept] using htrue⟩

theorem SplitsAll.append {bs' : List (BindingExpr C)} {P P' Q Q' : Prop} (h : SplitsAll O r bs P Q)
    (h' : SplitsAll O r bs' P' Q') : SplitsAll O r (bs ++ bs') (P ∧ P') (Q ∧ Q') where
  evaluates b hb := (List.mem_append.mp hb).elim (h.evaluates b) (h'.evaluates b)
  iff_true := by
    rw [h.iff_true, h'.iff_true, List.forall_mem_append]
    tauto

theorem evalAnd_ne_none (hbs : ∀ b ∈ bs, b.eval O r ≠ none) : BindingExpr.evalAnd O r bs ≠ none := by
  induction bs with
  | nil => simp [BindingExpr.evalAnd]
  | cons b bs ih =>
    obtain ⟨hb, hbs⟩ := List.forall_mem_cons.mp hbs
    obtain ⟨v, hv⟩ := Option.ne_none_iff_exists'.mp hb
    rw [BindingExpr.evalAnd, hv]
    simp only
    split_ifs
    · exact ih hbs
    · simp
    · simp

theorem evalAnd_eq_true : BindingExpr.evalAnd O r bs = some (O.bool true) ↔
    ∀ b ∈ bs, b.eval O r = some (O.bool true) := by
  induction bs with
  | nil => simp [BindingExpr.evalAnd]
  | cons b bs ih =>
    rw [BindingExpr.evalAnd, List.forall_mem_cons]
    cases hv : b.eval O r with
    | none => simp
    | some v =>
      by_cases htrue : v = O.bool true
      · simp [htrue, ih]
      · simp only [htrue, if_false, Option.some.injEq, false_and, iff_false]
        split_ifs
        · simpa using O.true_ne_false.symm
        · simpa using O.null_ne_true

theorem eval_conjunction (hbs : ∀ b ∈ bs, b.eval O r ≠ none) :
    Evaluates O r (conjunction bs) ∧
      (Passes O r (conjunction bs) ↔ ∀ b ∈ bs, b.eval O r = some (O.bool true)) := by
  match bs with
  | [] => exact ⟨.inl rfl, by simp [Passes, conjunction]⟩
  | [b] =>
    have hb := hbs b List.mem_cons_self
    have hnull : b ≠ .nullptr := by
      rintro rfl
      exact hb (by simp [BindingExpr.eval])
    exact ⟨.inr hb, by simp [Passes, conjunction, hnull]⟩
  | b :: b' :: bs =>
    have hand : (conjunction (b :: b' :: bs)).eval O r = BindingExpr.evalAnd O r (b :: b' :: bs) := by
      rw [show conjunction (b :: b' :: bs) = .and (b :: b' :: bs) from rfl, BindingExpr.eval]
    refine ⟨.inr (hand ▸ evalAnd_ne_none hbs), ?_⟩
    rw [Passes, hand, evalAnd_eq_true]
    simp [conjunction]

theorem splitsAll_visitAnd (hes : ∀ e ∈ es, Splits O r e) :
    (visitAnd true es).2 = equalitiesAll es ∧
      SplitsAll O r (visitAnd true es).1 (evalAnd O r es = O.bool true)
        (∀ w ∈ equalitiesAll es, w.Satisfied O r) := by
  induction es with
  | nil => exact ⟨rfl, by simp [visitAnd], by simp [visitAnd, equalitiesAll, evalAnd]⟩
  | cons e es ih =>
    obtain ⟨he, hes⟩ := List.forall_mem_cons.mp hes
    obtain ⟨hproperties, ih⟩ := ih hes
    have happend := he.kept.append ih
    refine ⟨by rw [visitAnd, equalitiesAll, ← he.properties, ← hproperties], happend.evaluates, ?_⟩
    rw [equalitiesAll, List.forall_mem_append, visitAnd, ← happend.iff_true, evalAnd]
    split_ifs with htrue hfalse
    · simp [htrue]
    · simpa [htrue] using O.true_ne_false.symm
    · simpa [htrue] using O.null_ne_true

theorem eval_eq_iff_of_propertyEquality {lhs rhs : Expr C} {w : WhereProperty C}
    (hw : propertyEquality lhs rhs = some w) : lhs.eval O r = rhs.eval O r ↔ w.Satisfied O r := by
  unfold propertyEquality at hw
  split at hw
  · cases hw
    simp only [Expr.eval, WhereProperty.Satisfied]
  · cases hw
    simp only [Expr.eval, WhereProperty.Satisfied]
    exact eq_comm
  · cases hw

theorem splits (e : Expr C) : e.Conjunctive → Splits O r e := by
  induction e using Expr.induct with
  | var x => exact fun _ => splits_of_direct (visit_direct _ (by simp [HasEquality])) rfl
  | varProperty x key => exact fun _ => splits_of_direct (visit_direct _ (by simp [HasEquality])) rfl
  | constant c => exact fun _ => splits_of_direct (visit_direct _ (by simp [HasEquality])) rfl
  | binary op lhs rhs ihl ihr =>
    intro h
    rw [Conjunctive] at h
    exact splits_of_direct (visit_direct _ (by simp [HasEquality, h])) rfl
  | unary op e ih =>
    intro h
    rw [Conjunctive] at h
    exact splits_of_direct (visit_direct _ (by simp [HasEquality, h])) rfl
  | equals lhs rhs ihl ihr =>
    intro h
    rw [Conjunctive] at h
    cases hw : propertyEquality lhs rhs with
    | none =>
      refine splits_of_direct (visit_direct _ ?_) (by simp [equalities, hw])
      simpa [HasEquality, hw] using h
    | some w =>
      have hvisit : visit true (.equals lhs rhs) = (.nullptr, [w]) := by simp [visit, hw]
      refine ⟨by simp [hvisit, equalities, hw], .inl (by rw [hvisit]), ?_⟩
      have heval := eval_eq_iff_of_propertyEquality (O := O) (r := r) hw
      simp only [hvisit, Passes, true_or, true_and, equalities, hw, Option.toList_some,
        List.forall_mem_singleton, Expr.eval, ← heval]
      by_cases hvalues : lhs.eval O r = rhs.eval O r
      · simp [hvalues]
      · simpa [hvalues] using O.true_ne_false.symm
  | and first second rest ihf ihs ihr =>
    intro ⟨hf, hs, hr⟩
    have hrest : ∀ es : List (Expr C), ConjunctiveAll es → ∀ e ∈ es, e.Conjunctive := by
      intro es
      induction es with
      | nil => simp
      | cons e es ih => exact fun h => List.forall_mem_cons.mpr ⟨h.1, ih h.2⟩
    obtain ⟨hproperties, hr⟩ := splitsAll_visitAnd fun e he => ihr e he (hrest rest hr e he)
    have hall := ((ihf hf).kept.append (ihs hs).kept).append hr
    obtain ⟨hevaluates, hpasses⟩ := eval_conjunction hall.evaluates
    refine ⟨?_, hevaluates, ?_⟩
    · rw [equalities, ← (ihf hf).properties, ← (ihs hs).properties, ← hproperties, visit]
    · have hequalities : (∀ w ∈ (Expr.and first second rest).equalities, w.Satisfied O r) ↔
          ((∀ w ∈ first.equalities, w.Satisfied O r) ∧ ∀ w ∈ second.equalities, w.Satisfied O r) ∧
            ∀ w ∈ equalitiesAll rest, w.Satisfied O r := by
        rw [equalities, List.forall_mem_append, List.forall_mem_append]
      rw [show (visit true (.and first second rest)).1 = conjunction _ by rw [visit], hpasses,
        hequalities, ← hall.iff_true, Expr.eval, and_assoc]
      split_ifs with hfirst hsecond
      · simp [hfirst, hsecond]
      · simpa [hfirst, hsecond] using O.true_ne_false.symm
      · simpa [hfirst, hsecond] using O.null_ne_true
      · simpa [hfirst] using O.true_ne_false.symm
      · simpa [hfirst] using O.null_ne_true
  | not e ih => exact fun _ => splits_of_direct (visit_direct _ (by simp [HasEquality])) rfl
  | or es ih => exact fun _ => splits_of_direct (visit_direct _ (by simp [HasEquality])) rfl

end Expr2BindingExpr

end Match
end MillenniumDB
