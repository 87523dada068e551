import MillenniumDB.WhereConditions

/-!
# Expressions of WHERE as they are parsed

The parse trees of the expressions of the MDB grammar, and the methods of `QueryVisitor` that
build an expression from them.  The visitor keeps one expression, moves it away before it goes
to the next operand, and recognizes an operator by its text.  The tree that it builds is the one
of the derivation unless an operator `%` occurs: the visitor looks for `|` in its place.
-/

namespace MillenniumDB
namespace Parser
namespace Where

open Match (ExprTypeName)

def keyword : ExprTypeName → String
  | .null => "null"
  | .string => "string"
  | .bool => "bool"
  | .integer => "integer"
  | .float => "float"

/-- `exprTypename`: each letter of the keyword is in upper or in lower case. -/
structure TypenameToken where
  type : ExprTypeName
  text : String
  spells : List.Forall₂ (fun k c : Char => c = k ∨ c = k.toUpper) (keyword type).toList text.toList

inductive ComparisonOp
  | eq
  | neq
  | lt
  | gt
  | leq
  | geq

inductive AdditiveOp
  | plus
  | minus

inductive MultiplicativeOp
  | star
  | slash
  | percent

inductive Token
  | kOr
  | kAnd
  | kIs
  | kNot
  | typename (name : TypenameToken)
  | comparison (op : ComparisonOp)
  | additive (op : AdditiveOp)
  | multiplicative (op : MultiplicativeOp)
  | leftParenthesis
  | rightParenthesis
  | variable (text : String)
  | key (name : String)
  | value (text : String)

def ComparisonOp.getText : ComparisonOp → String
  | eq => "=="
  | neq => "!="
  | lt => "<"
  | gt => ">"
  | leq => "<="
  | geq => ">="

def AdditiveOp.getText : AdditiveOp → String
  | plus => "+"
  | minus => "-"

def MultiplicativeOp.getText : MultiplicativeOp → String
  | star => "*"
  | slash => "/"
  | percent => "%"

mutual

/-- `conditionalAndExpr (K_OR conditionalAndExpr)*`. -/
inductive ConditionalOrExpr
  | mk (first : ConditionalAndExpr) (rest : OrTail)

inductive OrTail
  | nil
  | cons (operand : ConditionalAndExpr) (rest : OrTail)

/-- `comparisonExpr (K_AND comparisonExpr)*`. -/
inductive ConditionalAndExpr
  | mk (first : ComparisonExpr) (rest : AndTail)

inductive AndTail
  | nil
  | cons (operand : ComparisonExpr) (rest : AndTail)

/-- `comparisonExprOp` with one operand or two, and `comparisonExprIs`. -/
inductive ComparisonExpr
  | operand (expr : AdditiveExpr)
  | op (lhs : AdditiveExpr) (op : ComparisonOp) (rhs : AdditiveExpr)
  | is (expr : AdditiveExpr) (negation : Bool) (typename : TypenameToken)

/-- `multiplicativeExpr (op+=('+'|'-') multiplicativeExpr)*`. -/
inductive AdditiveExpr
  | mk (first : MultiplicativeExpr) (rest : AdditiveTail)

inductive AdditiveTail
  | nil
  | cons (op : AdditiveOp) (operand : MultiplicativeExpr) (rest : AdditiveTail)

/-- `unaryExpr (op+=('*'|'/'|'%') unaryExpr)*`. -/
inductive MultiplicativeExpr
  | mk (first : UnaryExpr) (rest : MultiplicativeTail)

inductive MultiplicativeTail
  | nil
  | cons (op : MultiplicativeOp) (operand : UnaryExpr) (rest : MultiplicativeTail)

inductive UnaryExpr
  | not (expr : UnaryExpr)
  | sign (op : AdditiveOp) (expr : UnaryExpr)
  | atomic (expr : AtomicExpr)

/-- `exprVar`, `exprValueExpr` and `exprParenthesis`. -/
inductive AtomicExpr
  | var (text : String)
  | varKey (text key : String)
  | value (text : String)
  | parenthesis (expr : ConditionalOrExpr)

end

mutual

def ConditionalOrExpr.tokens : ConditionalOrExpr → List Token
  | .mk first rest => first.tokens ++ rest.tokens

def OrTail.tokens : OrTail → List Token
  | .nil => []
  | .cons operand rest => .kOr :: (operand.tokens ++ rest.tokens)

def ConditionalAndExpr.tokens : ConditionalAndExpr → List Token
  | .mk first rest => first.tokens ++ rest.tokens

def AndTail.tokens : AndTail → List Token
  | .nil => []
  | .cons operand rest => .kAnd :: (operand.tokens ++ rest.tokens)

def ComparisonExpr.tokens : ComparisonExpr → List Token
  | .operand expr => expr.tokens
  | .op lhs op rhs => lhs.tokens ++ .comparison op :: rhs.tokens
  | .is expr negation typename =>
    expr.tokens ++ .kIs :: if negation then [.kNot, .typename typename] else [.typename typename]

def AdditiveExpr.tokens : AdditiveExpr → List Token
  | .mk first rest => first.tokens ++ rest.tokens

def AdditiveTail.tokens : AdditiveTail → List Token
  | .nil => []
  | .cons op operand rest => .additive op :: (operand.tokens ++ rest.tokens)

def MultiplicativeExpr.tokens : MultiplicativeExpr → List Token
  | .mk first rest => first.tokens ++ rest.tokens

def MultiplicativeTail.tokens : MultiplicativeTail → List Token
  | .nil => []
  | .cons op operand rest => .multiplicative op :: (operand.tokens ++ rest.tokens)

def UnaryExpr.tokens : UnaryExpr → List Token
  | .not expr => .kNot :: expr.tokens
  | .sign op expr => .additive op :: expr.tokens
  | .atomic expr => expr.tokens

def AtomicExpr.tokens : AtomicExpr → List Token
  | .var text => [.variable text]
  | .varKey text key => [.variable text, .key key]
  | .value text => [.value text]
  | .parenthesis expr => .leftParenthesis :: (expr.tokens ++ [.rightParenthesis])

end

/-- `Expr`, and the null pointer that a move leaves behind. -/
inductive Expr
  | nullptr
  | var (var : String)
  | varProperty (objectVar propertyVar propertyKey : String)
  | constant (value : String)
  | addition (lhs rhs : Expr)
  | subtraction (lhs rhs : Expr)
  | multiplication (lhs rhs : Expr)
  | division (lhs rhs : Expr)
  | modulo (lhs rhs : Expr)
  | unaryPlus (expr : Expr)
  | unaryMinus (expr : Expr)
  | equals (lhs rhs : Expr)
  | notEquals (lhs rhs : Expr)
  | less (lhs rhs : Expr)
  | lessOrEquals (lhs rhs : Expr)
  | greaterOrEquals (lhs rhs : Expr)
  | greater (lhs rhs : Expr)
  | is (negation : Bool) (expr : Expr) (type : ExprTypeName)
  | not (expr : Expr)
  | and (andList : List Expr)
  | or (orList : List Expr)

/-- `current_expr` with the exception `std::invalid_argument`. -/
abbrev Visitor := StateT Expr (Except String)

/-- `std::move(current_expr)`. -/
def moveExpr : Visitor Expr := do
  let expr ← get
  set Expr.nullptr
  return expr

def setExpr (expr : Except String Expr) : Visitor Unit := do
  set (← expr)

def parseType (str : String) : ExprTypeName :=
  if str = "null" then .null
  else if str = "integer" then .integer
  else if str = "float" then .float
  else if str = "string" then .string
  else .bool

def asciiToLower (c : Char) : Char :=
  if c.toNat ≤ 'Z'.toNat ∧ 'A'.toNat ≤ c.toNat then Char.ofNat (c.toNat + 'z'.toNat - 'Z'.toNat) else c

def asciiStrToLower (str : String) : String := String.ofList (str.toList.map asciiToLower)

/-- The operators that `visitComparisonExprOp` recognizes. -/
def comparisonExpr (op : String) (lhs rhs : Expr) : Except String Expr :=
  if op = "==" then .ok (.equals lhs rhs)
  else if op = "!=" then .ok (.notEquals lhs rhs)
  else if op = "<" then .ok (.less lhs rhs)
  else if op = "<=" then .ok (.lessOrEquals lhs rhs)
  else if op = ">=" then .ok (.greaterOrEquals lhs rhs)
  else if op = ">" then .ok (.greater lhs rhs)
  else .error (op ++ " not recognized as a valid ComparisonExpr operator")

def additiveExpr (op : String) (lhs rhs : Expr) : Except String Expr :=
  if op = "+" then .ok (.addition lhs rhs)
  else if op = "-" then .ok (.subtraction lhs rhs)
  else .error (op ++ " not recognized as a valid AdditiveExpr operator")

-- the grammar has '%' here
def multiplicativeExpr (op : String) (lhs rhs : Expr) : Except String Expr :=
  if op = "*" then .ok (.multiplication lhs rhs)
  else if op = "/" then .ok (.division lhs rhs)
  else if op = "|" then .ok (.modulo lhs rhs)
  else .error (op ++ " not recognized as a valid MultiplicativeExpr operator")

def unaryExpr (op : String) (expr : Expr) : Except String Expr :=
  if op = "+" then .ok (.unaryPlus expr)
  else if op = "-" then .ok (.unaryMinus expr)
  else .error (op ++ " not recognized as a valid UnaryExpr operator")

def OrTail.isEmpty : OrTail → Bool
  | .nil => true
  | .cons .. => false

def AndTail.isEmpty : AndTail → Bool
  | .nil => true
  | .cons .. => false

mutual

def visitConditionalOrExpr : ConditionalOrExpr → Visitor Unit
  | .mk first rest => do
    visitConditionalAndExpr first
    if !rest.isEmpty then
      let expr ← moveExpr
      let orList ← visitOrTail rest [expr]
      set (Expr.or orList)

def visitOrTail : OrTail → List Expr → Visitor (List Expr)
  | .nil, orList => return orList
  | .cons operand rest, orList => do
    visitConditionalAndExpr operand
    let expr ← moveExpr
    visitOrTail rest (orList ++ [expr])

def visitConditionalAndExpr : ConditionalAndExpr → Visitor Unit
  | .mk first rest => do
    visitComparisonExpr first
    if !rest.isEmpty then
      let expr ← moveExpr
      let andList ← visitAndTail rest [expr]
      set (Expr.and andList)

def visitAndTail : AndTail → List Expr → Visitor (List Expr)
  | .nil, andList => return andList
  | .cons operand rest, andList => do
    visitComparisonExpr operand
    let expr ← moveExpr
    visitAndTail rest (andList ++ [expr])

def visitComparisonExpr : ComparisonExpr → Visitor Unit
  | .operand expr => visitAdditiveExpr expr
  | .op lhs op rhs => do
    visitAdditiveExpr lhs
    let savedLhs ← moveExpr
    visitAdditiveExpr rhs
    setExpr (comparisonExpr op.getText savedLhs (← moveExpr))
  | .is expr negation typename => do
    visitAdditiveExpr expr
    set (Expr.is negation (← moveExpr) (parseType (asciiStrToLower typename.text)))

def visitAdditiveExpr : AdditiveExpr → Visitor Unit
  | .mk first rest => do
    visitMultiplicativeExpr first
    visitAdditiveTail rest

def visitAdditiveTail : AdditiveTail → Visitor Unit
  | .nil => return
  | .cons op operand rest => do
    let savedLhs ← moveExpr
    visitMultiplicativeExpr operand
    setExpr (additiveExpr op.getText savedLhs (← moveExpr))
    visitAdditiveTail rest

def visitMultiplicativeExpr : MultiplicativeExpr → Visitor Unit
  | .mk first rest => do
    visitUnaryExpr first
    visitMultiplicativeTail rest

def visitMultiplicativeTail : MultiplicativeTail → Visitor Unit
  | .nil => return
  | .cons op operand rest => do
    let savedLhs ← moveExpr
    visitUnaryExpr operand
    setExpr (multiplicativeExpr op.getText savedLhs (← moveExpr))
    visitMultiplicativeTail rest

def visitUnaryExpr : UnaryExpr → Visitor Unit
  | .not expr => do
    visitUnaryExpr expr
    set (Expr.not (← moveExpr))
  | .sign op expr => do
    visitUnaryExpr expr
    setExpr (unaryExpr op.getText (← moveExpr))
  | .atomic expr => visitAtomicExpr expr

/-- `visitExprVar`, `visitExprValueExpr`, and the children of a parenthesis. -/
def visitAtomicExpr : AtomicExpr → Visitor Unit
  | .var text => set (Expr.var text)
  | .varKey text key =>
    let keyText := "." ++ key
    -- ".key" to "key"
    set (Expr.varProperty text (text ++ keyText) (String.ofList (keyText.toList.drop 1)))
  | .value text => set (Expr.constant text)
  | .parenthesis expr => visitConditionalOrExpr expr

end

/-- The expression that `visitWhereStatement` moves into `OpWhere`. -/
def visitWhereStatement (expr : ConditionalOrExpr) : Visitor Expr := do
  visitConditionalOrExpr expr
  moveExpr

def ComparisonOp.expr : ComparisonOp → Expr → Expr → Expr
  | eq => .equals
  | neq => .notEquals
  | lt => .less
  | gt => .greater
  | leq => .lessOrEquals
  | geq => .greaterOrEquals

def AdditiveOp.expr : AdditiveOp → Expr → Expr → Expr
  | plus => .addition
  | minus => .subtraction

def AdditiveOp.unary : AdditiveOp → Expr → Expr
  | plus => .unaryPlus
  | minus => .unaryMinus

def MultiplicativeOp.expr : MultiplicativeOp → Expr → Expr → Expr
  | star => .multiplication
  | slash => .division
  | percent => .modulo

/-- An operator of any number of operands, where one operand alone stands for itself. -/
def joined (build : List Expr → Expr) (first : Expr) : List Expr → Expr
  | [] => first
  | second :: rest => build (first :: second :: rest)

mutual

/-- The expression that a derivation stands for.  Additive and multiplicative operators
associate to the left: the expression of a tail takes what is on its left. -/
def ConditionalOrExpr.expr : ConditionalOrExpr → Expr
  | .mk first rest => joined .or first.expr rest.exprs

def OrTail.exprs : OrTail → List Expr
  | .nil => []
  | .cons operand rest => operand.expr :: rest.exprs

def ConditionalAndExpr.expr : ConditionalAndExpr → Expr
  | .mk first rest => joined .and first.expr rest.exprs

def AndTail.exprs : AndTail → List Expr
  | .nil => []
  | .cons operand rest => operand.expr :: rest.exprs

def ComparisonExpr.expr : ComparisonExpr → Expr
  | .operand expr => expr.expr
  | .op lhs op rhs => op.expr lhs.expr rhs.expr
  | .is expr negation typename => .is negation expr.expr typename.type

def AdditiveExpr.expr : AdditiveExpr → Expr
  | .mk first rest => rest.expr first.expr

def AdditiveTail.expr : AdditiveTail → Expr → Expr
  | .nil, lhs => lhs
  | .cons op operand rest, lhs => rest.expr (op.expr lhs operand.expr)

def MultiplicativeExpr.expr : MultiplicativeExpr → Expr
  | .mk first rest => rest.expr first.expr

def MultiplicativeTail.expr : MultiplicativeTail → Expr → Expr
  | .nil, lhs => lhs
  | .cons op operand rest, lhs => rest.expr (op.expr lhs operand.expr)

def UnaryExpr.expr : UnaryExpr → Expr
  | .not expr => .not expr.expr
  | .sign op expr => op.unary expr.expr
  | .atomic expr => expr.expr

def AtomicExpr.expr : AtomicExpr → Expr
  | .var text => .var text
  | .varKey text key => .varProperty text (text ++ "." ++ key) key
  | .value text => .constant text
  | .parenthesis expr => expr.expr

end

def letters : List Char := "abcdefghijklmnopqrstuvwxyz".toList

theorem asciiToLower_of_spells {k c : Char} (hk : k ∈ letters) (h : c = k ∨ c = k.toUpper) :
    asciiToLower c = k := by
  have hall : letters.all (fun k => asciiToLower k == k && asciiToLower k.toUpper == k) = true := by
    decide +kernel
  have hletter := List.all_eq_true.mp hall k hk
  simp only [Bool.and_eq_true, beq_iff_eq] at hletter
  rcases h with rfl | rfl
  · exact hletter.1
  · exact hletter.2

theorem keyword_letters (type : ExprTypeName) : ∀ k ∈ (keyword type).toList, k ∈ letters := by
  have hall : (keyword type).toList.all (letters.contains ·) = true := by
    cases type <;> decide +kernel
  exact fun k hk => List.contains_iff_mem.mp (List.all_eq_true.mp hall k hk)

theorem map_asciiToLower {ks cs : List Char}
    (h : List.Forall₂ (fun k c : Char => c = k ∨ c = k.toUpper) ks cs)
    (hks : ∀ k ∈ ks, k ∈ letters) : cs.map asciiToLower = ks := by
  induction h with
  | nil => rfl
  | cons hc _ ih =>
    rw [List.forall_mem_cons] at hks
    rw [List.map_cons, asciiToLower_of_spells hks.1 hc, ih hks.2]

theorem parseType_asciiStrToLower (name : TypenameToken) :
    parseType (asciiStrToLower name.text) = name.type := by
  unfold asciiStrToLower
  rw [map_asciiToLower name.spells (keyword_letters name.type), String.ofList_toList]
  cases name.type <;> rfl

theorem comparisonExpr_getText (op : ComparisonOp) (lhs rhs : Expr) :
    comparisonExpr op.getText lhs rhs = .ok (op.expr lhs rhs) := by
  cases op <;> rfl

theorem additiveExpr_getText (op : AdditiveOp) (lhs rhs : Expr) :
    additiveExpr op.getText lhs rhs = .ok (op.expr lhs rhs) := by
  cases op <;> rfl

theorem unaryExpr_getText (op : AdditiveOp) (expr : Expr) :
    unaryExpr op.getText expr = .ok (op.unary expr) := by
  cases op <;> rfl

/-- The exception of an operator `%`. -/
def percentError : String := "% not recognized as a valid MultiplicativeExpr operator"

/-- Over these tokens the visitor comes to a value and to a current expression, or to the
exception when an operator `%` is among them. -/
structure Runs {α : Type} (visit : Visitor α) (current : Expr) (ts : List Token) (a : α)
    (next : Expr) : Prop where
  ok : Token.multiplicative .percent ∉ ts → visit.run current = .ok (a, next)
  error : Token.multiplicative .percent ∈ ts → visit.run current = .error percentError

namespace Runs

variable {α β : Type} {current next last : Expr} {ts ts' : List Token} {a : α} {b : β}

theorem congr {visit : Visitor α} (h : Runs visit current ts a next)
    (hts : Token.multiplicative .percent ∈ ts' ↔ Token.multiplicative .percent ∈ ts) :
    Runs visit current ts' a next where
  ok hnot := h.ok (hts.not.mp hnot)
  error hmem := h.error (hts.mp hmem)

theorem bind {visit : Visitor α} {go : α → Visitor β} (h : Runs visit current ts a next)
    (hgo : Runs (go a) next ts' b last) : Runs (visit >>= go) current (ts ++ ts') b last where
  ok hnot := by
    rw [List.mem_append, not_or] at hnot
    rw [StateT.run_bind, h.ok hnot.1]
    exact hgo.ok hnot.2
  error hmem := by
    rw [StateT.run_bind]
    by_cases hts : Token.multiplicative .percent ∈ ts
    · rw [h.error hts]
      rfl
    · rw [h.ok hts]
      exact hgo.error ((List.mem_append.mp hmem).resolve_left hts)

theorem of_run_eq {visit : Visitor α} (h : visit.run current = .ok (a, next)) :
    Runs visit current [] a next where
  ok _ := h
  error hmem := absurd hmem List.not_mem_nil

theorem ret : Runs (pure a) current [] a current := of_run_eq rfl

theorem moveExpr : Runs moveExpr current [] current .nullptr := of_run_eq rfl

theorem store : Runs (set next) current [] () next := of_run_eq rfl

theorem moveSet (build : Expr → Expr) :
    Runs (do set (build (← Where.moveExpr))) current [] () (build current) := of_run_eq rfl

theorem setExpr (current : Expr) {expr : Except String Expr} (h : expr = .ok next) :
    Runs (setExpr expr) current [] () next := by
  subst h
  exact of_run_eq rfl

theorem setMultiplicative (current : Expr) (op : MultiplicativeOp) (lhs rhs : Expr) :
    Runs (Where.setExpr (multiplicativeExpr op.getText lhs rhs)) current [.multiplicative op] ()
      (op.expr lhs rhs) := by
  cases op with
  | star => exact (setExpr current rfl).congr (by simp)
  | slash => exact (setExpr current rfl).congr (by simp)
  | percent => exact ⟨fun hnot => absurd List.mem_cons_self hnot, fun _ => rfl⟩

end Runs

mutual

theorem runs_conditionalOrExpr (t : ConditionalOrExpr) (current : Expr) :
    Runs (visitConditionalOrExpr t) current t.tokens () t.expr := by
  cases t with
  | mk first rest =>
    unfold visitConditionalOrExpr
    apply (runs_conditionalAndExpr first current).bind
    have hlist := runs_orTail rest [first.expr] .nullptr
    cases rest with
    | nil => exact .ret
    | cons operand rest => exact (Runs.moveExpr.bind (hlist.bind .store)).congr (by simp)
termination_by structural t

theorem runs_orTail (t : OrTail) (orList : List Expr) (current : Expr) :
    Runs (visitOrTail t orList) current t.tokens (orList ++ t.exprs)
      (if t.isEmpty then current else .nullptr) := by
  cases t with
  | nil =>
    rw [OrTail.exprs, List.append_nil]
    exact .ret
  | cons operand rest =>
    unfold visitOrTail
    have hrest := runs_orTail rest (orList ++ [operand.expr]) .nullptr
    rw [List.append_assoc, ite_self] at hrest
    have hoperand := runs_conditionalAndExpr operand current
    exact (hoperand.bind (Runs.moveExpr.bind hrest)).congr (by simp [OrTail.tokens])
termination_by structural t

theorem runs_conditionalAndExpr (t : ConditionalAndExpr) (current : Expr) :
    Runs (visitConditionalAndExpr t) current t.tokens () t.expr := by
  cases t with
  | mk first rest =>
    unfold visitConditionalAndExpr
    apply (runs_comparisonExpr first current).bind
    have hlist := runs_andTail rest [first.expr] .nullptr
    cases rest with
    | nil => exact .ret
    | cons operand rest => exact (Runs.moveExpr.bind (hlist.bind .store)).congr (by simp)
termination_by structural t

theorem runs_andTail (t : AndTail) (andList : List Expr) (current : Expr) :
    Runs (visitAndTail t andList) current t.tokens (andList ++ t.exprs)
      (if t.isEmpty then current else .nullptr) := by
  cases t with
  | nil =>
    rw [AndTail.exprs, List.append_nil]
    exact .ret
  | cons operand rest =>
    unfold visitAndTail
    have hrest := runs_andTail rest (andList ++ [operand.expr]) .nullptr
    rw [List.append_assoc, ite_self] at hrest
    have hoperand := runs_comparisonExpr operand current
    exact (hoperand.bind (Runs.moveExpr.bind hrest)).congr (by simp [AndTail.tokens])
termination_by structural t

theorem runs_comparisonExpr (t : ComparisonExpr) (current : Expr) :
    Runs (visitComparisonExpr t) current t.tokens () t.expr := by
  cases t with
  | operand expr => exact runs_additiveExpr expr current
  | op lhs op rhs =>
    unfold visitComparisonExpr
    have hlhs := runs_additiveExpr lhs current
    have hrhs := runs_additiveExpr rhs .nullptr
    have hset := Runs.setExpr .nullptr (comparisonExpr_getText op lhs.expr rhs.expr)
    exact (hlhs.bind (Runs.moveExpr.bind (hrhs.bind (Runs.moveExpr.bind hset)))).congr
      (by simp [ComparisonExpr.tokens])
  | is expr negation typename =>
    unfold visitComparisonExpr
    have hexpr := runs_additiveExpr expr current
    rw [parseType_asciiStrToLower]
    apply (hexpr.bind (.moveSet fun expr => .is negation expr typename.type)).congr
    cases negation <;> simp [ComparisonExpr.tokens]
termination_by structural t

theorem runs_additiveExpr (t : AdditiveExpr) (current : Expr) :
    Runs (visitAdditiveExpr t) current t.tokens () t.expr := by
  cases t with
  | mk first rest =>
    unfold visitAdditiveExpr
    exact (runs_multiplicativeExpr first current).bind (runs_additiveTail rest first.expr)
termination_by structural t

theorem runs_additiveTail (t : AdditiveTail) (lhs : Expr) :
    Runs (visitAdditiveTail t) lhs t.tokens () (t.expr lhs) := by
  cases t with
  | nil => exact .ret
  | cons op operand rest =>
    unfold visitAdditiveTail
    have hoperand := runs_multiplicativeExpr operand .nullptr
    have hset := Runs.setExpr .nullptr (additiveExpr_getText op lhs operand.expr)
    have hrest := runs_additiveTail rest (op.expr lhs operand.expr)
    exact (Runs.moveExpr.bind (hoperand.bind (Runs.moveExpr.bind (hset.bind hrest)))).congr
      (by simp [AdditiveTail.tokens])
termination_by structural t

theorem runs_multiplicativeExpr (t : MultiplicativeExpr) (current : Expr) :
    Runs (visitMultiplicativeExpr t) current t.tokens () t.expr := by
  cases t with
  | mk first rest =>
    unfold visitMultiplicativeExpr
    exact (runs_unaryExpr first current).bind (runs_multiplicativeTail rest first.expr)
termination_by structural t

theorem runs_multiplicativeTail (t : MultiplicativeTail) (lhs : Expr) :
    Runs (visitMultiplicativeTail t) lhs t.tokens () (t.expr lhs) := by
  cases t with
  | nil => exact .ret
  | cons op operand rest =>
    unfold visitMultiplicativeTail
    have hoperand := runs_unaryExpr operand .nullptr
    have hset := Runs.setMultiplicative .nullptr op lhs operand.expr
    have hrest := runs_multiplicativeTail rest (op.expr lhs operand.expr)
    exact (Runs.moveExpr.bind (hoperand.bind (Runs.moveExpr.bind (hset.bind hrest)))).congr
      (by simp [MultiplicativeTail.tokens, or_left_comm])
termination_by structural t

theorem runs_unaryExpr (t : UnaryExpr) (current : Expr) :
    Runs (visitUnaryExpr t) current t.tokens () t.expr := by
  cases t with
  | not expr =>
    unfold visitUnaryExpr
    exact ((runs_unaryExpr expr current).bind (.moveSet .not)).congr (by simp [UnaryExpr.tokens])
  | sign op expr =>
    unfold visitUnaryExpr
    have hset := Runs.setExpr .nullptr (unaryExpr_getText op expr.expr)
    exact ((runs_unaryExpr expr current).bind (Runs.moveExpr.bind hset)).congr
      (by simp [UnaryExpr.tokens])
  | atomic expr => exact runs_atomicExpr expr current
termination_by structural t

theorem runs_atomicExpr (t : AtomicExpr) (current : Expr) :
    Runs (visitAtomicExpr t) current t.tokens () t.expr := by
  cases t with
  | var text => exact Runs.store.congr (by simp [AtomicExpr.tokens])
  | varKey text key =>
    unfold visitAtomicExpr AtomicExpr.expr
    have hkey : String.ofList (("." ++ key).toList.drop 1) = key := by
      rw [String.toList_append]
      exact String.ofList_toList
    simp only [hkey, ← String.append_assoc]
    exact Runs.store.congr (by simp [AtomicExpr.tokens])
  | value text => exact Runs.store.congr (by simp [AtomicExpr.tokens])
  | parenthesis expr =>
    exact (runs_conditionalOrExpr expr current).congr (by simp [AtomicExpr.tokens])
termination_by structural t

end

/-- The visitor builds the expression of the derivation exactly when the text has no `%`. -/
theorem visitWhereStatement_iff (t : ConditionalOrExpr) (current : Expr) :
    (visitWhereStatement t).run current = .ok (t.expr, .nullptr) ↔
      Token.multiplicative .percent ∉ t.tokens := by
  have h : Runs (visitWhereStatement t) current (t.tokens ++ []) t.expr .nullptr :=
    (runs_conditionalOrExpr t current).bind .moveExpr
  rw [List.append_nil] at h
  constructor
  · intro hok hmem
    have herror := h.error hmem
    rw [hok] at herror
    cases herror
  · exact h.ok

/-- `?x % 2 == 0`. -/
def remainder : ConditionalOrExpr :=
  let atom (expr : AtomicExpr) : UnaryExpr := .atomic expr
  let lhs : MultiplicativeExpr := .mk (atom (.var "?x")) (.cons .percent (atom (.value "2")) .nil)
  let rhs : MultiplicativeExpr := .mk (atom (.value "0")) .nil
  .mk (.mk (.op (.mk lhs .nil) .eq (.mk rhs .nil)) .nil) .nil

theorem remainder_not_recognized :
    remainder.expr = .equals (.modulo (.var "?x") (.constant "2")) (.constant "0") ∧
      (visitWhereStatement remainder).run .nullptr =
        .error "% not recognized as a valid MultiplicativeExpr operator" ∧
      ¬ ∀ (t : ConditionalOrExpr) (current : Expr), ∃ next,
        (visitWhereStatement t).run current = .ok (t.expr, next) := by
  refine ⟨rfl, rfl, fun h => ?_⟩
  obtain ⟨next, hnext⟩ := h remainder .nullptr
  cases hnext

end Where
end Parser
end MillenniumDB
