import MillenniumDB.TriplePlans
import MillenniumDB.Lib.Doubles
import Mathlib.Data.List.Sort

/-!
# Estimates of the SPARQL planner

The visitor of a SPARQL pattern gives the plans of a group the variables that are bound so far,
tries the leapfrog join and otherwise lets `GreedyOptimizer` join the plans.  Both compare
estimates, and an estimate of a triple reads the count of its predicate whenever the predicate
is assigned.
-/

namespace MillenniumDB
namespace Estimates

open Scans
open TriplePlans (TriplePlan)

inductive EstimateError
  | badVariantAccess
  | divisionByZero
  | assertion
  | nullPlan
  deriving DecidableEq

structure Catalog where
  triplesCount : Nat
  distinctSubjects : Nat
  distinctPredicates : Nat
  distinctObjects : Nat
  predicate2totalCount : Nat → Nat

/-- `std::set<VarId>::insert`, for the sorted list of the members. -/
def insertVar (vars : List Nat) (v : Nat) : List Nat :=
  if v ∈ vars then vars else vars.orderedInsert (· ≤ ·) v

def insertVars (vars : List Nat) (more : List Nat) : List Nat := more.foldl insertVar vars

/-- `std::get<ObjectId>`. -/
def getObject : Id → Except EstimateError Nat
  | .object o => .ok o
  | .var _ => .error .badVariantAccess

def divide (a b : Double) : Except EstimateError Double :=
  if b.eq (.finite 0) then .error .divisionByZero else .ok (a / b)

/-- The member of `get_vars` for a position. -/
def freeVar (id : Id) (flag : Bool) : List Nat :=
  match id with
  | .object _ => []
  | .var v => if flag then [] else [v]

/-- `TriplePlan::estimate_output_size`, which is also `estimate_cost`. -/
def estimateTriple (c : Catalog) (p : TriplePlan) : Except EstimateError Double :=
  let totalTriples : Double := .ofInt c.triplesCount
  let distinctSubjects : Double := .ofInt c.distinctSubjects
  let distinctPredicates : Double := .ofInt c.distinctPredicates
  let distinctObjects : Double := .ofInt c.distinctObjects
  let zero : Double := .finite 0
  if distinctSubjects.eq zero ∨ distinctPredicates.eq zero ∨ distinctObjects.eq zero then .ok zero
  else if p.subjectAssigned ∧ p.predicateAssigned ∧ p.objectAssigned then do
    let predicate ← getObject p.predicate
    divide (.ofInt (c.predicate2totalCount predicate)) (distinctSubjects * distinctObjects)
  else if p.subjectAssigned ∧ p.predicateAssigned then do
    let predicate ← getObject p.predicate
    divide (.ofInt (c.predicate2totalCount predicate)) distinctSubjects
  else if p.subjectAssigned ∧ p.objectAssigned then
    divide totalTriples (distinctSubjects * distinctObjects)
  else if p.predicateAssigned ∧ p.objectAssigned then do
    let predicate ← getObject p.predicate
    divide (.ofInt (c.predicate2totalCount predicate)) distinctObjects
  else if p.subjectAssigned then divide totalTriples distinctSubjects
  else if p.predicateAssigned then do
    let predicate ← getObject p.predicate
    .ok (.ofInt (c.predicate2totalCount predicate))
  else if p.objectAssigned then divide totalTriples distinctObjects
  else .ok totalTriples

/-- `SparqlPathPlan`, without its path. -/
structure PathPlan where
  subject : Id
  object : Id
  subjectAssigned : Bool
  objectAssigned : Bool

inductive BasePlan
  | triple (plan : TriplePlan)
  | path (plan : PathPlan)

def doubleMax : Double := .finite ((2 ^ 53 - 1) * 2 ^ 971)

namespace BasePlan

def setInputVars (inputVars : List Nat) : BasePlan → BasePlan
  | triple p => triple (p.setInputVars inputVars)
  | path p => path { p with
      subjectAssigned := setInputVar inputVars p.subjectAssigned p.subject
      objectAssigned := setInputVar inputVars p.objectAssigned p.object }

def getVars : BasePlan → List Nat
  | triple p => insertVars [] (freeVar p.subject p.subjectAssigned ++
      freeVar p.predicate p.predicateAssigned ++ freeVar p.object p.objectAssigned)
  | path p => insertVars [] (freeVar p.subject p.subjectAssigned ++ freeVar p.object p.objectAssigned)

def estimateOutputSize (c : Catalog) : BasePlan → Except EstimateError Double
  | triple p => estimateTriple c p
  | path _ => .ok (.ofInt c.triplesCount * .ofInt c.triplesCount)

def estimateCost (c : Catalog) : BasePlan → Except EstimateError Double
  | triple p => estimateTriple c p
  | path p =>
    if p.subjectAssigned = false ∧ p.objectAssigned = false then .ok doubleMax
    else .ok (.ofInt c.triplesCount * .ofInt c.triplesCount)

/-- `get_leapfrog_iter`: whether it adds an iterator. -/
def getLeapfrogIter (varOrder : List Nat) (enumerationLevel : Nat) : BasePlan → Bool
  | triple p => (p.getLeapfrogIter varOrder enumerationLevel).isSome
  | path _ => false

end BasePlan

/-- Left deep plans: a plan of the group, or `IndexNestedLoopPlan` with its estimates. -/
inductive Plan
  | base (plan : BasePlan)
  | indexNestedLoop (lhs : Plan) (rhs : BasePlan) (estimatedOutputSize estimatedCost : Double)

namespace Plan

def getVars : Plan → List Nat
  | base p => p.getVars
  | indexNestedLoop lhs rhs _ _ => insertVars lhs.getVars rhs.getVars

def estimateOutputSize (c : Catalog) : Plan → Except EstimateError Double
  | base p => p.estimateOutputSize c
  | indexNestedLoop _ _ size _ => .ok size

def estimateCost (c : Catalog) : Plan → Except EstimateError Double
  | base p => p.estimateCost c
  | indexNestedLoop _ _ _ cost => .ok cost

/-- The estimates that `print` asks for. -/
def print (c : Catalog) : Plan → Except EstimateError Unit
  | base p => do
    let _ ← p.estimateOutputSize c
    .ok ()
  | indexNestedLoop lhs rhs _ _ => do
    lhs.print c
    let _ ← rhs.estimateOutputSize c
    .ok ()

/-- The constructor of `IndexNestedLoopPlan`. -/
def newIndexNestedLoop (c : Catalog) (lhs : Plan) (rhs : BasePlan) : Except EstimateError Plan := do
  let rhs := rhs.setInputVars lhs.getVars
  let lhsOutputSize ← lhs.estimateOutputSize c
  let rhsOutputSize ← rhs.estimateOutputSize c
  let lhsCost ← lhs.estimateCost c
  let rhsCost ← rhs.estimateCost c
  let cost := if (Double.finite 1).lt lhsOutputSize then lhsCost + lhsOutputSize * rhsCost else lhsCost + rhsCost
  .ok (indexNestedLoop lhs rhs (lhsOutputSize * rhsOutputSize) cost)

end Plan

def cartesianProductNeeded (p : BasePlan) (other : Plan) : Bool :=
  p.getVars.all fun v => v ∉ other.getVars

/-- `best_cost`, `best_index` and `best_step_plan`. -/
structure Best where
  cost : Double
  index : Nat
  plan : Option Plan

def Best.start : Best := ⟨.infinity false, 0, none⟩

/-- The first scan: the costs of all plans, each of which is printed. -/
def firstScan (c : Catalog) (plans : List BasePlan) : Except EstimateError Best :=
  plans.zipIdx.foldlM (fun best (p, j) => do
    let cost ← p.estimateCost c
    (Plan.base p).print c
    .ok (if cost.lt best.cost then ⟨cost, j, none⟩ else best)) .start

def bestJoin (c : Catalog) (candidate : BasePlan → Bool) (better : Double → Double → Bool) (root : Plan)
    (plans : List (Option BasePlan)) : Except EstimateError Best :=
  plans.zipIdx.foldlM (fun best (p, j) =>
    match p with
    | none => .ok best
    | some p =>
      if candidate p then do
        let plan ← Plan.newIndexNestedLoop c root p
        let cost ← plan.estimateCost c
        .ok (if better cost best.cost then ⟨cost, j, some plan⟩ else best)
      else .ok best) .start

/-- The root plan and the plans that are left, those that are taken being `nullptr`. -/
abbrev GreedyState := Plan × List (Option BasePlan)

/-- The next scan: first without cross products, and with them when the best cost is infinite. -/
def nextScan (c : Catalog) (st : GreedyState) : Except EstimateError Best := do
  let best ← bestJoin c (fun p => !cartesianProductNeeded p st.1) Double.lt st.1 st.2
  if best.cost.eq (.infinity false) then bestJoin c (fun _ => true) Double.le st.1 st.2 else .ok best

def greedyStep (c : Catalog) (st : GreedyState) : Except EstimateError GreedyState := do
  let best ← nextScan c st
  match best.plan with
  -- no cost compares with infinity when it is not a number, and the root plan is lost
  | none => .error .nullPlan
  | some plan => .ok (plan, st.2.set best.index none)

def greedyStart (c : Catalog) (plans : List BasePlan) : Except EstimateError GreedyState := do
  let best ← firstScan c plans
  match plans[best.index]? with
  | none => .error .assertion
  | some p => .ok (.base p, (plans.map some).set best.index none)

def greedyRounds (c : Catalog) (plans : List BasePlan) : Nat → Except EstimateError GreedyState
  | 0 => greedyStart c plans
  | n + 1 => do greedyStep c (← greedyRounds c plans n)

def getPlan (c : Catalog) (plans : List BasePlan) : Except EstimateError Plan := do
  let st ← greedyRounds c plans (plans.length - 1)
  .ok st.1

structure VarCost where
  var : Nat
  cost : Double
  appearances : Nat

/-- `var2cost`, which takes the variables of the query and those of the plans in order. -/
def var2cost (c : Catalog) (bindingSize : Nat) (plans : List BasePlan) :
    Except EstimateError (List VarCost) :=
  (insertVars (List.range bindingSize) (plans.flatMap (·.getVars))).mapM fun v => do
    let varPlans := plans.filter fun p => v ∈ p.getVars
    let cost ← varPlans.foldlM (fun best p => do
      let cost ← p.estimateCost c
      .ok (if cost.lt best then cost else best)) (.infinity false)
    .ok ⟨v, cost, varPlans.length⟩

def chooseVar (costs : List VarCost) (vars : List Nat) : VarCost :=
  vars.foldl (fun choosen v =>
    match costs.find? fun cost => cost.var = v with
    | none => choosen
    | some current =>
      if current.cost.lt choosen.cost ∨
          current.cost.eq choosen.cost ∧ choosen.appearances < current.appearances then current
      else choosen) ⟨2 ^ 64 - 1, .infinity false, 0⟩

structure VarOrder where
  unchoosen : List Nat
  connected : List Nat
  varOrder : List Nat

/-- One round of the loop over `unchoosen_intersection_vars`. -/
def chooseStep (costs : List VarCost) (plans : List BasePlan) (st : VarOrder) : VarOrder :=
  let choosen := (chooseVar costs (if st.connected.isEmpty then st.unchoosen else st.connected)).var
  let unchoosen := st.unchoosen.erase choosen
  let neighbours := (plans.filter fun p => choosen ∈ p.getVars).flatMap (·.getVars)
  ⟨unchoosen, insertVars (st.connected.erase choosen) (neighbours.filter (· ∈ unchoosen)),
    st.varOrder ++ [choosen]⟩

/-- `try_get_iter`: whether there is a leapfrog join.  Every round takes one variable. -/
def tryGetIter (c : Catalog) (bindingSize : Nat) (plans : List BasePlan) : Except EstimateError Bool := do
  let costs ← var2cost c bindingSize plans
  let unchoosen := (costs.filter fun cost => 1 < cost.appearances).map (·.var)
  let enumerationVars := (costs.filter fun cost => cost.appearances = 1).map (·.var)
  let order := ((chooseStep costs plans)^[unchoosen.length] ⟨unchoosen, [], []⟩).varOrder
  .ok (plans.all fun p => p.getLeapfrogIter (order ++ enumerationVars) order.length)

/-- `OpTriple`, whose elements are ids; a path stands for itself. -/
inductive OpTriple
  | triple (subject predicate object : Id)
  | path (subject object : Id)

def newPlan : OpTriple → BasePlan
  | .triple subject predicate object => .triple (.new subject predicate object)
  | .path subject object => .path ⟨subject, object, holdsObject subject, holdsObject object⟩

inductive Op
  | triples (triples : List OpTriple)
  | optional (op : Op) (optionals : List Op)

def basePlans (triples : List OpTriple) (assignedVars : List Nat) : List BasePlan :=
  triples.map fun t => (newPlan t).setInputVars assignedVars

def tryLeapfrog (c : Catalog) (bindingSize : Nat) (plans : List BasePlan) : Except EstimateError Bool :=
  if 1 < plans.length then tryGetIter c bindingSize plans else .ok false

/-- The plan of the greedy optimizer is printed with its estimates. -/
def planGreedily (c : Catalog) (plans : List BasePlan) : Except EstimateError Unit := do
  let rootPlan ← getPlan c plans
  rootPlan.print c
  let _ ← rootPlan.estimateCost c
  .ok ()

def planGroup (c : Catalog) (bindingSize : Nat) (plans : List BasePlan) : Except EstimateError Unit := do
  let leapfrog ← tryLeapfrog c bindingSize plans
  if leapfrog then .ok () else planGreedily c plans

/-- `visit(OpTriples&)`; the result is `assigned_vars`. -/
def visitTriples (c : Catalog) (bindingSize : Nat) (triples : List OpTriple) (assignedVars : List Nat) :
    Except EstimateError (List Nat) := do
  let plans := basePlans triples assignedVars
  planGroup c bindingSize plans
  .ok (insertVars assignedVars (plans.flatMap (·.getVars)))

mutual

/-- The visitor, with `assigned_vars` before and after. -/
def visit (c : Catalog) (bindingSize : Nat) : Op → List Nat → Except EstimateError (List Nat)
  | .triples triples, assignedVars => visitTriples c bindingSize triples assignedVars
  | .optional op optionals, assignedVars => do
    let assignedVars ← visit c bindingSize op assignedVars
    visitOptionals c bindingSize optionals assignedVars

def visitOptionals (c : Catalog) (bindingSize : Nat) : List Op → List Nat → Except EstimateError (List Nat)
  | [], assignedVars => .ok assignedVars
  | optional :: optionals, assignedVars => do
    let assignedVars ← visit c bindingSize optional assignedVars
    visitOptionals c bindingSize optionals assignedVars

end

def EstimatesReturn {α : Type} (run : Except EstimateError α) : Prop :=
  run ≠ .error .badVariantAccess ∧ run ≠ .error .divisionByZero

def ZeroCount (c : Catalog) : Prop :=
  c.distinctSubjects = 0 ∨ c.distinctPredicates = 0 ∨ c.distinctObjects = 0

def BasePlan.predicateVar : BasePlan → Option Nat
  | triple p =>
    match p.predicate with
    | .var v => some v
    | .object _ => none
  | path _ => none

/-- No plan of those that are left has a predicate that is a variable of the root plan. -/
def StepRight (c : Catalog) (st : GreedyState) : Prop :=
  ZeroCount c ∨ ∀ p, some p ∈ st.2 → ∀ v ∈ p.predicateVar, v ∉ st.1.getVars

/-- No predicate of the group is a variable that is bound before; for a leapfrog join this is asked of
the triples that still have a free variable.  In each state of the greedy optimizer, no predicate of
the plans that are left is a variable of the root plan. -/
def GroupRight (c : Catalog) (bindingSize : Nat) (triples : List OpTriple) (assignedVars : List Nat) :
    Prop :=
  let plans := basePlans triples assignedVars
  (1 < plans.length → ∀ p ∈ plans, p.getVars ≠ [] → ZeroCount c ∨ ∀ v ∈ p.predicateVar, v ∉ assignedVars) ∧
  (tryLeapfrog c bindingSize plans = .ok false →
    (∀ p ∈ plans, ZeroCount c ∨ ∀ v ∈ p.predicateVar, v ∉ assignedVars) ∧
      ∀ k < plans.length - 1, ∀ st, greedyRounds c plans k = .ok st → StepRight c st)

mutual

def Right (c : Catalog) (bindingSize : Nat) : Op → List Nat → Prop
  | .triples triples, assignedVars => GroupRight c bindingSize triples assignedVars
  | .optional op optionals, assignedVars => Right c bindingSize op assignedVars ∧
      ∀ assignedVars', visit c bindingSize op assignedVars = .ok assignedVars' →
        OptionalsRight c bindingSize optionals assignedVars'

def OptionalsRight (c : Catalog) (bindingSize : Nat) : List Op → List Nat → Prop
  | [], _ => True
  | optional :: optionals, assignedVars => Right c bindingSize optional assignedVars ∧
      ∀ assignedVars', visit c bindingSize optional assignedVars = .ok assignedVars' →
        OptionalsRight c bindingSize optionals assignedVars'

end

/-- The computation returns exactly when the condition holds, and otherwise it reads a term from a
position that holds a variable. -/
def ReadsIf {α : Type} (run : Except EstimateError α) (p : Prop) : Prop :=
  (p → ∃ a, run = .ok a) ∧ (¬ p → run = .error .badVariantAccess)

section

variable {α β : Type} {run : Except EstimateError α} {f : α → Except EstimateError β} {p q : Prop}

theorem ReadsIf.ok (a : α) : ReadsIf (.ok a) True := ⟨fun _ => ⟨a, rfl⟩, fun h => absurd trivial h⟩

theorem ReadsIf.congr (h : ReadsIf run p) (hpq : p ↔ q) : ReadsIf run q :=
  ⟨fun hq => h.1 (hpq.mpr hq), fun hq => h.2 fun hp => hq (hpq.mp hp)⟩

theorem ReadsIf.bind (h : ReadsIf run p) (hf : ∀ a, run = .ok a → ReadsIf (f a) q) :
    ReadsIf (run >>= f) (p ∧ q) := by
  constructor
  · intro ⟨hp, hq⟩
    obtain ⟨a, ha⟩ := h.1 hp
    rw [ha]
    exact (hf a ha).1 hq
  · intro hnot
    by_cases hp : p
    · obtain ⟨a, ha⟩ := h.1 hp
      rw [ha]
      exact (hf a ha).2 fun hq => hnot ⟨hp, hq⟩
    · rw [h.2 hp]
      rfl

theorem ReadsIf.andThen (h : ReadsIf run p) (hf : ∀ a, ∃ b, f a = .ok b) : ReadsIf (run >>= f) p := by
  refine (h.bind (q := True) fun a _ => ?_).congr (iff_of_eq (and_true p))
  obtain ⟨b, hb⟩ := hf a
  rw [hb]
  exact .ok b

theorem ReadsIf.foldlM {s : β → α → Except EstimateError β} {l : List α} {P : α → Prop}
    (h : ∀ b, ∀ a ∈ l, ReadsIf (s b a) (P a)) (b : β) : ReadsIf (l.foldlM s b) (∀ a ∈ l, P a) := by
  induction l generalizing b with
  | nil => exact (ReadsIf.ok b).congr (by simp)
  | cons a l ih =>
    rw [List.foldlM_cons]
    refine ((h b a List.mem_cons_self).bind fun b' _ =>
      ih (fun b'' a' ha' => h b'' a' (List.mem_cons_of_mem _ ha')) b').congr ?_
    exact (List.forall_mem_cons).symm

theorem ReadsIf.mapM {s : α → Except EstimateError β} {l : List α} {P : α → Prop}
    (h : ∀ a ∈ l, ReadsIf (s a) (P a)) : ReadsIf (l.mapM s) (∀ a ∈ l, P a) := by
  induction l with
  | nil =>
    rw [List.mapM_nil]
    exact (ReadsIf.ok []).congr (by simp)
  | cons a l ih =>
    rw [List.mapM_cons]
    refine ((h a List.mem_cons_self).bind fun b _ =>
      (ih fun a' ha' => h a' (List.mem_cons_of_mem _ ha')).andThen fun bs => ⟨b :: bs, rfl⟩).congr ?_
    exact (List.forall_mem_cons).symm

theorem ReadsIf.estimatesReturn_iff (h : ReadsIf run p) : EstimatesReturn run ↔ p := by
  constructor
  · intro hreturn
    by_contra hp
    exact hreturn.1 (h.2 hp)
  · intro hp
    obtain ⟨a, ha⟩ := h.1 hp
    rw [ha]
    exact ⟨nofun, nofun⟩

theorem estimatesReturn_bind : EstimatesReturn (run >>= f) ↔
    EstimatesReturn run ∧ ∀ a, run = .ok a → EstimatesReturn (f a) := by
  cases run with
  | ok a =>
    show EstimatesReturn (f a) ↔ _
    constructor
    · intro h
      exact ⟨⟨nofun, nofun⟩, fun b hb => by rwa [← Except.ok.inj hb]⟩
    · intro h
      exact h.2 a rfl
  | error e =>
    show EstimatesReturn (.error e) ↔ _
    constructor
    · intro h
      refine ⟨⟨fun heq => h.1 ?_, fun heq => h.2 ?_⟩, nofun⟩
      · rw [Except.error.inj heq]
      · rw [Except.error.inj heq]
    · intro h
      refine ⟨fun heq => h.1.1 ?_, fun heq => h.1.2 ?_⟩
      · rw [Except.error.inj heq]
      · rw [Except.error.inj heq]

end

section

variable {c : Catalog} {v : Nat} {vars more : List Nat}

theorem mem_insertVar {u : Nat} : v ∈ insertVar vars u ↔ v = u ∨ v ∈ vars := by
  rw [insertVar]
  split_ifs with hu
  · constructor
    · exact .inr
    · rintro (rfl | hv)
      · exact hu
      · exact hv
  · rw [List.mem_orderedInsert]

theorem mem_insertVars : v ∈ insertVars vars more ↔ v ∈ vars ∨ v ∈ more := by
  induction more generalizing vars with
  | nil => simp [insertVars]
  | cons u more ih =>
    rw [insertVars, List.foldl_cons, ← insertVars, ih, mem_insertVar, List.mem_cons]
    tauto

theorem divide_ok {a b : Double} (hb : b.eq (.finite 0) = false) : divide a b = .ok (a / b) :=
  if_neg (by simp [hb])

theorem readsIf_getObject (id : Id) : ReadsIf (getObject id) (∀ v, id ≠ .var v) := by
  cases id with
  | object o => exact (ReadsIf.ok o).congr (by simp)
  | var v => exact ⟨fun h => absurd rfl (h v), fun _ => rfl⟩

theorem readsIf_estimateTriple (c : Catalog) (p : TriplePlan) : ReadsIf (estimateTriple c p)
    (ZeroCount c ∨ (p.predicateAssigned = true → ∀ v, p.predicate ≠ .var v)) := by
  have hzeroIff : ∀ n : Nat, (Double.ofInt n).eq (.finite 0) = true ↔ n = 0 := Double.ofInt_eq_zero_iff
  by_cases hzero : ZeroCount c
  · have hcounts : (Double.ofInt c.distinctSubjects).eq (.finite 0) = true ∨
        (Double.ofInt c.distinctPredicates).eq (.finite 0) = true ∨
        (Double.ofInt c.distinctObjects).eq (.finite 0) = true := by
      rw [hzeroIff, hzeroIff, hzeroIff]
      exact hzero
    rw [estimateTriple, if_pos hcounts]
    exact (ReadsIf.ok _).congr (by simp [hzero])
  · have hcounts : ¬ ((Double.ofInt c.distinctSubjects).eq (.finite 0) = true ∨
        (Double.ofInt c.distinctPredicates).eq (.finite 0) = true ∨
        (Double.ofInt c.distinctObjects).eq (.finite 0) = true) := by
      rw [hzeroIff, hzeroIff, hzeroIff]
      exact hzero
    have hsubjects : (Double.ofInt c.distinctSubjects).eq (.finite 0) = false :=
      Bool.eq_false_of_not_eq_true fun h => hcounts (.inl h)
    have hobjects : (Double.ofInt c.distinctObjects).eq (.finite 0) = false :=
      Bool.eq_false_of_not_eq_true fun h => hcounts (.inr (.inr h))
    have hboth : (Double.ofInt c.distinctSubjects * Double.ofInt c.distinctObjects).eq (.finite 0) = false :=
      Double.mul_ofInt_ne_zero (fun h => hzero (.inl h)) fun h => hzero (.inr (.inr h))
    rw [estimateTriple, if_neg hcounts]
    simp only [hzero, false_or, divide_ok hsubjects, divide_ok hobjects, divide_ok hboth]
    have hread := readsIf_getObject p.predicate
    cases hp : p.predicateAssigned with
    | true =>
      simp only [forall_const, and_true, true_and, if_true]
      have hdone : ∀ f : Nat → Double, ReadsIf (do let o ← getObject p.predicate; .ok (f o))
          (∀ v, p.predicate ≠ .var v) := fun f => hread.andThen fun o => ⟨f o, rfl⟩
      cases p.subjectAssigned <;> cases p.objectAssigned <;>
        simp only [Bool.false_eq_true, and_false, and_true, and_self, if_true, if_false] <;>
        exact hdone _
    | false =>
      simp only [Bool.false_eq_true, and_false, false_and, if_false, false_implies]
      split_ifs <;> exact .ok _

def BasePlan.Fine (c : Catalog) : BasePlan → Prop
  | .triple p => ZeroCount c ∨ (p.predicateAssigned = true → ∀ v, p.predicate ≠ .var v)
  | .path _ => True

theorem BasePlan.readsIf_estimateOutputSize (p : BasePlan) :
    ReadsIf (p.estimateOutputSize c) (p.Fine c) := by
  cases p with
  | triple p => exact readsIf_estimateTriple c p
  | path p => exact .ok _

theorem BasePlan.readsIf_estimateCost (p : BasePlan) : ReadsIf (p.estimateCost c) (p.Fine c) := by
  cases p with
  | triple p => exact readsIf_estimateTriple c p
  | path p =>
    rw [BasePlan.estimateCost]
    split_ifs
    · exact .ok _
    · exact .ok _

theorem BasePlan.fine_setInputVars {p : BasePlan} (hp : p.Fine c) :
    (p.setInputVars vars).Fine c ↔ ZeroCount c ∨ ∀ v ∈ p.predicateVar, v ∉ vars := by
  cases p with
  | path p => simp [BasePlan.setInputVars, BasePlan.Fine, BasePlan.predicateVar]
  | triple p =>
    simp only [BasePlan.setInputVars, BasePlan.Fine, BasePlan.predicateVar, TriplePlan.setInputVars] at hp ⊢
    cases hid : p.predicate with
    | object o => simp
    | var u =>
      rw [hid] at hp
      by_cases hzero : ZeroCount c
      · simp [hzero]
      · have hflag : p.predicateAssigned = false := by
          rcases hp with hp | hp
          · exact absurd hp hzero
          · by_contra hflag
            exact hp (Bool.eq_true_of_not_eq_false hflag) u rfl
        by_cases hu : u ∈ vars
        · simp [hzero, setInputVar, hu]
        · simp [hzero, setInputVar, hu, hflag]

theorem newPlan_fine (t : OpTriple) : (newPlan t).Fine c := by
  cases t with
  | path subject object => trivial
  | triple subject predicate object =>
    refine .inr fun hassigned v hv => ?_
    have hid : predicate = .var v := hv
    subst hid
    cases hassigned

theorem BasePlan.predicateVar_mem_getVars {p : BasePlan} (hp : p.Fine c) (hzero : ¬ ZeroCount c)
    (hv : v ∈ p.predicateVar) : v ∈ p.getVars := by
  cases p with
  | path p => cases hv
  | triple p =>
    simp only [BasePlan.predicateVar] at hv
    cases hid : p.predicate with
    | object o => simp [hid] at hv
    | var u =>
      rw [hid, Option.mem_def, Option.some.injEq] at hv
      have hflag : p.predicateAssigned = false := by
        rcases hp with hp | hp
        · exact absurd hp hzero
        · by_contra hflag
          exact hp (Bool.eq_true_of_not_eq_false hflag) u hid
      rw [BasePlan.getVars, mem_insertVars, hid, hflag]
      simp [freeVar, hv]

def Plan.Fine (c : Catalog) : Plan → Prop
  | .base p => p.Fine c
  | .indexNestedLoop lhs rhs _ _ => lhs.Fine c ∧ rhs.Fine c

theorem Plan.readsIf_print (p : Plan) : ReadsIf (p.print c) (p.Fine c) := by
  induction p with
  | base p => exact p.readsIf_estimateOutputSize.andThen fun _ => ⟨(), rfl⟩
  | indexNestedLoop lhs rhs size cost ih =>
    exact ih.bind fun _ _ => rhs.readsIf_estimateOutputSize.andThen fun _ => ⟨(), rfl⟩

theorem Plan.estimateOutputSize_ok {p : Plan} (hp : p.Fine c) : ∃ size, p.estimateOutputSize c = .ok size := by
  cases p with
  | base p => exact p.readsIf_estimateOutputSize.1 hp
  | indexNestedLoop lhs rhs size cost => exact ⟨size, rfl⟩

theorem Plan.estimateCost_ok {p : Plan} (hp : p.Fine c) : ∃ cost, p.estimateCost c = .ok cost := by
  cases p with
  | base p => exact p.readsIf_estimateCost.1 hp
  | indexNestedLoop lhs rhs size cost => exact ⟨cost, rfl⟩

/-- A join asks for the estimates of the right plan with the variables of the left one. -/
theorem Plan.readsIf_newIndexNestedLoop {lhs : Plan} (hlhs : lhs.Fine c) (rhs : BasePlan) :
    ReadsIf (Plan.newIndexNestedLoop c lhs rhs) ((rhs.setInputVars lhs.getVars).Fine c) := by
  obtain ⟨lhsSize, hsize⟩ := Plan.estimateOutputSize_ok hlhs
  obtain ⟨lhsCost, hcost⟩ := Plan.estimateCost_ok hlhs
  simp only [Plan.newIndexNestedLoop, hsize, hcost]
  refine ((rhs.setInputVars lhs.getVars).readsIf_estimateOutputSize.bind (q := _) fun rhsSize _ =>
    (rhs.setInputVars lhs.getVars).readsIf_estimateCost.andThen fun rhsCost => ⟨_, rfl⟩).congr ?_
  exact and_self_iff

theorem Plan.fine_newIndexNestedLoop {lhs plan : Plan} {rhs : BasePlan} (hlhs : lhs.Fine c)
    (h : Plan.newIndexNestedLoop c lhs rhs = .ok plan) :
    plan.Fine c := by
  have hrhs : (rhs.setInputVars lhs.getVars).Fine c := by
    by_contra hnot
    rw [(Plan.readsIf_newIndexNestedLoop hlhs rhs).2 hnot] at h
    cases h
  obtain ⟨lhsSize, hsize⟩ := Plan.estimateOutputSize_ok hlhs
  obtain ⟨lhsCost, hcost⟩ := Plan.estimateCost_ok hlhs
  obtain ⟨rhsSize, hrhsSize⟩ := (rhs.setInputVars lhs.getVars).readsIf_estimateOutputSize.1 hrhs
  obtain ⟨rhsCost, hrhsCost⟩ := (rhs.setInputVars lhs.getVars).readsIf_estimateCost.1 hrhs
  simp only [Plan.newIndexNestedLoop, hsize, hcost, hrhsSize, hrhsCost] at h
  rw [← Except.ok.inj h]
  exact ⟨hlhs, hrhs⟩

end

section

variable {c : Catalog} {plans : List BasePlan} {st : GreedyState}

theorem readsIf_firstScan : ReadsIf (firstScan c plans) (∀ p ∈ plans, p.Fine c) := by
  have hstep : ∀ best : Best, ∀ x ∈ plans.zipIdx, ReadsIf (do
      let cost ← x.1.estimateCost c
      (Plan.base x.1).print c
      .ok (if cost.lt best.cost then ⟨cost, x.2, none⟩ else best)) (x.1.Fine c) := by
    intro best x _
    refine (x.1.readsIf_estimateCost.bind fun cost _ =>
      (Plan.base x.1).readsIf_print.andThen fun _ => ⟨_, rfl⟩).congr ?_
    exact and_self_iff
  refine (ReadsIf.foldlM hstep .start).congr ?_
  constructor
  · intro h p hp
    obtain ⟨j, hj, rfl⟩ := List.mem_iff_getElem.mp hp
    exact h (plans[j], j) (by simp [List.mem_zipIdx_iff_getElem?, hj])
  · intro h x hx
    exact h x.1 (List.fst_mem_of_mem_zipIdx hx)

theorem readsIf_bestJoin {root : Plan} (hroot : root.Fine c) (candidate : BasePlan → Bool)
    (better : Double → Double → Bool) (left : List (Option BasePlan)) :
    ReadsIf (bestJoin c candidate better root left)
      (∀ p, some p ∈ left → candidate p = true → (p.setInputVars root.getVars).Fine c) := by
  have hstep : ∀ best : Best, ∀ x ∈ left.zipIdx, ReadsIf (match x.1 with
      | none => .ok best
      | some p =>
        if candidate p then do
          let plan ← Plan.newIndexNestedLoop c root p
          let cost ← plan.estimateCost c
          .ok (if better cost best.cost then ⟨cost, x.2, some plan⟩ else best)
        else .ok best) (∀ p, x.1 = some p → candidate p = true →
          (p.setInputVars root.getVars).Fine c) := by
    intro best ⟨p, j⟩ _
    cases p with
    | none => exact (ReadsIf.ok best).congr (by simp)
    | some p =>
      by_cases hcandidate : candidate p = true
      · simp only [hcandidate, if_true]
        refine ((Plan.readsIf_newIndexNestedLoop hroot p).bind (q := True) fun plan hplan => ?_).congr ?_
        · obtain ⟨cost, hcost⟩ := Plan.estimateCost_ok (Plan.fine_newIndexNestedLoop hroot hplan)
          rw [hcost]
          exact .ok _
        · simp [hcandidate]
      · simp only [hcandidate]
        exact (ReadsIf.ok best).congr (by simp [hcandidate])
  refine (ReadsIf.foldlM hstep .start).congr ?_
  constructor
  · intro h p hp
    obtain ⟨j, hj, heq⟩ := List.mem_iff_getElem.mp hp
    exact h (some p, j) (by simp [List.mem_zipIdx_iff_getElem?, hj, heq]) p rfl
  · intro h x hx p hp
    exact h p (hp ▸ List.fst_mem_of_mem_zipIdx hx)

theorem foldlM_invariant {α β : Type} {s : β → α → Except EstimateError β} {I : β → Prop} {l : List α}
    (h : ∀ b a b', I b → s b a = .ok b' → I b') {b b' : β} (hb : I b) (hrun : l.foldlM s b = .ok b') :
    I b' := by
  induction l generalizing b with
  | nil =>
    rw [List.foldlM_nil] at hrun
    rwa [← Except.ok.inj hrun]
  | cons a l ih =>
    rw [List.foldlM_cons] at hrun
    cases hs : s b a with
    | error e =>
      rw [hs] at hrun
      cases hrun
    | ok b1 =>
      rw [hs] at hrun
      exact ih (h b a b1 hb hs) hrun

theorem fine_bestJoin {root : Plan} (hroot : root.Fine c) {candidate : BasePlan → Bool}
    {better : Double → Double → Bool} {left : List (Option BasePlan)} {best : Best}
    (h : bestJoin c candidate better root left = .ok best) : ∀ plan ∈ best.plan, plan.Fine c := by
  refine foldlM_invariant (I := fun best => ∀ plan ∈ best.plan, plan.Fine c) ?_ (by simp [Best.start]) h
  intro best ⟨p, j⟩ best' hbest hstep
  cases p with
  | none =>
    rw [← Except.ok.inj hstep]
    exact hbest
  | some p =>
    simp only at hstep
    split_ifs at hstep with hcandidate
    · cases hplan : Plan.newIndexNestedLoop c root p with
      | error e =>
        rw [hplan] at hstep
        cases hstep
      | ok plan =>
        have hfine := Plan.fine_newIndexNestedLoop hroot hplan
        obtain ⟨cost, hcost⟩ := Plan.estimateCost_ok hfine
        rw [hplan] at hstep
        have hstep : (do let cost ← plan.estimateCost c; _) = Except.ok best' := hstep
        rw [hcost] at hstep
        rw [← Except.ok.inj hstep]
        intro plan' hplan'
        split_ifs at hplan'
        · rw [← Option.some.inj hplan']
          exact hfine
        · exact hbest plan' hplan'
    · rw [← Except.ok.inj hstep]
      exact hbest

/-- No estimate fails for the root plan, nor for the plans that are left as they are. -/
def GreedyFine (c : Catalog) (st : GreedyState) : Prop :=
  st.1.Fine c ∧ ∀ p, some p ∈ st.2 → p.Fine c

theorem stepRight_iff (h : GreedyFine c st) : StepRight c st ↔ ∀ p, some p ∈ st.2 →
    (!cartesianProductNeeded p st.1) = true → (p.setInputVars st.1.getVars).Fine c := by
  constructor
  · intro hright p hp _
    rw [BasePlan.fine_setInputVars (h.2 p hp)]
    rcases hright with hzero | hright
    · exact .inl hzero
    · exact .inr (hright p hp)
  · intro hjoins
    by_cases hzero : ZeroCount c
    · exact .inl hzero
    refine .inr fun p hp v hv hroot => ?_
    have hcommon : (!cartesianProductNeeded p st.1) = true := by
      rw [cartesianProductNeeded, Bool.not_eq_true', List.all_eq_false]
      exact ⟨v, BasePlan.predicateVar_mem_getVars (h.2 p hp) hzero hv, by simpa using hroot⟩
    rcases (BasePlan.fine_setInputVars (h.2 p hp)).mp (hjoins p hp hcommon) with hzero' | hnot
    · exact hzero hzero'
    · exact hnot v hv hroot

theorem estimatesReturn_ok {α : Type} (a : α) : EstimatesReturn (.ok a) := ⟨nofun, nofun⟩

theorem estimatesReturn_assertion {α : Type} :
    EstimatesReturn (.error .assertion : Except EstimateError α) := ⟨nofun, nofun⟩

theorem estimatesReturn_nextScan (h : GreedyFine c st) :
    EstimatesReturn (nextScan c st) ↔ StepRight c st := by
  have hjoins := readsIf_bestJoin h.1 (fun p => !cartesianProductNeeded p st.1) Double.lt st.2
  rw [stepRight_iff h, nextScan, estimatesReturn_bind, hjoins.estimatesReturn_iff, and_iff_left_iff_imp]
  intro hright best _
  split_ifs
  · rw [(readsIf_bestJoin h.1 (fun _ => true) Double.le st.2).estimatesReturn_iff]
    intro p hp _
    rw [BasePlan.fine_setInputVars (h.2 p hp)]
    rcases (stepRight_iff h).mpr hright with hzero | hright
    · exact .inl hzero
    · exact .inr (hright p hp)
  · exact estimatesReturn_ok best

theorem fine_nextScan {best : Best} (h : GreedyFine c st) (hscan : nextScan c st = .ok best) :
    ∀ plan ∈ best.plan, plan.Fine c := by
  rw [nextScan] at hscan
  cases hfirst : bestJoin c (fun p => !cartesianProductNeeded p st.1) Double.lt st.1 st.2 with
  | error e =>
    rw [hfirst] at hscan
    cases hscan
  | ok first =>
    rw [hfirst] at hscan
    have hscan : (if first.cost.eq (.infinity false) then bestJoin c (fun _ => true) Double.le st.1 st.2
      else .ok first) = .ok best := hscan
    split_ifs at hscan with hinfinite
    · exact fine_bestJoin h.1 hscan
    · rw [← Except.ok.inj hscan]
      exact fine_bestJoin h.1 hfirst

theorem estimatesReturn_greedyStep (h : GreedyFine c st) :
    EstimatesReturn (greedyStep c st) ↔ StepRight c st := by
  rw [greedyStep, estimatesReturn_bind, estimatesReturn_nextScan h, and_iff_left_iff_imp]
  intro _ best _
  cases best.plan with
  | none => exact ⟨nofun, nofun⟩
  | some plan => exact estimatesReturn_ok _

theorem greedyFine_greedyStep {st' : GreedyState} (h : GreedyFine c st) (hstep : greedyStep c st = .ok st') :
    GreedyFine c st' := by
  rw [greedyStep] at hstep
  cases hscan : nextScan c st with
  | error e =>
    rw [hscan] at hstep
    cases hstep
  | ok best =>
    rw [hscan] at hstep
    have hstep : (match best.plan with
      | none => .error EstimateError.nullPlan
      | some plan => .ok (plan, st.2.set best.index none)) = Except.ok st' := hstep
    cases hplan : best.plan with
    | none =>
      rw [hplan] at hstep
      cases hstep
    | some plan =>
      rw [hplan] at hstep
      rw [← Except.ok.inj hstep]
      refine ⟨fine_nextScan h hscan plan hplan, fun p hp => h.2 p ?_⟩
      exact (List.mem_or_eq_of_mem_set hp).resolve_right (by simp)

theorem estimatesReturn_greedyStart :
    EstimatesReturn (greedyStart c plans) ↔ ∀ p ∈ plans, p.Fine c := by
  rw [greedyStart, estimatesReturn_bind, readsIf_firstScan.estimatesReturn_iff, and_iff_left_iff_imp]
  intro _ best _
  cases plans[best.index]? with
  | none => exact estimatesReturn_assertion
  | some p => exact estimatesReturn_ok _

theorem greedyFine_greedyStart (hstart : greedyStart c plans = .ok st) : GreedyFine c st := by
  have hplans : ∀ p ∈ plans, p.Fine c := by
    rw [← estimatesReturn_greedyStart, hstart]
    exact estimatesReturn_ok st
  obtain ⟨best, hbest⟩ := readsIf_firstScan.1 hplans
  rw [greedyStart, hbest] at hstart
  have hstart : (match plans[best.index]? with
    | none => .error EstimateError.assertion
    | some p => .ok (Plan.base p, (plans.map some).set best.index none)) = Except.ok st := hstart
  cases hget : plans[best.index]? with
  | none =>
    rw [hget] at hstart
    cases hstart
  | some p =>
    rw [hget] at hstart
    rw [← Except.ok.inj hstart]
    refine ⟨hplans p (List.mem_of_getElem? hget), fun p' hp' => ?_⟩
    have hmem := (List.mem_or_eq_of_mem_set hp').resolve_right (by simp)
    obtain ⟨q, hq, heq⟩ := List.mem_map.mp hmem
    exact Option.some.inj heq ▸ hplans q hq

theorem greedyFine_greedyRounds {n : Nat} (h : greedyRounds c plans n = .ok st) : GreedyFine c st := by
  induction n generalizing st with
  | zero => exact greedyFine_greedyStart h
  | succ n ih =>
    rw [greedyRounds] at h
    cases hn : greedyRounds c plans n with
    | error e =>
      rw [hn] at h
      cases h
    | ok st' =>
      rw [hn] at h
      exact greedyFine_greedyStep (ih hn) h

theorem estimatesReturn_greedyRounds (n : Nat) : EstimatesReturn (greedyRounds c plans n) ↔
    (∀ p ∈ plans, p.Fine c) ∧ ∀ k < n, ∀ st, greedyRounds c plans k = .ok st → StepRight c st := by
  induction n with
  | zero =>
    rw [greedyRounds, estimatesReturn_greedyStart]
    simp
  | succ n ih =>
    rw [greedyRounds, estimatesReturn_bind, ih]
    constructor
    · intro ⟨⟨hplans, hrounds⟩, hlast⟩
      refine ⟨hplans, fun k hk st hst => ?_⟩
      rcases Nat.lt_succ_iff_lt_or_eq.mp hk with hk | rfl
      · exact hrounds k hk st hst
      · exact (estimatesReturn_greedyStep (greedyFine_greedyRounds hst)).mp (hlast st hst)
    · intro ⟨hplans, hrounds⟩
      refine ⟨⟨hplans, fun k hk => hrounds k (by omega)⟩, fun st hst => ?_⟩
      rw [estimatesReturn_greedyStep (greedyFine_greedyRounds hst)]
      exact hrounds n (by omega) st hst

end

section

variable {c : Catalog} {bindingSize : Nat} {plans : List BasePlan}

theorem readsIf_var2cost :
    ReadsIf (var2cost c bindingSize plans) (∀ p ∈ plans, p.getVars ≠ [] → p.Fine c) := by
  have hvar : ∀ v ∈ insertVars (List.range bindingSize) (plans.flatMap (·.getVars)), ReadsIf (do
      let varPlans := plans.filter fun p => v ∈ p.getVars
      let cost ← varPlans.foldlM (fun best p => do
        let cost ← p.estimateCost c
        .ok (if cost.lt best then cost else best)) (.infinity false)
      .ok (VarCost.mk v cost varPlans.length)) (∀ p ∈ plans.filter fun p => v ∈ p.getVars, p.Fine c) := by
    intro v _
    refine (ReadsIf.foldlM (fun best p _ => ?_) (Double.infinity false)).andThen fun cost => ⟨_, rfl⟩
    exact p.readsIf_estimateCost.andThen fun cost => ⟨_, rfl⟩
  refine (ReadsIf.mapM hvar).congr ?_
  constructor
  · intro h p hp hne
    obtain ⟨v, hv⟩ := List.exists_mem_of_ne_nil _ hne
    refine h v (mem_insertVars.mpr (.inr (List.mem_flatMap.mpr ⟨p, hp, hv⟩))) p ?_
    exact List.mem_filter.mpr ⟨hp, decide_eq_true hv⟩
  · intro h v _ p hp
    obtain ⟨hp, hv⟩ := List.mem_filter.mp hp
    exact h p hp (List.ne_nil_of_mem (of_decide_eq_true hv))

theorem readsIf_tryLeapfrog : ReadsIf (tryLeapfrog c bindingSize plans)
    (1 < plans.length → ∀ p ∈ plans, p.getVars ≠ [] → p.Fine c) := by
  rw [tryLeapfrog]
  split_ifs with hlength
  · refine (readsIf_var2cost.andThen fun costs => ⟨_, rfl⟩).congr ?_
    simp [hlength]
  · exact (ReadsIf.ok false).congr (by simp [hlength])

theorem estimatesReturn_planGreedily : EstimatesReturn (planGreedily c plans) ↔ (∀ p ∈ plans, p.Fine c) ∧
        ∀ k < plans.length - 1, ∀ st, greedyRounds c plans k = .ok st → StepRight c st := by
  rw [planGreedily, estimatesReturn_bind, getPlan, estimatesReturn_bind, estimatesReturn_greedyRounds]
  have hlast : ∀ st, greedyRounds c plans (plans.length - 1) = .ok st → ∃ a, (do
      st.1.print c
      let _ ← st.1.estimateCost c
      .ok ()) = (.ok a : Except EstimateError Unit) := by
    intro st hst
    have hfine := greedyFine_greedyRounds hst
    obtain ⟨u, hprint⟩ := st.1.readsIf_print.1 hfine.1
    obtain ⟨cost, hcost⟩ := Plan.estimateCost_ok hfine.1
    rw [hprint]
    show ∃ a, (do let _ ← st.1.estimateCost c; .ok ()) = (.ok a : Except EstimateError Unit)
    rw [hcost]
    exact ⟨(), rfl⟩
  constructor
  · intro h
    exact h.1.1
  · intro h
    refine ⟨⟨h, fun st _ => estimatesReturn_ok st.1⟩, fun root hroot => ?_⟩
    cases hrounds : greedyRounds c plans (plans.length - 1) with
    | error e =>
      rw [hrounds] at hroot
      cases hroot
    | ok st =>
      rw [hrounds] at hroot
      obtain ⟨a, ha⟩ := hlast st hrounds
      rw [← Except.ok.inj hroot, ha]
      exact estimatesReturn_ok a

theorem predicateVar_setInputVars (p : BasePlan) (vars : List Nat) :
    (p.setInputVars vars).predicateVar = p.predicateVar := by
  cases p <;> rfl

theorem fine_basePlans {triples : List OpTriple} {assignedVars : List Nat} {p : BasePlan}
    (hp : p ∈ basePlans triples assignedVars) :
    p.Fine c ↔ ZeroCount c ∨ ∀ v ∈ p.predicateVar, v ∉ assignedVars := by
  obtain ⟨t, -, rfl⟩ := List.mem_map.mp hp
  rw [BasePlan.fine_setInputVars (newPlan_fine t), predicateVar_setInputVars]

theorem estimatesReturn_visitTriples {triples : List OpTriple} {assignedVars : List Nat} :
    EstimatesReturn (visitTriples c bindingSize triples assignedVars) ↔
      GroupRight c bindingSize triples assignedVars := by
  rw [visitTriples, GroupRight, estimatesReturn_bind, planGroup, estimatesReturn_bind,
    readsIf_tryLeapfrog.estimatesReturn_iff]
  have hfine : ∀ p ∈ basePlans triples assignedVars, (p.Fine c ↔
      ZeroCount c ∨ ∀ v ∈ p.predicateVar, v ∉ assignedVars) := fun p hp => fine_basePlans hp
  generalize basePlans triples assignedVars = plans at *
  have hleapfrog : (1 < plans.length → ∀ p ∈ plans, p.getVars ≠ [] → p.Fine c) ↔
      (1 < plans.length → ∀ p ∈ plans, p.getVars ≠ [] →
        ZeroCount c ∨ ∀ v ∈ p.predicateVar, v ∉ assignedVars) :=
    forall_congr' fun _ => forall₂_congr fun p hp => imp_congr_right fun _ => hfine p hp
  have hgreedy : EstimatesReturn (planGreedily c plans) ↔
      (∀ p ∈ plans, ZeroCount c ∨ ∀ v ∈ p.predicateVar, v ∉ assignedVars) ∧
        ∀ k < plans.length - 1, ∀ st, greedyRounds c plans k = .ok st → StepRight c st := by
    rw [estimatesReturn_planGreedily]
    exact and_congr_left fun _ => forall₂_congr hfine
  rw [hleapfrog]
  constructor
  · intro h
    refine ⟨h.1.1, fun hfalse => ?_⟩
    rw [← hgreedy]
    exact h.1.2 false hfalse
  · intro h
    refine ⟨⟨h.1, fun leapfrog hrun => ?_⟩, fun _ _ => estimatesReturn_ok _⟩
    cases leapfrog with
    | true => exact estimatesReturn_ok ()
    | false => exact hgreedy.mpr (h.2 hrun)

mutual

theorem estimatesReturn_visit (c : Catalog) (bindingSize : Nat) : ∀ (op : Op) (assignedVars : List Nat),
    EstimatesReturn (visit c bindingSize op assignedVars) ↔ Right c bindingSize op assignedVars
  | .triples triples, assignedVars => by
    rw [visit, Right, estimatesReturn_visitTriples]
  | .optional op optionals, assignedVars => by
    rw [visit, Right, estimatesReturn_bind, estimatesReturn_visit c bindingSize op assignedVars]
    exact and_congr_right fun _ => forall₂_congr fun vars _ =>
      estimatesReturn_visitOptionals c bindingSize optionals vars

theorem estimatesReturn_visitOptionals (c : Catalog) (bindingSize : Nat) :
    ∀ (optionals : List Op) (assignedVars : List Nat),
      EstimatesReturn (visitOptionals c bindingSize optionals assignedVars) ↔
        OptionalsRight c bindingSize optionals assignedVars
  | [], assignedVars => by
    rw [visitOptionals, OptionalsRight]
    exact ⟨fun _ => trivial, fun _ => estimatesReturn_ok assignedVars⟩
  | optional :: optionals, assignedVars => by
    rw [visitOptionals, OptionalsRight, estimatesReturn_bind,
      estimatesReturn_visit c bindingSize optional assignedVars]
    exact and_congr_right fun _ => forall₂_congr fun vars _ =>
      estimatesReturn_visitOptionals c bindingSize optionals vars

end

/-- The estimates of a pattern return exactly when every group is right. -/
theorem plannedRight_iff (c : Catalog) (bindingSize : Nat) (op : Op) :
    EstimatesReturn (visit c bindingSize op []) ↔ Right c bindingSize op [] :=
  estimatesReturn_visit c bindingSize op []

/-- The optional triple has the predicate of the triple before it, which is bound then. -/
theorem not_plannedRight :
    ¬ ∀ (c : Catalog) (bindingSize : Nat) (op : Op), EstimatesReturn (visit c bindingSize op []) := by
  intro h
  have hright := h ⟨1, 1, 1, 1, fun _ => 1⟩ 5
    (.optional (.triples [.triple (.var 0) (.var 1) (.var 2)])
      [.triples [.triple (.var 3) (.var 1) (.var 4)]])
  have hfail : visit ⟨1, 1, 1, 1, fun _ => 1⟩ 5 (.optional (.triples [.triple (.var 0) (.var 1) (.var 2)])
      [.triples [.triple (.var 3) (.var 1) (.var 4)]]) [] = .error .badVariantAccess := by
    decide +kernel
  exact hright.1 hfail

end

end Estimates
end MillenniumDB
