import MillenniumDB.WhereConditions
import Mathlib.Data.List.Pairwise

/-!
# MATCH with the equalities of WHERE

The operators for a pattern when the equalities that `Expr2BindingExpr` takes out of the
condition are added to its basic patterns, and the rows that MATCH and WHERE return.  The
operators of a basic pattern are taken to find what extends their input row.
-/

namespace MillenniumDB
namespace Match

section

variable {C : Type}

def WhereProperty.op (w : WhereProperty C) : OpProperty C := ⟨.var w.var, w.key, w.value⟩

variable [DecidableEq C]

/-- `OpBasicGraphPattern::add_property`; nothing when it throws. -/
def BasicGraphPattern.addProperty (b : BasicGraphPattern C) (p : OpProperty C) :
    Option (BasicGraphPattern C) :=
  match h : b.properties.find? fun q => q.SameKey p with
  | some old => if old.value = p.value then some b else none
  | none => some {
      b with
      properties := p :: b.properties
      vars := p.vars ++ b.vars
      properties_unique := List.pairwise_cons.mpr ⟨fun q hq hsame => by
        have hq := List.find?_eq_none.mp h q hq
        simp [OpProperty.SameKey, hsame.1, hsame.2] at hq, b.properties_unique⟩
      label_vars := fun l hl x hx => List.mem_append_right _ (b.label_vars l hl x hx)
      property_vars := fun q hq x hx => by
        rcases List.mem_cons.mp hq with rfl | hq
        · exact List.mem_append_left _ hx
        · exact List.mem_append_right _ (b.property_vars q hq x hx)
      edge_vars := fun e he x hx => List.mem_append_right _ (b.edge_vars e he x hx)
      path_vars := fun q hq x hx => List.mem_append_right _ (b.path_vars q hq x hx)
      isolated_vars := fun x hx => List.mem_append_right _ (b.isolated_vars x hx) }

/-- The loop over `where_properties`. -/
def BasicGraphPattern.addWhere (b : BasicGraphPattern C) :
    List (WhereProperty C) → Option (BasicGraphPattern C)
  | [] => some b
  | w :: ws =>
    match b.addProperty w.op with
    | none => none
    | some b => b.addWhere ws

end

structure BasePlans (C : Type) where
  unjointObjects : List String
  labels : List (OpLabel C)
  properties : List (OpProperty C)
  edges : List (OpEdge C)
  paths : List (OpPath C)

/-- The operators of a pattern: `EmptyBindingIdIter`, the join of some plans, and
`OptionalNode`. -/
inductive MatchIter (C : Type)
  | empty
  | plans (basePlans : BasePlans C)
  | optional (main : MatchIter C) (children : List (MatchIter C))

/-- `fixed_vars` for the variables `?x.key`; an entry that is there is kept. -/
abbrev FixedVars := List ((String × String) × Nat)

def FixedVars.find (fixed : FixedVars) (y : String × String) : Option Nat :=
  (List.find? (fun entry => entry.1 = y) fixed).map Prod.snd

namespace BindingIdIterVisitor

variable {C : Type} [DecidableEq C] (G : QueryGraph C) [DecidablePred G.object]

def fixProperties : List (OpProperty C) → FixedVars → FixedVars
  | [], fixed => fixed
  | p :: ps, fixed =>
    match p.node with
    | .var x => fixProperties ps (fixed ++ [((x, p.key), G.objectId p.value)])
    | .term _ => fixProperties ps fixed

/-- The plans that `visit(OpBasicGraphPattern)` makes for a pattern with the equalities. -/
def basePlans (whereProperties : List (WhereProperty C)) (b : BasicGraphPattern C) : BasePlans C where
  unjointObjects := b.isolatedVars.filter fun x => x ∉ whereProperties.map (·.var)
  labels := b.labels
  properties := b.properties
  edges := b.edges
  paths := b.paths

/-- `visit(OpBasicGraphPattern)`. -/
def visitBasic (whereProperties : List (WhereProperty C)) (b : BasicGraphPattern C)
    (fixed : FixedVars) : Option (MatchIter C × FixedVars) :=
  if ∀ c ∈ b.isolatedTerms, G.object (G.objectId c) then
    match b.addWhere whereProperties with
    | none => none
    | some b => some (.plans (basePlans whereProperties b), fixProperties G b.properties fixed)
  else some (.empty, fixed)

mutual

/-- `visit(OpBasicGraphPattern)` and `visit(OpOptional)`. -/
def visit (whereProperties : List (WhereProperty C)) :
    GraphPattern C → FixedVars → Option (MatchIter C × FixedVars)
  | .basic op, fixed => visitBasic G whereProperties op fixed
  | .optional op optionals, fixed =>
    match visitBasic G whereProperties op fixed with
    | none => none
    | some (main, fixed) =>
      match visitAll whereProperties optionals fixed with
      | none => none
      | some (children, fixed) => some (.optional main children, fixed)

def visitAll (whereProperties : List (WhereProperty C)) :
    List (GraphPattern C) → FixedVars → Option (List (MatchIter C) × FixedVars)
  | [], fixed => some ([], fixed)
  | p :: ps, fixed =>
    match visit whereProperties p fixed with
    | none => none
    | some (child, fixed) =>
      match visitAll whereProperties ps fixed with
      | none => none
      | some (children, fixed) => some (child :: children, fixed)

end

end BindingIdIterVisitor

section

variable {C : Type} (G : QueryGraph C)

/-- `get_vars` of the plans. -/
def BasePlans.vars (ps : BasePlans C) : List String :=
  ps.unjointObjects ++ ps.labels.flatMap OpLabel.vars ++ ps.properties.flatMap (·.node.vars) ++
    ps.edges.flatMap OpEdge.vars ++ ps.paths.flatMap OpPath.vars

def OpProperty.Stored (f : Row) (p : OpProperty C) : Prop :=
  ∃ n, p.node.value G f = some n ∧ G.property n p.key (G.objectId p.value)

structure BasePlans.Found (f : Row) (ps : BasePlans C) : Prop where
  unjointObjects : ∀ x ∈ ps.unjointObjects, IsolatedHolds G f x
  labels : ∀ l ∈ ps.labels, l.Holds G f
  properties : ∀ p ∈ ps.properties, p.Stored G f
  edges : ∀ e ∈ ps.edges, e.Holds G f
  paths : ∀ p ∈ ps.paths, p.Holds G f

mutual

def MatchIter.rows : MatchIter C → Row → Set Row
  | empty, _ => ∅
  | plans ps, f => {g | Extends f g ∧ g.dom = f.dom ∪ {x | x ∈ ps.vars} ∧ ps.Found G g}
  | optional main children, f => {h | ∃ g ∈ main.rows f, h ∈ MatchIter.rowsAll children g}

/-- The children in turn: each extends the row, or leaves its own variables null. -/
def MatchIter.rowsAll : List (MatchIter C) → Row → Set Row
  | [], f => {f}
  | i :: is, f => {h | ∃ g, (g ∈ i.rows f ∨ i.rows f = ∅ ∧ g = f) ∧ h ∈ MatchIter.rowsAll is g}

end

/-- `Match` with the scans of `var_properties` below it. -/
structure MatchPlan (C : Type) where
  root : MatchIter C
  fixedVars : FixedVars
  varProperties : List (String × String)

/-- The value of `?x.key` in a row: the fixed one, what a scan finds or null. -/
def MatchPlan.PropertyFound (m : MatchPlan C) (f : Row) (x key : String) (value : Option Nat) : Prop :=
  match m.fixedVars.find (x, key) with
  | some id => value = some id
  | none =>
    if (x, key) ∈ m.varProperties then
      (∃ n id, f x = some n ∧ G.property n key id ∧ value = some id) ∨
        (∀ n id, f x = some n → ¬ G.property n key id) ∧ value = none
    else value = none

def MatchPlan.rows (m : MatchPlan C) : Set Binding :=
  {r | r.vars ∈ m.root.rows G (fun _ => none) ∧
    ∀ x key, m.PropertyFound G r.vars x key (r.properties (x, key))}

end

namespace BindingIterVisitor

variable {B C V : Type} [DecidableEq C] [DecidableEq V] (O : Unions B C V) (G : QueryGraph C)
  [DecidablePred G.object]

/-- `visit(OpMatch)`. -/
def visitMatch (whereProperties : List (WhereProperty C)) (varProperties : List (String × String))
    (p : GraphPattern C) : Option (MatchPlan C) :=
  (BindingIdIterVisitor.visit G whereProperties p []).map fun (root, fixedVars) =>
    { root, fixedVars, varProperties }

/-- `visit(OpWhere)` over MATCH: the plan and the condition of `Where`.  The properties
`returned` are those that RETURN and ORDER BY ask for. -/
def visitWhere (returned : List (String × String)) (e : Expr C) (p : GraphPattern C) :
    Option (MatchPlan C × BindingExpr C) :=
  let (condition, properties) := Expr2BindingExpr.visit true e
  (visitMatch G properties (returned ++ e.propertyVars) p).map fun m => (m, condition)

def rowsTrue (unmodified : MatchPlan C) (e : Expr C) : Set Binding :=
  {r ∈ unmodified.rows G | ∀ g ∈ O.left, e.eval (O.objects g) r = (O.objects g).bool true}

/-- The rows of WHERE are the rows of the unmodified MATCH that satisfy the condition: `Where`,
if there is one, never meets a null pointer, the rows that it can let pass satisfy the condition
and it always lets these pass. -/
def FiltersMatch (returned : List (String × String)) (e : Expr C) (p : GraphPattern C) : Prop :=
  ∃ m condition unmodified, visitWhere G returned e p = some (m, condition) ∧
    visitMatch G [] (returned ++ e.propertyVars) p = some unmodified ∧
    (∀ r ∈ m.rows G, condition = .nullptr ∨ none ∉ condition.evals O r) ∧
    {r ∈ m.rows G | condition = .nullptr ∨ true ∈ condition.passes O r} = rowsTrue O G unmodified e ∧
    {r ∈ m.rows G | condition = .nullptr ∨ false ∉ condition.passes O r} = rowsTrue O G unmodified e

end BindingIterVisitor

section

variable {C : Type} {G : QueryGraph C} {f g h : Row} {b b' : BasicGraphPattern C}
  {w : WhereProperty C} {ws : List (WhereProperty C)} {q : OpProperty C}

def Meets (G : QueryGraph C) (ws : List (WhereProperty C)) (f : Row) : Prop :=
  ∀ w ∈ ws, w.op.Stored G f

def Agree (ws : List (WhereProperty C)) : Prop :=
  ∀ w ∈ ws, ∀ w' ∈ ws, w.var = w'.var → w.key = w'.key → w.value = w'.value

structure WithEqualities (ws : List (WhereProperty C)) (b b' : BasicGraphPattern C) : Prop where
  labels : b'.labels = b.labels
  edges : b'.edges = b.edges
  paths : b'.paths = b.paths
  isolatedVars : b'.isolatedVars = b.isolatedVars
  mem_properties : ∀ q, q ∈ b'.properties ↔ q ∈ b.properties ∨ ∃ w ∈ ws, q = w.op

theorem OpProperty.eq_op_of_sameKey (hsame : q.SameKey w.op) (hvalue : q.value = w.value) : q = w.op := by
  obtain ⟨node, key, value⟩ := q
  simp_all [OpProperty.SameKey, WhereProperty.op]

variable [DecidableEq C]

theorem addProperty_of_agree (hb : ∀ q ∈ b.properties, q.SameKey w.op → q.value = w.value) :
    ∃ b', b.addProperty w.op = some b' ∧ WithEqualities [w] b b' := by
  unfold BasicGraphPattern.addProperty
  split
  next old hold =>
    have hmem := List.mem_of_find?_eq_some hold
    have hsame : old.SameKey w.op := by simpa using List.find?_some hold
    have hold := OpProperty.eq_op_of_sameKey hsame (hb old hmem hsame)
    refine ⟨b, by rw [hold, if_pos rfl], rfl, rfl, rfl, rfl, fun q => ?_⟩
    rw [hold] at hmem
    simp only [List.mem_singleton, exists_eq_left]
    exact ⟨.inl, fun h => h.elim id fun h => h ▸ hmem⟩
  next hnone =>
    refine ⟨_, rfl, rfl, rfl, rfl, rfl, fun q => ?_⟩
    simp [or_comm]

theorem addWhere_of_agree (hagree : Agree ws)
    (hb : ∀ w ∈ ws, ∀ q ∈ b.properties, q.SameKey w.op → q.value = w.value) :
    ∃ b', b.addWhere ws = some b' ∧ WithEqualities ws b b' := by
  induction ws generalizing b with
  | nil => exact ⟨b, rfl, rfl, rfl, rfl, rfl, by simp⟩
  | cons w ws ih =>
    obtain ⟨hw, hws⟩ := List.forall_mem_cons.mp hb
    obtain ⟨b₁, hadd, h₁⟩ := addProperty_of_agree hw
    obtain ⟨b₂, haddAll, h₂⟩ := ih (b := b₁)
      (fun w hw w' hw' => hagree w (List.mem_cons_of_mem _ hw) w' (List.mem_cons_of_mem _ hw'))
      (fun w' hw' q hq hsame => by
        rcases (h₁.mem_properties q).mp hq with hq | ⟨_, hmem, rfl⟩
        · exact hws w' hw' q hq hsame
        · rw [List.mem_singleton.mp hmem] at hsame ⊢
          simp only [OpProperty.SameKey, WhereProperty.op, QueryElement.var.injEq] at hsame
          exact hagree w List.mem_cons_self w' (List.mem_cons_of_mem _ hw') hsame.1 hsame.2)
    refine ⟨b₂, by rw [BasicGraphPattern.addWhere, hadd]; exact haddAll, h₂.labels.trans h₁.labels,
      h₂.edges.trans h₁.edges, h₂.paths.trans h₁.paths, h₂.isolatedVars.trans h₁.isolatedVars, fun q => ?_⟩
    rw [h₂.mem_properties, h₁.mem_properties, or_assoc]
    simp

end

namespace MatchIter

variable {C : Type} {G : QueryGraph C} {f g h : Row}

theorem induct {motive : MatchIter C → Prop} (empty : motive .empty) (plans : ∀ ps, motive (.plans ps))
    (optional : ∀ main children, motive main → (∀ i ∈ children, motive i) →
      motive (.optional main children)) (i : MatchIter C) : motive i :=
  MatchIter.rec (motive_1 := motive) (motive_2 := fun is => ∀ i ∈ is, motive i) empty plans optional
    (by simp) (fun _ _ hi his => List.forall_mem_cons.mpr ⟨hi, his⟩) i

theorem extends_of_mem_rowsAll {is : List (MatchIter C)}
    (his : ∀ i ∈ is, ∀ {f g : Row}, g ∈ i.rows G f → Extends f g) :
    ∀ {f g : Row}, g ∈ rowsAll G is f → Extends f g := by
  induction is with
  | nil =>
    intro f g hg
    rw [rowsAll] at hg
    exact fun x n hn => hg ▸ hn
  | cons i is ih =>
    intro f g hg
    obtain ⟨hi, his⟩ := List.forall_mem_cons.mp his
    rw [rowsAll] at hg
    obtain ⟨k, hk, hg⟩ := hg
    have hfk : Extends f k := by
      rcases hk with hk | ⟨-, rfl⟩
      · exact hi hk
      · exact fun x n hn => hn
    exact hfk.trans (ih his hg)

theorem extends_of_mem_rows (i : MatchIter C) : ∀ {f g : Row}, g ∈ i.rows G f → Extends f g := by
  induction i using induct with
  | empty =>
    intro f g hg
    simp [rows] at hg
  | plans ps =>
    intro f g hg
    rw [rows] at hg
    exact hg.1
  | optional main children ihm ihc =>
    intro f g hg
    rw [rows] at hg
    obtain ⟨k, hk, hg⟩ := hg
    exact (ihm hk).trans (extends_of_mem_rowsAll ihc hg)

end MatchIter

section

variable {C : Type} {G : QueryGraph C} {f g h : Row} {b b' : BasicGraphPattern C}
  {w : WhereProperty C} {ws : List (WhereProperty C)}

theorem WhereProperty.stored_iff : w.op.Stored G f ↔
    ∃ n, f w.var = some n ∧ G.property n w.key (G.objectId w.value) := Iff.rfl

theorem Meets.extends (hf : Meets G ws f) (hfg : Extends f g) : Meets G ws g := by
  intro w hw
  obtain ⟨n, hn, hproperty⟩ := hf w hw
  exact ⟨n, hfg _ _ hn, hproperty⟩

theorem Meets.of_extends (hg : Meets G ws g) (hfg : Extends f g) (hdom : ∀ w ∈ ws, w.var ∈ f.dom) :
    Meets G ws f := by
  intro w hw
  obtain ⟨n, hn, hproperty⟩ := WhereProperty.stored_iff.mp (hg w hw)
  obtain ⟨m, hm⟩ := Mapping.mem_dom.mp (hdom w hw)
  have hnm : n = m := Option.some.inj (hn.symm.trans (hfg _ _ hm))
  exact WhereProperty.stored_iff.mpr ⟨n, hnm ▸ hm, hproperty⟩

open BindingIdIterVisitor

theorem found_withEqualities (hb : WithEqualities ws b b') :
    (basePlans ws b').Found G f ↔ (basePlans [] b).Found G f ∧ Meets G ws f := by
  constructor
  · intro hf
    have hmeets : Meets G ws f := fun w hw =>
      hf.properties _ ((hb.mem_properties _).mpr (.inr ⟨w, hw, rfl⟩))
    refine ⟨⟨?_, ?_, ?_, ?_, ?_⟩, hmeets⟩
    · intro x hx
      by_cases hws : x ∈ ws.map (·.var)
      · obtain ⟨w, hw, rfl⟩ := List.mem_map.mp hws
        obtain ⟨n, hn, hproperty⟩ := WhereProperty.stored_iff.mp (hmeets w hw)
        exact ⟨n, hn, G.property_object hproperty⟩
      · refine hf.unjointObjects x (List.mem_filter.mpr ⟨?_, by simpa using hws⟩)
        rw [hb.isolatedVars]
        exact (List.mem_filter.mp hx).1
    · simpa [basePlans, hb.labels] using hf.labels
    · exact fun q hq => hf.properties q ((hb.mem_properties q).mpr (.inl hq))
    · simpa [basePlans, hb.edges] using hf.edges
    · simpa [basePlans, hb.paths] using hf.paths
  · intro ⟨hf, hmeets⟩
    refine ⟨?_, ?_, ?_, ?_, ?_⟩
    · intro x hx
      have hx := (List.mem_filter.mp hx).1
      rw [hb.isolatedVars] at hx
      exact hf.unjointObjects x (List.mem_filter.mpr ⟨hx, by simp⟩)
    · simpa [basePlans, hb.labels] using hf.labels
    · intro q hq
      rcases (hb.mem_properties q).mp hq with hq | ⟨w, hw, rfl⟩
      · exact hf.properties q hq
      · exact hmeets w hw
    · simpa [basePlans, hb.edges] using hf.edges
    · simpa [basePlans, hb.paths] using hf.paths

theorem vars_withEqualities (hb : WithEqualities ws b b') {seen : Set String}
    (hws : ∀ w ∈ ws, w.var ∈ seen ∪ {x | x ∈ (basePlans [] b).vars}) :
    seen ∪ {x | x ∈ (basePlans ws b').vars} = seen ∪ {x | x ∈ (basePlans [] b).vars} := by
  have hvar : ∀ w ∈ ws, w.var ∈ b'.properties.flatMap (·.node.vars) := fun w hw =>
    List.mem_flatMap.mpr ⟨w.op, (hb.mem_properties _).mpr (.inr ⟨w, hw, rfl⟩), List.mem_singleton.mpr rfl⟩
  have hproperties : ∀ x, x ∈ b'.properties.flatMap (·.node.vars) ↔
      x ∈ b.properties.flatMap (·.node.vars) ∨ ∃ w ∈ ws, x = w.var := by
    intro x
    simp only [List.mem_flatMap, hb.mem_properties]
    constructor
    · rintro ⟨q, hq | ⟨w, hw, rfl⟩, hx⟩
      · exact .inl ⟨q, hq, hx⟩
      · exact .inr ⟨w, hw, List.mem_singleton.mp hx⟩
    · rintro (⟨q, hq, hx⟩ | ⟨w, hw, rfl⟩)
      · exact ⟨q, .inl hq, hx⟩
      · exact ⟨w.op, .inr ⟨w, hw, rfl⟩, List.mem_singleton.mpr rfl⟩
  ext x
  by_cases hx : ∃ w ∈ ws, x = w.var
  · obtain ⟨w, hw, rfl⟩ := hx
    have hleft : w.var ∈ (basePlans ws b').vars := by simp [BasePlans.vars, basePlans, hvar w hw]
    exact ⟨fun _ => hws w hw, fun _ => .inr hleft⟩
  · have hunjoint : x ∉ ws.map (·.var) := by simpa [eq_comm] using hx
    have hvars : x ∈ (basePlans ws b').vars ↔ x ∈ (basePlans [] b).vars := by
      simp only [BasePlans.vars, basePlans, List.mem_append, List.mem_filter, hb.labels, hb.edges, hb.paths,
        hb.isolatedVars, hproperties, hx, or_false, hunjoint, not_false_eq_true, decide_true, and_true,
        List.map_nil, List.not_mem_nil]
    simp [hvars]

theorem rows_withEqualities (hb : WithEqualities ws b b')
    (hws : ∀ w ∈ ws, w.var ∈ f.dom ∪ {x | x ∈ (basePlans [] b).vars}) :
    g ∈ (MatchIter.plans (basePlans ws b')).rows G f ↔
      g ∈ (MatchIter.plans (basePlans [] b)).rows G f ∧ Meets G ws g := by
  simp only [MatchIter.rows, Set.mem_ofPred_eq, vars_withEqualities hb hws, found_withEqualities hb,
    and_assoc]

end

namespace BindingIdIterVisitor

section

variable {C : Type} {G : QueryGraph C} {b : BasicGraphPattern C} {ws : List (WhereProperty C)}
  {fixed : FixedVars} {rootProperties : List (OpProperty C)}

/-- What the visits with and without the equalities fix: the variables of the equalities have
their values where they are fixed, and without the equalities only if the properties of the
root say so. -/
structure Fixes (G : QueryGraph C) (ws : List (WhereProperty C)) (rootProperties : List (OpProperty C))
    (fixed plain : FixedVars) : Prop where
  other : ∀ y : String × String, (∀ w ∈ ws, y ≠ (w.var, w.key)) → fixed.find y = plain.find y
  moved : ∀ w ∈ ws, ∀ id, fixed.find (w.var, w.key) = some id → id = G.objectId w.value
  kept : ∀ w ∈ ws, ∀ id, plain.find (w.var, w.key) = some id →
    id = G.objectId w.value ∧ w.op ∈ rootProperties

/-- The properties of a basic pattern that has some of the equalities with their values only. -/
structure Admits (ws : List (WhereProperty C)) (rootProperties : List (OpProperty C))
    (b : BasicGraphPattern C) : Prop where
  same : ∀ w ∈ ws, ∀ q ∈ b.properties, q.SameKey w.op → q.value = w.value
  root : ∀ w ∈ ws, w.op ∈ b.properties → w.op ∈ rootProperties

structure Visited (G : QueryGraph C) (ws : List (WhereProperty C)) (rootProperties : List (OpProperty C))
    (root : BasicGraphPattern C) (fixed : FixedVars) (i j : MatchIter C) (fixed' plain' : FixedVars) :
    Prop where
  fixes : Fixes G ws rootProperties fixed' plain'
  keeps : ∀ y id, fixed.find y = some id → fixed'.find y = some id
  rows : ∀ f : Row, (∀ w ∈ ws, w.var ∈ f.dom ∪ {x | x ∈ (basePlans [] root).vars}) → ∀ h,
    h ∈ i.rows G f ↔ h ∈ j.rows G f ∧ Meets G ws h
  found : ∀ f h, h ∈ j.rows G f → f.dom ∪ {x | x ∈ (basePlans [] root).vars} ⊆ h.dom ∧
    ∀ q ∈ root.properties, q.Stored G h
  moved : ∀ f h, h ∈ i.rows G f → ∀ w ∈ ws, fixed'.find (w.var, w.key) = some (G.objectId w.value)

/-- The visits of optional patterns: for an input row that meets the equalities both find the
same. -/
structure VisitedAll (G : QueryGraph C) (ws : List (WhereProperty C)) (rootProperties : List (OpProperty C))
    (fixed : FixedVars) (is js : List (MatchIter C)) (fixed' plain' : FixedVars) : Prop where
  fixes : Fixes G ws rootProperties fixed' plain'
  keeps : ∀ y id, fixed.find y = some id → fixed'.find y = some id
  rows : ∀ f : Row, Meets G ws f → MatchIter.rowsAll G is f = MatchIter.rowsAll G js f

theorem Visited.rows_of_meets {i j : MatchIter C} {fixed' plain' : FixedVars} {f : Row}
    (h : Visited G ws rootProperties b fixed i j fixed' plain') (hf : Meets G ws f) :
    i.rows G f = j.rows G f := by
  ext g
  rw [h.rows f fun w hw => .inl ?_]
  · exact and_iff_left_of_imp fun hg => hf.extends (MatchIter.extends_of_mem_rows j hg)
  · obtain ⟨n, hn, -⟩ := WhereProperty.stored_iff.mp (hf w hw)
    exact Mapping.mem_dom.mpr ⟨n, hn⟩

theorem VisitedAll.cons {i j : MatchIter C} {is js : List (MatchIter C)} {fixed₁ plain₁ fixed₂ plain₂ : FixedVars}
    (h : Visited G ws rootProperties b fixed i j fixed₁ plain₁)
    (hs : VisitedAll G ws rootProperties fixed₁ is js fixed₂ plain₂) :
    VisitedAll G ws rootProperties fixed (i :: is) (j :: js) fixed₂ plain₂ where
  fixes := hs.fixes
  keeps y id hy := hs.keeps y id (h.keeps y id hy)
  rows f hf := by
    ext g
    simp only [MatchIter.rowsAll, h.rows_of_meets hf, Set.mem_ofPred_eq]
    refine exists_congr fun k => and_congr_right fun hk => ?_
    have hfk : Extends f k := by
      rcases hk with hk | ⟨-, rfl⟩
      · exact MatchIter.extends_of_mem_rows j hk
      · exact fun x n hn => hn
    rw [hs.rows k (hf.extends hfk)]

theorem Visited.optional {i j : MatchIter C} {is js : List (MatchIter C)} {fixed₁ plain₁ fixed₂ plain₂ : FixedVars}
    (h : Visited G ws rootProperties b fixed i j fixed₁ plain₁)
    (hs : VisitedAll G ws rootProperties fixed₁ is js fixed₂ plain₂) :
    Visited G ws rootProperties b fixed (.optional i is) (.optional j js) fixed₂ plain₂ where
  fixes := hs.fixes
  keeps y id hy := hs.keeps y id (h.keeps y id hy)
  rows f hws g := by
    simp only [MatchIter.rows, Set.mem_ofPred_eq]
    constructor
    · intro ⟨k, hk, hg⟩
      obtain ⟨hk, hmeets⟩ := (h.rows f hws k).mp hk
      rw [hs.rows k hmeets] at hg
      have hkg := MatchIter.extends_of_mem_rowsAll (fun j _ => MatchIter.extends_of_mem_rows j) hg
      exact ⟨⟨k, hk, hg⟩, hmeets.extends hkg⟩
    · intro ⟨⟨k, hk, hg⟩, hmeets⟩
      have hkg := MatchIter.extends_of_mem_rowsAll (fun j _ => MatchIter.extends_of_mem_rows j) hg
      have hk' := hmeets.of_extends hkg fun w hw => (h.found f k hk).1 (hws w hw)
      refine ⟨k, (h.rows f hws k).mpr ⟨hk, hk'⟩, ?_⟩
      rw [hs.rows k hk']
      exact hg
  found f g hg := by
    simp only [MatchIter.rows, Set.mem_ofPred_eq] at hg
    obtain ⟨k, hk, hg⟩ := hg
    have hkg := MatchIter.extends_of_mem_rowsAll (fun j _ => MatchIter.extends_of_mem_rows j) hg
    obtain ⟨hdom, hstored⟩ := h.found f k hk
    refine ⟨hdom.trans hkg.dom, fun q hq => ?_⟩
    obtain ⟨n, hn, hproperty⟩ := hstored q hq
    exact ⟨n, hkg.value hn, hproperty⟩
  moved f g hg w hw := by
    simp only [MatchIter.rows, Set.mem_ofPred_eq] at hg
    obtain ⟨k, hk, -⟩ := hg
    exact hs.keeps _ _ (h.moved f k hk w hw)

end

variable {C : Type} [DecidableEq C] {G : QueryGraph C} {b b' : BasicGraphPattern C}
  {w : WhereProperty C} {ws : List (WhereProperty C)} {q : OpProperty C} {fixed plain : FixedVars}
  {rootProperties : List (OpProperty C)} {y : String × String}

/-- The property that fixes `?x.key` in a basic pattern. -/
def fixing (y : String × String) (ps : List (OpProperty C)) : Option (OpProperty C) :=
  ps.find? fun p => p.node = .var y.1 ∧ p.key = y.2

theorem fixing_cons_of_eq {p : OpProperty C} {ps : List (OpProperty C)}
    (hp : p.node = .var y.1 ∧ p.key = y.2) : fixing y (p :: ps) = some p := by
  rw [fixing, List.find?_cons_of_pos (by simpa using hp)]

theorem fixing_cons_of_ne {p : OpProperty C} {ps : List (OpProperty C)}
    (hp : ¬ (p.node = .var y.1 ∧ p.key = y.2)) : fixing y (p :: ps) = fixing y ps := by
  rw [fixing, List.find?_cons_of_neg (by simpa using hp), fixing]

theorem find_fixProperties (ps : List (OpProperty C)) (fixed : FixedVars) :
    (fixProperties G ps fixed).find y =
      (fixed.find y).or ((fixing y ps).map fun p => G.objectId p.value) := by
  induction ps generalizing fixed with
  | nil => simp [fixProperties, fixing]
  | cons p ps ih =>
    rw [fixProperties]
    cases hnode : p.node with
    | term c =>
      rw [fixing_cons_of_ne (by simp [hnode])]
      exact ih fixed
    | var x =>
      simp only
      rw [ih]
      by_cases hy : (x, p.key) = y
      · subst hy
        rw [fixing_cons_of_eq ⟨hnode, rfl⟩]
        cases hfixed : List.find? (fun entry : (String × String) × Nat => entry.1 = (x, p.key)) fixed with
        | none => simp [FixedVars.find, List.find?_append, hfixed]
        | some entry => simp [FixedVars.find, List.find?_append, hfixed]
      · rw [fixing_cons_of_ne (by rw [hnode]; rintro ⟨hx, hkey⟩; simp_all)]
        simp [FixedVars.find, List.find?_append, hy]

theorem fixing_eq_some_iff : fixing y b.properties = some q ↔
    q ∈ b.properties ∧ q.node = .var y.1 ∧ q.key = y.2 := by
  constructor
  · intro h
    exact ⟨List.mem_of_find?_eq_some h, by simpa using List.find?_some h⟩
  · intro ⟨hq, hnode, hkey⟩
    cases hfound : fixing y b.properties with
    | none =>
      have hnot := List.find?_eq_none.mp hfound q hq
      simp [hnode, hkey] at hnot
    | some p =>
      obtain ⟨hpnode, hpkey⟩ : p.node = .var y.1 ∧ p.key = y.2 := by simpa using List.find?_some hfound
      have hp : p ∈ b.properties := List.mem_of_find?_eq_some hfound
      -- two properties of one key are one element of the set
      have hsymm : Std.Symm fun p q : OpProperty C => ¬ p.SameKey q :=
        ⟨fun p q hpq hqp => hpq ⟨hqp.1.symm, hqp.2.symm⟩⟩
      by_contra hne
      exact b.properties_unique.forall hp hq (by simpa using hne)
        ⟨hpnode.trans hnode.symm, hpkey.trans hkey.symm⟩

theorem find_fixProperties_of_some {id : Nat} (h : fixed.find y = some id) (ps : List (OpProperty C)) :
    (fixProperties G ps fixed).find y = some id := by
  simp [find_fixProperties, h]

theorem Fixes.fixProperties (h : Fixes G ws rootProperties fixed plain)
    (hb : WithEqualities ws b b') (hadmits : Admits ws rootProperties b) :
    Fixes G ws rootProperties (fixProperties G b'.properties fixed)
      (fixProperties G b.properties plain) ∧
      ∀ w ∈ ws, (BindingIdIterVisitor.fixProperties G b'.properties fixed).find (w.var, w.key) =
        some (G.objectId w.value) := by
  have hfixing : ∀ w ∈ ws, fixing (w.var, w.key) b'.properties = some w.op := fun w hw =>
    fixing_eq_some_iff.mpr ⟨(hb.mem_properties _).mpr (.inr ⟨w, hw, rfl⟩), rfl, rfl⟩
  have hmoved : ∀ w ∈ ws, (BindingIdIterVisitor.fixProperties G b'.properties fixed).find (w.var, w.key) =
      some (G.objectId w.value) := by
    intro w hw
    rw [find_fixProperties, hfixing w hw]
    cases hfixed : fixed.find (w.var, w.key) with
    | none => rfl
    | some id => rw [h.moved w hw id hfixed]; rfl
  refine ⟨⟨?_, ?_, ?_⟩, hmoved⟩
  · intro y hy
    have hsame : fixing y b'.properties = fixing y b.properties := by
      ext q
      rw [fixing_eq_some_iff, fixing_eq_some_iff, hb.mem_properties]
      constructor
      · rintro ⟨hq | ⟨w, hw, rfl⟩, hnode, hkey⟩
        · exact ⟨hq, hnode, hkey⟩
        · exact absurd (Prod.ext (QueryElement.var.inj hnode).symm hkey.symm) (hy w hw)
      · exact fun ⟨hq, hnode, hkey⟩ => ⟨.inl hq, hnode, hkey⟩
    rw [find_fixProperties, find_fixProperties, hsame, h.other y hy]
  · intro w hw id hid
    rw [hmoved w hw] at hid
    exact (Option.some.inj hid).symm
  · intro w hw id hid
    rw [find_fixProperties, Option.or_eq_some_iff] at hid
    rcases hid with hid | ⟨-, hid⟩
    · exact h.kept w hw id hid
    · obtain ⟨q, hq, rfl⟩ := Option.map_eq_some_iff.mp hid
      obtain ⟨hmem, hnode, hkey⟩ := fixing_eq_some_iff.mp hq
      have hvalue := hadmits.same w hw q hmem ⟨hnode, hkey⟩
      refine ⟨by rw [hvalue], hadmits.root w hw ?_⟩
      rw [← OpProperty.eq_op_of_sameKey ⟨hnode, hkey⟩ hvalue]
      exact hmem

variable [DecidablePred G.object]

theorem visitBasic_visited (h : Fixes G ws rootProperties fixed plain) (hagree : Agree ws)
    (hadmits : Admits ws rootProperties b) : ∃ i j fixed' plain',
      visitBasic G ws b fixed = some (i, fixed') ∧ visitBasic G [] b plain = some (j, plain') ∧
        Visited G ws rootProperties b fixed i j fixed' plain' := by
  by_cases hterms : ∀ c ∈ b.isolatedTerms, G.object (G.objectId c)
  · obtain ⟨b', hadd, hb⟩ := addWhere_of_agree hagree hadmits.same
    obtain ⟨hfixes, hmoved⟩ := h.fixProperties hb hadmits
    refine ⟨_, _, _, _, by rw [visitBasic, if_pos hterms, hadd], by
      rw [visitBasic, if_pos hterms, BasicGraphPattern.addWhere], hfixes, ?_, ?_, ?_, ?_⟩
    · exact fun y id hy => find_fixProperties_of_some hy _
    · exact fun f hws g => rows_withEqualities hb hws
    · intro f g hg
      simp only [MatchIter.rows, Set.mem_ofPred_eq] at hg
      exact ⟨hg.2.1.symm.subset, hg.2.2.properties⟩
    · exact fun f g _ => hmoved
  · refine ⟨.empty, .empty, fixed, plain, by rw [visitBasic, if_neg hterms], by
      rw [visitBasic, if_neg hterms], h, fun _ _ hy => hy, ?_, ?_, ?_⟩ <;>
    simp [MatchIter.rows]

theorem visit_visited (hagree : Agree ws) (p : GraphPattern C) : ∀ {fixed plain : FixedVars},
    Fixes G ws rootProperties fixed plain → (∀ b ∈ p.basics, Admits ws rootProperties b) →
      ∃ i j fixed' plain', visit G ws p fixed = some (i, fixed') ∧ visit G [] p plain = some (j, plain') ∧
        Visited G ws rootProperties p.root fixed i j fixed' plain' := by
  induction p using GraphPattern.induct with
  | basic op =>
    intro fixed plain hfixes hadmits
    simp only [visit, GraphPattern.root]
    exact visitBasic_visited hfixes hagree (hadmits op (by simp [GraphPattern.basics]))
  | optional op optionals ih =>
    intro fixed plain hfixes hadmits
    rw [GraphPattern.basics, List.forall_mem_cons] at hadmits
    have hall : ∀ ps : List (GraphPattern C), (∀ p ∈ ps, p ∈ optionals) →
        (∀ b ∈ GraphPattern.basicsAll ps, Admits ws rootProperties b) → ∀ {fixed plain : FixedVars},
          Fixes G ws rootProperties fixed plain → ∃ is js fixed' plain',
            visitAll G ws ps fixed = some (is, fixed') ∧ visitAll G [] ps plain = some (js, plain') ∧
              VisitedAll G ws rootProperties fixed is js fixed' plain' := by
      intro ps
      induction ps with
      | nil => exact fun _ _ _ _ hfixes => ⟨[], [], _, _, rfl, rfl, hfixes, fun _ _ hy => hy, fun _ _ => rfl⟩
      | cons p ps ihps =>
        intro hps hadmits fixed plain hfixes
        obtain ⟨hp, hps⟩ := List.forall_mem_cons.mp hps
        rw [GraphPattern.basicsAll, List.forall_mem_append] at hadmits
        obtain ⟨i, j, fixed₁, plain₁, hi, hj, hvisited⟩ := ih p hp hfixes hadmits.1
        obtain ⟨is, js, fixed₂, plain₂, his, hjs, hvisitedAll⟩ := ihps hps hadmits.2 hvisited.fixes
        refine ⟨i :: is, j :: js, fixed₂, plain₂, ?_, ?_, VisitedAll.cons hvisited hvisitedAll⟩
        · simp only [visitAll, hi, his]
        · simp only [visitAll, hj, hjs]
    obtain ⟨i, j, fixed₁, plain₁, hi, hj, hvisited⟩ := visitBasic_visited hfixes hagree hadmits.1
    obtain ⟨is, js, fixed₂, plain₂, his, hjs, hvisitedAll⟩ :=
      hall optionals (fun _ h => h) hadmits.2 hvisited.fixes
    refine ⟨.optional i is, .optional j js, fixed₂, plain₂, ?_, ?_, hvisited.optional hvisitedAll⟩
    · simp only [visit, hi, his]
    · simp only [visit, hj, hjs]

end BindingIdIterVisitor

theorem Expr.mem_propertyVars {C : Type} {w : WhereProperty C} (e : Expr C) :
    w ∈ e.equalities → (w.var, w.key) ∈ e.propertyVars := by
  induction e using Expr.induct with
  | equals lhs rhs ihl ihr =>
    intro hw
    rw [equalities, Option.mem_toList] at hw
    unfold propertyEquality at hw
    split at hw <;> cases hw <;> simp [propertyVars]
  | and first second rest ihf ihs ihr =>
    intro hw
    have hrest : ∀ es : List (Expr C), (∀ e ∈ es, e ∈ rest) → w ∈ equalitiesAll es →
        (w.var, w.key) ∈ propertyVarsAll es := by
      intro es
      induction es with
      | nil => simp [equalitiesAll]
      | cons e es ih =>
        intro hes hw
        obtain ⟨he, hes⟩ := List.forall_mem_cons.mp hes
        rw [equalitiesAll, List.mem_append] at hw
        rw [propertyVarsAll, List.mem_append]
        exact hw.imp (ihr e he) (ih hes)
    rw [equalities, List.mem_append, List.mem_append] at hw
    rw [propertyVars, List.mem_append, List.mem_append]
    exact hw.imp (Or.imp ihf ihs) (hrest rest fun _ h => h)
  | _ => intro hw; simp [equalities] at hw

namespace BindingIterVisitor

open BindingIdIterVisitor

variable {B C V : Type} {O : Unions B C V} {G : QueryGraph C} {e : Expr C} {p : GraphPattern C}
  {r : Binding} {g : B}

/-- The equalities of a condition can be moved into a pattern: they are conjuncts, with one value
for each property; their variables are in the main pattern at the root; a pattern that has such
a property has it with this value and has it at the root too; the stored values that compare
equal to a constant are its object alone; and all calls leave the same bytes, unless nothing is
left to test. -/
structure Movable (O : Unions B C V) (G : QueryGraph C) (e : Expr C) (p : GraphPattern C) : Prop where
  conjunctive : e.Conjunctive
  agree : Agree e.equalities
  root : ∀ w ∈ e.equalities, w.var ∈ (basePlans [] p.root).vars
  properties : ∀ b ∈ p.basics, Admits e.equalities p.root.properties b
  stored : ∀ w ∈ e.equalities, ∀ n id, G.property n w.key id → ∀ g ∈ O.left,
    ((O.objects g).graphObject id = (O.objects g).constant w.value ↔ id = G.objectId w.value)
  bytes : e.OnlyEqualities ∨ ∀ g ∈ O.left, ∀ h ∈ O.left, h = g

theorem mem_rows_iff (h : Movable O G e p) (hg : g ∈ O.left) {i j : MatchIter C} {fixed plain : FixedVars}
    {varProperties : List (String × String)} (hvars : e.propertyVars ⊆ varProperties)
    (hvisited : Visited G e.equalities p.root.properties p.root [] i j fixed plain) :
    r ∈ (MatchPlan.mk i fixed varProperties).rows G ↔
      r ∈ (MatchPlan.mk j plain varProperties).rows G ∧
        ∀ w ∈ e.equalities, w.Satisfied (O.objects g) r := by
  have hrows := hvisited.rows (fun _ => none) (fun w hw => .inr (h.root w hw)) r.vars
  have hother : ∀ x key, (∀ w ∈ e.equalities, (x, key) ≠ (w.var, w.key)) →
      ((MatchPlan.mk i fixed varProperties).PropertyFound G r.vars x key (r.properties (x, key)) ↔
        (MatchPlan.mk j plain varProperties).PropertyFound G r.vars x key (r.properties (x, key))) := by
    intro x key hne
    simp only [MatchPlan.PropertyFound, hvisited.fixes.other (x, key) hne]
  constructor
  · rintro ⟨hi, hfound⟩
    obtain ⟨hj, hmeets⟩ := hrows.mp hi
    have hvalue : ∀ w ∈ e.equalities, r.properties (w.var, w.key) = some (G.objectId w.value) := by
      intro w hw
      have hw' := hfound w.var w.key
      simp only [MatchPlan.PropertyFound, hvisited.moved _ _ hi w hw] at hw'
      exact hw'
    refine ⟨⟨hj, fun x key => ?_⟩, fun w hw => ?_⟩
    · by_cases hkey : ∀ w ∈ e.equalities, (x, key) ≠ (w.var, w.key)
      · exact (hother x key hkey).mp (hfound x key)
      · push Not at hkey
        obtain ⟨w, hw, heq⟩ := hkey
        obtain ⟨rfl, rfl⟩ := Prod.mk.inj heq
        unfold MatchPlan.PropertyFound
        cases hplain : plain.find (w.var, w.key) with
        | some id => simp only [hvalue w hw, (hvisited.fixes.kept w hw id hplain).1]
        | none =>
          obtain ⟨n, hn, hproperty⟩ := hmeets w hw
          simp only [if_pos (hvars (e.mem_propertyVars hw))]
          exact .inl ⟨n, _, hn, hproperty, hvalue w hw⟩
    · obtain ⟨n, -, hproperty⟩ := hmeets w hw
      rw [WhereProperty.Satisfied, hvalue w hw]
      exact (h.stored w hw n _ hproperty g hg).mpr rfl
  · rintro ⟨⟨hj, hfound⟩, hsatisfied⟩
    have hw : ∀ w ∈ e.equalities, w.op.Stored G r.vars ∧
        r.properties (w.var, w.key) = some (G.objectId w.value) := by
      intro w hw
      have hw' := hfound w.var w.key
      have hsat := hsatisfied w hw
      unfold MatchPlan.PropertyFound at hw'
      cases hplain : plain.find (w.var, w.key) with
      | some id =>
        obtain ⟨rfl, hroot⟩ := hvisited.fixes.kept w hw id hplain
        simp only [hplain] at hw'
        exact ⟨(hvisited.found _ _ hj).2 _ hroot, hw'⟩
      | none =>
        simp only [hplain, if_pos (hvars (e.mem_propertyVars hw))] at hw'
        rcases hw' with ⟨n, id, hn, hproperty, hvalue⟩ | ⟨-, hvalue⟩
        · rw [WhereProperty.Satisfied, hvalue] at hsat
          have hid := (h.stored w hw n id hproperty g hg).mp hsat
          exact ⟨⟨n, hn, hid ▸ hproperty⟩, hid ▸ hvalue⟩
        · rw [WhereProperty.Satisfied, hvalue] at hsat
          exact absurd hsat.symm ((O.objects g).constant_ne_null w.value)
    have hi := hrows.mpr ⟨hj, fun w hw' => (hw w hw').1⟩
    refine ⟨hi, fun x key => ?_⟩
    by_cases hkey : ∀ w ∈ e.equalities, (x, key) ≠ (w.var, w.key)
    · exact (hother x key hkey).mpr (hfound x key)
    · push Not at hkey
      obtain ⟨w, hmem, heq⟩ := hkey
      obtain ⟨rfl, rfl⟩ := Prod.mk.inj heq
      simp only [MatchPlan.PropertyFound, hvisited.moved _ _ hi w hmem]
      exact (hw w hmem).2

variable [DecidableEq V]

theorem mem_rowsTrue_iff (h : Movable O G e p) {i j : MatchIter C} {fixed plain : FixedVars}
    {varProperties : List (String × String)} (hvars : e.propertyVars ⊆ varProperties)
    (hvisited : Visited G e.equalities p.root.properties p.root [] i j fixed plain) :
    (r ∈ (MatchPlan.mk i fixed varProperties).rows G ∧
        ∀ g ∈ O.left, Expr2BindingExpr.Passes (O.objects g) r (Expr2BindingExpr.visit true e).1) ↔
      r ∈ rowsTrue O G ⟨j, plain, varProperties⟩ e := by
  have hsplits := fun g => Expr2BindingExpr.splits (O := O.objects g) (r := r) e h.conjunctive
  obtain ⟨g, hg⟩ := List.exists_mem_of_ne_nil _ O.left_ne_nil
  constructor
  · intro ⟨hr, hpasses⟩
    refine ⟨((mem_rows_iff h hg hvars hvisited).mp hr).1, fun g hg => ?_⟩
    exact (hsplits g).iff_true.mpr ⟨hpasses g hg, ((mem_rows_iff h hg hvars hvisited).mp hr).2⟩
  · intro ⟨hr, htrue⟩
    have hsplit := fun g hg => (hsplits g).iff_true.mp (htrue g hg)
    exact ⟨(mem_rows_iff h hg hvars hvisited).mpr ⟨hr, (hsplit g hg).2⟩, fun g hg => (hsplit g hg).1⟩

theorem passes_iff (hbytes : e.OnlyEqualities ∨ ∀ g ∈ O.left, ∀ h ∈ O.left, h = g) :
    let condition := (Expr2BindingExpr.visit true e).1
    ((condition = .nullptr ∨ true ∈ condition.passes O r) ↔
        ∀ g ∈ O.left, Expr2BindingExpr.Passes (O.objects g) r condition) ∧
      ((condition = .nullptr ∨ false ∉ condition.passes O r) ↔
        ∀ g ∈ O.left, Expr2BindingExpr.Passes (O.objects g) r condition) := by
  rcases hbytes with honly | hsame
  · simp [Expr2BindingExpr.visit_onlyEqualities e honly, Expr2BindingExpr.Passes]
  · exact Expr2BindingExpr.passes_iff_forall hsame _

variable [DecidableEq C] [DecidablePred G.object]

theorem no_properties_unique : ([] : List (OpProperty Nat)).Pairwise fun p q => ¬ p.SameKey q := .nil

/-- `(x :label)`. -/
def nodeWithLabel (x label : String) : BasicGraphPattern Nat where
  labels := [⟨.var x, label⟩]
  properties := []
  edges := []
  paths := []
  isolatedVars := []
  isolatedTerms := []
  vars := [x]
  labels_nodup := List.nodup_singleton _
  properties_unique := no_properties_unique
  label_vars := by simp [OpLabel.vars, QueryElement.vars]
  property_vars := by simp
  edge_vars := by simp
  path_vars := by simp
  isolated_vars := by simp

/-- Object 0 with the label L and the value 1 of the property a. -/
def oneNode : QueryGraph Nat where
  objectId := id
  object n := n = 0
  label n l := n = 0 ∧ l = "L"
  property n k v := n = 0 ∧ k = "a" ∧ v = 1
  edge _ _ _ _ := False
  path _ _ _ _ _ := False
  label_object h := h.1
  property_object h := h.1
  edge_objects h := h.elim
  path_objects h := h.elim

instance : DecidablePred oneNode.object := fun n => inferInstanceAs (Decidable (n = 0))

/-- Numbers as graph objects, and Boolean values with the bytes of their call, which finds zeros. -/
def numbers : Unions Nat Nat (Option (Nat ⊕ Nat × Bool)) where
  left := [0]
  left_ne_nil := List.cons_ne_nil _ _
  objects g := {
    graphObject := fun n => some (.inl n)
    constant := fun n => some (.inl n)
    null := none
    bool := fun b => some (.inr (g, b))
    binary := fun _ v _ => v
    unary := fun _ v => v
    true_ne_false := nofun
    null_ne_true := nofun
    constant_ne_null := nofun }
  written v := v.map (Sum.map id (Prod.map (fun _ => 0) id))
  null := none
  objects_null _ := rfl
  bool_injective := by simp
  written_bool := by simp
  written_null := by simp
  written_graphObject := by simp
  written_constant := by simp
  written_binary := by simp
  written_unary := by simp

/-- `?x.key == value`. -/
def propertyIs (key : String) (value : Nat) : Expr Nat :=
  .equals (.varProperty "?x" key) (.constant value)

/-- The plans for `(x :label)` with equalities. -/
def labelPlans (x label : String) (properties : List (OpProperty Nat)) : BasePlans Nat :=
  { unjointObjects := [], labels := [⟨.var x, label⟩], properties, edges := [], paths := [] }

theorem rows_labelM (f : Row) (properties : List (OpProperty Nat)) :
    (MatchIter.plans (labelPlans "?x" "M" properties)).rows oneNode f = ∅ := by
  simp only [MatchIter.rows, Set.eq_empty_iff_forall_notMem]
  intro g ⟨_, _, hfound⟩
  obtain ⟨n, -, hlabel⟩ := hfound.labels ⟨.var "?x", "M"⟩ (by simp [labelPlans])
  simp [oneNode] at hlabel

end BindingIterVisitor

end Match
end MillenniumDB
