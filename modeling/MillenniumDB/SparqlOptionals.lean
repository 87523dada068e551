import MillenniumDB.Lib.OuterJoins
import MillenniumDB.Lib.WellDesigned

/-!
# `SPARQL::OptimizeOptionalTree`

In SPARQL the groups of a pattern are lists of triples, and the pass over a tree of OPTIONAL
looks at one thing only: whether a group has triples of its own.  A group without any is left
out, and its optional patterns move up to the parent.  The root has no parent to move them to.
-/

namespace MillenniumDB
namespace Sparql

variable {C P : Type}

/-- `SparqlElement`: a variable or a term. -/
inductive SparqlElement (C : Type)
  | var (name : String)
  | term (value : C)

inductive Predicate (C P : Type)
  | element (element : SparqlElement C)
  | path (path : P)

structure OpTriple (C P : Type) where
  subject : SparqlElement C
  predicate : Predicate C P
  object : SparqlElement C

/-- `SparqlElement::is_var` with `to_var`. -/
def SparqlElement.vars : SparqlElement C → List String
  | var name => [name]
  | term _ => []

def Predicate.vars : Predicate C P → List String
  | element e => e.vars
  | path _ => []

/-- `OpTriple::get_vars`. -/
def OpTriple.vars (t : OpTriple C P) : List String :=
  t.subject.vars ++ t.predicate.vars ++ t.object.vars

/-- `OpTriples::get_vars`. -/
def varsOf (ts : List (OpTriple C P)) : List String := ts.flatMap OpTriple.vars

/-- The patterns of `OpWhere`: `OpTriples`, and `OpOptional` with the triples of its group. -/
inductive Op (C P : Type)
  | triples (triples : List (OpTriple C P))
  | optional (triples : List (OpTriple C P)) (optionals : List (Op C P))

namespace Op

theorem induct {motive : Op C P → Prop} (triples : ∀ ts, motive (.triples ts))
    (optional : ∀ ts optionals, (∀ p ∈ optionals, motive p) → motive (.optional ts optionals))
    (p : Op C P) : motive p :=
  Op.rec (motive_1 := motive) (motive_2 := fun ps => ∀ p ∈ ps, motive p) triples optional
    (by simp) (fun _ _ hp hps => List.forall_mem_cons.mpr ⟨hp, hps⟩) p

def rootTriples : Op C P → List (OpTriple C P)
  | triples ts => ts
  | optional ts _ => ts

mutual

def tree : Op C P → VarTree String
  | triples ts => .node (varsOf ts) []
  | optional ts optionals => .node (varsOf ts) (treeAll optionals)

def treeAll : List (Op C P) → List (VarTree String)
  | [] => []
  | p :: ps => tree p :: treeAll ps

end

/-- What `CheckWellDesigned` lets pass. -/
def WellDesigned (p : Op C P) : Prop := (VarTree.check [] [] p.tree).isSome

instance (p : Op C P) : Decidable p.WellDesigned := inferInstanceAs (Decidable (_ = true))

end Op

structure RdfGraph (C P : Type) where
  objectId : C → Nat
  triple : Nat → Nat → Nat → Prop
  path : P → Nat → Nat → Prop

abbrev Row := Mapping String Nat

section

variable (G : RdfGraph C P) (f : Row)

def SparqlElement.value : SparqlElement C → Option Nat
  | var name => f name
  | term value => some (G.objectId value)

def Predicate.Relates (s o : Nat) : Predicate C P → Prop
  | .element e => ∃ p, e.value G f = some p ∧ G.triple s p o
  | .path p => G.path p s o

def OpTriple.Holds (t : OpTriple C P) : Prop :=
  ∃ s o, t.subject.value G f = some s ∧ t.object.value G f = some o ∧ t.predicate.Relates G f s o

def groupSolutions (ts : List (OpTriple C P)) : Set Row :=
  {f | f.dom = {x | x ∈ varsOf ts} ∧ ∀ t ∈ ts, t.Holds G f}

end

namespace Op

variable (G : RdfGraph C P)

mutual

def solutions : Op C P → Set Row
  | triples ts => groupSolutions G ts
  | optional ts optionals => joinAll (groupSolutions G ts) optionals

def joinAll (M : Set Row) : List (Op C P) → Set Row
  | [] => M
  | p :: ps => joinAll (Mapping.leftOuterJoin M (solutions p)) ps

end

end Op

/-- The members of `OptimizeOptionalTree`; `global_vars` is written only. -/
structure OptimizeOptionalTree (C P : Type) where
  optionals : List (Op C P) := []
  deleteCurrent : Bool := false
  moveChildrenUp : Bool := false
  optionalToMatch : Bool := false

namespace OptimizeOptionalTree

/-- `visit(OpTriples&)`. -/
def visitTriples (ts : List (OpTriple C P)) (st : OptimizeOptionalTree C P) :
    OptimizeOptionalTree C P :=
  if ts.isEmpty then { st with deleteCurrent := true } else st

def clearFlags (st : OptimizeOptionalTree C P) : OptimizeOptionalTree C P :=
  { st with deleteCurrent := false, moveChildrenUp := false, optionalToMatch := false }

/-- The end of `visit(OpOptional&)`, with what is left of the children. -/
def finish (ts : List (OpTriple C P)) (currentMoveChildrenUp : Bool) (children : List (Op C P))
    (st : OptimizeOptionalTree C P) : Op C P × OptimizeOptionalTree C P :=
  match children with
  | [] =>
    if currentMoveChildrenUp then
      (.optional ts [], { st with moveChildrenUp := false, deleteCurrent := true })
    else
      (.optional ts [], { st with
        moveChildrenUp := false, deleteCurrent := false, optionalToMatch := true
        optionals := st.optionals ++ [.triples ts] })
  | child :: children =>
    if currentMoveChildrenUp then
      (.optional ts [], { st with
        moveChildrenUp := true, deleteCurrent := false
        optionals := st.optionals ++ child :: children })
    else (.optional ts (child :: children), st)

mutual

def visit : Op C P → OptimizeOptionalTree C P → Op C P × OptimizeOptionalTree C P
  | .triples ts, st => (.triples ts, visitTriples ts st)
  | .optional ts optionals, st =>
    let visited := visitTriples ts st
    let children := visitAll optionals visited.clearFlags
    finish ts visited.deleteCurrent children.1 children.2

/-- The loop over the children; what is put in the place of a child is not visited again. -/
def visitAll : List (Op C P) → OptimizeOptionalTree C P → List (Op C P) × OptimizeOptionalTree C P
  | [], st => ([], st)
  | p :: ps, st =>
    let visited := visit p st
    if visited.2.moveChildrenUp || visited.2.optionalToMatch then
      let rest := visitAll ps { visited.2 with
        optionals := [], moveChildrenUp := false, optionalToMatch := false }
      (visited.2.optionals ++ rest.1, rest.2)
    else if visited.2.deleteCurrent then visitAll ps { visited.2 with deleteCurrent := false }
    else
      let rest := visitAll ps visited.2
      (visited.1 :: rest.1, rest.2)

end

/-- `visit(OpWhere&)` of a new visitor. -/
def optimize (p : Op C P) : Op C P :=
  let visited := visit p {}
  if visited.2.optionalToMatch then visited.2.optionals.headD visited.1 else visited.1

end OptimizeOptionalTree

/-- `Id`: a variable or an object. -/
inductive Id
  | var (id : Nat)
  | object (id : Nat)

/-- `TriplePlan` and `SparqlPathPlan`. -/
inductive BasePlan (P : Type)
  | triple (subject predicate object : Id)
  | path (subject : Id) (path : P) (object : Id)

/-- What `BindingIdIterVisitor` uses: the ids of variables and terms, and whether
`LeapfrogOptimizer::try_get_iter` finds an iterator for some plans when variables are assigned. -/
structure Planner (C P : Type) where
  varId : String → Nat
  objectId : C → Nat
  leapfrog : List Nat → List (BasePlan P) → Bool

namespace Planner

variable (planner : Planner C P)

/-- `get_id`. -/
def id : SparqlElement C → Id
  | .var name => .var (planner.varId name)
  | .term value => .object (planner.objectId value)

def basePlan (t : OpTriple C P) : BasePlan P :=
  match t.predicate with
  | .element e => .triple (planner.id t.subject) (planner.id e) (planner.id t.object)
  | .path path => .path (planner.id t.subject) path (planner.id t.object)

/-- `visit(OpTriples&)`: the lists `GreedyOptimizer::get_plan` is called with, and the variables
assigned after it. -/
def visitTriples (ts : List (OpTriple C P)) (assigned : List Nat) :
    List (List (BasePlan P)) × List Nat :=
  let basePlans := ts.map planner.basePlan
  (if 1 < basePlans.length ∧ planner.leapfrog assigned basePlans then [] else [basePlans],
    assigned ++ (varsOf ts).map planner.varId)

mutual

def visit : Op C P → List Nat → List (List (BasePlan P)) × List Nat
  | .triples ts, assigned => planner.visitTriples ts assigned
  | .optional ts optionals, assigned =>
    let visited := planner.visitTriples ts assigned
    let rest := visitAll optionals visited.2
    (visited.1 ++ rest.1, rest.2)

def visitAll : List (Op C P) → List Nat → List (List (BasePlan P)) × List Nat
  | [], assigned => ([], assigned)
  | p :: ps, assigned =>
    let visited := visit p assigned
    let rest := visitAll ps visited.2
    (visited.1 ++ rest.1, rest.2)

end

end Planner

/-- No planner calls `GreedyOptimizer::get_plan` without plans. -/
def Op.Planned (p : Op C P) : Prop :=
  ∀ planner : Planner C P, [] ∉ (planner.visit p []).1

namespace Op

def withOptionals (ts : List (OpTriple C P)) : List (Op C P) → Op C P
  | [] => triples ts
  | p :: ps => optional ts (p :: ps)

mutual

/-- What the pass puts in the place of a pattern below the root. -/
def kept : Op C P → List (Op C P)
  | triples ts => if ts.isEmpty then [] else [triples ts]
  | optional ts optionals =>
    if ts.isEmpty then keptAll optionals else [withOptionals ts (keptAll optionals)]

def keptAll : List (Op C P) → List (Op C P)
  | [] => []
  | p :: ps => kept p ++ keptAll ps

end

end Op

namespace OptimizeOptionalTree

/-- The state in which the visit of a pattern ends, and how it hands over what is kept. -/
inductive Hands (p : Op C P) : Op C P × OptimizeOptionalTree C P → Prop
  | deleted {q} (h : p.kept = []) : Hands p (q, { deleteCurrent := true })
  | movedUp {q} : Hands p (q, { optionals := p.kept, moveChildrenUp := true })
  | toMatch {q} : Hands p (q, { optionals := p.kept, optionalToMatch := true })
  | stays {q} (h : p.kept = [q]) : Hands p (q, {})

theorem visitAll_of_hands (ps : List (Op C P)) (h : ∀ p ∈ ps, Hands p (visit p {})) :
    visitAll ps {} = (Op.keptAll ps, {}) := by
  induction ps with
  | nil => rfl
  | cons p ps ih =>
    obtain ⟨hp, hps⟩ := List.forall_mem_cons.mp h
    rw [visitAll, Op.keptAll]
    generalize visit p {} = visited at hp
    cases hp with
    | deleted h => simp [ih hps, h]
    | movedUp => simp [ih hps]
    | toMatch => simp [ih hps]
    | stays h => simp [ih hps, h]

theorem clearFlags_visitTriples (ts : List (OpTriple C P)) :
    (visitTriples ts {} : OptimizeOptionalTree C P).clearFlags = {} := by
  unfold visitTriples
  split_ifs <;> rfl

theorem deleteCurrent_visitTriples (ts : List (OpTriple C P)) :
    (visitTriples ts {} : OptimizeOptionalTree C P).deleteCurrent = ts.isEmpty := by
  cases h : ts.isEmpty <;> simp [visitTriples, h]

theorem hands_visit (p : Op C P) : Hands p (visit p {}) := by
  induction p using Op.induct with
  | triples ts =>
    rw [visit, visitTriples]
    split_ifs with h
    · exact .deleted (by simp [Op.kept, h])
    · exact .stays (by simp [Op.kept, h])
  | optional ts optionals ih =>
    simp only [visit, clearFlags_visitTriples, deleteCurrent_visitTriples, visitAll_of_hands optionals ih]
    cases h : ts.isEmpty with
    | true =>
      have hkept : (Op.optional ts optionals).kept = Op.keptAll optionals := by simp [Op.kept, h]
      cases hall : Op.keptAll optionals with
      | nil => exact .deleted (hkept.trans hall)
      | cons child children =>
        rw [hall] at hkept
        simp only [finish, if_true, List.nil_append]
        rw [← hkept]
        exact .movedUp
    | false =>
      have hkept : (Op.optional ts optionals).kept = [.withOptionals ts (Op.keptAll optionals)] := by
        simp [Op.kept, h]
      cases hall : Op.keptAll optionals with
      | nil =>
        rw [hall, Op.withOptionals] at hkept
        simp only [finish, Bool.false_eq_true, if_false, List.nil_append]
        rw [← hkept]
        exact .toMatch
      | cons child children =>
        rw [hall, Op.withOptionals] at hkept
        simp only [finish, Bool.false_eq_true, if_false]
        exact .stays hkept

/-- At the root nothing is left out: a group without triples stays, and loses what it would
have handed to a parent. -/
theorem optimize_eq (p : Op C P) : optimize p =
    match p with
    | .triples ts => .triples ts
    | .optional ts optionals =>
      if ts.isEmpty then .optional ts [] else .withOptionals ts (Op.keptAll optionals) := by
  cases p with
  | triples ts =>
    simp only [optimize, visit, visitTriples]
    split_ifs <;> rfl
  | optional ts optionals =>
    simp only [optimize, visit, clearFlags_visitTriples, deleteCurrent_visitTriples,
      visitAll_of_hands optionals fun p _ => hands_visit p]
    cases h : ts.isEmpty <;> cases hall : Op.keptAll optionals <;>
      simp [finish, Op.withOptionals]

end OptimizeOptionalTree

namespace Op

variable {G : RdfGraph C P} {M : Set Row} {outside parent : Set String}

theorem solutions_withOptionals (ts : List (OpTriple C P)) (ps : List (Op C P)) :
    (withOptionals ts ps).solutions G = joinAll G (groupSolutions G ts) ps := by
  cases ps <;> simp [withOptionals, solutions, joinAll]

theorem joinAll_append (ps qs : List (Op C P)) : joinAll G M (ps ++ qs) = joinAll G (joinAll G M ps) qs := by
  induction ps generalizing M with
  | nil => rfl
  | cons p ps ih => simp only [List.cons_append, joinAll, ih]

theorem mem_groupSolutions_nil {g : Row} : g ∈ groupSolutions G [] ↔ g.dom = ∅ := by
  simp [groupSolutions, varsOf]

theorem dom_of_mem_solutions (p : Op C P) : ∀ f ∈ p.solutions G, f.dom ⊆ p.tree.vars := by
  induction p using induct with
  | triples ts =>
    intro f ⟨hdom, _⟩
    rw [hdom, tree, VarTree.vars]
    exact Set.subset_union_left
  | optional ts optionals ih =>
    have hall : ∀ (ps : List (Op C P)), (∀ p ∈ ps, ∀ f ∈ p.solutions G, f.dom ⊆ p.tree.vars) →
        ∀ {M : Set Row} {U : Set String}, (∀ f ∈ M, f.dom ⊆ U) →
        ∀ f ∈ joinAll G M ps, f.dom ⊆ U ∪ VarTree.varsAll (treeAll ps) := by
      intro ps hps
      induction ps with
      | nil =>
        intro M U hM f hf
        exact (hM f hf).trans Set.subset_union_left
      | cons p ps ih =>
        intro M U hM f hf
        obtain ⟨hp, hps⟩ := List.forall_mem_cons.mp hps
        rw [joinAll] at hf
        rw [treeAll, VarTree.varsAll, ← Set.union_assoc]
        exact ih hps (Mapping.dom_of_mem_leftOuterJoin hM hp) f hf
    rw [solutions, tree, VarTree.vars]
    exact hall optionals ih fun f hf => hf.1.subset

/-- Patterns that are joined with each other first, starting from a nonempty set, where none of
them meets the outer set. -/
theorem leftOuterJoin_joinAll (ps : List (Op C P)) {N : Set Row} (hN : N.Nonempty)
    (hMN : ∀ f ∈ M, ∀ g ∈ N, Disjoint f.dom g.dom)
    (hps : ∀ p ∈ ps, ∀ f ∈ M, ∀ g ∈ p.solutions G, Disjoint f.dom g.dom) :
    Mapping.leftOuterJoin M (joinAll G N ps) = joinAll G (Mapping.leftOuterJoin M N) ps := by
  induction ps generalizing N with
  | nil => rfl
  | cons p ps ih =>
    obtain ⟨hp, hps⟩ := List.forall_mem_cons.mp hps
    have hjoin : ∀ f ∈ M, ∀ g ∈ Mapping.leftOuterJoin N (p.solutions G), Disjoint f.dom g.dom := by
      intro f hf g hg
      have hsub := Mapping.dom_of_mem_leftOuterJoin (fun g hg => (hMN f hf g hg).subset_compl_left)
        (fun k hk => (hp f hf k hk).subset_compl_left) g hg
      rw [Set.union_self] at hsub
      exact Set.disjoint_left.mpr fun x hx hxg => hsub hxg hx
    rw [joinAll, joinAll, ih (Mapping.leftOuterJoin_nonempty hN) hjoin hps,
      Mapping.leftOuterJoin_assoc hN hMN hp]

theorem joinAll_keptAll (ps : List (Op C P))
    (hps : ∀ p ∈ ps, ∀ {outside : Set String} {M : Set Row}, VarTree.WellDesigned outside p.tree →
      (∀ f ∈ M, f.dom ⊆ outside) → Mapping.leftOuterJoin M (p.solutions G) = joinAll G M p.kept)
    (hwell : VarTree.ChildrenWellDesigned outside parent (treeAll ps)) (hM : ∀ f ∈ M, f.dom ⊆ outside) :
    joinAll G M ps = joinAll G M (keptAll ps) := by
  induction ps generalizing M outside with
  | nil => rfl
  | cons p ps ih =>
    obtain ⟨hp, hps⟩ := List.forall_mem_cons.mp hps
    rw [treeAll, VarTree.ChildrenWellDesigned] at hwell
    obtain ⟨-, hwellp, hwell⟩ := hwell
    rw [joinAll, keptAll, joinAll_append,
      ← hp hwellp fun f hf => (hM f hf).trans Set.subset_union_left]
    exact ih hps hwell (Mapping.dom_of_mem_leftOuterJoin hM p.dom_of_mem_solutions)

theorem disjoint_of_childrenWellDesigned (ps : List (Op C P))
    (hwell : VarTree.ChildrenWellDesigned outside ∅ (treeAll ps)) {f : Row} (hf : f.dom ⊆ outside) :
    ∀ p ∈ ps, ∀ g ∈ p.solutions G, Disjoint f.dom g.dom := by
  induction ps generalizing outside with
  | nil => simp
  | cons p ps ih =>
    rw [treeAll, VarTree.ChildrenWellDesigned] at hwell
    obtain ⟨hp, -, hwell⟩ := hwell
    refine List.forall_mem_cons.mpr ⟨fun g hg => ?_, ih hwell (hf.trans Set.subset_union_left)⟩
    refine Set.disjoint_left.mpr fun x hx hxg => ?_
    exact hp x (p.dom_of_mem_solutions g hg hxg) (.inl (hf hx))

theorem leftOuterJoin_kept (p : Op C P) : ∀ {outside : Set String} {M : Set Row},
    VarTree.WellDesigned outside p.tree → (∀ f ∈ M, f.dom ⊆ outside) →
    Mapping.leftOuterJoin M (p.solutions G) = joinAll G M p.kept := by
  induction p using induct with
  | triples ts =>
    intro outside M _ _
    cases ts with
    | nil =>
      rw [solutions, Mapping.leftOuterJoin_empty fun g => mem_groupSolutions_nil]
      simp [kept, joinAll]
    | cons t ts => simp [kept, joinAll]
  | optional ts optionals ih =>
    intro outside M hwell hM
    rw [tree, VarTree.WellDesigned] at hwell
    cases ts with
    | nil =>
      -- the group is left out: its optional patterns share no variable with the rest
      have hwell : VarTree.ChildrenWellDesigned outside ∅ (treeAll optionals) := by
        simpa [varsOf] using hwell
      have hempty : (groupSolutions G ([] : List (OpTriple C P))).Nonempty :=
        ⟨fun _ => none, mem_groupSolutions_nil.mpr (by simp [Mapping.dom])⟩
      have hdisjoint : ∀ f ∈ M, ∀ g ∈ groupSolutions G ([] : List (OpTriple C P)),
          Disjoint f.dom g.dom := by
        intro f _ g hg
        rw [mem_groupSolutions_nil.mp hg]
        exact Set.disjoint_empty _
      rw [solutions, leftOuterJoin_joinAll optionals hempty hdisjoint fun p hp f hf =>
          disjoint_of_childrenWellDesigned optionals hwell (hM f hf) p hp,
        Mapping.leftOuterJoin_empty fun g => mem_groupSolutions_nil,
        joinAll_keptAll optionals ih hwell hM]
      simp [kept]
    | cons t ts =>
      have hkept : (optional (t :: ts) optionals).kept = [withOptionals (t :: ts) (keptAll optionals)] := by
        simp [kept]
      rw [hkept, joinAll, joinAll, solutions_withOptionals, solutions,
        joinAll_keptAll optionals ih hwell fun f hf => hf.1.subset.trans Set.subset_union_right]

end Op

namespace Op

mutual

def Filled : Op C P → Prop
  | triples ts => ts ≠ []
  | optional ts optionals => ts ≠ [] ∧ FilledAll optionals

def FilledAll : List (Op C P) → Prop
  | [] => True
  | p :: ps => Filled p ∧ FilledAll ps

end

theorem filledAll_iff (ps : List (Op C P)) : FilledAll ps ↔ ∀ p ∈ ps, Filled p := by
  induction ps with
  | nil => simp [FilledAll]
  | cons p ps ih => simp [FilledAll, ih]

theorem filled_withOptionals {ts : List (OpTriple C P)} {ps : List (Op C P)} (hts : ts ≠ [])
    (hps : FilledAll ps) : Filled (withOptionals ts ps) := by
  cases ps with
  | nil => exact hts
  | cons p ps => exact ⟨hts, hps⟩

theorem filledAll_keptAll (ps : List (Op C P)) (hps : ∀ p ∈ ps, FilledAll p.kept) :
    FilledAll (keptAll ps) := by
  induction ps with
  | nil => trivial
  | cons p ps ih =>
    obtain ⟨hp, hps⟩ := List.forall_mem_cons.mp hps
    rw [filledAll_iff] at hp
    have hrest := (filledAll_iff _).mp (ih hps)
    rw [keptAll, filledAll_iff]
    intro q hq
    exact (List.mem_append.mp hq).elim (hp q) (hrest q)

theorem filledAll_kept (p : Op C P) : FilledAll p.kept := by
  induction p using induct with
  | triples ts =>
    cases ts <;> simp [kept, FilledAll, Filled]
  | optional ts optionals ih =>
    have hall := filledAll_keptAll optionals ih
    cases ts with
    | nil => simpa [kept] using hall
    | cons t ts =>
      have hfilled := filled_withOptionals (List.cons_ne_nil t ts) hall
      simpa [kept, FilledAll] using hfilled

end Op

namespace Planner

variable (planner : Planner C P)

theorem nil_mem_visitTriples {ts : List (OpTriple C P)} {assigned : List Nat} :
    [] ∈ (planner.visitTriples ts assigned).1 ↔ ts = [] := by
  cases ts with
  | nil => simp [visitTriples]
  | cons t ts =>
    simp only [visitTriples]
    split_ifs <;> simp

/-- `get_plan` gets plans for every group that has triples. -/
theorem nil_notMem_visit (p : Op C P) :
    ∀ {assigned : List Nat}, p.Filled → [] ∉ (planner.visit p assigned).1 := by
  induction p using Op.induct with
  | triples ts =>
    intro assigned h
    rw [visit, nil_mem_visitTriples]
    exact h
  | optional ts optionals ih =>
    intro assigned ⟨hts, hoptionals⟩
    have hall : ∀ (ps : List (Op C P)), (∀ p ∈ ps, ∀ {assigned : List Nat}, p.Filled →
        [] ∉ (planner.visit p assigned).1) → Op.FilledAll ps → ∀ {assigned : List Nat},
        [] ∉ (planner.visitAll ps assigned).1 := by
      intro ps ih
      induction ps with
      | nil => simp [visitAll]
      | cons p ps ihps =>
        intro ⟨hp, hps⟩ assigned
        obtain ⟨ihp, ih⟩ := List.forall_mem_cons.mp ih
        rw [visitAll, List.mem_append, not_or]
        exact ⟨ihp hp, ihps ih hps⟩
    rw [visit, List.mem_append, nil_mem_visitTriples, not_or]
    exact ⟨hts, hall optionals ih hoptionals⟩

end Planner

open OptimizeOptionalTree

/-- The pass keeps the solutions on every graph, and what it leaves is planned. -/
structure OptimizedRight (p : Op C P) : Prop where
  solutions : ∀ G : RdfGraph C P, (optimize p).solutions G = p.solutions G
  planned : (optimize p).Planned

/-- The pass is right for exactly the well-designed patterns whose root has triples. -/
theorem optimizedRight_iff (p : Op C P) (hwell : p.WellDesigned) :
    OptimizedRight p ↔ p.rootTriples ≠ [] := by
  constructor
  · intro ⟨_, hplanned⟩ hroot
    let planner : Planner C P := ⟨fun _ => 0, fun _ => 0, fun _ _ => false⟩
    refine hplanned planner ?_
    rw [optimize_eq]
    cases p with
    | triples ts =>
      rw [Planner.visit, Planner.nil_mem_visitTriples]
      exact hroot
    | optional ts optionals =>
      have hts : ts = [] := hroot
      rw [hts]
      show [] ∈ (planner.visit (.optional [] []) []).1
      rw [Planner.visit, List.mem_append, Planner.nil_mem_visitTriples]
      exact .inl rfl
  · intro hroot
    have hwell := (VarTree.check_isSome_iff p.tree).mp hwell
    cases p with
    | triples ts =>
      have hoptimize : optimize (.triples ts : Op C P) = .triples ts := optimize_eq _
      refine ⟨fun G => by rw [hoptimize], fun planner => ?_⟩
      rw [hoptimize]
      exact planner.nil_notMem_visit _ hroot
    | optional ts optionals =>
      have hts : ts ≠ [] := hroot
      have hoptimize : optimize (.optional ts optionals) = .withOptionals ts (Op.keptAll optionals) := by
        simp [optimize_eq, hts]
      rw [Op.tree, VarTree.WellDesigned] at hwell
      refine ⟨fun G => ?_, fun planner => ?_⟩
      · rw [hoptimize, Op.solutions_withOptionals, Op.solutions]
        exact (Op.joinAll_keptAll optionals (fun p _ => p.leftOuterJoin_kept) hwell
          fun f hf => hf.1.subset.trans Set.subset_union_right).symm
      · rw [hoptimize]
        exact planner.nil_notMem_visit _
          (Op.filled_withOptionals hts (Op.filledAll_keptAll optionals fun p _ => p.filledAll_kept))

/-- `{ ?s ?p ?o OPTIONAL { OPTIONAL { ?x ?p2 ?y } OPTIONAL { } } }`. -/
def nestedOptionals : Op Nat Nat :=
  .optional [⟨.var "s", .element (.var "p"), .var "o"⟩]
    [.optional [] [.triples [⟨.var "x", .element (.var "q"), .var "y"⟩], .triples []]]

theorem optimizedRight_nestedOptionals : OptimizedRight nestedOptionals :=
  (optimizedRight_iff nestedOptionals (by decide)).mpr (by simp [nestedOptionals, Op.rootTriples])

/-- `{ OPTIONAL { ?s ?p ?o } }`: the optional pattern is lost, and a group without triples is
left to be planned. -/
theorem not_optimizedRight : ∃ p : Op Nat Nat, p.WellDesigned ∧
    (∃ G, (optimize p).solutions G ≠ p.solutions G) ∧ ¬ (optimize p).Planned := by
  let group : List (OpTriple Nat Nat) := [⟨.var "s", .element (.var "p"), .var "o"⟩]
  have hoptimize : optimize (.optional [] [.triples group]) = .optional [] [] := rfl
  refine ⟨.optional [] [.triples group], by decide, ⟨⟨id, fun _ _ _ => True, fun _ _ _ => True⟩, ?_⟩, ?_⟩
  · intro hsame
    let row : Row := fun x => if x ∈ varsOf group then some 0 else none
    have hrow : row ∈ groupSolutions ⟨id, fun _ _ _ => True, fun _ _ _ => True⟩ group := by
      refine ⟨?_, fun t ht => ?_⟩
      · ext x
        by_cases hx : x ∈ varsOf group <;> simp [Mapping.dom, row, hx]
      · rw [List.mem_singleton.mp ht]
        exact ⟨0, 0, rfl, rfl, 0, rfl, trivial⟩
    have hmem : row ∈ Op.solutions ⟨id, fun _ _ _ => True, fun _ _ _ => True⟩
        (.optional [] [.triples group]) := by
      have hempty : Mapping.dom (fun _ => none : Row) = ∅ := by simp [Mapping.dom]
      refine ⟨fun _ => none, Op.mem_groupSolutions_nil.mpr hempty, .inl ⟨row, hrow, ?_, rfl⟩⟩
      exact Mapping.compatible_of_disjoint (hempty ▸ Set.empty_disjoint _)
    rw [← hsame, hoptimize] at hmem
    have hdom : row.dom = ∅ := Op.mem_groupSolutions_nil.mp hmem
    have hs : "s" ∈ row.dom := rfl
    rw [hdom] at hs
    exact hs
  · intro hplanned
    refine hplanned ⟨fun _ => 0, fun _ => 0, fun _ _ => false⟩ ?_
    rw [hoptimize, Planner.visit, List.mem_append, Planner.nil_mem_visitTriples]
    exact .inl rfl

end Sparql
end MillenniumDB
