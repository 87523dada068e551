import MillenniumDB.Lib.OuterJoins
import MillenniumDB.PathExpressions

/-!
# Graph patterns

The patterns of MATCH: basic graph patterns and trees of OPTIONAL over them, with the check for
well-designed patterns.  The solutions of a pattern over a graph are mappings; OPTIONAL is the
left outer join.  For well-designed patterns the solutions that extend a mapping are found from
the root down, as an execution finds them.
-/

namespace MillenniumDB
namespace Match

/-- `QueryElement`: a variable or a constant. -/
inductive QueryElement (C : Type)
  | var (name : String)
  | term (value : C)
  deriving DecidableEq

inductive PathSemantic
  | all
  | any
  deriving DecidableEq

structure OpLabel (C : Type) where
  node : QueryElement C
  label : String
  deriving DecidableEq

/-- `OpProperty`; its value is never a variable. -/
structure OpProperty (C : Type) where
  node : QueryElement C
  key : String
  value : C
  deriving DecidableEq

structure OpEdge (C : Type) where
  source : QueryElement C
  target : QueryElement C
  type : QueryElement C
  edge : QueryElement C
  deriving DecidableEq

structure OpPath (C : Type) where
  var : String
  source : QueryElement C
  target : QueryElement C
  semantic : PathSemantic
  path : IPath

/-- `QueryElement::is_var` with `to_var`. -/
def QueryElement.vars {C : Type} : QueryElement C → List String
  | var name => [name]
  | term _ => []

/-- `OpProperty::operator<` compares node and key alone. -/
def OpProperty.SameKey {C : Type} (p q : OpProperty C) : Prop := p.node = q.node ∧ p.key = q.key

instance {C : Type} [DecidableEq C] (p q : OpProperty C) : Decidable (p.SameKey q) :=
  inferInstanceAs (Decidable (_ ∧ _))

/-- `OpLabel::get_vars`. -/
def OpLabel.vars {C : Type} (l : OpLabel C) : List String := l.node.vars

/-- `OpProperty::get_vars`: the node and the variable of the property itself. -/
def OpProperty.vars {C : Type} (p : OpProperty C) : List String :=
  p.node.vars.flatMap fun x => [x, x ++ "." ++ p.key]

/-- `OpEdge::get_vars`. -/
def OpEdge.vars {C : Type} (e : OpEdge C) : List String :=
  e.source.vars ++ e.target.vars ++ e.type.vars ++ e.edge.vars

/-- `OpPath::get_vars`. -/
def OpPath.vars {C : Type} (p : OpPath C) : List String := p.source.vars ++ p.target.vars ++ [p.var]

/-- `OpBasicGraphPattern`.  The sets are lists without repetitions; `vars` has the variables of
the elements that were ever added. -/
structure BasicGraphPattern (C : Type) where
  labels : List (OpLabel C)
  properties : List (OpProperty C)
  edges : List (OpEdge C)
  paths : List (OpPath C)
  isolatedVars : List String
  isolatedTerms : List C
  vars : List String
  labels_nodup : labels.Nodup
  properties_unique : properties.Pairwise fun p q => ¬ p.SameKey q
  label_vars : ∀ l ∈ labels, ∀ x ∈ l.vars, x ∈ vars
  property_vars : ∀ p ∈ properties, ∀ x ∈ p.vars, x ∈ vars
  edge_vars : ∀ e ∈ edges, ∀ x ∈ e.vars, x ∈ vars
  path_vars : ∀ p ∈ paths, ∀ x ∈ p.vars, x ∈ vars
  isolated_vars : ∀ x ∈ isolatedVars, x ∈ vars

/-- The patterns of `OpMatch`: `OpBasicGraphPattern`, and `OpOptional` with its main pattern. -/
inductive GraphPattern (C : Type)
  | basic (op : BasicGraphPattern C)
  | optional (op : BasicGraphPattern C) (optionals : List (GraphPattern C))

namespace GraphPattern

variable {C : Type}

theorem induct {motive : GraphPattern C → Prop} (basic : ∀ op, motive (.basic op))
    (optional : ∀ op optionals, (∀ p ∈ optionals, motive p) → motive (.optional op optionals))
    (p : GraphPattern C) : motive p :=
  GraphPattern.rec (motive_1 := motive) (motive_2 := fun ps => ∀ p ∈ ps, motive p) basic optional
    (by simp) (fun _ _ hp hps => List.forall_mem_cons.mpr ⟨hp, hps⟩) p

def root : GraphPattern C → BasicGraphPattern C
  | basic op => op
  | optional op _ => op

mutual

def basics : GraphPattern C → List (BasicGraphPattern C)
  | basic op => [op]
  | optional op optionals => op :: basicsAll optionals

def basicsAll : List (GraphPattern C) → List (BasicGraphPattern C)
  | [] => []
  | p :: ps => basics p ++ basicsAll ps

end

def varsOf (bs : List (BasicGraphPattern C)) : Set String := {x | ∃ b ∈ bs, x ∈ b.vars}

/-- `get_vars`. -/
def vars (p : GraphPattern C) : Set String := varsOf p.basics

/-- The check of one basic pattern, with `parent_vars` and `global_vars`: a variable that was
seen before has to be one of the parent's. -/
def checkBasic (parentVars globalVars : List String) (b : BasicGraphPattern C) :
    Option (List String) :=
  if b.vars.all fun x => x ∉ globalVars ∨ x ∈ parentVars then some (globalVars ++ b.vars) else none

mutual

/-- `CheckWellDesigned`: the variables seen, when nothing is thrown. -/
def checkWellDesigned (parentVars globalVars : List String) :
    GraphPattern C → Option (List String)
  | basic op => checkBasic parentVars globalVars op
  | optional op optionals =>
    match checkBasic parentVars globalVars op with
    | none => none
    | some globalVars => checkAll op.vars globalVars optionals

def checkAll (parentVars globalVars : List String) : List (GraphPattern C) → Option (List String)
  | [] => some globalVars
  | p :: ps =>
    match checkWellDesigned parentVars globalVars p with
    | none => none
    | some globalVars => checkAll parentVars globalVars ps

end

def WellDesigned (p : GraphPattern C) : Prop := (checkWellDesigned [] [] p).isSome

instance (p : GraphPattern C) : Decidable p.WellDesigned := inferInstanceAs (Decidable (_ = true))

end GraphPattern

structure QueryGraph (C : Type) where
  objectId : C → Nat
  object : Nat → Prop
  label : Nat → String → Prop
  property : Nat → String → Nat → Prop
  edge : Nat → Nat → Nat → Nat → Prop
  path : PathSemantic → IPath → Nat → Nat → Nat → Prop
  label_object : ∀ {n l}, label n l → object n
  property_object : ∀ {n k v}, property n k v → object n
  edge_objects : ∀ {source target type id}, edge source target type id →
    object source ∧ object target ∧ object type ∧ object id
  path_objects : ∀ {s e n m id}, path s e n m id → object n ∧ object m

abbrev Row := Mapping String Nat

def QueryElement.value {C : Type} (G : QueryGraph C) (f : Row) : QueryElement C → Option Nat
  | var name => f name
  | term value => some (G.objectId value)

section

variable {C : Type} (G : QueryGraph C) (f : Row)

def OpLabel.Holds (l : OpLabel C) : Prop := ∃ n, l.node.value G f = some n ∧ G.label n l.label

def OpProperty.Holds (p : OpProperty C) : Prop :=
  (∃ n, p.node.value G f = some n ∧ G.property n p.key (G.objectId p.value)) ∧
    ∀ x ∈ p.node.vars, f (x ++ "." ++ p.key) = some (G.objectId p.value)

def OpEdge.Holds (e : OpEdge C) : Prop :=
  ∃ source target type id, e.source.value G f = some source ∧ e.target.value G f = some target ∧
    e.type.value G f = some type ∧ e.edge.value G f = some id ∧ G.edge source target type id

def OpPath.Holds (p : OpPath C) : Prop :=
  ∃ source target id, p.source.value G f = some source ∧ p.target.value G f = some target ∧
    f p.var = some id ∧ G.path p.semantic p.path source target id

def IsolatedHolds (x : String) : Prop := ∃ n, f x = some n ∧ G.object n

structure BasicGraphPattern.Holds (b : BasicGraphPattern C) : Prop where
  labels : ∀ l ∈ b.labels, l.Holds G f
  properties : ∀ p ∈ b.properties, p.Holds G f
  edges : ∀ e ∈ b.edges, e.Holds G f
  paths : ∀ p ∈ b.paths, p.Holds G f
  isolatedVars : ∀ x ∈ b.isolatedVars, IsolatedHolds G f x
  isolatedTerms : ∀ c ∈ b.isolatedTerms, G.object (G.objectId c)

def BasicGraphPattern.solutions (b : BasicGraphPattern C) : Set Row :=
  {f | f.dom = {x | x ∈ b.vars} ∧ b.Holds G f}

end

namespace GraphPattern

variable {C : Type} (G : QueryGraph C)

mutual

def solutions : GraphPattern C → Set Row
  | basic op => op.solutions G
  | optional op optionals => joinAll (op.solutions G) optionals

def joinAll (M : Set Row) : List (GraphPattern C) → Set Row
  | [] => M
  | p :: ps => joinAll (Mapping.leftOuterJoin M (solutions p)) ps

end

mutual

def extensions : GraphPattern C → Row → Set Row
  | basic op, f => f.attach (op.solutions G)
  | optional op optionals, f => {h | ∃ g ∈ f.attach (op.solutions G), h ∈ extendAll optionals g}

/-- The optional patterns in turn: each extends the row, or leaves it when nothing is found. -/
def extendAll : List (GraphPattern C) → Row → Set Row
  | [], f => {f}
  | p :: ps, f =>
    {h | ∃ g, (g ∈ extensions p f ∨ extensions p f = ∅ ∧ g = f) ∧ h ∈ extendAll ps g}

end

variable {G} {f g h : Row} {b : BasicGraphPattern C} {p : GraphPattern C} {ps : List (GraphPattern C)}
  {M : Set Row} {seen : Set String}

theorem mem_varsOf_append {bs bs' : List (BasicGraphPattern C)} :
    varsOf (bs ++ bs') = varsOf bs ∪ varsOf bs' := by
  ext x
  simp [varsOf, or_and_right, exists_or]

theorem varsOf_cons {bs : List (BasicGraphPattern C)} :
    varsOf (b :: bs) = {x | x ∈ b.vars} ∪ varsOf bs := by
  ext x
  simp [varsOf]

theorem root_vars_subset (p : GraphPattern C) : {x | x ∈ p.root.vars} ⊆ p.vars := by
  intro x hx
  cases p with
  | basic op => exact ⟨op, by simp [basics], hx⟩
  | optional op optionals => exact ⟨op, by simp [basics], hx⟩

theorem dom_of_solution (p : GraphPattern C) : ∀ f ∈ p.solutions G,
    {x | x ∈ p.root.vars} ⊆ f.dom ∧ f.dom ⊆ p.vars := by
  induction p using induct with
  | basic op =>
    intro f hf
    simp only [solutions] at hf
    rw [hf.1]
    exact ⟨subset_rfl, root_vars_subset (basic op)⟩
  | optional op optionals ih =>
    -- the variables of the joined set grow by those of one optional pattern after the other
    have hjoin : ∀ ps : List (GraphPattern C), (∀ p ∈ ps, p ∈ optionals) → ∀ M : Set Row,
        (∀ f ∈ M, {x | x ∈ op.vars} ⊆ f.dom) → ∀ f ∈ joinAll G M ps,
        {x | x ∈ op.vars} ⊆ f.dom ∧ ∃ g ∈ M, f.dom ⊆ g.dom ∪ varsOf (basicsAll ps) := by
      intro ps
      induction ps with
      | nil =>
        intro _ M hM f hf
        exact ⟨hM f hf, f, hf, Set.subset_union_left⟩
      | cons p ps ihps =>
        intro hps M hM f hf
        simp only [joinAll] at hf
        obtain ⟨hp, hps⟩ := List.forall_mem_cons.mp hps
        have hM' : ∀ f ∈ Mapping.leftOuterJoin M (p.solutions G), {x | x ∈ op.vars} ⊆ f.dom := by
          intro f ⟨g, hg, hfg⟩
          exact (hM g hg).trans (Mapping.dom_subset_of_mem_attachOptional hfg)
        obtain ⟨hop, g, ⟨g', hg', hgg'⟩, hsub⟩ := ihps hps _ hM' f hf
        refine ⟨hop, g', hg', hsub.trans ?_⟩
        have hgdom : g.dom ⊆ g'.dom ∪ p.vars := by
          rcases hgg' with ⟨k, hk, -, rfl⟩ | ⟨-, rfl⟩
          · rw [Mapping.dom_merge]
            exact Set.union_subset_union_right _ (ih p hp k hk).2
          · exact Set.subset_union_left
        rw [basicsAll, mem_varsOf_append, ← Set.union_assoc]
        exact Set.union_subset_union_left _ hgdom
    intro f hf
    simp only [solutions] at hf
    obtain ⟨hop, g, hg, hsub⟩ := hjoin optionals (fun _ h => h) (op.solutions G)
      (fun f hf => hf.1.symm.subset) f hf
    rw [hg.1] at hsub
    refine ⟨hop, ?_⟩
    rw [vars, basics, varsOf_cons]
    exact hsub

mutual

/-- A pattern under which the variables `seen` have occurred: in each optional pattern of the
tree those of them are in its root. -/
def Guarded (seen : Set String) : GraphPattern C → Prop
  | basic _ => True
  | optional op optionals => GuardedAll (seen ∪ {x | x ∈ op.vars}) optionals

def GuardedAll (seen : Set String) : List (GraphPattern C) → Prop
  | [] => True
  | p :: ps => (seen ∩ p.vars ⊆ {x | x ∈ p.root.vars}) ∧ Guarded seen p ∧ GuardedAll (seen ∪ p.vars) ps

end

theorem guardedAll_append {seen : Set String} {ps qs : List (GraphPattern C)} :
    GuardedAll seen (ps ++ qs) ↔
      GuardedAll seen ps ∧ GuardedAll (seen ∪ varsOf (basicsAll ps)) qs := by
  induction ps generalizing seen with
  | nil => simp [GuardedAll, basicsAll, varsOf]
  | cons p ps ih =>
    rw [List.cons_append, GuardedAll, GuardedAll, ih, basicsAll, mem_varsOf_append, ← Set.union_assoc]
    tauto

theorem basicsAll_append (ps qs : List (GraphPattern C)) :
    basicsAll (ps ++ qs) = basicsAll ps ++ basicsAll qs := by
  induction ps with
  | nil => rfl
  | cons p ps ih => rw [List.cons_append, basicsAll, basicsAll, ih, List.append_assoc]

theorem basicsAll_singleton (p : GraphPattern C) : basicsAll [p] = p.basics := by simp [basicsAll]

/-- What the check of a pattern says: the variables seen before are in its root and in the
parent, and so on below. -/
theorem of_checkWellDesigned (p : GraphPattern C) : ∀ {parentVars globalVars globalVars' : List String},
    checkWellDesigned parentVars globalVars p = some globalVars' →
      {x | x ∈ globalVars'} = {x | x ∈ globalVars} ∪ p.vars ∧
      (∀ x ∈ p.vars, x ∈ globalVars → x ∈ parentVars ∧ x ∈ p.root.vars) ∧
      Guarded {x | x ∈ globalVars} p := by
  have hbasic : ∀ (b : BasicGraphPattern C) {parentVars globalVars globalVars' : List String},
      checkBasic parentVars globalVars b = some globalVars' →
        {x | x ∈ globalVars'} = {x | x ∈ globalVars} ∪ {x | x ∈ b.vars} ∧
        ∀ x ∈ b.vars, x ∈ globalVars → x ∈ parentVars := by
    intro b parentVars globalVars globalVars' h
    unfold checkBasic at h
    split_ifs at h with hall
    rw [Option.some.injEq] at h
    subst h
    refine ⟨by ext x; simp, fun x hx hseen => ?_⟩
    have hx' := List.all_eq_true.mp hall x hx
    simp only [decide_eq_true_eq] at hx'
    exact hx'.resolve_left (fun hn => hn hseen)
  induction p using induct with
  | basic op =>
    intro parentVars globalVars globalVars' h
    obtain ⟨hvars, hparent⟩ := hbasic op h
    have hop : (basic op).vars = {x | x ∈ op.vars} := by simp [vars, basics, varsOf]
    rw [hop]
    exact ⟨hvars, fun x hx hseen => ⟨hparent x hx hseen, hx⟩, trivial⟩
  | optional op optionals ih =>
    intro parentVars globalVars globalVars' h
    simp only [checkWellDesigned] at h
    cases hop : checkBasic parentVars globalVars op with
    | none => simp [hop] at h
    | some seen =>
      simp only [hop] at h
      obtain ⟨hseen, hparent⟩ := hbasic op hop
      have hall : ∀ ps : List (GraphPattern C), (∀ p ∈ ps, p ∈ optionals) →
          ∀ seen seen' : List String, checkAll op.vars seen ps = some seen' →
            {x | x ∈ seen'} = {x | x ∈ seen} ∪ varsOf (basicsAll ps) ∧
            (∀ x ∈ varsOf (basicsAll ps), x ∈ seen → x ∈ op.vars) ∧
            GuardedAll {x | x ∈ seen} ps := by
        intro ps
        induction ps with
        | nil =>
          intro _ seen seen' h
          cases h
          exact ⟨by simp [basicsAll, varsOf], by simp [basicsAll, varsOf], trivial⟩
        | cons p ps ihps =>
          intro hps seen seen' h
          obtain ⟨hp, hps⟩ := List.forall_mem_cons.mp hps
          simp only [checkAll] at h
          cases hcheck : checkWellDesigned op.vars seen p with
          | none => simp [hcheck] at h
          | some seen₁ =>
            simp only [hcheck] at h
            obtain ⟨hseen₁, hroot, hguarded⟩ := ih p hp hcheck
            obtain ⟨hseen', hlater, hrest⟩ := ihps hps seen₁ seen' h
            rw [hseen₁] at hseen' hrest
            refine ⟨?_, ?_, ?_, hguarded, hrest⟩
            · rw [hseen', basicsAll, mem_varsOf_append, Set.union_assoc]
              rfl
            · intro x hx hxseen
              rw [basicsAll, mem_varsOf_append] at hx
              rcases hx with hx | hx
              · exact (hroot x hx hxseen).1
              · have hx₁ : x ∈ {x | x ∈ seen₁} := by
                  rw [hseen₁]
                  exact .inl hxseen
                exact hlater x hx hx₁
            · exact fun x ⟨hxseen, hx⟩ => (hroot x hx hxseen).2
      obtain ⟨hvars, hroot, hguarded⟩ := hall optionals (fun _ h => h) seen globalVars' h
      rw [hseen] at hvars hguarded
      have hmem : ∀ x, x ∈ globalVars → x ∈ seen := by
        intro x hx
        have hx' : x ∈ {x | x ∈ seen} := by
          rw [hseen]
          exact .inl hx
        exact hx'
      have hop' : (optional op optionals).vars = {x | x ∈ op.vars} ∪ varsOf (basicsAll optionals) := by
        rw [vars, basics, varsOf_cons]
      rw [hop']
      refine ⟨by rw [hvars, Set.union_assoc], fun x hx hxseen => ?_, hguarded⟩
      have hxop : x ∈ op.vars := hx.elim id fun hx => hroot x hx (hmem x hxseen)
      exact ⟨hparent x hxop hxseen, hxop⟩

/-- For a guarded pattern the extensions of a row are its solutions that are compatible with
the row. -/
theorem extensions_eq (p : GraphPattern C) : ∀ {seen : Set String} {f : Row}, Guarded seen p →
    seen ∩ p.vars ⊆ {x | x ∈ p.root.vars} → f.dom ⊆ seen →
      extensions G p f = f.attach (p.solutions G) := by
  induction p using induct with
  | basic op => exact fun _ _ _ => rfl
  | optional op optionals ih =>
    intro seen f hguarded hroot hf
    have hall : ∀ ps : List (GraphPattern C), (∀ p ∈ ps, p ∈ optionals) →
        ∀ (seen : Set String) (M : Set Row), GuardedAll seen ps → f.dom ⊆ seen →
          (∀ g ∈ M, g.dom ⊆ seen ∧ {x | x ∈ op.vars} ⊆ g.dom) →
          (∀ x ∈ f.dom, x ∈ varsOf (basicsAll ps) → x ∈ op.vars) →
          {h | ∃ g ∈ f.attach M, h ∈ extendAll G ps g} = f.attach (joinAll G M ps) := by
      intro ps
      induction ps with
      | nil =>
        intro _ seen M _ _ _ _
        ext h
        simp [extendAll, joinAll]
      | cons p ps ihps =>
        intro hps seen M ⟨hpguard, hpguarded, hrest⟩ hf hM hfop
        obtain ⟨hp, hps⟩ := List.forall_mem_cons.mp hps
        simp only [basicsAll, mem_varsOf_append] at hfop
        have hattach : f.attach (Mapping.leftOuterJoin M (p.solutions G)) =
            {h | ∃ g ∈ f.attach M, h ∈ g.attachOptional (p.solutions G)} := by
          refine Mapping.attach_leftOuterJoin fun g hg k hk x ⟨hx, hxk⟩ => ?_
          exact (hM g hg).2 (hfop x hx (.inl ((dom_of_solution p k hk).2 hxk)))
        have hjoined := ihps hps (seen ∪ p.vars) (Mapping.leftOuterJoin M (p.solutions G)) hrest
          (hf.trans Set.subset_union_left) ?_ fun x hx hxps => hfop x hx (.inr hxps)
        · rw [joinAll, ← hjoined, hattach]
          ext h
          simp only [extendAll, Set.mem_ofPred_eq]
          have hextend : ∀ g ∈ f.attach M, extensions G p g = g.attach (p.solutions G) := by
            intro g ⟨g', hg', _, heq⟩
            subst heq
            refine ih p hp hpguarded hpguard ?_
            rw [Mapping.dom_merge]
            exact Set.union_subset hf (hM g' hg').1
          constructor
          · intro ⟨g, hg, k, hk, hh⟩
            rw [hextend g hg] at hk
            exact ⟨k, ⟨g, hg, hk⟩, hh⟩
          · intro ⟨k, ⟨g, hg, hk⟩, hh⟩
            refine ⟨g, hg, k, ?_, hh⟩
            rw [hextend g hg]
            exact hk
        · intro g ⟨g', hg', hgg'⟩
          refine ⟨?_, (hM g' hg').2.trans (Mapping.dom_subset_of_mem_attachOptional hgg')⟩
          rcases hgg' with ⟨k, hk, -, rfl⟩ | ⟨-, rfl⟩
          · rw [Mapping.dom_merge]
            exact Set.union_subset_union (hM g' hg').1 (dom_of_solution p k hk).2
          · exact (hM _ hg').1.trans Set.subset_union_left
    have hvars : (optional op optionals).vars = {x | x ∈ op.vars} ∪ varsOf (basicsAll optionals) := by
      rw [vars, basics, varsOf_cons]
    rw [extensions, solutions]
    refine hall optionals (fun _ h => h) _ _ hguarded (hf.trans Set.subset_union_left) ?_ ?_
    · intro g hg
      rw [hg.1]
      exact ⟨Set.subset_union_right, subset_rfl⟩
    · intro x hx hxps
      exact hroot ⟨hf hx, by rw [hvars]; exact .inr hxps⟩

theorem solutions_eq_extensions (hguarded : Guarded ∅ p) :
    p.solutions G = extensions G p fun _ => none := by
  have hdom : Mapping.dom (fun _ => none : Row) = ∅ := by
    ext x
    simp [Mapping.dom]
  rw [extensions_eq p hguarded (by simp) hdom.subset]
  ext h
  constructor
  · intro hh
    exact ⟨h, hh, fun _ _ _ hnone => by simp at hnone, by funext x; rfl⟩
  · rintro ⟨g, hg, _, heq⟩
    rw [heq]
    exact hg

end GraphPattern

/-- The variables in positions that only objects of the graph can take: all but the values of
properties and the paths. -/
def BasicGraphPattern.ObjectVar {C : Type} (b : BasicGraphPattern C) (x : String) : Prop :=
  (∃ l ∈ b.labels, x ∈ l.node.vars) ∨ (∃ p ∈ b.properties, x ∈ p.node.vars) ∨
    (∃ e ∈ b.edges, x ∈ e.vars) ∨
    (∃ p ∈ b.paths, x ∈ p.source.vars ∨ x ∈ p.target.vars) ∨ x ∈ b.isolatedVars

section

variable {C : Type} {G : QueryGraph C} {f g h : Row} {b : BasicGraphPattern C} {p : GraphPattern C}
  {ps qs : List (GraphPattern C)}

def Extends (f g : Row) : Prop := ∀ x n, f x = some n → g x = some n

theorem Extends.trans (hfg : Extends f g) (hgh : Extends g h) : Extends f h :=
  fun x n hf => hgh x n (hfg x n hf)

theorem Extends.value {e : QueryElement C} {n : Nat} (hfg : Extends f g) (hf : e.value G f = some n) :
    e.value G g = some n := by
  cases e with
  | var x => exact hfg x n hf
  | term c => exact hf

theorem Extends.dom (hfg : Extends f g) : f.dom ⊆ g.dom := by
  intro x hx
  obtain ⟨n, hn⟩ := Mapping.mem_dom.mp hx
  exact Mapping.mem_dom.mpr ⟨n, hfg x n hn⟩

theorem extends_merge (f g : Row) : Extends f (Mapping.merge f g) := fun _ _ => Mapping.merge_of_some

theorem BasicGraphPattern.Holds.extends (hb : b.Holds G f) (hfg : Extends f g) : b.Holds G g where
  labels l hl := by
    obtain ⟨n, hn, hlabel⟩ := hb.labels l hl
    exact ⟨n, hfg.value hn, hlabel⟩
  properties p hp := by
    obtain ⟨⟨n, hn, hproperty⟩, hvar⟩ := hb.properties p hp
    exact ⟨⟨n, hfg.value hn, hproperty⟩, fun x hx => hfg _ _ (hvar x hx)⟩
  edges e he := by
    obtain ⟨source, target, type, id, hs, ht, hy, hi, hedge⟩ := hb.edges e he
    exact ⟨source, target, type, id, hfg.value hs, hfg.value ht, hfg.value hy, hfg.value hi, hedge⟩
  paths p hp := by
    obtain ⟨source, target, id, hs, ht, hi, hpath⟩ := hb.paths p hp
    exact ⟨source, target, id, hfg.value hs, hfg.value ht, hfg _ _ hi, hpath⟩
  isolatedVars x hx := by
    obtain ⟨n, hn, hobject⟩ := hb.isolatedVars x hx
    exact ⟨n, hfg x n hn, hobject⟩
  isolatedTerms := hb.isolatedTerms

theorem BasicGraphPattern.Holds.object {x : String} (hb : b.Holds G f) (hx : b.ObjectVar x) :
    IsolatedHolds G f x := by
  have hvar : ∀ {e : QueryElement C} {n : Nat}, x ∈ e.vars → e.value G f = some n → f x = some n := by
    intro e n hxe hn
    cases e with
    | var y =>
      rw [List.mem_singleton.mp hxe]
      exact hn
    | term c => exact absurd hxe List.not_mem_nil
  rcases hx with ⟨l, hl, hx⟩ | ⟨p, hp, hx⟩ | ⟨e, he, hx⟩ | ⟨p, hp, hx⟩ | hx
  · obtain ⟨n, hn, hlabel⟩ := hb.labels l hl
    exact ⟨n, hvar hx hn, G.label_object hlabel⟩
  · obtain ⟨⟨n, hn, hproperty⟩, -⟩ := hb.properties p hp
    exact ⟨n, hvar hx hn, G.property_object hproperty⟩
  · obtain ⟨source, target, type, id, hs, ht, hy, hi, hedge⟩ := hb.edges e he
    obtain ⟨hsource, htarget, htype, hid⟩ := G.edge_objects hedge
    simp only [OpEdge.vars, List.mem_append] at hx
    rcases hx with ((hx | hx) | hx) | hx
    · exact ⟨source, hvar hx hs, hsource⟩
    · exact ⟨target, hvar hx ht, htarget⟩
    · exact ⟨type, hvar hx hy, htype⟩
    · exact ⟨id, hvar hx hi, hid⟩
  · obtain ⟨source, target, id, hs, ht, -, hpath⟩ := hb.paths p hp
    obtain ⟨hsource, htarget⟩ := G.path_objects hpath
    rcases hx with hx | hx
    · exact ⟨source, hvar hx hs, hsource⟩
    · exact ⟨target, hvar hx ht, htarget⟩
  · exact hb.isolatedVars x hx

namespace GraphPattern

def step (G : QueryGraph C) (p : GraphPattern C) (f : Row) : Set Row :=
  {g | g ∈ extensions G p f ∨ extensions G p f = ∅ ∧ g = f}

theorem mem_extendAll_cons : h ∈ extendAll G (p :: ps) f ↔ ∃ g ∈ step G p f, h ∈ extendAll G ps g := by
  rw [extendAll]
  rfl

theorem extendAll_singleton : extendAll G [p] f = step G p f := by
  ext h
  rw [mem_extendAll_cons]
  simp [extendAll]

theorem mem_extendAll_append :
    h ∈ extendAll G (ps ++ qs) f ↔ ∃ g ∈ extendAll G ps f, h ∈ extendAll G qs g := by
  induction ps generalizing f with
  | nil => simp [extendAll]
  | cons p ps ih =>
    simp only [List.cons_append, mem_extendAll_cons, ih]
    constructor
    · intro ⟨g, hg, k, hk, hh⟩
      exact ⟨k, ⟨g, hg, hk⟩, hh⟩
    · intro ⟨k, ⟨g, hg, hk⟩, hh⟩
      exact ⟨g, hg, k, hk, hh⟩

theorem step_nonempty (p : GraphPattern C) (f : Row) : (step G p f).Nonempty := by
  by_cases hempty : extensions G p f = ∅
  · exact ⟨f, .inr ⟨hempty, rfl⟩⟩
  · obtain ⟨g, hg⟩ := Set.nonempty_iff_ne_empty.mpr hempty
    exact ⟨g, .inl hg⟩

theorem extendAll_nonempty (ps : List (GraphPattern C)) (f : Row) : (extendAll G ps f).Nonempty := by
  induction ps generalizing f with
  | nil => exact ⟨f, rfl⟩
  | cons p ps ih =>
    obtain ⟨g, hg⟩ := step_nonempty (G := G) p f
    obtain ⟨h, hh⟩ := ih g
    exact ⟨h, mem_extendAll_cons.mpr ⟨g, hg, hh⟩⟩

theorem step_of_nonempty (hp : (extensions G p f).Nonempty) : step G p f = extensions G p f := by
  ext h
  simp [step, hp.ne_empty]

theorem extends_of_mem_step (p : GraphPattern C) : ∀ {f g : Row}, g ∈ step G p f → Extends f g := by
  have hstep : ∀ {p : GraphPattern C} {f g : Row}, (∀ g ∈ extensions G p f, Extends f g) →
      g ∈ step G p f → Extends f g := by
    intro p f g h hg
    rcases hg with hg | ⟨-, rfl⟩
    · exact h g hg
    · exact fun x n hn => hn
  induction p using induct with
  | basic op =>
    intro f g hg
    refine hstep (fun g hg => ?_) hg
    obtain ⟨k, -, -, rfl⟩ := hg
    exact extends_merge f k
  | optional op optionals ih =>
    intro f g hg
    refine hstep (fun g hg => ?_) hg
    rw [extensions] at hg
    obtain ⟨_, ⟨k, -, -, rfl⟩, hg⟩ := hg
    have hall : ∀ ps : List (GraphPattern C), (∀ p ∈ ps, p ∈ optionals) → ∀ {f g : Row},
        g ∈ extendAll G ps f → Extends f g := by
      intro ps
      induction ps with
      | nil =>
        intro _ f g hg
        rw [extendAll] at hg
        exact fun x n hn => hg ▸ hn
      | cons p ps ihps =>
        intro hps f g hg
        obtain ⟨hp, hps⟩ := List.forall_mem_cons.mp hps
        obtain ⟨k, hk, hg⟩ := mem_extendAll_cons.mp hg
        exact (ih p hp hk).trans (ihps hps hg)
    exact (extends_merge f k).trans (hall optionals (fun _ h => h) hg)

variable {ancestors before : List (BasicGraphPattern C)}

structure Replaces (G : QueryGraph C) (ancestors before : List (BasicGraphPattern C))
    (parentVars : List String) (ps ps' : List (GraphPattern C)) : Prop where
  same : ∀ f : Row, (∀ a ∈ ancestors, a.Holds G f) → {x | x ∈ parentVars} ⊆ f.dom →
    extendAll G ps f = extendAll G ps' f
  vars : varsOf (basicsAll ps') ⊆ varsOf (basicsAll ps)
  guarded : ∀ seen ⊆ varsOf before, GuardedAll seen ps'

theorem Replaces.append {parentVars : List String} {p : GraphPattern C} {ps qs qs' : List (GraphPattern C)}
    (hp : Replaces G ancestors before parentVars [p] qs)
    (hps : Replaces G ancestors (before ++ p.basics) parentVars ps qs') :
    Replaces G ancestors before parentVars (p :: ps) (qs ++ qs') where
  same f hf hdom := by
    have hstep : step G p f = extendAll G qs f := by
      rw [← extendAll_singleton]
      exact hp.same f hf hdom
    ext h
    rw [mem_extendAll_cons, mem_extendAll_append, hstep]
    refine exists_congr fun g => and_congr_right fun hg => ?_
    have hfg : Extends f g := extends_of_mem_step p (hstep ▸ hg)
    rw [hps.same g (fun a ha => (hf a ha).extends hfg) (hdom.trans hfg.dom)]
  vars := by
    have hvars := hp.vars
    rw [basicsAll_singleton] at hvars
    rw [basicsAll_append, mem_varsOf_append, basicsAll, mem_varsOf_append]
    exact Set.union_subset_union hvars hps.vars
  guarded seen hseen := by
    have hvars := hp.vars
    rw [basicsAll_singleton] at hvars
    refine guardedAll_append.mpr ⟨hp.guarded seen hseen, hps.guarded _ ?_⟩
    rw [mem_varsOf_append]
    exact Set.union_subset_union hseen hvars

end GraphPattern

end

end Match
end MillenniumDB
