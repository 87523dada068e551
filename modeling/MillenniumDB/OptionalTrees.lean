import MillenniumDB.GraphPatterns

/-!
# `OptimizeOptionalTree`

The pass over a tree of OPTIONAL deletes the labels, properties and isolated variables that it
has seen before, and with them the optional patterns that have nothing left to match; their own
optional patterns move up.  It keeps the solutions of a well-designed pattern where what it
deletes holds already for the row that the optional pattern extends.
-/

namespace MillenniumDB
namespace Match

variable {C : Type} [DecidableEq C]

/-- The members of `OptimizeOptionalTree`. -/
structure OptimizeOptionalTree (C : Type) where
  globalLabels : List (OpLabel C) := []
  globalProperties : List (OpProperty C) := []
  globalVars : List String := []
  optionals : List (GraphPattern C) := []
  deleteCurrent : Bool := false
  moveChildrenUp : Bool := false
  optionalToMatch : Bool := false

namespace OptimizeOptionalTree

/-- The loop over the properties.  A property that is not found is inserted while the iterator
stays, and the next round finds it with its own value. -/
def eraseProperties : List (OpProperty C) → List (OpProperty C) → List (OpProperty C) × List (OpProperty C)
  | [], seen => ([], seen)
  | p :: ps, seen =>
    match seen.find? fun q => p.SameKey q with
    | some found =>
      let rest := eraseProperties ps seen
      if p.value ≠ found.value then rest else (p :: rest.1, rest.2)
    | none =>
      let rest := eraseProperties ps (p :: seen)
      (p :: rest.1, rest.2)

def eraseLabels : List (OpLabel C) → List (OpLabel C) → List (OpLabel C) × List (OpLabel C)
  | [], seen => ([], seen)
  | l :: ls, seen =>
    let rest := eraseLabels ls (l :: seen)
    if l ∈ seen then rest else (l :: rest.1, rest.2)

theorem eraseProperties_sublist (ps seen : List (OpProperty C)) :
    (eraseProperties ps seen).1.Sublist ps := by
  induction ps generalizing seen with
  | nil => exact .refl _
  | cons p ps ih =>
    simp only [eraseProperties]
    split
    · split_ifs
      · exact (ih _).cons _
      · exact (ih _).cons_cons _
    · exact (ih _).cons_cons _

theorem eraseLabels_sublist (ls seen : List (OpLabel C)) : (eraseLabels ls seen).1.Sublist ls := by
  induction ls generalizing seen with
  | nil => exact .refl _
  | cons l ls ih =>
    simp only [eraseLabels]
    split_ifs
    · exact (ih _).cons _
    · exact (ih _).cons_cons _

/-- The basic pattern with what is left of it; `vars` stays. -/
def erased (st : OptimizeOptionalTree C) (b : BasicGraphPattern C) : BasicGraphPattern C where
  labels := (eraseLabels b.labels st.globalLabels).1
  properties := (eraseProperties b.properties st.globalProperties).1
  edges := b.edges
  paths := b.paths
  isolatedVars := b.isolatedVars.filter fun x => x ∉ st.globalVars
  isolatedTerms := b.isolatedTerms
  vars := b.vars
  labels_nodup := b.labels_nodup.sublist (eraseLabels_sublist _ _)
  properties_unique := b.properties_unique.sublist (eraseProperties_sublist _ _)
  label_vars l hl := b.label_vars l ((eraseLabels_sublist _ _).subset hl)
  property_vars p hp := b.property_vars p ((eraseProperties_sublist _ _).subset hp)
  edge_vars := b.edge_vars
  path_vars := b.path_vars
  isolated_vars x hx := b.isolated_vars x (List.mem_of_mem_filter hx)

end OptimizeOptionalTree

def BasicGraphPattern.isEmpty (b : BasicGraphPattern C) : Bool :=
  b.edges.isEmpty && b.labels.isEmpty && b.properties.isEmpty && b.paths.isEmpty &&
    b.isolatedVars.isEmpty

namespace OptimizeOptionalTree

/-- `visit(OpBasicGraphPattern&)`. -/
def visitBasic (b : BasicGraphPattern C) (st : OptimizeOptionalTree C) :
    BasicGraphPattern C × OptimizeOptionalTree C :=
  (st.erased b, { st with
    globalLabels := (eraseLabels b.labels st.globalLabels).2
    globalProperties := (eraseProperties b.properties st.globalProperties).2
    globalVars := st.globalVars ++ b.vars
    deleteCurrent := if (st.erased b).isEmpty then true else st.deleteCurrent })

def clearFlags (st : OptimizeOptionalTree C) : OptimizeOptionalTree C :=
  { st with deleteCurrent := false, moveChildrenUp := false, optionalToMatch := false }

/-- The end of `visit(OpOptional&)`, with what is left of the children. -/
def finish (op : BasicGraphPattern C) (currentMoveChildrenUp : Bool)
    (children : List (GraphPattern C)) (st : OptimizeOptionalTree C) :
    GraphPattern C × OptimizeOptionalTree C :=
  match children with
  | [] =>
    if currentMoveChildrenUp then
      (.optional op [], { st with moveChildrenUp := false, deleteCurrent := true })
    else
      (.optional op [], { st with
        moveChildrenUp := false, deleteCurrent := false, optionalToMatch := true
        optionals := st.optionals ++ [.basic op] })
  | child :: children =>
    if currentMoveChildrenUp then
      (.optional op [], { st with
        moveChildrenUp := true, deleteCurrent := false
        optionals := st.optionals ++ child :: children })
    else (.optional op (child :: children), st)

mutual

def visit : GraphPattern C → OptimizeOptionalTree C → GraphPattern C × OptimizeOptionalTree C
  | .basic op, st =>
    let visited := visitBasic op st
    (.basic visited.1, visited.2)
  | .optional op optionals, st =>
    let visited := visitBasic op st
    let children := visitAll optionals visited.2.clearFlags
    finish visited.1 visited.2.deleteCurrent children.1 children.2

/-- The loop over the children; what is put in the place of a child is not visited again. -/
def visitAll : List (GraphPattern C) → OptimizeOptionalTree C →
    List (GraphPattern C) × OptimizeOptionalTree C
  | [], st => ([], st)
  | p :: ps, st =>
    let visited := visit p st
    if visited.2.moveChildrenUp || visited.2.optionalToMatch then
      let rest := visitAll ps { visited.2 with
        optionals := [], moveChildrenUp := false, optionalToMatch := false }
      (visited.2.optionals ++ rest.1, rest.2)
    else if visited.2.deleteCurrent then visitAll ps { visited.2 with deleteCurrent := false }
    else
      let rest := visitAll ps visited.2
      (visited.1 :: rest.1, rest.2)

end

/-- `visit(OpMatch&)` of a new visitor. -/
def optimize (p : GraphPattern C) : GraphPattern C :=
  let visited := visit p {}
  if visited.2.optionalToMatch then visited.2.optionals.headD visited.1 else visited.1

end OptimizeOptionalTree

def BasicGraphPattern.Mentions (b : BasicGraphPattern C) (x : String) : Prop :=
  (∃ l ∈ b.labels, x ∈ l.vars) ∨ (∃ p ∈ b.properties, x ∈ p.vars) ∨ (∃ e ∈ b.edges, x ∈ e.vars) ∨
    (∃ p ∈ b.paths, x ∈ p.vars) ∨ x ∈ b.isolatedVars

/-- A basic pattern below the main patterns `ancestors`, where the patterns `before` were
visited: no property is deleted, a label is deleted when it is an ancestor's, an isolated
variable when it is an object of an ancestor, and isolated terms do not stay behind alone. -/
structure HarmlessBasic (ancestors before : List (BasicGraphPattern C)) (b : BasicGraphPattern C) :
    Prop where
  properties : ∀ p ∈ b.properties, ∀ b' ∈ before, ∀ q ∈ b'.properties, p.SameKey q → p.value = q.value
  labels : ∀ l ∈ b.labels, (∃ b' ∈ before, l ∈ b'.labels) → ∃ a ∈ ancestors, l ∈ a.labels
  isolatedVars : ∀ x ∈ b.isolatedVars, (∃ b' ∈ before, x ∈ b'.vars) → ∃ a ∈ ancestors, a.ObjectVar x
  isolatedTerms : b.isolatedTerms ≠ [] → b.edges ≠ [] ∨ b.paths ≠ [] ∨ b.properties ≠ [] ∨
    (∃ l ∈ b.labels, ∀ b' ∈ before, l ∉ b'.labels) ∨
    ∃ x ∈ b.isolatedVars, ∀ b' ∈ before, x ∉ b'.vars

mutual

def HarmlessBelow (ancestors before : List (BasicGraphPattern C)) : GraphPattern C → Prop
  | .basic op => HarmlessBasic ancestors before op
  | .optional op optionals =>
    HarmlessBasic ancestors before op ∧ HarmlessAll (op :: ancestors) (before ++ [op]) optionals

def HarmlessAll (ancestors before : List (BasicGraphPattern C)) : List (GraphPattern C) → Prop
  | [] => True
  | p :: ps => HarmlessBelow ancestors before p ∧ HarmlessAll ancestors (before ++ p.basics) ps

end

/-- At the root nothing was visited before; its main pattern has more than isolated terms. -/
def GraphPattern.Harmless : GraphPattern C → Prop
  | .basic _ => True
  | .optional op optionals => op.isEmpty = false ∧ HarmlessAll [op] [op] optionals

/-- A pattern as the parser builds it and `CheckWellDesigned` lets it pass: `vars` has the
variables of the elements alone. -/
structure MatchPattern (C : Type) [DecidableEq C] where
  pattern : GraphPattern C
  declared : ∀ b ∈ pattern.basics, ∀ x ∈ b.vars, b.Mentions x
  wellDesigned : pattern.WellDesigned

namespace OptimizeOptionalTree

section

variable {G : QueryGraph C} {f : Row} {b : BasicGraphPattern C} {st : OptimizeOptionalTree C}
  {ancestors before : List (BasicGraphPattern C)}

theorem eraseLabels_eq {ls : List (OpLabel C)} (hnodup : ls.Nodup) (seen : List (OpLabel C)) :
    (eraseLabels ls seen).1 = ls.filter (· ∉ seen) := by
  induction ls generalizing seen with
  | nil => rfl
  | cons l ls ih =>
    obtain ⟨hl, hnodup⟩ := List.nodup_cons.mp hnodup
    have hrest : (eraseLabels ls (l :: seen)).1 = ls.filter (· ∉ seen) := by
      rw [ih hnodup]
      refine List.filter_congr fun l' hl' => ?_
      have hne : l' ≠ l := fun h => hl (h ▸ hl')
      simp [hne]
    by_cases hseen : l ∈ seen <;> simp [eraseLabels, hseen, hrest]

theorem mem_eraseLabels_seen {ls seen : List (OpLabel C)} {l : OpLabel C} :
    l ∈ (eraseLabels ls seen).2 ↔ l ∈ seen ∨ l ∈ ls := by
  induction ls generalizing seen with
  | nil => simp [eraseLabels]
  | cons l' ls ih =>
    have hrest : l ∈ (eraseLabels ls (l' :: seen)).2 ↔ l ∈ seen ∨ l ∈ l' :: ls := by
      rw [ih, List.mem_cons, List.mem_cons]
      tauto
    by_cases hseen : l' ∈ seen <;> simp [eraseLabels, hseen, hrest]

theorem eraseProperties_eq {ps : List (OpProperty C)} (hunique : ps.Pairwise fun p q => ¬ p.SameKey q)
    {seen : List (OpProperty C)} (hseen : ∀ p ∈ ps, ∀ q ∈ seen, p.SameKey q → p.value = q.value) :
    (eraseProperties ps seen).1 = ps := by
  induction ps generalizing seen with
  | nil => rfl
  | cons p ps ih =>
    obtain ⟨hp, hunique⟩ := List.pairwise_cons.mp hunique
    have hrest : ∀ p' ∈ ps, ∀ q ∈ seen, p'.SameKey q → p'.value = q.value :=
      fun p' hp' => hseen p' (List.mem_cons_of_mem p hp')
    simp only [eraseProperties]
    cases hfind : seen.find? fun q => p.SameKey q with
    | some found =>
      have hkey : p.SameKey found := by simpa using List.find?_some hfind
      have hvalue := hseen p List.mem_cons_self found (List.mem_of_find?_eq_some hfind) hkey
      simp [hvalue, ih hunique hrest]
    | none =>
      have hcons : ∀ p' ∈ ps, ∀ q ∈ p :: seen, p'.SameKey q → p'.value = q.value := by
        intro p' hp' q hq hkey
        rcases List.mem_cons.mp hq with rfl | hq
        · exact absurd ⟨hkey.1.symm, hkey.2.symm⟩ (hp p' hp')
        · exact hrest p' hp' q hq hkey
      simp [ih hunique hcons]

theorem mem_eraseProperties_seen {ps seen : List (OpProperty C)} {q : OpProperty C}
    (hq : q ∈ (eraseProperties ps seen).2) : q ∈ seen ∨ q ∈ ps := by
  induction ps generalizing seen with
  | nil => exact .inl hq
  | cons p ps ih =>
    simp only [eraseProperties] at hq
    cases hfind : seen.find? fun q => p.SameKey q with
    | some found =>
      have hq' : q ∈ (eraseProperties ps seen).2 := by
        simp only [hfind] at hq
        split_ifs at hq <;> exact hq
      exact (ih hq').imp_right (List.mem_cons_of_mem p)
    | none =>
      simp only [hfind] at hq
      rcases ih hq with hq | hq
      · rcases List.mem_cons.mp hq with rfl | hq
        · exact .inr List.mem_cons_self
        · exact .inl hq
      · exact .inr (List.mem_cons_of_mem p hq)

theorem erased_new (b : BasicGraphPattern C) : erased {} b = b := by
  have hlabels : (eraseLabels b.labels []).1 = b.labels := by
    rw [eraseLabels_eq b.labels_nodup]
    simp
  have hproperties : (eraseProperties b.properties []).1 = b.properties :=
    eraseProperties_eq b.properties_unique (by simp)
  cases b
  simp only [erased, hlabels, hproperties, List.not_mem_nil, not_false_eq_true, decide_true,
    List.filter_true]

/-- What the visitor has seen comes from the patterns that were visited. -/
structure Seen (st : OptimizeOptionalTree C) (before : List (BasicGraphPattern C)) : Prop where
  labels : ∀ l, l ∈ st.globalLabels ↔ ∃ b ∈ before, l ∈ b.labels
  properties : ∀ p ∈ st.globalProperties, ∃ b ∈ before, p ∈ b.properties
  vars : ∀ x, x ∈ st.globalVars ↔ ∃ b ∈ before, x ∈ b.vars

theorem Seen.visitBasic (h : Seen st before) (b : BasicGraphPattern C) :
    Seen (visitBasic b st).2 (before ++ [b]) where
  labels l := by
    show l ∈ (eraseLabels b.labels st.globalLabels).2 ↔ _
    simp [mem_eraseLabels_seen, h.labels, or_and_right, exists_or]
  properties p hp := by
    rcases mem_eraseProperties_seen hp with hp | hp
    · obtain ⟨b', hb', hp⟩ := h.properties p hp
      exact ⟨b', List.mem_append_left _ hb', hp⟩
    · exact ⟨b, by simp, hp⟩
  vars x := by
    show x ∈ st.globalVars ++ b.vars ↔ _
    simp [h.vars, or_and_right, exists_or]

theorem Seen.properties_erased (h : Seen st before) (hb : HarmlessBasic ancestors before b) :
    (st.erased b).properties = b.properties := by
  refine eraseProperties_eq b.properties_unique fun p hp q hq hkey => ?_
  obtain ⟨b', hb', hq⟩ := h.properties q hq
  exact hb.properties p hp b' hb' q hq hkey

/-- For a row in which the ancestors hold, what is left of a harmless pattern has the same
solutions. -/
theorem Seen.attach_erased (h : Seen st before) (hb : HarmlessBasic ancestors before b)
    (hf : ∀ a ∈ ancestors, a.Holds G f) :
    f.attach ((st.erased b).solutions G) = f.attach (b.solutions G) := by
  have hproperties := h.properties_erased hb
  -- a variable of the pattern has the same object in the row and in a compatible solution
  have hsame : ∀ {g : Row} {x : String} {n : Nat}, f.Compatible g → g.dom = {x | x ∈ b.vars} →
      x ∈ b.vars → f x = some n → g x = some n := by
    intro g x n hc hdom hx hfx
    have hx' : x ∈ g.dom := hdom ▸ hx
    obtain ⟨m, hm⟩ := Mapping.mem_dom.mp hx'
    rw [hm, hc x n m hfx hm]
  ext k
  constructor
  · intro ⟨g, ⟨hdom, hg⟩, hc, heq⟩
    refine ⟨g, ⟨hdom, ?_⟩, hc, heq⟩
    refine ⟨fun l hl => ?_, hproperties ▸ hg.properties, hg.edges, hg.paths, fun x hx => ?_,
      hg.isolatedTerms⟩
    · by_cases hseen : l ∈ st.globalLabels
      · obtain ⟨a, ha, hla⟩ := hb.labels l hl ((h.labels l).mp hseen)
        obtain ⟨n, hn, hlabel⟩ := (hf a ha).labels l hla
        refine ⟨n, ?_, hlabel⟩
        cases hnode : l.node with
        | var x =>
          rw [hnode] at hn
          exact hsame hc hdom (b.label_vars l hl x (by simp [OpLabel.vars, hnode, QueryElement.vars])) hn
        | term c =>
          rw [hnode] at hn
          exact hn
      · refine hg.labels l ?_
        show l ∈ (eraseLabels b.labels st.globalLabels).1
        rw [eraseLabels_eq b.labels_nodup]
        exact List.mem_filter.mpr ⟨hl, by simpa using hseen⟩
    · by_cases hseen : x ∈ st.globalVars
      · obtain ⟨a, ha, hxa⟩ := hb.isolatedVars x hx ((h.vars x).mp hseen)
        obtain ⟨n, hn, hobject⟩ := (hf a ha).object hxa
        exact ⟨n, hsame hc hdom (b.isolated_vars x hx) hn, hobject⟩
      · exact hg.isolatedVars x (List.mem_filter.mpr ⟨hx, by simpa using hseen⟩)
  · intro ⟨g, ⟨hdom, hg⟩, hc, heq⟩
    refine ⟨g, ⟨hdom, ?_⟩, hc, heq⟩
    exact ⟨fun l hl => hg.labels l ((eraseLabels_sublist _ _).subset hl), hproperties ▸ hg.properties,
      hg.edges, hg.paths, fun x hx => hg.isolatedVars x (List.mem_of_mem_filter hx), hg.isolatedTerms⟩

/-- When nothing is left of a harmless pattern, its variables were seen before and a row that
has them is its only extension. -/
theorem Seen.attach_empty (h : Seen st before) (hb : HarmlessBasic ancestors before b)
    (hempty : (st.erased b).isEmpty) (hdeclared : ∀ x ∈ b.vars, b.Mentions x)
    (hvars : ∀ x ∈ b.vars, (∃ b' ∈ before, x ∈ b'.vars) → x ∈ f.dom) :
    f.attach ((st.erased b).solutions G) = {f} := by
  have hproperties := h.properties_erased hb
  simp only [BasicGraphPattern.isEmpty, Bool.and_eq_true, List.isEmpty_iff, hproperties] at hempty
  obtain ⟨⟨⟨⟨hedges, hlabels⟩, hnoproperties⟩, hpaths⟩, hisolated⟩ := hempty
  have hedges' : b.edges = [] := hedges
  have hpaths' : b.paths = [] := hpaths
  have hseenLabels : ∀ l ∈ b.labels, ∃ b' ∈ before, l ∈ b'.labels := by
    intro l hl
    rw [← h.labels]
    by_contra hnot
    have hmem : l ∈ (eraseLabels b.labels st.globalLabels).1 := by
      rw [eraseLabels_eq b.labels_nodup]
      exact List.mem_filter.mpr ⟨hl, by simpa using hnot⟩
    have hnil : (eraseLabels b.labels st.globalLabels).1 = [] := hlabels
    rw [hnil] at hmem
    exact List.not_mem_nil hmem
  have hseenVars : ∀ x ∈ b.isolatedVars, ∃ b' ∈ before, x ∈ b'.vars := by
    intro x hx
    rw [← h.vars]
    by_contra hnot
    have hmem : x ∈ b.isolatedVars.filter fun x => x ∉ st.globalVars :=
      List.mem_filter.mpr ⟨hx, by simpa using hnot⟩
    have hnil : (b.isolatedVars.filter fun x => x ∉ st.globalVars) = [] := hisolated
    rw [hnil] at hmem
    exact List.not_mem_nil hmem
  have hterms : b.isolatedTerms = [] := by
    by_contra hterms
    rcases hb.isolatedTerms hterms with hne | hne | hne | ⟨l, hl, hnot⟩ | ⟨x, hx, hnot⟩
    · exact hne hedges'
    · exact hne hpaths'
    · exact hne hnoproperties
    · obtain ⟨b', hb', hl'⟩ := hseenLabels l hl
      exact hnot b' hb' hl'
    · obtain ⟨b', hb', hx'⟩ := hseenVars x hx
      exact hnot b' hb' hx'
  have hdom : {x | x ∈ b.vars} ⊆ f.dom := by
    intro x hx
    refine hvars x hx ?_
    rcases hdeclared x hx with ⟨l, hl, hx⟩ | ⟨p, hp, hx⟩ | ⟨e, he, hx⟩ | ⟨p, hp, hx⟩ | hx
    · obtain ⟨b', hb', hl'⟩ := hseenLabels l hl
      exact ⟨b', hb', b'.label_vars l hl' x hx⟩
    · simp [hnoproperties] at hp
    · simp [hedges'] at he
    · simp [hpaths'] at hp
    · exact hseenVars x hx
  ext k
  constructor
  · intro ⟨g, ⟨hg, _⟩, _, heq⟩
    have hsub : g.dom ⊆ f.dom := by
      rw [hg]
      exact hdom
    rw [heq, Mapping.merge_eq_left hsub]
    rfl
  · intro hk
    obtain rfl : k = f := hk
    -- the row itself, restricted to the variables of the pattern
    refine ⟨fun x => if x ∈ b.vars then k x else none, ⟨?_, ?_⟩, ?_, ?_⟩
    · ext x
      by_cases hx : x ∈ b.vars
      · have hx' : x ∈ k.dom := hdom hx
        simpa [Mapping.dom, hx, erased] using hx'
      · simp [Mapping.dom, hx, erased]
    · refine ⟨fun l hl => ?_, fun p hp => ?_, fun e he => ?_, fun p hp => ?_, fun x hx => ?_, ?_⟩
      · simp [hlabels] at hl
      · simp [hproperties, hnoproperties] at hp
      · simp [hedges] at he
      · simp [hpaths] at hp
      · simp [hisolated] at hx
      · intro c hc
        have hc' : c ∈ b.isolatedTerms := hc
        simp [hterms] at hc'
    · intro x n m hx hm
      dsimp only at hm
      split_ifs at hm
      rw [hx] at hm
      exact Option.some.inj hm
    · refine (Mapping.merge_eq_left fun x hx => ?_).symm
      by_contra hnot
      have hnone : k x = none := by simpa [Mapping.dom] using hnot
      simp [Mapping.dom, hnone] at hx

end

/-- What the loop over the children puts in the place of a child. -/
def replacement (visited : GraphPattern C × OptimizeOptionalTree C) : List (GraphPattern C) :=
  if visited.2.moveChildrenUp || visited.2.optionalToMatch then visited.2.optionals
  else if visited.2.deleteCurrent then []
  else [visited.1]

structure Ready (st : OptimizeOptionalTree C) : Prop where
  optionals : st.optionals = []
  deleteCurrent : st.deleteCurrent = false
  moveChildrenUp : st.moveChildrenUp = false
  optionalToMatch : st.optionalToMatch = false

/-- Patterns are handed to the parent only with a flag that says so, and then the child is not
to be deleted. -/
structure Handed (st : OptimizeOptionalTree C) : Prop where
  deleteCurrent : (st.moveChildrenUp || st.optionalToMatch) = true → st.deleteCurrent = false
  optionals : (st.moveChildrenUp || st.optionalToMatch) = false → st.optionals = []

theorem visitAll_cons {p : GraphPattern C} {st : OptimizeOptionalTree C}
    (h : Handed (visit p st).2) (ps : List (GraphPattern C)) :
    ∃ st', Ready st' ∧ (∀ before, Seen (visit p st).2 before → Seen st' before) ∧
      visitAll (p :: ps) st = (replacement (visit p st) ++ (visitAll ps st').1, (visitAll ps st').2) := by
  simp only [visitAll, replacement]
  by_cases hup : ((visit p st).2.moveChildrenUp || (visit p st).2.optionalToMatch) = true
  · refine ⟨{ (visit p st).2 with optionals := [], moveChildrenUp := false, optionalToMatch := false },
      ⟨rfl, h.deleteCurrent hup, rfl, rfl⟩, fun before hseen => ?_, by simp only [if_pos hup]⟩
    exact ⟨hseen.labels, hseen.properties, hseen.vars⟩
  · have hnone := Bool.not_eq_true _ ▸ hup
    obtain ⟨hmove, hto⟩ := Bool.or_eq_false_iff.mp hnone
    simp only [if_neg hup]
    by_cases hdelete : (visit p st).2.deleteCurrent = true
    · refine ⟨{ (visit p st).2 with deleteCurrent := false },
        ⟨h.optionals hnone, rfl, hmove, hto⟩, fun before hseen => ?_, by simp [hdelete]⟩
      exact ⟨hseen.labels, hseen.properties, hseen.vars⟩
    · exact ⟨(visit p st).2, ⟨h.optionals hnone, by simpa using hdelete, hmove, hto⟩,
        fun before hseen => hseen, by simp [hdelete]⟩

section

variable {G : QueryGraph C} {ancestors before : List (BasicGraphPattern C)}

open GraphPattern

structure Visited (G : QueryGraph C) (ancestors before : List (BasicGraphPattern C))
    (parentVars : List String) (p : GraphPattern C)
    (visited : GraphPattern C × OptimizeOptionalTree C) : Prop where
  seen : Seen visited.2 (before ++ p.basics)
  handed : Handed visited.2
  replaces : Replaces G ancestors before parentVars [p] (replacement visited)

structure VisitedAll (G : QueryGraph C) (ancestors before : List (BasicGraphPattern C))
    (parentVars : List String) (ps : List (GraphPattern C))
    (visited : List (GraphPattern C) × OptimizeOptionalTree C) : Prop where
  seen : Seen visited.2 (before ++ basicsAll ps)
  ready : Ready visited.2
  replaces : Replaces G ancestors before parentVars ps visited.1

/-- The hypotheses about a pattern that is visited with `global_vars` below a parent. -/
structure Visitable (ancestors before : List (BasicGraphPattern C)) (globalVars : List String)
    (st : OptimizeOptionalTree C) : Prop where
  seen : Seen st before
  ready : Ready st
  vars : ∀ x, x ∈ globalVars ↔ ∃ b ∈ before, x ∈ b.vars

theorem visitAll_spec {parentVars : List String} (ps : List (GraphPattern C))
    (ih : ∀ p ∈ ps, ∀ {before globalVars globalVars' st}, Visitable ancestors before globalVars st →
      HarmlessBelow ancestors before p → (∀ b ∈ p.basics, ∀ x ∈ b.vars, b.Mentions x) →
      checkWellDesigned parentVars globalVars p = some globalVars' →
        Visited G ancestors before parentVars p (visit p st)) :
    ∀ {before globalVars globalVars' st}, Visitable ancestors before globalVars st →
      HarmlessAll ancestors before ps → (∀ b ∈ basicsAll ps, ∀ x ∈ b.vars, b.Mentions x) →
      checkAll parentVars globalVars ps = some globalVars' →
        VisitedAll G ancestors before parentVars ps (visitAll ps st) := by
  induction ps with
  | nil =>
    intro before globalVars globalVars' st hst _ _ _
    refine ⟨?_, hst.ready, ⟨fun _ _ _ => rfl, subset_rfl, fun _ _ => trivial⟩⟩
    rw [visitAll, basicsAll, List.append_nil]
    exact hst.seen
  | cons p ps ihps =>
    intro before globalVars globalVars' st hst hharmless hdeclared hcheck
    obtain ⟨hp, hps⟩ := hharmless
    simp only [checkAll] at hcheck
    cases hcheckp : checkWellDesigned parentVars globalVars p with
    | none => simp [hcheckp] at hcheck
    | some seen =>
      simp only [hcheckp] at hcheck
      have hvisited := ih p List.mem_cons_self hst hp
        (fun b hb => hdeclared b (List.mem_append_left _ hb)) hcheckp
      obtain ⟨st', hready, hseen, heq⟩ := visitAll_cons hvisited.handed ps
      have hvars : ∀ x, x ∈ seen ↔ ∃ b ∈ before ++ p.basics, x ∈ b.vars := by
        intro x
        have hx := Set.ext_iff.mp (of_checkWellDesigned p hcheckp).1 x
        simp only [Set.mem_ofPred_eq, Set.mem_union, hst.vars] at hx
        rw [hx]
        simp [GraphPattern.vars, varsOf, or_and_right, exists_or]
      have hrest := ihps (fun q hq => ih q (List.mem_cons_of_mem p hq))
        ⟨hseen _ hvisited.seen, hready, hvars⟩ hps
        (fun b hb => hdeclared b (List.mem_append_right _ hb)) hcheck
      rw [heq]
      refine ⟨?_, hrest.ready, hvisited.replaces.append hrest.replaces⟩
      have hafter := hrest.seen
      rw [List.append_assoc] at hafter
      exact hafter

omit [DecidableEq C] in
theorem vars_optional (op : BasicGraphPattern C) (optionals : List (GraphPattern C)) :
    (GraphPattern.optional op optionals).vars =
      {x | x ∈ op.vars} ∪ varsOf (basicsAll optionals) := by
  rw [GraphPattern.vars, basics, varsOf_cons]

section

variable {op main : BasicGraphPattern C} {optionals children : List (GraphPattern C)}
  {child : GraphPattern C} {parentVars globalVars globalVars' : List String}
  {st : OptimizeOptionalTree C}

theorem Visitable.visit_basic (hst : Visitable ancestors before globalVars st)
    (hharmless : HarmlessBelow ancestors before (.basic op))
    (hdeclared : ∀ x ∈ op.vars, op.Mentions x)
    (hcheck : checkWellDesigned parentVars globalVars (.basic op) = some globalVars') :
    Visited G ancestors before parentVars (.basic op) (visit (.basic op) st) := by
  obtain ⟨-, hseen, -⟩ := of_checkWellDesigned (.basic op) hcheck
  have hop : (GraphPattern.basic op).vars = {x | x ∈ op.vars} := by
    simp [GraphPattern.vars, basics, varsOf]
  have hbasics : (GraphPattern.basic op).basics = [op] := by simp [basics]
  refine ⟨hbasics ▸ hst.seen.visitBasic op, ?_, ?_⟩
  · simp only [visit, visitBasic]
    exact ⟨by simp [hst.ready.moveChildrenUp, hst.ready.optionalToMatch], fun _ => hst.ready.optionals⟩
  · have hreplacement : replacement (visit (.basic op) st) =
        if (st.erased op).isEmpty then [] else [.basic (st.erased op)] := by
      simp [replacement, visit, visitBasic, hst.ready.moveChildrenUp, hst.ready.optionalToMatch,
        hst.ready.deleteCurrent]
    rw [hreplacement]
    refine ⟨fun f hf hdom => ?_, ?_, fun seen _ => ?_⟩
    · have hattach := hst.seen.attach_erased hharmless hf
      rw [extendAll_singleton]
      split_ifs with hempty
      · have hsingle := hst.seen.attach_empty (G := G) (f := f) hharmless hempty hdeclared
          fun x hx hxb => hdom (hseen x (hop ▸ hx) ((hst.vars x).mpr hxb)).1
        have hext : extensions G (.basic op) f = {f} := by
          rw [extensions, ← hattach, hsingle]
        rw [step_of_nonempty (hext ▸ Set.singleton_nonempty f), hext, extendAll]
      · rw [extendAll_singleton]
        simp only [step, extensions, hattach]
    · split_ifs
      · simp [basicsAll, varsOf]
      · rw [basicsAll_singleton, basicsAll_singleton, basics, basics]
        simp [varsOf, erased]
    · split_ifs
      · trivial
      · exact ⟨by simp [GraphPattern.vars, basics, varsOf, root], trivial, trivial⟩

/-- The children of an optional pattern were visited; `main` is what is left of its main pattern. -/
structure ChildrenVisited (G : QueryGraph C) (ancestors before : List (BasicGraphPattern C))
    (op main : BasicGraphPattern C) (optionals children : List (GraphPattern C))
    (st : OptimizeOptionalTree C) : Prop where
  ready : Ready st
  seen : Seen st (before ++ (GraphPattern.optional op optionals).basics)
  vars : main.vars = op.vars
  replaces : Replaces G (op :: ancestors) (before ++ [op]) op.vars optionals children
  extensions : ∀ f : Row, (∀ a ∈ ancestors, a.Holds G f) →
    extensions G (.optional op optionals) f =
      {h | ∃ g ∈ f.attach (main.solutions G), h ∈ extendAll G children g}

namespace ChildrenVisited

omit [DecidableEq C] in
theorem varsOf_subset (h : ChildrenVisited G ancestors before op main optionals children st) :
    varsOf (basicsAll children) ⊆ varsOf (basicsAll [GraphPattern.optional op optionals]) := by
  rw [basicsAll_singleton, ← GraphPattern.vars, vars_optional]
  exact h.replaces.vars.trans Set.subset_union_right

omit [DecidableEq C] in
theorem emptied (h : ChildrenVisited G ancestors before op main optionals children st)
    (hstep : ∀ f : Row, (∀ a ∈ ancestors, a.Holds G f) → {x | x ∈ parentVars} ⊆ f.dom →
      step G (.optional op optionals) f = extendAll G children f) :
    Visited G ancestors before parentVars (.optional op optionals) (finish main true children st) := by
  have hsame : Replaces G ancestors before parentVars [.optional op optionals] children := by
    refine ⟨fun f hf hdom => by rw [extendAll_singleton, hstep f hf hdom], h.varsOf_subset,
      fun seen hsub => h.replaces.guarded seen (hsub.trans ?_)⟩
    rw [mem_varsOf_append]
    exact Set.subset_union_left
  cases children with
  | nil =>
    refine ⟨⟨h.seen.labels, h.seen.properties, h.seen.vars⟩, ⟨?_, fun _ => h.ready.optionals⟩, ?_⟩
    · simp [finish, h.ready.optionalToMatch]
    · simpa [replacement, finish, h.ready.optionalToMatch] using hsame
  | cons child children =>
    refine ⟨⟨h.seen.labels, h.seen.properties, h.seen.vars⟩, ⟨?_, ?_⟩, ?_⟩
    · simp [finish]
    · simp [finish]
    · simpa [replacement, finish, h.ready.optionals] using hsame

omit [DecidableEq C] in
/-- Without children that are left, the main pattern takes the place of the whole one. -/
theorem matched (h : ChildrenVisited G ancestors before op main optionals [] st) :
    Visited G ancestors before parentVars (.optional op optionals) (finish main false [] st) := by
  refine ⟨⟨h.seen.labels, h.seen.properties, h.seen.vars⟩, ⟨by simp [finish], by simp [finish]⟩, ?_⟩
  have hreplacement : replacement (finish main false [] st) = [.basic main] := by
    simp [replacement, finish, h.ready.optionals]
  rw [hreplacement]
  refine ⟨fun f hf _ => ?_, ?_, fun seen _ => ?_⟩
  · have hnil : {h | ∃ g ∈ f.attach (main.solutions G), h ∈ extendAll G [] g} =
        f.attach (main.solutions G) := by
      ext h
      simp [extendAll]
    rw [extendAll_singleton, extendAll_singleton, step, step, h.extensions f hf, hnil,
      GraphPattern.extensions]
  · rw [basicsAll_singleton, basicsAll_singleton]
    show varsOf (basics (.basic main)) ⊆ (GraphPattern.optional op optionals).vars
    rw [vars_optional]
    simp [basics, varsOf, h.vars]
  · exact ⟨by simp [GraphPattern.vars, basics, varsOf, root], trivial, trivial⟩

omit [DecidableEq C] in
/-- The pattern stays, with what is left of its main pattern and of its children. -/
theorem kept (h : ChildrenVisited G ancestors before op main optionals (child :: children) st)
    (hseen : ∀ x ∈ (GraphPattern.optional op optionals).vars, x ∈ varsOf before → x ∈ op.vars) :
    Visited G ancestors before parentVars (.optional op optionals)
      (finish main false (child :: children) st) := by
  refine ⟨⟨h.seen.labels, h.seen.properties, h.seen.vars⟩, ⟨?_, fun _ => h.ready.optionals⟩, ?_⟩
  · simp [finish, h.ready.moveChildrenUp, h.ready.optionalToMatch]
  have hreplacement : replacement (finish main false (child :: children) st) =
      [.optional main (child :: children)] := by
    simp [replacement, finish, h.ready.moveChildrenUp, h.ready.optionalToMatch, h.ready.deleteCurrent]
  have hsub : (GraphPattern.optional main (child :: children)).vars ⊆
      (GraphPattern.optional op optionals).vars := by
    rw [vars_optional, vars_optional, h.vars]
    exact Set.union_subset_union_right _ h.replaces.vars
  rw [hreplacement]
  refine ⟨fun f hf _ => ?_, ?_, fun seen hseen' => ⟨?_, ?_, trivial⟩⟩
  · rw [extendAll_singleton, extendAll_singleton, step, step, h.extensions f hf,
      GraphPattern.extensions]
  · rw [basicsAll_singleton, basicsAll_singleton]
    exact hsub
  · rintro x ⟨hx, hxp⟩
    exact h.vars ▸ hseen x (hsub hxp) (hseen' hx)
  · refine h.replaces.guarded _ ?_
    rw [mem_varsOf_append, h.vars]
    exact Set.union_subset_union hseen' (by simp [varsOf])

end ChildrenVisited

end

theorem visit_spec (p : GraphPattern C) :
    ∀ {ancestors before : List (BasicGraphPattern C)} {parentVars globalVars globalVars' : List String}
      {st : OptimizeOptionalTree C}, Visitable ancestors before globalVars st →
      HarmlessBelow ancestors before p → (∀ b ∈ p.basics, ∀ x ∈ b.vars, b.Mentions x) →
      checkWellDesigned parentVars globalVars p = some globalVars' →
        Visited G ancestors before parentVars p (visit p st) := by
  induction p using GraphPattern.induct with
  | basic op =>
    intro ancestors before parentVars globalVars globalVars' st hst hharmless hdeclared hcheck
    exact hst.visit_basic hharmless (hdeclared op (by simp [basics])) hcheck
  | optional op optionals ih =>
    intro ancestors before parentVars globalVars globalVars' st hst hharmless hdeclared hcheck
    obtain ⟨-, hseen, -⟩ := of_checkWellDesigned (.optional op optionals) hcheck
    have hbasics : (GraphPattern.optional op optionals).basics = op :: basicsAll optionals := by
      simp [basics]
    obtain ⟨hop, hchildren⟩ := hharmless
    simp only [checkWellDesigned] at hcheck
    cases hcheckop : checkBasic parentVars globalVars op with
    | none => simp [hcheckop] at hcheck
    | some globalVars₁ =>
      simp only [hcheckop] at hcheck
      have hvars₁ : ∀ x, x ∈ globalVars₁ ↔ ∃ b ∈ before ++ [op], x ∈ b.vars := by
        intro x
        have hx := Set.ext_iff.mp (of_checkWellDesigned (.basic op) hcheckop).1 x
        simp only [Set.mem_ofPred_eq, Set.mem_union, hst.vars] at hx
        rw [hx]
        simp [GraphPattern.vars, basics, varsOf, or_and_right, exists_or]
      have hseenop := hst.seen.visitBasic op
      have hst₁ : Visitable (op :: ancestors) (before ++ [op]) globalVars₁
          (visitBasic op st).2.clearFlags :=
        ⟨⟨hseenop.labels, hseenop.properties, hseenop.vars⟩, ⟨hst.ready.optionals, rfl, rfl, rfl⟩, hvars₁⟩
      have hall := (@visitAll_spec C _ G _ op.vars optionals
        fun p hp => ih p hp) hst₁ hchildren
        (fun b hb => hdeclared b (hbasics ▸ List.mem_cons_of_mem op hb)) hcheck
      have hcurrent : (visitBasic op st).2.deleteCurrent = (st.erased op).isEmpty := by
        simp [visitBasic, hst.ready.deleteCurrent]
      simp only [visit, hcurrent]
      generalize visitAll optionals (visitBasic op st).2.clearFlags = visited at hall
      obtain ⟨children, st₂⟩ := visited
      have hreplaces : Replaces G (op :: ancestors) (before ++ [op]) op.vars optionals children :=
        hall.replaces
      have hseen₂ : Seen st₂ (before ++ (GraphPattern.optional op optionals).basics) := by
        have hseen₂ := hall.seen
        rw [List.append_assoc, List.singleton_append, ← hbasics] at hseen₂
        exact hseen₂
      -- the children are extended for rows in which the main pattern holds
      have hextensions : ∀ f : Row, (∀ a ∈ ancestors, a.Holds G f) →
          extensions G (.optional op optionals) f =
            {h | ∃ g ∈ f.attach ((st.erased op).solutions G), h ∈ extendAll G children g} := by
        intro f hf
        rw [extensions, hst.seen.attach_erased hop hf]
        ext h
        refine exists_congr fun g => and_congr_right ?_
        rintro ⟨k, ⟨hkdom, hk⟩, hc, hg⟩
        have hkg : Extends k g := by
          intro x n hx
          rw [hg]
          exact hc.merge_right hx
        rw [hreplaces.same g ?_ (hkdom ▸ hkg.dom)]
        intro a ha
        rcases List.mem_cons.mp ha with rfl | ha
        · exact hk.extends hkg
        · exact (hf a ha).extends (hg ▸ extends_merge f k)
      have h : ChildrenVisited G ancestors before op (st.erased op) optionals children st₂ :=
        ⟨hall.ready, hseen₂, rfl, hreplaces, hextensions⟩
      cases hempty : (st.erased op).isEmpty with
      | true =>
        refine h.emptied fun f hf hdom => ?_
        have hattach := hst.seen.attach_empty (G := G) (f := f) hop hempty
          (hdeclared op (hbasics ▸ List.mem_cons_self)) fun x hx hxb =>
            hdom (hseen x (vars_optional op optionals ▸ .inl hx) ((hst.vars x).mpr hxb)).1
        have hext : extensions G (.optional op optionals) f = extendAll G children f := by
          rw [hextensions f hf, hattach]
          ext h
          simp
        rw [step_of_nonempty (hext ▸ extendAll_nonempty children f), hext]
      | false =>
        cases children with
        | nil => exact h.matched
        | cons child children =>
          exact h.kept fun x hx hxb => (hseen x hx ((hst.vars x).mpr hxb)).2

end

/-- The pass over a harmless well-designed pattern keeps its solutions on every graph. -/
theorem solutions_optimize (p : MatchPattern C) (h : p.pattern.Harmless) (G : QueryGraph C) :
    (optimize p.pattern).solutions G = p.pattern.solutions G := by
  obtain ⟨p, hdeclared, hdesigned⟩ := p
  obtain ⟨globalVars, hcheck⟩ := Option.isSome_iff_exists.mp hdesigned
  have hguarded : GraphPattern.Guarded ∅ p := by
    have hguarded := (GraphPattern.of_checkWellDesigned p hcheck).2.2
    simpa using hguarded
  cases p with
  | basic op =>
    have hoptimize : optimize (.basic op) = .basic op := by
      simp [optimize, visit, visitBasic, erased_new]
    rw [hoptimize]
  | optional op optionals =>
    obtain ⟨hempty, hchildren⟩ := h
    simp only [GraphPattern.checkWellDesigned] at hcheck
    cases hcheckop : GraphPattern.checkBasic [] [] op with
    | none => simp [hcheckop] at hcheck
    | some globalVars₁ =>
      simp only [hcheckop] at hcheck
      have hvars₁ : ∀ x, x ∈ globalVars₁ ↔ ∃ b ∈ [op], x ∈ b.vars := by
        intro x
        have hx := Set.ext_iff.mp (GraphPattern.of_checkWellDesigned (.basic op) hcheckop).1 x
        simpa [GraphPattern.vars, GraphPattern.basics, GraphPattern.varsOf] using hx
      have hseen : Seen (visitBasic op {}).2 ([] ++ [op]) :=
        Seen.visitBasic ⟨by simp, by simp, by simp⟩ op
      have hst₁ : Visitable [op] [op] globalVars₁ (visitBasic op {}).2.clearFlags :=
        ⟨⟨hseen.labels, hseen.properties, hseen.vars⟩, ⟨rfl, rfl, rfl, rfl⟩, hvars₁⟩
      have hall := (@visitAll_spec C _ G _ op.vars optionals
        fun p _ => visit_spec p) hst₁ hchildren
        (fun b hb => hdeclared b (by
          rw [GraphPattern.basics]
          exact List.mem_cons_of_mem op hb)) hcheck
      have hvisit : visit (.optional op optionals) {} =
          finish op false (visitAll optionals (visitBasic op {}).2.clearFlags).1
            (visitAll optionals (visitBasic op {}).2.clearFlags).2 := by
        simp [visit, visitBasic, erased_new, hempty]
      -- the main pattern is solved first, and then the children that are left
      have hextensions : GraphPattern.extensions G (.optional op optionals) (fun _ => none) =
          {h | ∃ g ∈ Mapping.attach (fun _ => none) (op.solutions G),
            h ∈ GraphPattern.extendAll G (visitAll optionals (visitBasic op {}).2.clearFlags).1 g} := by
        rw [GraphPattern.extensions]
        ext h
        refine exists_congr fun g => and_congr_right ?_
        rintro ⟨k, ⟨hkdom, hk⟩, -, hg⟩
        have hkg : g = k := by
          rw [hg]
          funext x
          rfl
        rw [hall.replaces.same g ?_ (by rw [hkg, hkdom])]
        intro a ha
        rw [List.mem_singleton.mp ha, hkg]
        exact hk
      have hguarded' := hall.replaces.guarded {x | x ∈ op.vars} (by simp [GraphPattern.varsOf])
      rw [GraphPattern.solutions_eq_extensions hguarded, hextensions, optimize, hvisit]
      have hready := hall.ready
      revert hguarded' hready
      generalize visitAll optionals (visitBasic op {}).2.clearFlags = children
      obtain ⟨children, st⟩ := children
      intro hguarded' hready
      have hoptionals : st.optionals = [] := hready.optionals
      have hto : st.optionalToMatch = false := hready.optionalToMatch
      cases children with
      | nil =>
        have hfinish : finish op false [] st = (.optional op [], { st with
            moveChildrenUp := false, deleteCurrent := false, optionalToMatch := true
            optionals := [.basic op] }) := by simp [finish, hoptionals]
        simp only [hfinish, if_true, List.headD]
        rw [GraphPattern.solutions_eq_extensions (p := .basic op) trivial, GraphPattern.extensions]
        ext h
        simp [GraphPattern.extendAll]
      | cons child children =>
        have hfinish : finish op false (child :: children) st =
            (.optional op (child :: children), st) := by simp [finish]
        have hguarded'' : GraphPattern.Guarded ∅ (.optional op (child :: children)) := by
          rw [GraphPattern.Guarded, Set.empty_union]
          exact hguarded'
        simp only [hfinish, hto]
        rw [if_neg Bool.false_ne_true, GraphPattern.solutions_eq_extensions hguarded'',
          GraphPattern.extensions]

/-- `(?x)-[?e :?t]->(?y)`, with the labels of `?x`. -/
def edgeFrom (labels : List String) (h : labels.Nodup) : BasicGraphPattern Nat where
  labels := labels.map fun l => ⟨.var "?x", l⟩
  properties := []
  edges := [⟨.var "?x", .var "?y", .var "?t", .var "?e"⟩]
  paths := []
  isolatedVars := []
  isolatedTerms := []
  vars := ["?x", "?y", "?t", "?e"]
  labels_nodup := h.map fun _ _ h => (OpLabel.mk.injEq ..).mp h |>.2
  properties_unique := .nil
  label_vars := by simp [OpLabel.vars, QueryElement.vars]
  property_vars := by simp
  edge_vars := by simp [OpEdge.vars, QueryElement.vars]
  path_vars := by simp
  isolated_vars := by simp

/-- `(?x :L)` with isolated terms. -/
def labelsAndTerms (labels : List String) (terms : List Nat) (h : labels.Nodup) : BasicGraphPattern Nat where
  labels := labels.map fun l => ⟨.var "?x", l⟩
  properties := []
  edges := []
  paths := []
  isolatedVars := []
  isolatedTerms := terms
  vars := labels.map fun _ => "?x"
  labels_nodup := h.map fun _ _ h => (OpLabel.mk.injEq ..).mp h |>.2
  properties_unique := .nil
  label_vars := by
    intro l hl x hx
    obtain ⟨name, hname, rfl⟩ := List.mem_map.mp hl
    rw [List.mem_singleton.mp hx]
    exact List.mem_map.mpr ⟨name, hname, rfl⟩
  property_vars := by simp
  edge_vars := by simp
  path_vars := by simp
  isolated_vars := by simp

/-- `(?x :L) OPTIONAL { (?x :L)-[?e :?t]->(?y) }`. -/
def repeatedLabel : MatchPattern Nat where
  pattern := .optional (labelsAndTerms ["L"] [] (by decide)) [.basic (edgeFrom ["L"] (by decide))]
  declared := by
    simp [GraphPattern.basics, GraphPattern.basicsAll, labelsAndTerms, edgeFrom,
      BasicGraphPattern.Mentions, OpLabel.vars, OpEdge.vars, QueryElement.vars]
  wellDesigned := by decide

def oneEdge : QueryGraph Nat where
  objectId := id
  object n := n ∈ [1, 2, 3, 4, 5]
  label _ _ := False
  property _ _ _ := False
  edge source target type id := source = 1 ∧ target = 2 ∧ type = 3 ∧ id = 4
  path _ _ _ _ _ := False
  label_object h := h.elim
  property_object h := h.elim
  edge_objects := by
    intro _ _ _ _ ⟨hs, ht, hy, hi⟩
    simp [hs, ht, hy, hi]
  path_objects h := h.elim

theorem solutions_optimize_repeatedLabel :
    (optimize repeatedLabel.pattern).solutions oneEdge = repeatedLabel.pattern.solutions oneEdge := by
  refine solutions_optimize repeatedLabel ⟨rfl, ⟨?_, ?_, ?_, ?_⟩, trivial⟩ oneEdge <;>
    simp [labelsAndTerms, edgeFrom]

/-- `(Q5) OPTIONAL { (?x)-[?e :?t]->(?y) }`. -/
def termAlone : MatchPattern Nat where
  pattern := .optional (labelsAndTerms [] [5] (by decide)) [.basic (edgeFrom [] (by decide))]
  declared := by
    simp [GraphPattern.basics, GraphPattern.basicsAll, labelsAndTerms, edgeFrom,
      BasicGraphPattern.Mentions, OpEdge.vars, QueryElement.vars]
  wellDesigned := by decide

/-- The main pattern has an isolated term alone: it counts as empty, its optional pattern is
moved up, and at the root there is nothing to move it to. -/
theorem not_solutions_optimize : ¬ ∀ (p : MatchPattern Nat) (G : QueryGraph Nat),
    (optimize p.pattern).solutions G = p.pattern.solutions G := by
  intro h
  have hlost : optimize termAlone.pattern = .optional (labelsAndTerms [] [5] (by decide)) [] := rfl
  have hsolutions := h termAlone oneEdge
  rw [hlost] at hsolutions
  let row : Row := fun x =>
    if x = "?x" then some 1 else if x = "?y" then some 2 else if x = "?t" then some 3
    else if x = "?e" then some 4 else none
  have hdom : row.dom = {x | x ∈ (edgeFrom [] (by decide)).vars} := by
    ext x
    simp only [row, Mapping.dom, edgeFrom, Set.mem_ofPred_eq, List.mem_cons, List.not_mem_nil, or_false]
    split_ifs <;> simp_all
  have hedge : row ∈ (edgeFrom [] (by decide)).solutions oneEdge := by
    refine ⟨hdom, ⟨by simp [edgeFrom], by simp [edgeFrom], ?_, by simp [edgeFrom], by simp [edgeFrom],
      by simp [edgeFrom]⟩⟩
    intro e he
    rw [List.mem_singleton.mp he]
    exact ⟨1, 2, 3, 4, rfl, rfl, rfl, rfl, rfl, rfl, rfl, rfl⟩
  have hmain : (fun _ => none : Row) ∈ (labelsAndTerms [] [5] (by decide)).solutions oneEdge := by
    refine ⟨by simp [Mapping.dom, labelsAndTerms], ⟨by simp [labelsAndTerms], by simp [labelsAndTerms],
      by simp [labelsAndTerms], by simp [labelsAndTerms], by simp [labelsAndTerms], ?_⟩⟩
    simp [labelsAndTerms, oneEdge]
  have hrow : row ∈ termAlone.pattern.solutions oneEdge := by
    simp only [termAlone, GraphPattern.solutions, GraphPattern.joinAll]
    exact ⟨_, hmain, .inl ⟨row, hedge, fun _ _ _ hnone => by simp at hnone, rfl⟩⟩
  rw [← hsolutions] at hrow
  simp only [GraphPattern.solutions, GraphPattern.joinAll] at hrow
  have hx : "?x" ∈ row.dom := Mapping.mem_dom.mpr ⟨1, rfl⟩
  rw [hrow.1] at hx
  simp [labelsAndTerms] at hx

end OptimizeOptionalTree

end Match
end MillenniumDB
