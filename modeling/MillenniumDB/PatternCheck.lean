import MillenniumDB.PatternVisitor

/-!
# The check for well-designed patterns

What the visitor makes of a pattern: a basic pattern has the variables written in it, the
anonymous variables, the variables of the properties of its elements, and the variables that
stood alone in it or in a basic pattern before it.  The check is exact for the variables that
the visitor collects; so the parser is right when those are well designed exactly when the
variables as written are.
-/

namespace MillenniumDB
namespace Parser

/-- What a part of a basic pattern contributes: variables, variables that may be isolated,
properties, the texts that are read and the bounds of paths. -/
structure Contribution where
  vars : List Var
  possible : List Var
  properties : List (Element × Property)
  elements : List Element
  bounds : List Nat

namespace Contribution

def nothing : Contribution := ⟨[], [], [], [], []⟩

def append (k k' : Contribution) : Contribution :=
  ⟨k.vars ++ k'.vars, k.possible ++ k'.possible, k.properties ++ k'.properties,
    k.elements ++ k'.elements, k.bounds ++ k'.bounds⟩

instance : Append Contribution := ⟨append⟩

def ofVars (vs : List Var) : Contribution := ⟨vs, [], [], [], []⟩

def ofElement (e : Element) : Contribution := ⟨[], [], [], [e], []⟩

def ofBounds (ns : List Nat) : Contribution := ⟨[], [], [], [], ns⟩

variable {k k' : Contribution}

@[simp] theorem nothing_append : nothing ++ k = k := by
  cases k
  rfl

@[simp] theorem append_nothing : k ++ nothing = k := by
  cases k
  show Contribution.mk _ _ _ _ _ = _
  simp [nothing]

@[simp] theorem vars_append : (k ++ k').vars = k.vars ++ k'.vars := rfl
@[simp] theorem possible_append : (k ++ k').possible = k.possible ++ k'.possible := rfl
@[simp] theorem properties_append : (k ++ k').properties = k.properties ++ k'.properties := rfl
@[simp] theorem elements_append : (k ++ k').elements = k.elements ++ k'.elements := rfl
@[simp] theorem bounds_append : (k ++ k').bounds = k.bounds ++ k'.bounds := rfl

end Contribution

/-- Two properties that `add_property` accepts together. -/
def OpProperty.Agrees {R : Type} (p q : OpProperty R) : Prop :=
  p.node = q.node → p.key = q.key → p.value = q.value

theorem OpProperty.Agrees.symm {R : Type} {p q : OpProperty R} (h : p.Agrees q) : q.Agrees p :=
  fun hnode hkey => (h hnode.symm hkey.symm).symm

/-- The properties of a basic pattern have one value for each node and key, and their variables
are among those of the pattern. -/
structure Sound {R : Type} (op : OpBasicGraphPattern R) : Prop where
  agrees : ∀ p ∈ op.properties, ∀ q ∈ op.properties, p.Agrees q
  covers : ∀ p ∈ op.properties, ∀ x ∈ p.node.vars, .element x ∈ op.vars ∧ .property x p.key ∈ op.vars

section

variable {R : Type} (stof : String → Option R)

/-- A property as `OpProperty` reads it. -/
def readProperty (p : Element × Property) : Option (OpProperty R) :=
  match deduce stof p.1, deduce stof (.term p.2.value) with
  | .ok node, .ok value => some ⟨node, p.2.key, value⟩
  | _, _ => none

def Contribution.read (k : Contribution) : List (OpProperty R) :=
  k.properties.filterMap (readProperty stof)

/-- A contribution can be added: its numbers are in range, and no key of an element has two
values. -/
structure Contribution.Fits (k : Contribution) (ps : List (OpProperty R)) : Prop where
  elements : ∀ e ∈ k.elements, (deduce stof e).isOk
  bounds : ∀ n ∈ k.bounds, n < 2 ^ 64
  agrees : ∀ p, p ∈ ps ∨ p ∈ k.read stof → ∀ q ∈ k.read stof, p.Agrees q

structure Contribution.AddsTo (k : Contribution) (op op' : OpBasicGraphPattern R) : Prop where
  vars : ∀ v, v ∈ op'.vars ↔ v ∈ op.vars ∨ v ∈ k.vars
  properties : ∀ p, p ∈ op'.properties ↔ p ∈ op.properties ∨ p ∈ k.read stof

end

section fits

variable {R : Type} {stof : String → Option R} {k k' : Contribution} {ps ps' : List (OpProperty R)}
  {op op' op'' : OpBasicGraphPattern R}

@[simp] theorem Contribution.read_append : (k ++ k').read stof = k.read stof ++ k'.read stof := by
  simp [Contribution.read]

theorem Contribution.fits_append (hps : ∀ p, p ∈ ps' ↔ p ∈ ps ∨ p ∈ k.read stof) :
    (k ++ k').Fits stof ps ↔ k.Fits stof ps ∧ k'.Fits stof ps' := by
  constructor
  · intro h
    refine ⟨⟨fun e he => h.elements e (by simp [he]), fun n hn => h.bounds n (by simp [hn]),
      fun p hp q hq => h.agrees p ?_ q (by simp [hq])⟩,
      ⟨fun e he => h.elements e (by simp [he]), fun n hn => h.bounds n (by simp [hn]),
      fun p hp q hq => h.agrees p ?_ q (by simp [hq])⟩⟩
    · rw [read_append, List.mem_append]
      tauto
    · rw [read_append, List.mem_append]
      rw [hps] at hp
      tauto
  · intro ⟨h, h'⟩
    refine ⟨fun e he => ?_, fun n hn => ?_, fun p hp q hq => ?_⟩
    · rw [elements_append, List.mem_append] at he
      exact he.elim (h.elements e) (h'.elements e)
    · rw [bounds_append, List.mem_append] at hn
      exact hn.elim (h.bounds n) (h'.bounds n)
    · rw [read_append, List.mem_append] at hp hq
      rcases hq with hq | hq
      · rcases hp with hp | hp | hp
        · exact h.agrees p (.inl hp) q hq
        · exact h.agrees p (.inr hp) q hq
        · exact (h'.agrees q (.inl ((hps q).mpr (.inr hq))) p hp).symm
      · rcases hp with hp | hp | hp
        · exact h'.agrees p (.inl ((hps p).mpr (.inl hp))) q hq
        · exact h'.agrees p (.inl ((hps p).mpr (.inr hp))) q hq
        · exact h'.agrees p (.inr hp) q hq

theorem Contribution.fits_ofElement {e : Element} :
    (ofElement e ++ k).Fits stof ps ↔ (deduce stof e).isOk ∧ k.Fits stof ps := by
  rw [fits_append fun p => show p ∈ ps ↔ _ by simp [ofElement, read]]
  refine and_congr_left fun _ => ⟨fun h => h.elements e (by simp [ofElement]), fun h => ?_⟩
  exact ⟨by simpa [ofElement] using h, by simp [ofElement], by simp [ofElement, read]⟩

theorem Contribution.fits_ofBounds {ns : List Nat} :
    (ofBounds ns ++ k).Fits stof ps ↔ (∀ n ∈ ns, n < 2 ^ 64) ∧ k.Fits stof ps := by
  rw [fits_append fun p => show p ∈ ps ↔ _ by simp [ofBounds, read]]
  refine and_congr_left fun _ => ⟨fun h => h.bounds, fun h => ?_⟩
  exact ⟨by simp [ofBounds], h, by simp [ofBounds, read]⟩

theorem Contribution.fits_ofVars {vs : List Var} : (ofVars vs).Fits stof ps :=
  ⟨by simp [ofVars], by simp [ofVars], by simp [ofVars, read]⟩

theorem Contribution.AddsTo.sound (h : k.AddsTo stof op op') (hfits : k.Fits stof op.properties)
    (hop : Sound op)
    (hread : ∀ p ∈ k.read stof, ∀ x ∈ p.node.vars, .element x ∈ op'.vars ∧
      .property x p.key ∈ op'.vars) : Sound op' where
  agrees p hp q hq := by
    rw [h.properties] at hp hq
    rcases hq with hq | hq
    · rcases hp with hp | hp
      · exact hop.agrees p hp q hq
      · exact (hfits.agrees q (.inl hq) p hp).symm
    · exact hfits.agrees p hp q hq
  covers p hp x hx := by
    rcases (h.properties p).mp hp with hp | hp
    · obtain ⟨helement, hproperty⟩ := hop.covers p hp x hx
      exact ⟨(h.vars _).mpr (.inl helement), (h.vars _).mpr (.inl hproperty)⟩
    · exact hread p hp x hx

theorem Contribution.AddsTo.trans (h : k.AddsTo stof op op') (h' : k'.AddsTo stof op' op'') :
    (k ++ k').AddsTo stof op op'' where
  vars v := by rw [h'.vars, h.vars, vars_append, List.mem_append, or_assoc]
  properties p := by rw [h'.properties, h.properties, read_append, List.mem_append, or_assoc]

end fits

/-- A change of a basic pattern adds a contribution, or throws when that does not fit. -/
structure PatternMeets {R : Type} (stof : String → Option R)
    (f : OpBasicGraphPattern R → Except (QueryException R) (OpBasicGraphPattern R))
    (k : Contribution) : Prop where
  possible : k.possible = []
  ok : ∀ op, Sound op → k.Fits stof op.properties →
    ∃ op', f op = .ok op' ∧ k.AddsTo stof op op' ∧ Sound op'
  error : ∀ op, Sound op → ¬ k.Fits stof op.properties → ∃ e, f op = .error e

def Element.vars : Element → List ElementVar
  | .var x => [x]
  | .term _ => []

section pattern

variable {R : Type} {stof : String → Option R} {k : Contribution}

theorem vars_of_deduce {e : Element} {q : QueryElement R} (h : deduce stof e = .ok q) :
    q.vars = e.vars := by
  cases e with
  | var x =>
    cases h
    rfl
  | term t =>
    cases t with
    | word text =>
      cases h
      simp only [Element.vars]
      split_ifs <;> rfl
    | anonId n =>
      simp only [deduce, stoi] at h
      split at h <;> cases h
      rfl
    | edgeId n =>
      simp only [deduce, stoi] at h
      split at h <;> cases h
      rfl
    | string text =>
      cases h
      rfl
    | integer value =>
      simp only [deduce, stol] at h
      split at h <;> cases h
      rfl
    | float text =>
      simp only [deduce] at h
      split at h <;> cases h
      rfl

theorem PatternMeets.deduce {e : Element}
    {g : QueryElement R → OpBasicGraphPattern R →
      Except (QueryException R) (OpBasicGraphPattern R)}
    (h : ∀ q, Parser.deduce stof e = .ok q → PatternMeets stof (g q) k)
    (hk : k.possible = []) :
    PatternMeets stof (fun op => Parser.deduce stof e >>= fun q => g q op)
      (.ofElement e ++ k) := by
  refine ⟨hk, fun op hop hfits => ?_, fun op hop hfits => ?_⟩
  · rw [Contribution.fits_ofElement] at hfits
    cases hq : Parser.deduce stof e with
    | error err =>
      rw [hq] at hfits
      exact absurd hfits.1 (by simp [Except.isOk, Except.toBool])
    | ok q =>
      obtain ⟨op', hop', hadds, hsound⟩ := (h q hq).ok op hop hfits.2
      exact ⟨op', hop', ⟨hadds.vars, hadds.properties⟩, hsound⟩
  · rw [Contribution.fits_ofElement, not_and] at hfits
    cases hq : Parser.deduce stof e with
    | error err => exact ⟨err, rfl⟩
    | ok q => exact (h q hq).error op hop (hfits (by rw [hq]; rfl))

theorem PatternMeets.vars {g : OpBasicGraphPattern R → OpBasicGraphPattern R} {vs : List Var}
    (hvars : ∀ op v, v ∈ (g op).vars ↔ v ∈ op.vars ∨ v ∈ vs)
    (hproperties : ∀ op, (g op).properties = op.properties) :
    PatternMeets stof (fun op => .ok (g op)) (.ofVars vs) where
  possible := rfl
  ok op hop hfits := by
    have hadds : (Contribution.ofVars vs).AddsTo stof op (g op) :=
      ⟨hvars op, fun p => by simp [hproperties, Contribution.ofVars, Contribution.read]⟩
    exact ⟨g op, rfl, hadds, hadds.sound hfits hop (by simp [Contribution.ofVars,
      Contribution.read])⟩
  error _ _ h := absurd Contribution.fits_ofVars h

theorem mem_insertVars [DecidableEq R] {vs : List Var} {op : OpBasicGraphPattern R} {v : Var} :
    v ∈ (op.insertVars vs).vars ↔ v ∈ op.vars ∨ v ∈ vs := by
  simp [OpBasicGraphPattern.insertVars, or_comm]

/-- The variables that `OpProperty::get_vars` has for an element. -/
def propertyVars (id : Element) (key : String) : List Var :=
  id.vars.flatMap fun x => [.element x, .property x key]

def Contribution.ofProperty (id : Element) (p : Property) : Contribution :=
  ⟨propertyVars id p.key, [], [(id, p)], [], []⟩

variable [DecidableEq R]

/-- `add_property`, when the element and the value were read. -/
theorem PatternMeets.property {id : Element} {p : Property} {node value : QueryElement R}
    (hnode : Parser.deduce stof id = .ok node)
    (hvalue : Parser.deduce stof (.term p.value) = .ok value) :
    PatternMeets stof (fun op => op.addProperty ⟨node, p.key, value⟩) (.ofProperty id p) := by
  have hread : (Contribution.ofProperty id p).read stof = [⟨node, p.key, value⟩] := by
    simp [Contribution.ofProperty, Contribution.read, readProperty, hnode, hvalue]
  have hfits : ∀ op : OpBasicGraphPattern R,
      (Contribution.ofProperty id p).Fits stof op.properties ↔
        ∀ q ∈ op.properties, q.node = node → q.key = p.key → q.value = value := by
    intro op
    constructor
    · intro h q hq
      exact h.agrees q (.inl hq) ⟨node, p.key, value⟩ (by simp [hread])
    · intro h
      refine ⟨by simp [Contribution.ofProperty], by simp [Contribution.ofProperty],
        fun q hq q' hq' => ?_⟩
      rw [hread, List.mem_singleton] at hq'
      subst hq'
      rcases hq with hq | hq
      · exact h q hq
      · rw [hread, List.mem_singleton] at hq
        subst hq
        exact fun _ _ => rfl
  have hvars : ∀ v, v ∈ propertyVars id p.key ↔
      ∃ x ∈ node.vars, v = .element x ∨ v = .property x p.key := by
    intro v
    simp [propertyVars, vars_of_deduce hnode]
  refine ⟨rfl, fun op hop h => ?_, fun op hop h => ?_⟩
  · have hagree := (hfits op).mp h
    cases hfind : op.properties.find? fun q => q.node = node ∧ q.key = p.key with
    | some old =>
      -- the property was there, and so were its variables
      have hmem := List.mem_of_find?_eq_some hfind
      have hold := List.find?_some hfind
      rw [decide_eq_true_eq] at hold
      have hval := hagree old hmem hold.1 hold.2
      have heq : old = ⟨node, p.key, value⟩ := by
        rw [← hold.1, ← hold.2, ← hval]
      rw [heq] at hmem
      have hadds : (Contribution.ofProperty id p).AddsTo stof op op := by
        refine ⟨fun v => (or_iff_left_of_imp fun hv => ?_).symm,
          fun q => (or_iff_left_of_imp fun hq => ?_).symm⟩
        · obtain ⟨x, hx, rfl | rfl⟩ := (hvars v).mp hv
          · exact (hop.covers _ hmem x hx).1
          · exact (hop.covers _ hmem x hx).2
        · rw [hread, List.mem_singleton] at hq
          exact hq ▸ hmem
      refine ⟨op, ?_, hadds, hop⟩
      simp only [OpBasicGraphPattern.addProperty, hfind]
      rw [if_neg (not_not.mpr hval)]
    | none =>
      have hadds : (Contribution.ofProperty id p).AddsTo stof op
          { op.insertVars (node.vars.flatMap fun x => [.element x, .property x p.key]) with
            properties := ⟨node, p.key, value⟩ :: op.properties } := by
        refine ⟨fun v => ?_, fun q => ?_⟩
        · rw [vars_of_deduce hnode]
          exact mem_insertVars
        · rw [hread, List.mem_cons, List.mem_singleton, or_comm]
      refine ⟨_, by simp only [OpBasicGraphPattern.addProperty, hfind], hadds,
        hadds.sound h hop fun q hq x hx => ?_⟩
      rw [hread, List.mem_singleton] at hq
      subst hq
      exact ⟨(hadds.vars _).mpr (.inr ((hvars _).mpr ⟨x, hx, .inl rfl⟩)),
        (hadds.vars _).mpr (.inr ((hvars _).mpr ⟨x, hx, .inr rfl⟩))⟩
  · rw [hfits] at h
    push Not at h
    obtain ⟨q, hq, hqnode, hqkey, hqvalue⟩ := h
    cases hfind : op.properties.find? fun q => q.node = node ∧ q.key = p.key with
    | some old =>
      have hmem := List.mem_of_find?_eq_some hfind
      have hold := List.find?_some hfind
      rw [decide_eq_true_eq] at hold
      have hval : old.value ≠ value := by
        rw [hop.agrees old hmem q hq (hold.1.trans hqnode.symm) (hold.2.trans hqkey.symm)]
        exact hqvalue
      refine ⟨.differentValues node p.key, ?_⟩
      simp only [OpBasicGraphPattern.addProperty, hfind]
      rw [if_pos hval]
    | none =>
      exact absurd (List.find?_eq_none.mp hfind q hq) (by simp [hqnode, hqkey])

end pattern

/-- From the counter `c` an action returns `a` and leaves the counter `c'`, and it adds a
contribution, or throws when that does not fit. -/
structure Meets {R α : Type} (stof : String → Option R) (m : Visit R α) (c : Nat) (a : α) (c' : Nat)
    (k : Contribution) : Prop where
  ok : ∀ s : QueryVisitor R, s.anonVarCounter = c → Sound s.currentBasicGraphPattern →
    k.Fits stof s.currentBasicGraphPattern.properties → ∃ s', m s = .ok (a, s') ∧
      s'.anonVarCounter = c' ∧ Sound s'.currentBasicGraphPattern ∧
      k.AddsTo stof s.currentBasicGraphPattern s'.currentBasicGraphPattern ∧
      ∀ v, v ∈ s'.possibleIsolatedVars ↔ v ∈ s.possibleIsolatedVars ∨ v ∈ k.possible
  error : ∀ s : QueryVisitor R, s.anonVarCounter = c → Sound s.currentBasicGraphPattern →
    ¬ k.Fits stof s.currentBasicGraphPattern.properties → ∃ e, m s = .error e

section visit

variable {R α β : Type} {stof : String → Option R} {k k' : Contribution} {c c' c'' : Nat}
  {m : Visit R α} {f : α → Visit R β} {a : α} {b : β}

theorem Meets.bind (h : Meets stof m c a c' k) (h' : Meets stof (f a) c' b c'' k') :
    Meets stof (m >>= f) c b c'' (k ++ k') := by
  constructor
  · intro s hs hsound hfits
    by_cases hk : k.Fits stof s.currentBasicGraphPattern.properties
    · obtain ⟨s', hm, hs', hsound', hadds, hpossible⟩ := h.ok s hs hsound hk
      rw [Contribution.fits_append hadds.properties] at hfits
      obtain ⟨s'', hf, hs'', hsound'', hadds', hpossible'⟩ := h'.ok s' hs' hsound' hfits.2
      refine ⟨s'', ?_, hs'', hsound'', hadds.trans hadds', fun v => ?_⟩
      · show (m s >>= fun p => f p.1 p.2) = _
        rw [hm]
        exact hf
      · rw [hpossible', hpossible, Contribution.possible_append, List.mem_append, or_assoc]
    · -- the first part fits when the whole does
      have hread : ∀ p, p ∈ s.currentBasicGraphPattern.properties ++ k.read stof ↔
          p ∈ s.currentBasicGraphPattern.properties ∨ p ∈ k.read stof := fun _ => List.mem_append
      exact absurd ((Contribution.fits_append hread).mp hfits).1 hk
  · intro s hs hsound hfits
    by_cases hk : k.Fits stof s.currentBasicGraphPattern.properties
    · obtain ⟨s', hm, hs', hsound', hadds, hpossible⟩ := h.ok s hs hsound hk
      rw [Contribution.fits_append hadds.properties, not_and] at hfits
      obtain ⟨e, he⟩ := h'.error s' hs' hsound' (hfits hk)
      refine ⟨e, ?_⟩
      show (m s >>= fun p => f p.1 p.2) = _
      rw [hm]
      exact he
    · obtain ⟨e, he⟩ := h.error s hs hsound hk
      refine ⟨e, ?_⟩
      show (m s >>= fun p => f p.1 p.2) = _
      rw [he]
      rfl

theorem fits_nothing {ps : List (OpProperty R)} : Contribution.nothing.Fits stof ps :=
  ⟨by simp [Contribution.nothing], by simp [Contribution.nothing],
    by simp [Contribution.nothing, Contribution.read]⟩

theorem addsTo_nothing {op : OpBasicGraphPattern R} : Contribution.nothing.AddsTo stof op op :=
  ⟨by simp [Contribution.nothing], by simp [Contribution.nothing, Contribution.read]⟩

theorem Meets.pure : Meets stof (Pure.pure a : Visit R α) c a c .nothing where
  ok s hs hsound _ := ⟨s, rfl, hs, hsound, addsTo_nothing, by simp [Contribution.nothing]⟩
  error _ _ _ h := absurd fits_nothing h

theorem Meets.of_eq (h : Meets stof m c a c' k) (hk : k = k') : Meets stof m c a c' k' := hk ▸ h

theorem Meets.bind_pure (h : Meets stof m c a c' k) (g : α → β) :
    Meets stof (m >>= fun a => Pure.pure (g a)) c (g a) c' k :=
  (h.bind (f := fun a => Pure.pure (g a)) .pure).of_eq Contribution.append_nothing

theorem Meets.anonVar : Meets stof QueryVisitor.anonVar c (.anon c) (c + 1) .nothing where
  ok s hs hsound _ := by
    subst hs
    exact ⟨_, rfl, rfl, hsound, addsTo_nothing, by simp [Contribution.nothing]⟩
  error _ _ _ h := absurd fits_nothing h

theorem Meets.lift {x : Except (QueryException R) α} {ns : List Nat}
    (hx : (∃ a, x = .ok a) ↔ ∀ n ∈ ns, n < 2 ^ 64)
    (h : ∀ a, x = .ok a → Meets stof (f a) c b c' k) :
    Meets stof (liftM x >>= f) c b c' (.ofBounds ns ++ k) := by
  constructor
  · intro s hs hsound hfits
    rw [Contribution.fits_ofBounds] at hfits
    obtain ⟨a, ha⟩ := hx.mpr hfits.1
    obtain ⟨s', hf, hs', hsound', hadds, hpossible⟩ := (h a ha).ok s hs hsound hfits.2
    refine ⟨s', ?_, hs', hsound', ⟨hadds.vars, hadds.properties⟩, hpossible⟩
    subst ha
    exact hf
  · intro s hs hsound hfits
    rw [Contribution.fits_ofBounds, not_and] at hfits
    cases hcases : x with
    | error e => exact ⟨e, rfl⟩
    | ok a => exact (h a hcases).error s hs hsound (hfits (hx.mp ⟨a, hcases⟩))

theorem PatternMeets.meets {g : OpBasicGraphPattern R →
    Except (QueryException R) (OpBasicGraphPattern R)} (h : PatternMeets stof g k) :
    Meets stof (QueryVisitor.modifyPattern g) c () c k where
  ok s hs hsound hfits := by
    obtain ⟨op', hop', hadds, hsound'⟩ := h.ok _ hsound hfits
    refine ⟨{ s with currentBasicGraphPattern := op' }, ?_, hs, hsound', hadds, ?_⟩
    · simp only [QueryVisitor.modifyPattern, hop']
    · simp [h.possible]
  error s hs hsound hfits := by
    obtain ⟨e, he⟩ := h.error _ hsound hfits
    exact ⟨e, by simp only [QueryVisitor.modifyPattern, he]⟩

end visit

def elementVars (es : List Element) : List Var := (es.flatMap Element.vars).map .element

namespace Contribution

def ofLabels (id : Element) : List String → Contribution
  | [] => nothing
  | _ :: labels => (ofElement id ++ ofVars (elementVars [id])) ++ ofLabels id labels

def ofProperties (id : Element) : List Property → Contribution
  | [] => nothing
  | p :: ps => (ofElement id ++ (ofElement (.term p.value) ++ ofProperty id p)) ++ ofProperties id ps

def ofIsolated (name : Option VarName) (id : ElementVar) : Contribution :=
  match name with
  | some x => ⟨[], [.element (.named x)], [], [], []⟩
  | none => ofVars [.element id]

def ofEdge (source target type edge : Element) : Contribution :=
  ofElement source ++ (ofElement target ++ (ofElement type ++ (ofElement edge ++
    ofVars (elementVars [source, target, type, edge]))))

def ofPath (x : ElementVar) (source target : Element) : Contribution :=
  ofElement source ++ (ofElement target ++ ofVars (elementVars [source, target, .var x]))

end Contribution

/-- The variable of a node or of a path, with the anonymous variable `c`. -/
def varOf (c : Nat) : Option VarName → ElementVar
  | some x => .named x
  | none => .anon c

def nextVar {α : Type} (c : Nat) : Option α → Nat
  | some _ => c
  | none => c + 1

/-- What `visitNode` returns from the counter `c`. -/
def Node.element (c : Nat) : Node → Element
  | .fixed t => .term t
  | .var name _ _ => .var (varOf c name)

def Node.next (c : Nat) : Node → Nat
  | .fixed _ => c
  | .var name _ _ => nextVar c name

def Node.contribution (isolated : Bool) (c : Nat) : Node → Contribution
  | .fixed t => if isolated then .ofElement (.term t) ++ .ofVars [] else .nothing
  | .var name types properties =>
    (if isolated ∧ types.isEmpty ∧ properties.isEmpty then .ofIsolated name (varOf c name)
      else .nothing) ++
      (.ofLabels (.var (varOf c name)) types ++ .ofProperties (.var (varOf c name)) properties)

def EdgeId.element (c : Nat) : Option EdgeId → Element
  | some (.var x) => .var (.named x)
  | some (.id n) => .term (.edgeId n)
  | none => .var (.anon c)

def EdgeType.element (c : Nat) : Option EdgeType → Element
  | some (.var x) => .var (.named x)
  | some (.type name) => .term (.word name)
  | none => .var (.anon c)

def insideOf (inside : Option EdgeInside) : EdgeInside := inside.getD ⟨none, none, []⟩

def suffixBounds : Option PathSuffix → List Nat
  | some (.range min max) => [min, max]
  | _ => []

mutual

def PathAtom.bounds : PathAtom → List Nat
  | .simple _ _ suffix => suffixBounds suffix
  | .alternatives _ alternatives suffix => boundsOfSequences alternatives ++ suffixBounds suffix

def boundsOfSequences : List (List PathAtom) → List Nat
  | [] => []
  | atoms :: rest => boundsOfAtoms atoms ++ boundsOfSequences rest

def boundsOfAtoms : List PathAtom → List Nat
  | [] => []
  | atom :: atoms => atom.bounds ++ boundsOfAtoms atoms

end

def Link.next (c : Nat) : Link → Nat
  | .edge _ inside => nextVar (nextVar c (insideOf inside).id) (insideOf inside).type
  | .path _ _ var _ => nextVar c var

def Link.contribution (saved last : Element) (c : Nat) : Link → Contribution
  | .edge right inside =>
    let edge := EdgeId.element c (insideOf inside).id
    let type := EdgeType.element (nextVar c (insideOf inside).id) (insideOf inside).type
    .ofProperties edge (insideOf inside).properties ++
      if right then .ofEdge saved last type edge else .ofEdge last saved type edge
  | .path right _ var alternatives =>
    .ofBounds (boundsOfSequences alternatives) ++
      if right then .ofPath (varOf c var) saved last else .ofPath (varOf c var) last saved

def nextLinks (c : Nat) : List (Link × Node) → Nat
  | [] => c
  | (link, node) :: rest => nextLinks (link.next (node.next c)) rest

def linksContribution (saved : Element) (c : Nat) : List (Link × Node) → Contribution
  | [] => .nothing
  | (link, node) :: rest =>
    node.contribution false c ++ (link.contribution saved (node.element c) (node.next c) ++
      linksContribution (node.element c) (link.next (node.next c)) rest)

def LinearPattern.next (c : Nat) (p : LinearPattern) : Nat := nextLinks (p.first.next c) p.rest

def LinearPattern.contribution (c : Nat) (p : LinearPattern) : Contribution :=
  p.first.contribution p.rest.isEmpty c ++
    linksContribution (p.first.element c) (p.first.next c) p.rest

def nextBasic (c : Nat) : List LinearPattern → Nat
  | [] => c
  | p :: ps => nextBasic (p.next c) ps

/-- The contribution of a basic pattern, with the anonymous variables numbered from `c`. -/
def basicContribution (c : Nat) : List LinearPattern → Contribution
  | [] => .nothing
  | p :: ps => p.contribution c ++ basicContribution (p.next c) ps

section visits

variable {R : Type} [DecidableEq R] {stof : String → Option R} {c : Nat}

theorem meets_addLabel {id : Element} {label : String} :
    Meets stof (QueryVisitor.addLabel stof id label) c () c
      (.ofElement id ++ .ofVars (elementVars [id])) := by
  refine (PatternMeets.deduce (fun q hq => ?_) rfl).meets
  refine PatternMeets.vars (g := fun op => op.addLabel ⟨q, label⟩) (fun op v => ?_) fun _ => rfl
  simp only [elementVars, List.flatMap_cons, List.flatMap_nil, List.append_nil,
    ← vars_of_deduce hq]
  exact mem_insertVars

theorem meets_addProperty {id : Element} {p : Property} :
    Meets stof (QueryVisitor.addProperty stof id p) c () c
      (.ofElement id ++ (.ofElement (.term p.value) ++ .ofProperty id p)) := by
  refine (PatternMeets.deduce (fun node hnode => ?_) rfl).meets
  exact PatternMeets.deduce (fun value hvalue => .property hnode hvalue) rfl

theorem meets_addEdge {source target type edge : Element} :
    Meets stof (QueryVisitor.addEdge stof source target type edge) c () c
      (.ofEdge source target type edge) := by
  refine (PatternMeets.deduce (fun q hq => ?_) rfl).meets
  refine PatternMeets.deduce (fun q' hq' => ?_) rfl
  refine PatternMeets.deduce (fun t ht => ?_) rfl
  refine PatternMeets.deduce (fun e he => ?_) rfl
  refine PatternMeets.vars (g := fun op => op.addEdge ⟨q, q', t, e⟩) (fun op v => ?_) fun _ => rfl
  simp only [elementVars, List.flatMap_cons, List.flatMap_nil, List.append_nil,
    ← vars_of_deduce hq, ← vars_of_deduce hq', ← vars_of_deduce ht, ← vars_of_deduce he,
    ← List.append_assoc]
  exact mem_insertVars

theorem meets_addPath {x : ElementVar} {source target : Element} {semantic : Match.PathSemantic}
    {path : IPath} :
    Meets stof (QueryVisitor.addPath stof x source target semantic path) c () c
      (.ofPath x source target) := by
  refine (PatternMeets.deduce (fun q hq => ?_) rfl).meets
  refine PatternMeets.deduce (fun q' hq' => ?_) rfl
  refine PatternMeets.vars (g := fun op => op.addPath ⟨x, q, q', semantic, path⟩) (fun op v => ?_)
    fun _ => rfl
  have hx : (Element.var x).vars = [x] := rfl
  simp only [elementVars, List.flatMap_cons, List.flatMap_nil, List.append_nil, hx,
    ← vars_of_deduce hq, ← vars_of_deduce hq', ← List.append_assoc]
  exact mem_insertVars

theorem meets_addIsolatedTerm {t : Term} :
    Meets stof (QueryVisitor.addIsolatedTerm stof t) c () c
      (.ofElement (.term t) ++ .ofVars []) := by
  refine (PatternMeets.deduce (fun q hq => ?_) rfl).meets
  exact PatternMeets.vars (g := fun op => op.addIsolatedTerm q)
    (fun op v => by simp [OpBasicGraphPattern.addIsolatedTerm]) fun _ => rfl

theorem meets_visitIsolated {name : Option VarName} {id : ElementVar} :
    Meets stof (QueryVisitor.visitIsolated name id : Visit R Unit) c () c
      (.ofIsolated name id) := by
  cases name with
  | none =>
    exact (PatternMeets.vars (g := fun op => op.addIsolatedVar (.element id))
      (fun op v => mem_insertVars) fun _ => rfl).meets
  | some x =>
    have hfits : ∀ ps : List (OpProperty R),
        (Contribution.ofIsolated (some x) id).Fits stof ps := fun ps =>
      ⟨by simp [Contribution.ofIsolated], by simp [Contribution.ofIsolated],
        by simp [Contribution.ofIsolated, Contribution.read]⟩
    constructor
    · intro s hs hsound _
      refine ⟨_, rfl, hs, hsound, ⟨by simp [Contribution.ofIsolated], by
        simp [Contribution.ofIsolated, Contribution.read]⟩, fun v => ?_⟩
      simp [Contribution.ofIsolated, or_comm]
    · intro s _ _ h
      exact absurd (hfits _) h

theorem meets_visitLabels {id : Element} (labels : List String) :
    Meets stof (QueryVisitor.visitLabels stof id labels) c () c (.ofLabels id labels) := by
  induction labels with
  | nil => exact .pure
  | cons label labels ih => exact meets_addLabel.bind ih

theorem meets_visitProperties {id : Element} (ps : List Property) :
    Meets stof (QueryVisitor.visitProperties stof id ps) c () c (.ofProperties id ps) := by
  induction ps with
  | nil => exact .pure
  | cons p ps ih => exact meets_addProperty.bind ih

omit [DecidableEq R] in
theorem meets_anonVarUnless (name : Option VarName) :
    Meets stof (QueryVisitor.anonVarUnless name : Visit R ElementVar) c (varOf c name)
      (nextVar c name) .nothing := by
  cases name with
  | none => exact .anonVar
  | some x => exact .pure

theorem meets_visitNode (isolated : Bool) (n : Node) :
    Meets stof (QueryVisitor.visitNode stof isolated n) c (n.element c) (n.next c)
      (n.contribution isolated c) := by
  cases n with
  | fixed t =>
    cases isolated with
    | false => exact .pure
    | true => exact meets_addIsolatedTerm.bind_pure fun _ => Element.term t
  | var name types properties =>
    simp only [QueryVisitor.visitNode]
    refine Meets.of_eq ?_ (Contribution.nothing_append (k := (Node.var name types
      properties).contribution isolated c))
    refine (meets_anonVarUnless name).bind ?_
    have hrest : Meets stof (do
        QueryVisitor.visitLabels stof (.var (varOf c name)) types
        QueryVisitor.visitProperties stof (.var (varOf c name)) properties
        return Element.var (varOf c name)) (nextVar c name) (.var (varOf c name)) (nextVar c name)
        (.ofLabels (.var (varOf c name)) types ++
          .ofProperties (.var (varOf c name)) properties) :=
      (meets_visitLabels types).bind
        ((meets_visitProperties properties).bind_pure fun _ => Element.var (varOf c name))
    simp only [Node.contribution, Node.element, Node.next]
    split
    · exact meets_visitIsolated.bind hrest
    · exact hrest.of_eq Contribution.nothing_append.symm

omit [DecidableEq R] in
theorem meets_visitEdgeId (id : Option EdgeId) :
    Meets stof (QueryVisitor.visitEdgeId id : Visit R Element) c (EdgeId.element c id)
      (nextVar c id) .nothing := by
  match id with
  | none => exact Meets.anonVar.bind_pure Element.var
  | some (.var x) => exact .pure
  | some (.id n) => exact .pure

omit [DecidableEq R] in
theorem meets_visitEdgeType (type : Option EdgeType) :
    Meets stof (QueryVisitor.visitEdgeType type : Visit R Element) c (EdgeType.element c type)
      (nextVar c type) .nothing := by
  match type with
  | none => exact Meets.anonVar.bind_pure Element.var
  | some (.var x) => exact .pure
  | some (.type name) => exact .pure

theorem meets_visitEdgeInside (inside : EdgeInside) :
    Meets stof (QueryVisitor.visitEdgeInside stof inside) c
      (EdgeId.element c inside.id, EdgeType.element (nextVar c inside.id) inside.type)
      (nextVar (nextVar c inside.id) inside.type)
      (.ofProperties (EdgeId.element c inside.id) inside.properties) := by
  simp only [QueryVisitor.visitEdgeInside]
  refine ((meets_visitEdgeId inside.id).bind ?_).of_eq Contribution.nothing_append
  refine ((meets_visitEdgeType inside.type).bind ?_).of_eq Contribution.nothing_append
  exact (meets_visitProperties inside.properties).bind_pure fun _ => _

theorem bind_ok_iff {ε α β : Type} {x : Except ε α} {f : α → Except ε β} {P Q : Prop}
    (hx : (∃ a, x = .ok a) ↔ P) (hf : ∀ a, x = .ok a → ((∃ b, f a = .ok b) ↔ Q)) :
    (∃ b, (x >>= f) = .ok b) ↔ P ∧ Q := by
  cases x with
  | error e =>
    have hP : ¬ P := fun h => by
      obtain ⟨a, ha⟩ := hx.mpr h
      cases ha
    simp only [hP, false_and, iff_false]
    intro ⟨b, hb⟩
    cases hb
  | ok a =>
    have hP : P := hx.mp ⟨a, rfl⟩
    simp only [hP, true_and]
    exact hf a rfl

theorem bind_pure_ok_iff {ε α β : Type} {x : Except ε α} {g : α → β} {P : Prop}
    (hx : (∃ a, x = .ok a) ↔ P) : (∃ b, (x >>= fun a => pure (g a)) = .ok b) ↔ P := by
  rw [← and_true P]
  exact bind_ok_iff hx fun a _ => ⟨fun _ => trivial, fun _ => ⟨g a, rfl⟩⟩

omit [DecidableEq R] in
theorem stoul_ok {n : Nat} : (∃ a, (stoul n : Except (QueryException R) Nat) = .ok a) ↔
    n < 2 ^ 64 := by
  unfold stoul
  split
  · next h => exact ⟨fun _ => h, fun _ => ⟨_, rfl⟩⟩
  · next h => exact ⟨fun ⟨_, ha⟩ => (nomatch ha), fun hn => absurd hn h⟩

omit [DecidableEq R] in
theorem visitSuffix_ok {p : IPath} (suffix : Option PathSuffix) :
    (∃ q, (visitSuffix p suffix : Except (QueryException R) IPath) = .ok q) ↔
      ∀ n ∈ suffixBounds suffix, n < 2 ^ 64 := by
  match suffix with
  | none => simp [visitSuffix, suffixBounds]
  | some .star => simp [visitSuffix, suffixBounds]
  | some .plus => simp [visitSuffix, suffixBounds]
  | some .optional => simp [visitSuffix, suffixBounds]
  | some (.range min max) =>
    simp only [visitSuffix, suffixBounds, List.forall_mem_cons, List.not_mem_nil,
      IsEmpty.forall_iff, implies_true, and_true]
    refine bind_ok_iff stoul_ok fun min' _ => ?_
    exact bind_pure_ok_iff stoul_ok

theorem PathAtom.induct {motive : PathAtom → Prop}
    (simple : ∀ inverse type suffix, motive (.simple inverse type suffix))
    (alternatives : ∀ inverse alternatives suffix,
      (∀ atoms ∈ alternatives, ∀ atom ∈ atoms, motive atom) →
      motive (.alternatives inverse alternatives suffix)) (atom : PathAtom) : motive atom :=
  PathAtom.rec (motive_1 := motive) (motive_2 := fun ss => ∀ s ∈ ss, ∀ atom ∈ s, motive atom)
    (motive_3 := fun s => ∀ atom ∈ s, motive atom) simple
    (fun inverse _ suffix h => alternatives inverse _ suffix h) (by simp)
    (fun _ _ h hs => List.forall_mem_cons.mpr ⟨h, hs⟩) (by simp)
    (fun _ _ h hs => List.forall_mem_cons.mpr ⟨h, hs⟩) atom

omit [DecidableEq R] in
theorem visitPathSequences_ok (inverse : Bool) (alternatives : List (List PathAtom))
    (h : ∀ atoms ∈ alternatives, ∀ atom ∈ atoms, ∀ inverse : Bool,
      (∃ q, (visitPathAtom inverse atom : Except (QueryException R) IPath) = .ok q) ↔
        ∀ n ∈ atom.bounds, n < 2 ^ 64) :
    (∃ qs, (visitPathSequences inverse alternatives : Except (QueryException R) _) = .ok qs) ↔
      ∀ n ∈ boundsOfSequences alternatives, n < 2 ^ 64 := by
  induction alternatives with
  | nil => simp [visitPathSequences, boundsOfSequences]
  | cons atoms rest ih =>
    obtain ⟨hatoms, hrest⟩ := List.forall_mem_cons.mp h
    have hseq : (∃ qs, (visitPathAtoms inverse atoms : Except (QueryException R) _) = .ok qs) ↔
        ∀ n ∈ boundsOfAtoms atoms, n < 2 ^ 64 := by
      clear ih hrest h
      induction atoms with
      | nil => simp [visitPathAtoms, boundsOfAtoms]
      | cons atom atoms ih =>
        obtain ⟨hatom, hatoms⟩ := List.forall_mem_cons.mp hatoms
        rw [visitPathAtoms, boundsOfAtoms, List.forall_mem_append]
        refine bind_ok_iff (hatom inverse) fun q _ => ?_
        exact bind_pure_ok_iff (ih hatoms)
    rw [visitPathSequences, boundsOfSequences, List.forall_mem_append]
    refine bind_ok_iff hseq fun q _ => ?_
    exact bind_pure_ok_iff (ih hrest)

omit [DecidableEq R] in
theorem visitPathAtom_ok (atom : PathAtom) : ∀ inverse : Bool,
    (∃ q, (visitPathAtom inverse atom : Except (QueryException R) IPath) = .ok q) ↔
      ∀ n ∈ atom.bounds, n < 2 ^ 64 := by
  induction atom using PathAtom.induct with
  | simple inv type suffix =>
    intro inverse
    rw [visitPathAtom, PathAtom.bounds]
    exact visitSuffix_ok suffix
  | alternatives inv alternatives suffix ih =>
    intro inverse
    rw [visitPathAtom, PathAtom.bounds, List.forall_mem_append]
    exact bind_ok_iff (visitPathSequences_ok _ alternatives ih) fun _ _ => visitSuffix_ok suffix

omit [DecidableEq R] in
theorem visitPathAlternatives_ok (alternatives : List (List PathAtom)) :
    (∃ q, (visitPathAlternatives alternatives : Except (QueryException R) IPath) = .ok q) ↔
      ∀ n ∈ boundsOfSequences alternatives, n < 2 ^ 64 := by
  rw [← visitPathSequences_ok false alternatives
    fun _ _ atom _ => visitPathAtom_ok (R := R) atom]
  unfold visitPathAlternatives
  constructor
  · intro ⟨q, hq⟩
    cases h : (visitPathSequences false alternatives : Except (QueryException R) _) with
    | error e => simp [h] at hq
    | ok qs => exact ⟨qs, rfl⟩
  · intro ⟨qs, hqs⟩
    exact ⟨_, by rw [hqs]; rfl⟩

theorem meets_visitLink (saved last : Element) (link : Link) :
    Meets stof (QueryVisitor.visitLink stof saved last link) c () (link.next c)
      (link.contribution saved last c) := by
  cases link with
  | edge right inside =>
    simp only [QueryVisitor.visitLink]
    refine (meets_visitEdgeInside (insideOf inside)).bind ?_
    dsimp only
    split
    · exact meets_addEdge
    · exact meets_addEdge
  | path right type var alternatives =>
    simp only [QueryVisitor.visitLink]
    refine ((meets_anonVarUnless var).bind ?_).of_eq Contribution.nothing_append
    refine Meets.lift (visitPathAlternatives_ok alternatives) fun path _ => ?_
    split
    · exact meets_addPath
    · exact meets_addPath

theorem meets_visitLinks (rest : List (Link × Node)) : ∀ (saved : Element) (c : Nat),
    Meets stof (QueryVisitor.visitLinks stof saved rest) c () (nextLinks c rest)
      (linksContribution saved c rest) := by
  induction rest with
  | nil => exact fun _ _ => .pure
  | cons row rest ih =>
    intro saved c
    obtain ⟨link, node⟩ := row
    exact (meets_visitNode false node).bind ((meets_visitLink saved _ link).bind (ih _ _))

theorem meets_visitLinearPattern (p : LinearPattern) :
    Meets stof (QueryVisitor.visitLinearPattern stof p) c () (p.next c) (p.contribution c) :=
  (meets_visitNode _ p.first).bind (meets_visitLinks p.rest _ _)

theorem meets_visitLinearPatterns (ps : List LinearPattern) : ∀ c : Nat,
    Meets stof (QueryVisitor.visitLinearPatterns stof ps) c () (nextBasic c ps)
      (basicContribution c ps) := by
  induction ps with
  | nil => exact fun _ => .pure
  | cons p ps ih => exact fun c => (meets_visitLinearPattern p).bind (ih _)

end visits

end Parser
end MillenniumDB
