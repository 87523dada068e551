import MillenniumDB.IndexScans
import MillenniumDB.QuadInserts

/-!
# `EdgePlan`

`get_binding_id_iter` reads the table of edges when the edge is bound, and otherwise scans the tree
in which the ends and the type that are bound come first, or the tree of equal ends or types for a
repeated term.  The edge is the last column of all these trees.
-/

namespace MillenniumDB
namespace EdgePlans

open Scans

inductive Field
  | source
  | target
  | type
  | edge
  deriving DecidableEq

structure Edge where
  source : Nat
  target : Nat
  type : Nat
  id : Nat
  deriving DecidableEq

def field : Field → Edge → Nat
  | .source, e => e.source
  | .target, e => e.target
  | .type, e => e.type
  | .edge, e => e.id

structure EdgePlan where
  source : Id
  target : Id
  type : Id
  edge : Id
  sourceAssigned : Bool
  targetAssigned : Bool
  typeAssigned : Bool
  edgeAssigned : Bool

inductive BindingIdIter
  | edgeTableLookup (lookup : EdgeTableLookup)
  | indexScan (scan : IndexScan)

namespace EdgePlan

def new (source target type edge : Id) : EdgePlan :=
  ⟨source, target, type, edge, holdsObject source, holdsObject target, holdsObject type,
    holdsObject edge⟩

def setInputVars (inputVars : List Nat) (p : EdgePlan) : EdgePlan :=
  { p with
    sourceAssigned := setInputVar inputVars p.sourceAssigned p.source
    targetAssigned := setInputVar inputVars p.targetAssigned p.target
    typeAssigned := setInputVar inputVars p.typeAssigned p.type
    edgeAssigned := setInputVar inputVars p.edgeAssigned p.edge }

def planned (source target type edge : Id) (inputs : List (List Nat)) : EdgePlan :=
  inputs.foldl (fun p inputVars => p.setInputVars inputVars) (new source target type edge)

/-- `get_binding_id_iter` over the trees of the graph. -/
def getBindingIdIter (tree : Index → List Tuple) (p : EdgePlan) : BindingIdIter :=
  let source := ScanRange.get p.source p.sourceAssigned
  let target := ScanRange.get p.target p.targetAssigned
  let type := ScanRange.get p.type p.typeAssigned
  let edge := ScanRange.get p.edge p.edgeAssigned
  if p.edgeAssigned then .edgeTableLookup ⟨p.edge, p.source, p.target, p.type⟩
  else if p.source = p.target then
    if p.source = p.type then .indexScan ⟨tree .equalFromToType, [source, edge]⟩
    else if p.typeAssigned then .indexScan ⟨tree .equalFromToInverted, [type, source, edge]⟩
    else .indexScan ⟨tree .equalFromTo, [source, type, edge]⟩
  else if p.target = p.type then
    if p.sourceAssigned then .indexScan ⟨tree .equalToTypeInverted, [source, target, edge]⟩
    else .indexScan ⟨tree .equalToType, [target, source, edge]⟩
  else if p.source = p.type then
    if p.targetAssigned then .indexScan ⟨tree .equalFromTypeInverted, [target, source, edge]⟩
    else .indexScan ⟨tree .equalFromType, [source, target, edge]⟩
  else if p.sourceAssigned then
    if p.typeAssigned then .indexScan ⟨tree .typeFromToEdge, [type, source, target, edge]⟩
    else .indexScan ⟨tree .fromToTypeEdge, [source, target, type, edge]⟩
  else if p.targetAssigned then .indexScan ⟨tree .toTypeFromEdge, [target, type, source, edge]⟩
  else .indexScan ⟨tree .typeFromToEdge, [type, source, target, edge]⟩

def pattern (source target type edge : Id) : Field → Id
  | .source => source
  | .target => target
  | .type => type
  | .edge => edge

end EdgePlan

/-- The binding after the checks of a lookup: what an earlier check has assigned stays when a later
one fails. -/
def checked (lookup : EdgeTableLookup) (record : Tuple) (b : Binding) : Binding :=
  match checkId b lookup.source (record.getD 0 0) with
  | none => b
  | some b =>
    match checkId b lookup.target (record.getD 1 0) with
    | none => b
    | some b => (checkId b lookup.type (record.getD 2 0)).getD b

/-- `EdgeTableLookup::next`, with `already_looked`; a row is the binding after the assignments. -/
def nextRow (lookup : EdgeTableLookup) (table : EdgeTable) (st : Binding × Bool) :
    Option Binding × Binding × Bool :=
  if st.2 then (none, st)
  else
    match lookup.next table st.1 with
    | .ok (some b) => (some b, b, true)
    | .ok none =>
      match table.get ((ObjectId.valueMask &&& lookup.edgeAssignation st.1) - 1) with
      | some record =>
        if ObjectId.typeMask &&& lookup.edgeAssignation st.1 = ObjectId.maskEdge then
          (none, checked lookup record st.1, true)
        else (none, st.1, true)
      | none => (none, st.1, true)
    | .error _ => (none, st.1, true)

def BindingIdIter.Rows (table : EdgeTable) (b : Binding) (rows : List Binding) : BindingIdIter → Prop
  | .edgeTableLookup lookup => Yields (nextRow lookup table) (b, false) rows
  | .indexScan scan => Yields scan.next (scan.begin b) rows

def edgeIndexes : List Index :=
  [.fromToTypeEdge, .toTypeFromEdge, .typeFromToEdge, .equalFromTo, .equalFromType, .equalToType,
    .equalFromToType, .equalFromToInverted, .equalFromTypeInverted, .equalToTypeInverted]

def columnsOf : Index → List Field
  | .fromToTypeEdge => [.source, .target, .type, .edge]
  | .toTypeFromEdge => [.target, .type, .source, .edge]
  | .typeFromToEdge => [.type, .source, .target, .edge]
  | .equalFromTo => [.source, .type, .edge]
  | .equalFromToInverted => [.type, .source, .edge]
  | .equalFromType => [.source, .target, .edge]
  | .equalFromTypeInverted => [.target, .source, .edge]
  | .equalToType => [.target, .source, .edge]
  | .equalToTypeInverted => [.source, .target, .edge]
  | .equalFromToType => [.source, .edge]
  | _ => []

def selects : Index → Edge → Prop
  | .equalFromTo | .equalFromToInverted => fun e => e.source = e.target
  | .equalFromType | .equalFromTypeInverted => fun e => e.source = e.type
  | .equalToType | .equalToTypeInverted => fun e => e.target = e.type
  | .equalFromToType => fun e => e.source = e.target ∧ e.source = e.type
  | _ => fun _ => True

/-- The trees and the table hold the edges of a graph.  The id of an edge gives its row. -/
structure HoldsEdges (edges : Finset Edge) (tree : Index → List Tuple) (table : EdgeTable) : Prop where
  holds : ∀ i ∈ edgeIndexes, Holds field (edges : Set Edge) (selects i) (columnsOf i) (tree i)
  row : ∀ e ∈ edges, ∃ k, 0 < k ∧ k < 2 ^ 56 ∧ e.id = k ||| ObjectId.maskEdge ∧
    table.rows[k - 1]? = some [e.source, e.target, e.type]
  edge : ∀ k, 0 < k → k < 2 ^ 56 → (table.rows[k - 1]?).isSome →
    ∃ e ∈ edges, e.id = k ||| ObjectId.maskEdge
  small : ∀ e ∈ edges, ∀ f, field f e ≠ 0 ∧ field f e < 2 ^ 64

def Answered (edges : Finset Edge) (tree : Index → List Tuple) (table : EdgeTable)
    (source target type edge : Id) (inputs : List (List Nat)) (b : Binding) : Prop :=
  ∃ rows, ((EdgePlan.planned source target type edge inputs).getBindingIdIter tree).Rows table b rows ∧
    Returns field (EdgePlan.pattern source target type edge) inputs.flatten edges b rows

def EndsAgree (pattern : Field → Id) (inputs : List Nat) (b : Binding) (e : Edge) : Prop :=
  (∀ f, f ≠ .edge → assigned inputs (pattern f) = true → value b (pattern f) = field f e) ∧
    ∀ f g, f ≠ .edge → g ≠ .edge → pattern f = pattern g → field f e = field g e

/-- For a bound edge, no end or type that is not bound holds another value than the one of the edge
that is to be returned.  For an edge that is not bound, the edges whose ends and type agree are also
equal to the end or the type that has the variable of the edge. -/
def NothingMissed (edges : Finset Edge) (pattern : Field → Id) (inputs : List Nat) (b : Binding) : Prop :=
  if assigned inputs (pattern .edge) then
    ∀ e ∈ edges, Matches field pattern inputs b e →
      ∀ f, assigned inputs (pattern f) = false → value b (pattern f) = 0 ∨ value b (pattern f) = field f e
  else ∀ e ∈ edges, EndsAgree pattern inputs b e → ∀ f, pattern f = pattern .edge → field f e = e.id

section

variable {b b' b'' : Binding} {id : Id} {o : Nat}

theorem checkId_eq_some (h : checkId b id o = some b') :
    (value b id = 0 ∨ value b id = o) ∧ ∀ v, b' v = if id = .var v then o else b v := by
  cases id with
  | var u =>
    rw [checkId] at h
    split_ifs at h with hno
    rw [← Option.some.inj h]
    constructor
    · by_contra hne
      exact hno (not_or.mp hne)
    · intro v
      simp [Function.update_apply, eq_comm]
  | object c =>
    rw [checkId] at h
    split_ifs at h with hno
    rw [← Option.some.inj h]
    constructor
    · by_contra hne
      exact hno (not_or.mp hne)
    · simp

theorem checkId_of_value (h : value b id = 0 ∨ value b id = o) : ∃ b', checkId b id o = some b' := by
  cases id with
  | var u =>
    refine ⟨_, if_neg fun hno => ?_⟩
    exact h.elim hno.1 hno.2
  | object c =>
    refine ⟨b, if_neg fun hno => ?_⟩
    exact h.elim hno.1 hno.2

theorem value_of_checkId (h : checkId b id o = some b') (id' : Id) (hid : value b id' ≠ 0) :
    value b' id' = value b id' := by
  obtain ⟨hvalue, hb⟩ := checkId_eq_some h
  cases id' with
  | object c => rfl
  | var v =>
    show b' v = b v
    rw [hb]
    split_ifs with heq
    · rcases hvalue with hzero | hvalue
      · rw [heq] at hzero
        exact absurd hzero hid
      · rw [heq] at hvalue
        exact hvalue.symm
    · rfl

theorem value_self_of_checkId (h : checkId b id o = some b') (hid : ∀ c, id = .object c → c ≠ 0) :
    value b' id = o := by
  obtain ⟨hvalue, hb⟩ := checkId_eq_some h
  cases id with
  | var v => simp [value, hb]
  | object c => exact hvalue.resolve_left (hid c rfl)

end

section

variable {lookup : EdgeTableLookup} {table : EdgeTable} {b b' : Binding}

theorem yields_of_found (h : lookup.next table b = .ok (some b')) :
    Yields (nextRow lookup table) (b, false) [b'] := by
  have hnext : nextRow lookup table (b, false) = (some b', b', true) := by
    simp [nextRow, h]
  apply Yields.cons
  · rw [hnext]
  · rw [hnext]
    apply Yields.nil_of_invariant fun st => st.2 = true
    · intro st hst
      rw [nextRow, if_pos hst]
      exact ⟨rfl, hst⟩
    · rfl

theorem yields_of_missing (h : ∀ b', lookup.next table b ≠ .ok (some b')) :
    Yields (nextRow lookup table) (b, false) [] := by
  have hnext : (nextRow lookup table (b, false)).1 = none ∧
      (nextRow lookup table (b, false)).2.2 = true := by
    simp only [nextRow, Bool.false_eq_true, if_false]
    split
    · exact absurd (by assumption) (h _)
    · split
      · split_ifs <;> exact ⟨rfl, rfl⟩
      · exact ⟨rfl, rfl⟩
    · exact ⟨rfl, rfl⟩
  apply Yields.nil_of_none hnext.1
  apply Yields.nil_of_invariant fun st => st.2 = true
  · intro st hst
    rw [nextRow, if_pos hst]
    exact ⟨rfl, hst⟩
  · exact hnext.2

theorem edge_of_row {edges : Finset Edge} {tree : Index → List Tuple} (h : HoldsEdges edges tree table)
    (hword : lookup.edgeAssignation b < 2 ^ 64) (hnext : lookup.next table b = .ok (some b')) :
    ∃ e ∈ edges, e.id = lookup.edgeAssignation b := by
  simp only [EdgeTableLookup.next] at hnext
  split_ifs at hnext with htype hzero
  · cases hnext
  rw [not_not] at htype
  have hsmall : ObjectId.valueMask &&& lookup.edgeAssignation b < 2 ^ 56 :=
    lt_of_le_of_lt Nat.and_le_left (by decide)
  have hrow : (table.rows[(ObjectId.valueMask &&& lookup.edgeAssignation b) - 1]?).isSome := by
    rw [EdgeTable.get_eq] at hnext
    cases hrecord : table.rows[(ObjectId.valueMask &&& lookup.edgeAssignation b) - 1]? with
    | none => simp [hrecord] at hnext
    | some record => rfl
  obtain ⟨e, he, hid⟩ := h.edge _ (Nat.pos_of_ne_zero hzero) hsmall hrow
  refine ⟨e, he, ?_⟩
  -- the two masks make up a word
  rw [hid, ← htype, ← Nat.and_or_distrib_right]
  have hmask : ObjectId.valueMask ||| ObjectId.typeMask = 2 ^ 64 - 1 := by decide
  rw [hmask, Nat.and_comm, Nat.and_two_pow_sub_one_eq_mod, Nat.mod_eq_of_lt hword]

end

section

variable {edges : Finset Edge} {tree : Index → List Tuple} {table : EdgeTable}
  {source target type edge : Id} {inputs : List Nat} {b b' : Binding} {e e' : Edge}

theorem edgeAssignation_eq :
    EdgeTableLookup.edgeAssignation ⟨edge, source, target, type⟩ b = value b edge := by
  cases edge <;> rfl

theorem HoldsEdges.eq_of_id (h : HoldsEdges edges tree table) (he : e ∈ edges) (he' : e' ∈ edges)
    (heq : e.id = e'.id) : e = e' := by
  obtain ⟨k, -, hk, hid, hrow⟩ := h.row e he
  obtain ⟨k', -, hk', hid', hrow'⟩ := h.row e' he'
  have hkk : k = k' := edge_inj hk hk' (by rw [← hid, ← hid', heq])
  rw [hkk, hrow'] at hrow
  simp only [Option.some.injEq, List.cons.injEq, and_true] at hrow
  cases e
  cases e'
  simp_all

theorem HoldsEdges.next (h : HoldsEdges edges tree table) (source target type : Id) (he : e ∈ edges) (hedge : value b edge = e.id) :
    EdgeTableLookup.next ⟨edge, source, target, type⟩ table b = .ok (do
      let b ← checkId b source e.source
      let b ← checkId b target e.target
      checkId b type e.type) := by
  obtain ⟨k, hpos, hk, hid, hrow⟩ := h.row e he
  exact EdgeTableLookup.next_free hpos hk hrow b (by rw [edgeAssignation_eq, hedge, hid])

theorem checks_eq_some (h : HoldsEdges edges tree table) (he : e ∈ edges)
    (hknown : ∀ f, assigned inputs (EdgePlan.pattern source target type edge f) = true →
      value b (EdgePlan.pattern source target type edge f) ≠ 0)
    (hassigned : assigned inputs edge = true) (hedge : value b edge = e.id)
    (hchecks : (do
      let b ← checkId b source e.source
      let b ← checkId b target e.target
      checkId b type e.type) = some b') :
    (∀ id, value b id ≠ 0 → value b' id = value b id) ∧
      (∀ v, (∀ f, EdgePlan.pattern source target type edge f ≠ .var v) → b' v = b v) ∧
      ∀ f, value b' (EdgePlan.pattern source target type edge f) = field f e := by
  simp only [Option.bind_eq_bind, Option.bind_eq_some_iff] at hchecks
  obtain ⟨b1, h1, b2, h2, h3⟩ := hchecks
  have hobject : ∀ f c, EdgePlan.pattern source target type edge f = .object c → c ≠ 0 := by
    intro f c hf
    have hne := hknown f (by rw [hf]; rfl)
    rwa [hf] at hne
  have hsource := value_self_of_checkId h1 (hobject .source)
  have htarget := value_self_of_checkId h2 (hobject .target)
  have htype := value_self_of_checkId h3 (hobject .type)
  have hne := fun f => (h.small e he f).1
  have hkeep : ∀ id, value b id ≠ 0 → value b' id = value b id := by
    intro id hid
    have hid1 := value_of_checkId h1 id hid
    have hid2 := value_of_checkId h2 id (by rwa [hid1])
    have hid3 := value_of_checkId h3 id (by rwa [hid2, hid1])
    rw [hid3, hid2, hid1]
  refine ⟨hkeep, fun v hv => ?_, fun f => ?_⟩
  · have hs : source ≠ .var v := hv .source
    have ht : target ≠ .var v := hv .target
    have hy : type ≠ .var v := hv .type
    rw [(checkId_eq_some h3).2, if_neg hy, (checkId_eq_some h2).2, if_neg ht, (checkId_eq_some h1).2,
      if_neg hs]
  cases f with
  | source =>
    have hs2 : value b2 source = e.source := by
      rw [value_of_checkId h2 _ (by rw [hsource]; exact hne .source), hsource]
    show value b' source = e.source
    rw [value_of_checkId h3 _ (by rw [hs2]; exact hne .source), hs2]
  | target =>
    show value b' target = e.target
    rw [value_of_checkId h3 _ (by rw [htarget]; exact hne .target), htarget]
  | type => exact htype
  | edge =>
    show value b' edge = e.id
    rw [hkeep edge (hknown .edge hassigned), hedge]

theorem checkId_of_compatible {b₀ : Binding} {id : Id} (hid : value b id = 0 ∨ value b id = value b₀ id) :
    ∃ b', checkId b id (value b₀ id) = some b' ∧
      ∀ id', value b id' = 0 ∨ value b id' = value b₀ id' → value b' id' = 0 ∨ value b' id' = value b₀ id' := by
  obtain ⟨b', hb'⟩ := checkId_of_value hid
  refine ⟨b', hb', fun id' hid' => ?_⟩
  obtain ⟨-, hvalue⟩ := checkId_eq_some hb'
  cases id' with
  | object c => exact hid'
  | var v =>
    show b' v = 0 ∨ b' v = b₀ v
    rw [hvalue]
    split_ifs with heq
    · rw [heq]
      exact .inr rfl
    · exact hid'

theorem lookup_answered_iff (h : HoldsEdges edges tree table)
    (hknown : ∀ f, assigned inputs (EdgePlan.pattern source target type edge f) = true →
      value b (EdgePlan.pattern source target type edge f) ≠ 0)
    (hword : value b edge < 2 ^ 64) (hassigned : assigned inputs edge = true) :
    (∃ rows, Yields (nextRow ⟨edge, source, target, type⟩ table) (b, false) rows ∧
        Returns field (EdgePlan.pattern source target type edge) inputs edges b rows) ↔
      ∀ e ∈ edges, Matches field (EdgePlan.pattern source target type edge) inputs b e →
        ∀ f, assigned inputs (EdgePlan.pattern source target type edge f) = false →
          value b (EdgePlan.pattern source target type edge f) = 0 ∨
            value b (EdgePlan.pattern source target type edge f) = field f e := by
  generalize hpattern : EdgePlan.pattern source target type edge = pattern at *
  -- an edge that matches is the one that is looked up
  have hid : ∀ e, Matches field pattern inputs b e → value b edge = e.id := by
    intro e ⟨b₀, hb₀, hvalue⟩
    rw [← value_of_assigned hassigned hb₀]
    have hedge := hvalue .edge
    rwa [← hpattern] at hedge
  -- a lookup that succeeds returns the edge
  have hpass : ∀ e ∈ edges, value b edge = e.id → ∀ b', (do
      let b ← checkId b source e.source
      let b ← checkId b target e.target
      checkId b type e.type) = some b' →
        (∀ id, value b id ≠ 0 → value b' id = value b id) ∧
          (∀ v, (∀ f, pattern f ≠ .var v) → b' v = b v) ∧ ∀ f, value b' (pattern f) = field f e := by
    intro e he hedge b' hchecks
    have hspec := checks_eq_some h he (hpattern ▸ hknown) hassigned hedge hchecks
    rwa [hpattern] at hspec
  constructor
  · intro ⟨rows, hrows, hreturns⟩ e he hmatches f hf
    by_contra hne
    obtain ⟨hzero, hheld⟩ := not_or.mp hne
    have hnext := h.next source target type he (hid e hmatches)
    cases hchecks : (do
      let b ← checkId b source e.source
      let b ← checkId b target e.target
      checkId b type e.type) with
    | none =>
      have hnil : rows = [] := by
        apply hrows.unique
        apply yields_of_missing
        intro b' hb'
        rw [hnext, hchecks] at hb'
        cases hb'
      have hfields := (hreturns.2 _).mpr ⟨e, he, rfl, hmatches⟩
      rw [hnil] at hfields
      exact List.not_mem_nil hfields
    | some b' =>
      obtain ⟨hkeep, hother, hfields⟩ := hpass e he (hid e hmatches) b' hchecks
      exact hheld ((hkeep _ hzero).symm.trans (hfields f))
  · intro hmissed
    by_cases hfound : ∃ b', EdgeTableLookup.next ⟨edge, source, target, type⟩ table b = .ok (some b')
    · obtain ⟨b', hb'⟩ := hfound
      obtain ⟨e, he, hedge⟩ := edge_of_row h (by rwa [edgeAssignation_eq]) hb'
      rw [edgeAssignation_eq] at hedge
      have hchecks := hb'
      rw [h.next source target type he hedge.symm] at hchecks
      obtain ⟨hkeep, hother, hfields⟩ := hpass e he hedge.symm b' (Except.ok.inj hchecks)
      refine ⟨[b'], yields_of_found hb', List.nodup_singleton _, fun fields => ?_⟩
      rw [List.map_singleton, List.mem_singleton]
      constructor
      · intro heq
        refine ⟨e, he, ?_, b', fun v hv => ?_, hfields⟩
        · rw [heq]
          funext f
          exact (hfields f).symm
        · by_cases hv' : ∃ f, pattern f = .var v
          · obtain ⟨f, hf⟩ := hv'
            have hne := hknown f (by rw [hf]; exact decide_eq_true hv)
            rw [hf] at hne
            exact hkeep (.var v) hne
          · exact hother v (not_exists.mp hv')
      · intro ⟨e', he', heq, hmatches⟩
        have hee := h.eq_of_id he he' (hedge.trans (hid e' hmatches))
        rw [← heq, ← hee]
        funext f
        exact (hfields f).symm
    · refine ⟨[], yields_of_missing fun b' hb' => hfound ⟨b', hb'⟩, List.nodup_nil, fun fields => ?_⟩
      simp only [List.map_nil, List.not_mem_nil, false_iff]
      intro ⟨e, he, _, hmatches⟩
      apply hfound
      obtain ⟨b₀, hb₀, hvalue⟩ := id hmatches
      have hcompatible : ∀ f, value b (pattern f) = 0 ∨ value b (pattern f) = value b₀ (pattern f) := by
        intro f
        by_cases hf : assigned inputs (pattern f) = true
        · exact .inr (value_of_assigned hf hb₀).symm
        · rw [hvalue f]
          exact hmissed e he hmatches f (Bool.eq_false_iff.mpr hf)
      have hsource : value b₀ source = e.source := by
        have hs := hvalue .source
        rwa [← hpattern] at hs
      have htarget : value b₀ target = e.target := by
        have ht := hvalue .target
        rwa [← hpattern] at ht
      have htype : value b₀ type = e.type := by
        have ht := hvalue .type
        rwa [← hpattern] at ht
      subst hpattern
      obtain ⟨b1, h1, hb1⟩ := checkId_of_compatible (hcompatible .source)
      obtain ⟨b2, h2, hb2⟩ := checkId_of_compatible (hb1 _ (hcompatible .target))
      obtain ⟨b3, h3, -⟩ := checkId_of_compatible (hb2 _ (hb1 _ (hcompatible .type)))
      refine ⟨b3, ?_⟩
      rw [h.next source target type he (hid e hmatches)]
      simp only [EdgePlan.pattern, hsource, htarget, htype] at h1 h2 h3
      simp only [h1, Option.bind_eq_bind, Option.bind_some, h2, h3]

end

def scanned (source target type : Id) (sourceAssigned targetAssigned typeAssigned : Bool) : Index :=
  if source = target then
    if source = type then .equalFromToType
    else if typeAssigned then .equalFromToInverted else .equalFromTo
  else if target = type then if sourceAssigned then .equalToTypeInverted else .equalToType
  else if source = type then if targetAssigned then .equalFromTypeInverted else .equalFromType
  else if sourceAssigned then if typeAssigned then .typeFromToEdge else .fromToTypeEdge
  else if targetAssigned then .toTypeFromEdge else .typeFromToEdge

section

variable {edges : Finset Edge} {tree : Index → List Tuple} {table : EdgeTable}
  {source target type edge : Id} {inputs : List Nat} {b : Binding} {e e' : Edge}

theorem getBindingIdIter_eq (p : EdgePlan) (pattern : Field → Id) (hedgeAssigned : p.edgeAssigned = false)
    (hsource : ScanRange.get p.source p.sourceAssigned =
      ScanRange.get (pattern .source) (assigned inputs (pattern .source)))
    (htarget : ScanRange.get p.target p.targetAssigned =
      ScanRange.get (pattern .target) (assigned inputs (pattern .target)))
    (htype : ScanRange.get p.type p.typeAssigned =
      ScanRange.get (pattern .type) (assigned inputs (pattern .type)))
    (hedge : ScanRange.get p.edge p.edgeAssigned =
      ScanRange.get (pattern .edge) (assigned inputs (pattern .edge))) :
    p.getBindingIdIter tree = .indexScan (scanOf pattern inputs
      (columnsOf (scanned p.source p.target p.type p.sourceAssigned p.targetAssigned p.typeAssigned))
      (tree (scanned p.source p.target p.type p.sourceAssigned p.targetAssigned p.typeAssigned))) := by
  -- the branches have one condition each, so the scan is taken into them
  obtain ⟨scan, hscan⟩ : ∃ scan : Index → BindingIdIter, ∀ i, scan i =
      .indexScan (scanOf pattern inputs (columnsOf i) (tree i)) := ⟨_, fun _ => rfl⟩
  rw [← hscan]
  simp only [scanned, apply_ite scan, EdgePlan.getBindingIdIter]
  rw [hsource, htarget, htype, hedge, hedgeAssigned, if_neg Bool.false_ne_true]
  simp only [hscan]
  rfl

/-- The tree has the edges with the equalities of the plan, its bound columns come first and the edge
last, and it has a column for each term. -/
theorem scanned_spec (sourceAssigned targetAssigned typeAssigned : Bool)
    (hsource : sourceAssigned = assigned inputs source) (htarget : targetAssigned = assigned inputs target)
    (htype : typeAssigned = assigned inputs type) (hedge : assigned inputs edge = false) {i : Index}
    (hi : scanned source target type sourceAssigned targetAssigned typeAssigned = i) :
    i ∈ edgeIndexes ∧
      ((columnsOf i).Pairwise fun f g =>
        assigned inputs (EdgePlan.pattern source target type edge g) = true →
          assigned inputs (EdgePlan.pattern source target type edge f) = true) ∧
      (∀ e, selects i e ↔ (source = target → e.source = e.target) ∧ (target = type → e.target = e.type) ∧
        (source = type → e.source = e.type)) ∧
      ∀ f, f ≠ .edge → ∃ g ∈ columnsOf i, g ≠ .edge ∧
        EdgePlan.pattern source target type edge f = EdgePlan.pattern source target type edge g := by
  subst hsource htarget htype
  unfold scanned at hi
  split_ifs at hi <;> subst hi
  all_goals
    refine ⟨by simp [edgeIndexes], ?_, fun e => ?_, fun f hf => ?_⟩
    · simp [columnsOf, EdgePlan.pattern, *]
    · grind [selects]
    · cases f <;> first
        | exact absurd rfl hf
        | exact ⟨.source, by decide, by decide, rfl⟩
        | exact ⟨.target, by decide, by decide, rfl⟩
        | exact ⟨.type, by decide, by decide, rfl⟩
        | exact ⟨.source, by decide, by decide, Eq.symm ‹source = target›⟩
        | exact ⟨.source, by decide, by decide, Eq.symm ‹source = type›⟩
        | exact ⟨.target, by decide, by decide, Eq.symm ‹target = type›⟩

theorem columnsOf_eq {i : Index} (hi : i ∈ edgeIndexes) :
    columnsOf i = (columnsOf i).dropLast ++ [Field.edge] := by
  revert i
  decide

/-- The scan of an edge that is not bound is right when the edges that are scanned are equal to the end
or the type that has their variable. -/
theorem scan_answered_iff (h : HoldsEdges edges tree table) (hedge : assigned inputs edge = false)
    {i : Index} (hi : scanned source target type (assigned inputs source) (assigned inputs target)
      (assigned inputs type) = i) :
    (∃ rows, Yields (scanOf (EdgePlan.pattern source target type edge) inputs (columnsOf i) (tree i)).next
        ((scanOf (EdgePlan.pattern source target type edge) inputs (columnsOf i) (tree i)).begin b) rows ∧
        Returns field (EdgePlan.pattern source target type edge) inputs edges b rows) ↔
      ∀ e ∈ edges, EndsAgree (EdgePlan.pattern source target type edge) inputs b e →
        ∀ f, EdgePlan.pattern source target type edge f = edge → field f e = e.id := by
  obtain ⟨hmem, hfirst, hequalities, hcover⟩ :=
    scanned_spec _ _ _ rfl rfl rfl hedge hi
  have hselects : ∀ e, selects i e ↔ ∀ f g, f ≠ .edge → g ≠ .edge →
      EdgePlan.pattern source target type edge f = EdgePlan.pattern source target type edge g →
        field f e = field g e := by
    intro e
    rw [hequalities]
    constructor
    · intro ⟨hst, hty, hsy⟩ f g hf hg heq
      cases f <;> cases g <;> first
        | rfl
        | exact absurd rfl hf
        | exact absurd rfl hg
        | exact hst heq
        | exact (hst heq.symm).symm
        | exact hty heq
        | exact (hty heq.symm).symm
        | exact hsy heq
        | exact (hsy heq.symm).symm
    · intro heq
      exact ⟨heq .source .target (by decide) (by decide), heq .target .type (by decide) (by decide),
        heq .source .type (by decide) (by decide)⟩
  have hlast : EdgePlan.pattern source target type edge .edge = edge := rfl
  generalize EdgePlan.pattern source target type edge = pattern at *
  have hends : ∀ e, Scanned field pattern (selects i)
      ((columnsOf i).filter fun f => assigned inputs (pattern f)) b e ↔ EndsAgree pattern inputs b e := by
    intro e
    constructor
    · intro ⟨hselected, hvalues⟩
      refine ⟨fun f hf hassigned => ?_, (hselects e).mp hselected⟩
      obtain ⟨g, hg, hne, heq⟩ := hcover f hf
      rw [heq] at hassigned ⊢
      rw [hvalues g (List.mem_filter.mpr ⟨hg, hassigned⟩)]
      exact (hselects e).mp hselected g f hne hf heq.symm
    · intro ⟨hvalues, hequal⟩
      refine ⟨(hselects e).mpr hequal, fun f hf => ?_⟩
      have hassigned : assigned inputs (pattern f) = true := (List.mem_filter.mp hf).2
      apply hvalues f _ hassigned
      intro hf
      rw [hf, hlast, hedge] at hassigned
      cases hassigned
  have hsmall : ∀ e ∈ (edges : Set Edge), ∀ f, field f e < 2 ^ 64 := fun e he f => (h.small e he f).2
  constructor
  · intro ⟨rows, hrows, hreturns⟩ e he hagree f hf
    obtain ⟨v, hv, hinputs⟩ : ∃ v, edge = .var v ∧ v ∉ inputs := by
      cases hid : edge with
      | object o => simp [hid, assigned] at hedge
      | var v =>
        rw [hid] at hedge
        exact ⟨v, rfl, of_decide_eq_false hedge⟩
    obtain ⟨records, hyields, -, hrecords⟩ := exists_rows_of_columns (b := b) (h.holds i hmem) hfirst hsmall
    rw [hrows.unique hyields] at hreturns
    -- the row of the edge has its id, so it is the row of this edge
    have hrow := List.mem_map_of_mem (f := fun row f => value row (pattern f))
      (List.mem_map_of_mem (f := fun r => assign (scanOf pattern inputs (columnsOf i) []).ranges r b)
        ((hrecords _).mpr ⟨e, he, (hends e).mpr hagree, rfl⟩))
    obtain ⟨e', he', hfields, b', -, hvalue⟩ := (hreturns.2 _).mp hrow
    have hid : value (rowOf field pattern inputs (columnsOf i) b e) (pattern .edge) = e.id := by
      rw [hlast, hv, columnsOf_eq hmem]
      exact rowOf_last (by rw [hlast, hv]) hinputs
    have hee : e' = e := h.eq_of_id he' he ((congrFun hfields .edge).trans hid)
    rw [← hee, ← hvalue f, hf, ← hlast, hvalue .edge]
    rfl
  · intro hequal
    refine returns_of_columns (h.holds i hmem) hfirst hsmall (fun e heq => ?_) (fun e hselected f => ?_)
      fun e he hscanned f hf g hg _ heq => ?_
    · exact (hselects e).mpr fun f g _ _ hfg => heq f g hfg
    · by_cases hf : f = .edge
      · refine ⟨.edge, ?_, by rw [hf], by rw [hf]⟩
        rw [columnsOf_eq hmem]
        simp
      · obtain ⟨g, hg, hne, heq⟩ := hcover f hf
        exact ⟨g, hg, heq, (hselects e).mp hselected f g hf hne heq⟩
    · have hagree := (hends e).mp hscanned
      by_cases hfe : f = .edge
      · rw [hfe] at heq ⊢
        exact (hequal e he hagree g (heq.symm.trans hlast)).symm
      · by_cases hge : g = .edge
        · rw [hge] at heq ⊢
          exact hequal e he hagree f (heq.trans hlast)
        · exact hagree.2 f g hfe hge heq

namespace EdgePlan

def bound (source target type edge : Id) (vars : List Nat) : EdgePlan :=
  ⟨source, target, type, edge, assigned vars source, assigned vars target, assigned vars type,
    assigned vars edge⟩

theorem planned_eq_bound (source target type edge : Id) (inputs : List (List Nat)) :
    planned source target type edge inputs = bound source target type edge inputs.flatten := by
  have hnew : new source target type edge = bound source target type edge [] := by
    cases source <;> cases target <;> cases type <;> cases edge <;> rfl
  rw [planned, hnew, foldl_set_eq, List.nil_append]
  intro vars vars'
  simp only [bound, setInputVars, setInputVar_assigned]

end EdgePlan

/-- For constants and bound variables that have an object, the iterator returns the edges that match
exactly when nothing is missed. -/
theorem edgesAnswered_iff (h : HoldsEdges edges tree table) (inputs : List (List Nat))
    (hknown : ∀ f, assigned inputs.flatten (EdgePlan.pattern source target type edge f) = true →
      value b (EdgePlan.pattern source target type edge f) ≠ 0)
    (hword : value b edge < 2 ^ 64) :
    Answered edges tree table source target type edge inputs b ↔
      NothingMissed edges (EdgePlan.pattern source target type edge) inputs.flatten b := by
  rw [Answered, EdgePlan.planned_eq_bound, NothingMissed]
  generalize inputs.flatten = vars at *
  cases hassigned : assigned vars edge with
  | true =>
    have hiter : (EdgePlan.bound source target type edge vars).getBindingIdIter tree =
        .edgeTableLookup ⟨edge, source, target, type⟩ := if_pos hassigned
    have hyes : assigned vars (EdgePlan.pattern source target type edge .edge) = true := hassigned
    rw [hiter, if_pos hyes]
    exact lookup_answered_iff h hknown hword hassigned
  | false =>
    have hnot : ¬ assigned vars (EdgePlan.pattern source target type edge .edge) = true := by
      rw [EdgePlan.pattern, hassigned]
      decide
    rw [getBindingIdIter_eq _ (EdgePlan.pattern source target type edge) hassigned rfl rfl rfl rfl,
      if_neg hnot]
    exact scan_answered_iff h hassigned rfl

end

def oneEdge : Edge := ⟨1, 2, 3, 1 ||| ObjectId.maskEdge⟩

def oneTree (i : Index) : List Tuple :=
  if i ∈ [.fromToTypeEdge, .toTypeFromEdge, .typeFromToEdge] then [(columnsOf i).map (field · oneEdge)]
  else []

def oneTable : EdgeTable := EdgeTable.empty.appendRecord [1, 2, 3]

theorem holdsEdges_oneEdge : HoldsEdges {oneEdge} oneTree oneTable where
  holds i hi := by
    simp only [edgeIndexes, List.mem_cons, List.not_mem_nil, or_false] at hi
    rcases hi with rfl | rfl | rfl | rfl | rfl | rfl | rfl | rfl | rfl | rfl <;>
      exact ⟨by decide, fun r => by simp [oneTree, selects, oneEdge, eq_comm]⟩
  row e he := by
    rw [Finset.mem_singleton.mp he]
    exact ⟨1, by decide, by decide, rfl, rfl⟩
  edge k hpos _ hrow := by
    have hk : k = 1 := by
      have hlength : k - 1 < 1 := by
        rw [oneTable, EdgeTable.rows_appendRecord] at hrow
        simpa using hrow
      omega
    exact ⟨oneEdge, Finset.mem_singleton_self _, by rw [hk]; rfl⟩
  small e he f := by
    rw [Finset.mem_singleton.mp he]
    cases f <;> decide

theorem edgesAnswered_iff_oneEdge :
    Answered {oneEdge} oneTree oneTable (.var 0) (.var 1) (.object 3) (.var 2) [[0]] (fun _ => 1) ↔
      NothingMissed {oneEdge} (EdgePlan.pattern (.var 0) (.var 1) (.object 3) (.var 2)) [0]
        (fun _ => 1) :=
  edgesAnswered_iff holdsEdges_oneEdge [[0]]
    (fun f hf => by cases f <;> simp_all [EdgePlan.pattern, assigned, value]) (by decide)

/-- An edge is returned for a pattern with one variable for the edge and its source, though it does not
start at itself. -/
theorem not_edgesAnswered :
    ¬ ∀ (edges : Finset Edge) (tree : Index → List Tuple) (table : EdgeTable)
      (source target type edge : Id) (inputs : List (List Nat)) (b : Binding),
      HoldsEdges edges tree table →
      (∀ f, assigned inputs.flatten (EdgePlan.pattern source target type edge f) = true →
        value b (EdgePlan.pattern source target type edge f) ≠ 0) → value b edge < 2 ^ 64 →
      Answered edges tree table source target type edge inputs b := by
  intro h
  have hanswered := h {oneEdge} oneTree oneTable (.var 0) (.var 1) (.object 3) (.var 0) [] (fun _ => 0)
    holdsEdges_oneEdge (fun f hf => by cases f <;> first | exact absurd hf (by decide) | decide)
    (by decide)
  have hmissed : ∀ e ∈ ({oneEdge} : Finset Edge),
      EndsAgree (EdgePlan.pattern (.var 0) (.var 1) (.object 3) (.var 0)) [] (fun _ => 0) e →
        ∀ f, EdgePlan.pattern (.var 0) (.var 1) (.object 3) (.var 0) f = .var 0 → field f e = e.id :=
    (scan_answered_iff holdsEdges_oneEdge rfl rfl).mp hanswered
  have hagree : EndsAgree (EdgePlan.pattern (.var 0) (.var 1) (.object 3) (.var 0)) [] (fun _ => 0)
      oneEdge := by
    refine ⟨fun f hf hassigned => ?_, fun f g hf hg heq => ?_⟩
    · cases f <;> first | rfl | exact absurd rfl hf | exact absurd hassigned (by decide)
    · cases f <;> cases g <;>
        first | rfl | exact absurd rfl hf | exact absurd rfl hg | exact absurd heq (by decide)
  exact absurd (hmissed oneEdge (Finset.mem_singleton_self _) hagree .source rfl) (by decide)

end EdgePlans
end MillenniumDB
