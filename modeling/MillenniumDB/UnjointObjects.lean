import MillenniumDB.PagedInserts
import MillenniumDB.Lib.Iterators

/-!
# The objects of a graph

`UnjointObjectPlan` enumerates the tree of nodes, then the anonymous nodes up to their count, then
the edges up to their count; `term_exists` asks the same three.  The tree has all nodes, also the
anonymous ones and edges that are ends of edges, and the counts are the largest number at import
and a number of increments afterwards.
-/

namespace MillenniumDB

open Import (Imported OnDiskImport State Lexeme Token readTokens startImport column nodeIds
  createAutomata getTransition)

structure ObjectEnum where
  mask : Nat
  maxCount : Nat
  currentNode : Nat

def ObjectEnum.next (it : ObjectEnum) : Option Nat × ObjectEnum :=
  if it.currentNode < it.maxCount then
    (some (it.mask ||| (it.currentNode + 1)), { it with currentNode := it.currentNode + 1 })
  else (none, it)

inductive ObjectIter
  | scan (records : List Tuple)
  | enum (it : ObjectEnum)

def ObjectIter.next : ObjectIter → Option Nat × ObjectIter
  | scan [] => (none, scan [])
  | scan (record :: records) => (some (column 0 record), scan records)
  | enum it => (it.next.1, enum it.next.2)

/-- `Union`, with the iterators from `current_iter` on. -/
def unionNext : List ObjectIter → Option Nat × List ObjectIter
  | [] => (none, [])
  | it :: iters =>
    match it.next with
    | (some object, it) => (some object, it :: iters)
    | (none, _) => unionNext iters

def getBindingIdIter (db : Database) : List ObjectIter :=
  [.scan (db.index .nodes), .enum ⟨ObjectId.maskAnon, db.catalog.anonymousNodesCount, 0⟩,
    .enum ⟨ObjectId.maskEdge, db.catalog.connectionsCount, 0⟩]

local instance tupleLawfulBEq : LawfulBEq Tuple := inferInstance

def termExists (db : Database) (term : Nat) : Bool :=
  if term = 2 ^ 64 - 1 then false
  else if term &&& ObjectId.typeMask = ObjectId.maskAnon then
    term &&& ObjectId.valueMask ≤ db.catalog.anonymousNodesCount
  else if term &&& ObjectId.typeMask = ObjectId.maskEdge then
    term &&& ObjectId.valueMask ≤ db.catalog.connectionsCount
  else [term] ∈ db.index .nodes

def ObjectIter.rest : ObjectIter → List Nat
  | scan records => records.map (column 0)
  | enum it => (List.range' (it.currentNode + 1) (it.maxCount - it.currentNode)).map (it.mask ||| ·)

theorem ObjectIter.next_eq (it : ObjectIter) :
    it.next.1 = it.rest.head? ∧ it.next.2.rest = it.rest.tail := by
  match it with
  | scan [] => exact ⟨rfl, rfl⟩
  | scan (record :: records) => exact ⟨rfl, rfl⟩
  | enum it =>
    rw [next, rest, ObjectEnum.next]
    split
    · next hlt =>
      have hsucc : it.maxCount - it.currentNode = it.maxCount - (it.currentNode + 1) + 1 := by omega
      rw [hsucc, List.range'_succ]
      exact ⟨rfl, rfl⟩
    · next hge =>
      have hzero : it.maxCount - it.currentNode = 0 := by omega
      rw [hzero]
      refine ⟨rfl, ?_⟩
      rw [rest, hzero]
      rfl

theorem yields_union (iters : List ObjectIter) :
    Yields unionNext iters (iters.flatMap ObjectIter.rest) := by
  have hnext : ∀ iters : List ObjectIter,
      (unionNext iters).1 = (iters.flatMap ObjectIter.rest).head? ∧
        (unionNext iters).2.flatMap ObjectIter.rest = (iters.flatMap ObjectIter.rest).tail := by
    intro iters
    induction iters with
    | nil => exact ⟨rfl, rfl⟩
    | cons it iters ih =>
      obtain ⟨hhead, htail⟩ := it.next_eq
      rw [unionNext, List.flatMap_cons]
      cases hrest : it.rest with
      | nil =>
        rw [hrest] at hhead
        have hnone : it.next = (none, it.next.2) := Prod.ext hhead rfl
        rw [hnone]
        exact ih
      | cons object objects =>
        rw [hrest] at hhead htail
        have hsome : it.next = (some object, it.next.2) := Prod.ext hhead rfl
        rw [hsome]
        exact ⟨rfl, by rw [List.flatMap_cons, htail]; rfl⟩
  refine Yields.of_relation (fun iters out => iters.flatMap ObjectIter.rest = out) ?_ ?_ rfl
  · intro iters hnil
    obtain ⟨hhead, htail⟩ := hnext iters
    rw [hnil] at hhead htail
    exact ⟨hhead, htail⟩
  · intro iters object out hcons
    obtain ⟨hhead, htail⟩ := hnext iters
    rw [hcons] at hhead htail
    exact ⟨hhead, htail⟩

def unjointObjects (db : Database) : List Nat := (getBindingIdIter db).flatMap ObjectIter.rest

theorem unjointObjects_eq (db : Database) : unjointObjects db =
    (db.index .nodes).map (column 0) ++
      ((List.range' 1 db.catalog.anonymousNodesCount).map (ObjectId.maskAnon ||| ·) ++
        (List.range' 1 db.catalog.connectionsCount).map (ObjectId.maskEdge ||| ·)) := by
  simp [unjointObjects, getBindingIdIter, ObjectIter.rest]

/-- The nodes that are declared, and the edges with their ends and types. -/
def IsObject (declared : List Nat) (db : Database) (object : Nat) : Prop :=
  object ∈ declared ∨ ∃ source target type edgeId,
    [source, target, type, edgeId] ∈ db.index .fromToTypeEdge ∧
      object ∈ [source, target, type, edgeId]

/-- The ids that a query can name: anonymous nodes and edges are numbered from 1. -/
def IsTerm (term : Nat) : Prop :=
  term < 2 ^ 64 - 1 ∧ (term &&& ObjectId.typeMask = ObjectId.maskAnon ∨
    term &&& ObjectId.typeMask = ObjectId.maskEdge → 0 < term &&& ObjectId.valueMask)

/-- The plan returns every object once and nothing else, and `term_exists` says which terms are
objects. -/
structure ObjectsRight (declared : List Nat) (db : Database) : Prop where
  yields : ∃ out : List Nat, Yields unionNext (getBindingIdIter db) out ∧ out.Nodup ∧
    ∀ object, object ∈ out ↔ IsObject declared db object
  exists_iff : ∀ term, IsTerm term → (termExists db term ↔ IsObject declared db term)

def IsNamed (nodeId : Nat) : Prop :=
  nodeId &&& ObjectId.typeMask ≠ ObjectId.maskAnon ∧ nodeId &&& ObjectId.typeMask ≠ ObjectId.maskEdge

instance (nodeId : Nat) : Decidable (IsNamed nodeId) := inferInstanceAs (Decidable (_ ∧ _))

structure NodesNamed (declared : List Nat) (db : Database) : Prop where
  records : ∀ record ∈ db.index .nodes, ∃ nodeId, record = [nodeId] ∧ IsNamed nodeId
  nodup : (db.index .nodes).Nodup
  mem_iff : ∀ nodeId, [nodeId] ∈ db.index .nodes ↔ nodeId ∈ declared ∨
    ∃ source target type edgeId, [source, target, type, edgeId] ∈ db.index .fromToTypeEdge ∧
      nodeId ∈ [source, target, type]
  anonymous : db.catalog.anonymousNodesCount = 0
  connections : db.catalog.connectionsCount < 2 ^ 56
  rows : ∀ record ∈ db.edgeTable.rows, record.length = 3

section

variable {db : Database} {declared : List Nat}

theorem typeMask_of_edge {k : Nat} (hk : k < 2 ^ 56) :
    (ObjectId.maskEdge ||| k) &&& ObjectId.typeMask = ObjectId.maskEdge := by
  rw [Nat.and_comm, Nat.or_comm]
  exact typeMask_edge hk

theorem valueMask_of_edge {k : Nat} (hk : k < 2 ^ 56) :
    (ObjectId.maskEdge ||| k) &&& ObjectId.valueMask = k := by
  rw [Nat.and_comm, Nat.or_comm]
  exact valueMask_edge hk

theorem typeMask_or_valueMask {term : Nat} (h : term < 2 ^ 64) :
    (term &&& ObjectId.typeMask) ||| (term &&& ObjectId.valueMask) = term := by
  rw [← Nat.and_or_distrib_left]
  have hmask : ObjectId.typeMask ||| ObjectId.valueMask = 2 ^ 64 - 1 := by decide
  rw [hmask, Nat.and_two_pow_sub_one_eq_mod, Nat.mod_eq_of_lt h]

/-- The ids of the edges are the numbers up to `connections_count`. -/
theorem EdgesInTable.edge_iff (h : EdgesInTable db)
    (hrows : ∀ record ∈ db.edgeTable.rows, record.length = 3) (object : Nat) :
    (∃ source target type, [source, target, type, object] ∈ db.index .fromToTypeEdge) ↔
      ∃ k, 0 < k ∧ k ≤ db.catalog.connectionsCount ∧ ObjectId.maskEdge ||| k = object := by
  constructor
  · intro ⟨source, target, type, hedge⟩
    obtain ⟨hid, hpos, hle, -⟩ := h.row source target type object hedge
    refine ⟨_, hpos, ?_, (Nat.or_comm ..).trans hid.symm⟩
    rw [h.rows]
    exact hle
  · intro ⟨k, hpos, hle, hobject⟩
    rw [h.rows] at hle
    have hrow := List.getElem?_eq_getElem (l := db.edgeTable.rows) (i := k - 1) (by omega)
    have hedge := h.edge (k - 1) _ hrow
    obtain ⟨source, target, type, hrecord⟩ :=
      List.length_eq_three.mp (hrows _ (List.mem_of_getElem? hrow))
    refine ⟨source, target, type, ?_⟩
    rw [hrecord, Nat.sub_add_cancel hpos, Nat.or_comm, hobject] at hedge
    exact hedge

theorem mem_edges_iff {C object : Nat} :
    object ∈ (List.range' 1 C).map (ObjectId.maskEdge ||| ·) ↔
      ∃ k, 0 < k ∧ k ≤ C ∧ ObjectId.maskEdge ||| k = object := by
  rw [List.mem_map]
  refine exists_congr fun k => ?_
  rw [List.mem_range'_1]
  constructor
  · intro ⟨hk, heq⟩
    exact ⟨by omega, by omega, heq⟩
  · intro ⟨hpos, hle, heq⟩
    exact ⟨by omega, heq⟩

theorem NodesNamed.objectsRight (h : NodesNamed declared db) (hedges : EdgesInTable db) :
    ObjectsRight declared db := by
  have hnode : ∀ object, object ∈ (db.index .nodes).map (column 0) ↔ [object] ∈ db.index .nodes := by
    intro object
    rw [List.mem_map]
    constructor
    · intro ⟨record, hrecord, heq⟩
      obtain ⟨nodeId, rfl, -⟩ := h.records record hrecord
      exact heq ▸ hrecord
    · exact fun hmem => ⟨[object], hmem, rfl⟩
  have hobject : ∀ object, IsObject declared db object ↔ [object] ∈ db.index .nodes ∨
      ∃ k, 0 < k ∧ k ≤ db.catalog.connectionsCount ∧ ObjectId.maskEdge ||| k = object := by
    intro object
    rw [h.mem_iff, ← hedges.edge_iff h.rows, IsObject]
    constructor
    · intro hobject
      rcases hobject with hobject | ⟨source, target, type, edgeId, hedge, hmem⟩
      · exact .inl (.inl hobject)
      · rcases List.mem_append.mp (show object ∈ [source, target, type] ++ [edgeId] from hmem) with
          hmem | hmem
        · exact .inl (.inr ⟨source, target, type, edgeId, hedge, hmem⟩)
        · rw [List.mem_singleton] at hmem
          exact .inr ⟨source, target, type, hmem ▸ hedge⟩
    · intro hobject
      rcases hobject with (hobject | ⟨source, target, type, edgeId, hedge, hmem⟩) |
        ⟨source, target, type, hedge⟩
      · exact .inl hobject
      · exact .inr ⟨source, target, type, edgeId, hedge, List.mem_append_left [edgeId] hmem⟩
      · exact .inr ⟨source, target, type, object, hedge, by simp⟩
  constructor
  · refine ⟨unjointObjects db, yields_union _, ?_, fun object => ?_⟩
    · rw [unjointObjects_eq, h.anonymous]
      refine List.nodup_append.mpr ⟨?_, ?_, ?_⟩
      · refine (List.nodup_map_iff_inj_on h.nodup).mpr ?_
        intro record hrecord record' hrecord' heq
        obtain ⟨nodeId, rfl, -⟩ := h.records record hrecord
        obtain ⟨nodeId', rfl, -⟩ := h.records record' hrecord'
        exact congrArg (fun n => [n]) heq
      · refine (List.nodup_map_iff_inj_on List.nodup_range').mpr ?_
        intro j hj k hk heq
        have := h.connections
        rw [List.mem_range'_1] at hj hk
        rw [← valueMask_of_edge (k := j) (by omega), heq, valueMask_of_edge (by omega)]
      · intro object hleft object' hright heq
        obtain ⟨record, hrecord, rfl⟩ := List.mem_map.mp hleft
        obtain ⟨nodeId, rfl, hnamed⟩ := h.records record hrecord
        obtain ⟨k, -, hk, rfl⟩ := mem_edges_iff.mp hright
        have := h.connections
        have heq : nodeId = ObjectId.maskEdge ||| k := heq
        exact hnamed.2 (heq ▸ typeMask_of_edge (by omega))
    · rw [unjointObjects_eq, h.anonymous, List.mem_append, hnode, hobject]
      exact or_congr_right mem_edges_iff
  · intro term ⟨hlt, hpos⟩
    rw [hobject, termExists, if_neg (by omega)]
    by_cases hanon : term &&& ObjectId.typeMask = ObjectId.maskAnon
    · rw [if_pos hanon, h.anonymous]
      have := hpos (.inl hanon)
      have hnot : ¬ ([term] ∈ db.index .nodes ∨ ∃ k, 0 < k ∧ k ≤ db.catalog.connectionsCount ∧
          ObjectId.maskEdge ||| k = term) := by
        intro hor
        rcases hor with hmem | ⟨k, -, hk, rfl⟩
        · obtain ⟨nodeId, heq, hnamed⟩ := h.records _ hmem
          cases heq
          exact hnamed.1 hanon
        · have := h.connections
          rw [typeMask_of_edge (by omega)] at hanon
          exact absurd hanon (by decide)
      simp only [hnot, iff_false, decide_eq_true_eq]
      omega
    · rw [if_neg hanon]
      by_cases hedge : term &&& ObjectId.typeMask = ObjectId.maskEdge
      · rw [if_pos hedge, decide_eq_true_eq]
        have hterm := typeMask_or_valueMask (show term < 2 ^ 64 by omega)
        rw [hedge] at hterm
        constructor
        · intro hle
          exact .inr ⟨_, hpos (.inr hedge), hle, hterm⟩
        · intro hor
          rcases hor with hmem | ⟨k, -, hk, rfl⟩
          · obtain ⟨nodeId, heq, hnamed⟩ := h.records _ hmem
            cases heq
            exact absurd hedge hnamed.2
          · have := h.connections
            rwa [valueMask_of_edge (by omega)]
      · rw [if_neg hedge, decide_eq_true_eq]
        refine (or_iff_left ?_).symm
        intro ⟨k, _, hk, heq⟩
        have := h.connections
        exact hedge (heq ▸ typeMask_of_edge (by omega))

end

namespace Import

section

variable {atof : Bytes → Nat} {current next : State × OnDiskImport} {lexeme : Lexeme}
  {lexemes : List Lexeme}

theorem anon_of_transition : ∀ s : State, ∀ t : Token, t ≠ .anon →
    ∀ slot ∈ getTransition createAutomata s t,
      slot.func ≠ .saveFirstIdAnon ∧ slot.func ≠ .saveSecondIdAnon := by
  have hall : ∀ s : State, ∀ t : Token, t ≠ .anon →
      (slotAt s t).func ≠ .saveFirstIdAnon ∧ (slotAt s t).func ≠ .saveSecondIdAnon := by
    decide +kernel
  intro s t ht slot hslot
  rw [getTransition_createAutomata] at hslot
  rw [← Option.some.inj hslot]
  exact hall s t ht

def KeepsCount (resolve : Resolver) : Prop := ∀ str ids id ids', resolve str ids = .ok (id, ids') →
  ids'.anonymousNodesCount = ids.anonymousNodesCount

theorem keepsCount_string (maskInlined maskExtern : Nat) :
    KeepsCount (stringResolver maskInlined maskExtern) := by
  intro str ids id ids' h
  cases h
  rfl

theorem keepsCount_stringLiteral : KeepsCount stringLiteralId := fun _ _ _ _ h =>
  keepsCount_string _ _ _ _ _ _ h

theorem keepsCount_int : KeepsCount intId := by
  intro str ids id ids' h
  unfold intId at h
  cases hid : Inliner.inlineInt (atoll str) with
  | error e =>
    rw [hid] at h
    cases h
  | ok id =>
    rw [hid] at h
    cases h
    rfl

theorem keepsCount_float : KeepsCount (floatId atof) := by
  intro str ids id ids' h
  cases h
  rfl

theorem keepsCount_bool : KeepsCount trueId ∧ KeepsCount falseId := by
  constructor
  · intro str ids id ids' h
    cases h
    rfl
  · intro str ids id ids' h
    cases h
    rfl

theorem anonymous_func {action : Action} {str : Bytes} {s s' : OnDiskImport}
    (h : action.func atof str s = .ok s') (hfirst : action ≠ .saveFirstIdAnon)
    (hsecond : action ≠ .saveSecondIdAnon) :
    s'.ids.anonymousNodesCount = s.ids.anonymousNodesCount := by
  have hsaveFirst : ∀ {resolve : Resolver}, KeepsCount resolve →
      OnDiskImport.saveFirstId resolve str s = .ok s' →
      s'.ids.anonymousNodesCount = s.ids.anonymousNodesCount := by
    intro resolve hkeeps h
    obtain ⟨id, ids, hresolve, rfl⟩ := OnDiskImport.saveFirstId_eq_ok.mp h
    exact hkeeps _ _ _ _ hresolve
  have hsaveSecond : ∀ {resolve : Resolver}, KeepsCount resolve →
      OnDiskImport.saveSecondId resolve str s = .ok s' →
      s'.ids.anonymousNodesCount = s.ids.anonymousNodesCount := by
    intro resolve hkeeps h
    obtain ⟨id, ids, hresolve, rfl⟩ := OnDiskImport.saveSecondId_eq_ok.mp h
    exact hkeeps _ _ _ _ hresolve
  have haddProp : ∀ {object : OnDiskImport → Nat} {resolve : Resolver}, KeepsCount resolve →
      OnDiskImport.addProp object resolve str s = .ok s' →
      s'.ids.anonymousNodesCount = s.ids.anonymousNodesCount := by
    intro object resolve hkeeps h
    obtain ⟨id, ids, hresolve, rfl⟩ := OnDiskImport.addProp_eq_ok.mp h
    exact hkeeps _ _ _ _ hresolve
  cases action with
  | saveFirstIdAnon => exact absurd rfl hfirst
  | saveSecondIdAnon => exact absurd rfl hsecond
  | saveFirstIdIdentifier => exact hsaveFirst (keepsCount_string _ _) h
  | saveFirstIdString => exact hsaveFirst keepsCount_stringLiteral h
  | saveFirstIdInt => exact hsaveFirst keepsCount_int h
  | saveFirstIdFloat => exact hsaveFirst keepsCount_float h
  | saveFirstIdTrue => exact hsaveFirst keepsCount_bool.1 h
  | saveFirstIdFalse => exact hsaveFirst keepsCount_bool.2 h
  | saveSecondIdIdentifier => exact hsaveSecond (keepsCount_string _ _) h
  | saveSecondIdString => exact hsaveSecond keepsCount_stringLiteral h
  | saveSecondIdInt => exact hsaveSecond keepsCount_int h
  | saveSecondIdFloat => exact hsaveSecond keepsCount_float h
  | saveSecondIdTrue => exact hsaveSecond keepsCount_bool.1 h
  | saveSecondIdFalse => exact hsaveSecond keepsCount_bool.2 h
  | addNodePropString | addEdgePropString => exact haddProp keepsCount_stringLiteral h
  | addNodePropInt | addEdgePropInt => exact haddProp keepsCount_int h
  | addNodePropFloat | addEdgePropFloat => exact haddProp keepsCount_float h
  | addNodePropTrue | addEdgePropTrue => exact haddProp keepsCount_bool.1 h
  | addNodePropFalse | addEdgePropFalse => exact haddProp keepsCount_bool.2 h
  | saveFirstIdImplicit =>
    have hcases : OnDiskImport.saveFirstIdImplicit str s = .ok s' := h
    unfold OnDiskImport.saveFirstIdImplicit at hcases
    split_ifs at hcases <;> cases hcases <;> rfl
  | _ =>
    cases h
    rfl

theorem anonymous_readToken (h : readToken atof current lexeme = .ok next)
    (hanon : lexeme.token ≠ .anon) :
    next.2.ids.anonymousNodesCount = current.2.ids.anonymousNodesCount := by
  obtain ⟨slot, hslot, hfunc, -⟩ := readToken_eq_ok.mp h
  obtain ⟨hfirst, hsecond⟩ := anon_of_transition _ _ hanon slot hslot
  exact anonymous_func hfunc hfirst hsecond

theorem anonymous_readTokens (h : readTokens atof current lexemes = .ok next)
    (hanon : ∀ lexeme ∈ lexemes, lexeme.token ≠ .anon) :
    next.2.ids.anonymousNodesCount = current.2.ids.anonymousNodesCount := by
  induction lexemes generalizing current with
  | nil => rw [readTokens_nil.mp h]
  | cons lexeme lexemes ih =>
    obtain ⟨hlexeme, hlexemes⟩ := List.forall_mem_cons.mp hanon
    obtain ⟨mid, hmid, h⟩ := readTokens_cons.mp h
    exact (ih h hlexemes).trans (anonymous_readToken hmid hlexeme)

theorem Writes.nodesNamed {s : OnDiskImport} {imported : Imported} (h : Writes s imported)
    (hanonymous : imported.catalog.anonymousNodesCount = 0) (hnumbered : Numbered s)
    (hfew : s.edgeCount + 1 < 2 ^ 56) (hnodup : s.collected.declaredNodes.Nodup)
    (hnamed : ∀ nodeId ∈ nodeIds s.collected, IsNamed nodeId) :
    NodesNamed s.collected.declaredNodes imported.database := by
  have hindex := h.index_perm .nodes
  have hrecords : recordsOf s.collected .nodes = (nodeIds s.collected).map ([·]) := rfl
  rw [hrecords] at hindex
  have hcount : imported.database.catalog.connectionsCount = s.collected.edges.length :=
    h.connectionsCount
  constructor
  · intro record hrecord
    obtain ⟨nodeId, hmem, rfl⟩ := List.mem_map.mp (hindex.mem_iff.mp hrecord)
    exact ⟨nodeId, rfl, hnamed nodeId hmem⟩
  · rw [hindex.nodup_iff]
    exact (nodup_nodeIds.mpr hnodup).map fun _ _ heq => List.singleton_inj.mp heq
  · intro nodeId
    rw [hindex.mem_iff, List.mem_map]
    have hmem : (∃ a ∈ nodeIds s.collected, [a] = [nodeId]) ↔ nodeId ∈ nodeIds s.collected :=
      ⟨fun ⟨a, ha, heq⟩ => List.singleton_inj.mp heq ▸ ha, fun ha => ⟨nodeId, ha, rfl⟩⟩
    rw [hmem, nodeIds, List.mem_append, mem_undeclared, List.mem_flatMap]
    constructor
    · intro hor
      rcases hor with hdeclared | ⟨⟨⟨source, target, type, edgeId⟩, hedge, hends⟩, -⟩
      · exact .inl hdeclared
      · exact .inr ⟨source, target, type, edgeId, h.mem_fromToTypeEdge.mpr hedge, hends⟩
    · intro hor
      by_cases hdeclared : nodeId ∈ s.collected.declaredNodes
      · exact .inl hdeclared
      · obtain ⟨source, target, type, edgeId, hedge, hends⟩ := hor.resolve_left hdeclared
        exact .inr ⟨⟨(source, target, type, edgeId), h.mem_fromToTypeEdge.mp hedge, hends⟩,
          hdeclared⟩
  · exact hanonymous
  · rw [hcount, ← hnumbered.edgeCount]
    omega
  · intro record hrecord
    have hrows : imported.database.edgeTable.rows = s.collected.edges.map endsOf := h.edgeTable
    rw [hrows] at hrecord
    obtain ⟨edge, -, rfl⟩ := List.mem_map.mp hrecord
    rfl

end

end Import

section

variable {strId : Bytes → UInt64} {db : Database} {declared : List Nat}

def Item.nodes (strId : Bytes → UInt64) (item : Item) : List Nat :=
  match item.fact strId with
  | .ok (.label _ nodeId) => [nodeId]
  | .ok (.property objId _ _) => [objId]
  | _ => []

def nodesOfItems (strId : Bytes → UInt64) : List Item → Database → List Nat
  | [], _ => []
  | item :: items, db => item.nodes strId ++
    match item.insert strId db with
    | .ok _ db' => nodesOfItems strId items db'
    | .error _ _ => []

def nodesOfQueries (strId : Bytes → UInt64) : List OpInsert → Database → List Nat
  | [], _ => []
  | opInsert :: queries, db => nodesOfItems strId opInsert.items db ++
    nodesOfQueries strId queries (afterQuery strId db opInsert)

def InsertsNamed (strId : Bytes → UInt64) (item : Item) (_ : Database) : Prop :=
  ∀ fact, item.fact strId = .ok fact →
    match fact with
    | .label _ nodeId => IsNamed nodeId
    | .property objId _ _ => IsNamed objId
    | .edge _ _ _ => False

theorem InsertsNamed.noEdge {item : Item} (h : InsertsNamed strId item db) :
    InsertsNoEdge strId item db :=
  fun source target type hfact => h (.edge source target type) hfact

theorem NodesNamed.addNode (h : NodesNamed declared db) {nodeId : Nat} (hnamed : IsNamed nodeId) :
    NodesNamed (declared ++ [nodeId]) (db.addNode nodeId) := by
  have hfrom : (db.addNode nodeId).index .fromToTypeEdge = db.index .fromToTypeEdge :=
    Write.index_addNode (by simp)
  have hperm : ((db.addNode nodeId).index .nodes).Perm
      (if [nodeId] ∈ db.index .nodes then db.index .nodes else [nodeId] :: db.index .nodes) := by
    rw [Write.index_addNode_eq]
    split_ifs
    · exact .refl _
    · rw [Function.update_self]
      exact List.perm_orderedInsert _ _ _
  have hmem : ∀ record, record ∈ (db.addNode nodeId).index .nodes ↔
      record = [nodeId] ∨ record ∈ db.index .nodes := by
    intro record
    rw [hperm.mem_iff]
    split_ifs with hnode
    · exact (or_iff_right_of_imp fun heq => heq ▸ hnode).symm
    · exact List.mem_cons
  constructor
  · intro record hrecord
    rcases (hmem record).mp hrecord with rfl | hrecord
    · exact ⟨nodeId, rfl, hnamed⟩
    · exact h.records record hrecord
  · rw [hperm.nodup_iff]
    split_ifs with hnode
    · exact h.nodup
    · exact List.nodup_cons.mpr ⟨hnode, h.nodup⟩
  · intro other
    rw [hmem, h.mem_iff, hfrom, List.mem_append, List.mem_singleton, List.singleton_inj]
    exact or_assoc.symm.trans (or_congr_left or_comm)
  · rw [Database.addNode]
    split_ifs with hnode hanon
    · exact h.anonymous
    · exact absurd hanon hnamed.1
    · exact h.anonymous
  · obtain ⟨identifiable, anonymous, hcatalog⟩ := @Write.catalog_addNode db nodeId
    rw [hcatalog]
    exact h.connections
  · rw [Write.edgeTable_addNode]
    exact h.rows

/-- What `NodesNamed` reads of a database. -/
def nodeState (db : Database) : List Tuple × Nat × EdgeState :=
  (db.index .nodes, db.catalog.anonymousNodesCount, edgeState db)

theorem NodesNamed.congr {db' : Database} (h : NodesNamed declared db)
    (heq : nodeState db' = nodeState db) : NodesNamed declared db' := by
  simp only [nodeState, edgeState, Prod.mk.injEq, EdgeState.mk.injEq] at heq
  obtain ⟨hnodes, hanonymous, hfrom, -, -, -, htable, hcount⟩ := heq
  constructor
  · rw [hnodes]
    exact h.records
  · rw [hnodes]
    exact h.nodup
  · rw [hnodes, hfrom]
    exact h.mem_iff
  · rw [hanonymous]
    exact h.anonymous
  · rw [hcount]
    exact h.connections
  · rw [htable]
    exact h.rows

theorem nodeState_applyWrites {ws : List Write}
    (h : ∀ w ∈ ws, ∀ db, nodeState (w.apply db) = nodeState db) (db : Database) :
    nodeState (applyWrites ws db) = nodeState db := by
  induction ws generalizing db with
  | nil => rfl
  | cons w ws ih =>
    obtain ⟨hw, hws⟩ := List.forall_mem_cons.mp h
    exact (ih hws (w.apply db)).trans (hw db)

theorem nodeState_tail {w : Write} (db : Database) (h : (∃ labelId nodeId,
    w ∈ (labelWrites labelId nodeId).tail) ∨ ∃ objId keyId valId,
      w ∈ (propertyWrites objId keyId valId).tail) : nodeState (w.apply db) = nodeState db := by
  rcases h with ⟨labelId, nodeId, hw⟩ | ⟨objId, keyId, valId, hw⟩
  · simp only [labelWrites, List.tail_cons, List.mem_cons, List.not_mem_nil, or_false] at hw
    rcases hw with rfl | rfl | rfl | rfl | rfl <;> rfl
  · simp only [propertyWrites, List.tail_cons, List.mem_cons, List.not_mem_nil, or_false] at hw
    rcases hw with rfl | rfl | rfl | rfl | rfl | rfl
    · rfl
    · rfl
    · rfl
    · rfl
    · rw [Write.apply]
      split_ifs <;> rfl
    · rfl

/-- The first statements of a label or property: the node, and nothing more about nodes. -/
theorem NodesNamed.applyWrites (h : NodesNamed declared db) {nodeId : Nat} {ws ws₁ ws₂ : List Write}
    (hnamed : IsNamed nodeId) (hws : .node nodeId :: ws = ws₁ ++ ws₂)
    (htail : ∀ w ∈ ws, ∀ db, nodeState (w.apply db) = nodeState db)
    (hends : ws₂ = [] ∨ ∃ i record rest, ws₂ = .row i record :: rest) :
    NodesNamed (declared ++ [nodeId]) (MillenniumDB.applyWrites ws₁ db) := by
  cases ws₁ with
  | nil =>
    rcases hends with rfl | ⟨i, record, rest, rfl⟩ <;> cases hws
  | cons w ws₁ =>
    obtain ⟨rfl, hrest⟩ := List.cons.inj hws
    show NodesNamed _ (MillenniumDB.applyWrites ws₁ (db.addNode nodeId))
    refine (h.addNode hnamed).congr (nodeState_applyWrites (fun w hw => htail w ?_) _)
    rw [hrest]
    exact List.mem_append_left _ hw

theorem NodesNamed.insert (h : NodesNamed declared db) {item : Item}
    (hitem : InsertsNamed strId item db) :
    NodesNamed (declared ++ item.nodes strId) (stateAfter (item.insert strId) db) := by
  rcases @Item.stateAfter_insert strId item db with
    ⟨e, herror, hstate⟩ | ⟨fact, ws₁, ws₂, hfact, hws, -, hstate, hends⟩
  · rw [hstate, Item.nodes, herror, List.append_nil]
    exact h
  · have hnamed := hitem fact hfact
    have hends' : ws₂ = [] ∨ ∃ i record rest, ws₂ = .row i record :: rest :=
      hends.imp_right fun ⟨i, record, rest, heq, _⟩ => ⟨i, record, rest, heq⟩
    rw [hstate, Item.nodes, hfact]
    cases fact with
    | label labelId nodeId =>
      exact h.applyWrites hnamed hws (fun w hw db => nodeState_tail db (.inl ⟨_, _, hw⟩)) hends'
    | property objId keyId valId =>
      exact h.applyWrites hnamed hws (fun w hw db => nodeState_tail db (.inr ⟨_, _, _, hw⟩)) hends'
    | edge source target type => exact hnamed.elim

theorem NodesNamed.items (items : List Item) : ∀ {db : Database} {declared : List Nat},
    NodesNamed declared db →
    (∀ done item rest db', items = done ++ item :: rest →
      forM done (Item.insert strId) db = .ok () db' → InsertsNamed strId item db') →
    NodesNamed (declared ++ nodesOfItems strId items db)
      (stateAfter (forM items (Item.insert strId)) db) := by
  induction items with
  | nil =>
    intro db declared h _
    rw [nodesOfItems, List.append_nil]
    exact h
  | cons item items ih =>
    intro db declared h hC
    have hitem := h.insert (hC [] item items db rfl rfl)
    rw [stateAfter_forM_cons, nodesOfItems, ← List.append_assoc]
    rw [stateAfter] at hitem
    cases hinsert : item.insert strId db with
    | error e db' =>
      rw [hinsert] at hitem
      rw [List.append_nil]
      exact hitem
    | ok u db' =>
      rw [hinsert] at hitem
      apply ih hitem
      intro done item' rest db'' hitems hdone
      exact hC (item :: done) item' rest db'' (congrArg _ hitems)
        ((forM_cons_ok hinsert).trans hdone)

theorem NodesNamed.queries (queries : List OpInsert) : ∀ {db : Database} {declared : List Nat},
    NodesNamed declared db → Meets strId (InsertsNamed strId) db queries →
    NodesNamed (declared ++ nodesOfQueries strId queries db) (afterQueries strId db queries) := by
  induction queries with
  | nil =>
    intro db declared h _
    rw [nodesOfQueries, List.append_nil]
    exact h
  | cons opInsert queries ih =>
    intro db declared h hC
    rw [nodesOfQueries, ← List.append_assoc]
    refine ih ?_ hC.tail
    rw [afterQuery, execInserts_eq]
    apply h.items opInsert.items
    intro done item rest db' hitems hdone
    exact hC.head hitems hdone

end

def anonLine : List Lexeme := [⟨.anon, [95, 97, 49]⟩, ⟨.endline, [10]⟩]

end MillenniumDB
